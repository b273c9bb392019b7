import LiveChain.Text.Quoted

/-!
# UTF-8

Bytes are decoded in two ways: strictly, where the first byte that breaks the encoding is an error
with a message, and with all broken bytes left out.
-/

set_option autoImplicit false

namespace LiveChain.Text

inductive Utf8Fault where
  | badStart
  | badContinuation
  | unfinished
deriving DecidableEq, Repr

/-- The first byte that breaks the encoding, its position, and how many bytes it spoils. -/
structure Utf8Error where
  fault : Utf8Fault
  position : Nat
  byte : UInt8
  count : Nat
deriving DecidableEq, Repr

def Utf8Fault.reason : Utf8Fault → String
  | .badStart => "invalid start byte"
  | .badContinuation => "invalid continuation byte"
  | .unfinished => "unexpected end of data"

def Utf8Error.message (e : Utf8Error) : String :=
  let location :=
    if e.count = 1 then
      "byte 0x" ++ String.ofList (hexText 2 e.byte.toNat) ++ " in position " ++
        toString e.position
    else
      "bytes in position " ++ toString e.position ++ "-" ++ toString (e.position + e.count - 1)
  "'utf-8' codec can't decode " ++ location ++ ": " ++ e.fault.reason

/-- What a first byte says: how many bytes follow, the bits it gives itself, and the range of the
byte after it. -/
structure Lead where
  following : Nat
  bits : Nat
  lo : Nat
  hi : Nat

/-- The reading of a first byte. The second byte's range leaves out surrogates, values beyond the
last code point and forms that are longer than needed. -/
def lead? (b : UInt8) : Option Lead :=
  let n := b.toNat
  if n < 0x80 then some ⟨0, n, 0x80, 0xBF⟩
  else if n < 0xC2 then none
  else if n < 0xE0 then some ⟨1, n - 0xC0, 0x80, 0xBF⟩
  else if n = 0xE0 then some ⟨2, 0, 0xA0, 0xBF⟩
  else if n = 0xED then some ⟨2, 13, 0x80, 0x9F⟩
  else if n < 0xF0 then some ⟨2, n - 0xE0, 0x80, 0xBF⟩
  else if n = 0xF0 then some ⟨3, 0, 0x90, 0xBF⟩
  else if n < 0xF4 then some ⟨3, n - 0xF0, 0x80, 0xBF⟩
  else if n = 0xF4 then some ⟨3, 4, 0x80, 0x8F⟩
  else none

/-- How many of the next `count` bytes go on with a sequence whose next byte is in a range; every
later byte is in the full range. -/
def continuing (lo hi : Nat) : Nat → List UInt8 → Nat
  | 0, _ => 0
  | _, [] => 0
  | count + 1, b :: rest =>
    if lo ≤ b.toNat && b.toNat ≤ hi then continuing 0x80 0xBF count rest + 1 else 0

/-- The code point of a sequence: six bits from every byte after the first. -/
def assemble (bits : Nat) (bytes : List UInt8) : Nat :=
  bytes.foldl (fun acc b => acc * 64 + (b.toNat - 0x80)) bits

/-- Decodes from a position on; the first argument counts the bytes of a decoded sequence that
are still to be passed. -/
def decodeFrom : Nat → Nat → List UInt8 → Except Utf8Error (List Char)
  | _, _, [] => .ok []
  | skip + 1, position, _ :: rest => decodeFrom skip (position + 1) rest
  | 0, position, b :: rest =>
    match lead? b with
    | none => .error ⟨.badStart, position, b, 1⟩
    | some l =>
      let good := continuing l.lo l.hi l.following rest
      if good = l.following then
        (decodeFrom l.following (position + 1) rest).map fun cs =>
          Char.ofNat (assemble l.bits (rest.take l.following)) :: cs
      else if rest.length = good then .error ⟨.unfinished, position, b, good + 1⟩
      else .error ⟨.badContinuation, position, b, good + 1⟩

/-- The characters that a sequence of bytes encodes. -/
def decodeUtf8 (bytes : List UInt8) : Except Utf8Error (List Char) := decodeFrom 0 0 bytes

/-- Decodes what can be decoded; the first argument counts the bytes that are still to be passed. A
sequence that breaks off is left out as far as it was good. -/
def decodeLossyFrom : Nat → List UInt8 → List Char
  | _, [] => []
  | skip + 1, _ :: rest => decodeLossyFrom skip rest
  | 0, b :: rest =>
    match lead? b with
    | none => decodeLossyFrom 0 rest
    | some l =>
      let good := continuing l.lo l.hi l.following rest
      if good = l.following then
        Char.ofNat (assemble l.bits (rest.take good)) :: decodeLossyFrom good rest
      else decodeLossyFrom good rest

/-- The characters in a sequence of bytes, without the bytes that break the encoding. -/
def decodeLossy (bytes : List UInt8) : List Char := decodeLossyFrom 0 bytes

/-- The bytes of a text. -/
def encodeUtf8 (text : List Char) : List UInt8 := text.flatMap String.utf8EncodeChar

end LiveChain.Text
