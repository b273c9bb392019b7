import LiveChain.Proofs.Syntax.Place
import LiveChain.Proofs.Text.Utf8
import LiveChain.Syntax.Concrete

/-!
# Positions in bytes and in characters

A node of a concrete tree that stands at whole characters of a text is indexed by them: its span has
their lines, columns and offsets, and its text is what stands between them.
-/

set_option autoImplicit false

namespace LiveChain.Syntax

open Text

variable {text : List Char}

/-- A position in bytes with its line and its column in bytes, behind so many characters. -/
structure Marks (text : List Char) (k position : Nat) (point : Point) : Prop where
  inside : k ≤ text.length
  position_eq : position = byteOffset text k
  row_eq : point.row = lineNumber text k
  column_eq : point.column = (encodeUtf8 (lastLine (text.take k))).length

theorem columnNumber_eq_lastLine (k : Nat) :
    columnNumber text k = (lastLine (text.take k)).length := by
  rw [columnNumber, lastLine, List.length_reverse]

/-! ## Decoded stretches -/

theorem take_byteOffset (k : Nat) :
    (encodeUtf8 text).take (byteOffset text k) = encodeUtf8 (text.take k) := by
  have hsplit : encodeUtf8 text = encodeUtf8 (text.take k) ++ encodeUtf8 (text.drop k) := by
    rw [← encodeUtf8_append, List.take_append_drop]
  rw [byteOffset, hsplit, List.take_left]

theorem take_append_slice (text : List Char) {s e : Nat} (h : s ≤ e) :
    text.take s ++ slice text s e = text.take e :=
  slice_append_slice (Nat.zero_le s) h

theorem decoded_bytes (index : SourceIndex) {front part : List Char} {start stop : Nat}
    (hfront : start = (encodeUtf8 front).length)
    (hpart : index.bytes.take stop = encodeUtf8 (front ++ part)) :
    index.decoded start stop = part := by
  rw [SourceIndex.decoded, hpart, encodeUtf8_append, hfront, List.drop_left,
    decodeLossy_encodeUtf8]

/-- The characters between two positions that are behind whole characters. -/
theorem decoded_byteOffset {s e : Nat} (h : s ≤ e) :
    (SourceIndex.ofBytes (encodeUtf8 text)).decoded (byteOffset text s) (byteOffset text e) =
      slice text s e := by
  have hall := congrArg encodeUtf8 (take_append_slice text h).symm
  exact decoded_bytes _ rfl ((take_byteOffset e).trans hall)

/-! ## Offsets and columns -/

theorem ascii_ofBytes (h : (SourceIndex.ofBytes (encodeUtf8 text)).ascii = true) :
    (encodeUtf8 text).length = text.length := by
  have h := beq_iff_eq.mp h
  rwa [decodeLossy_encodeUtf8] at h

theorem ascii_take (h : (SourceIndex.ofBytes (encodeUtf8 text)).ascii = true) (k : Nat) :
    (encodeUtf8 (text.take k)).length = (text.take k).length := by
  have h := ascii_ofBytes h
  rw [← List.take_append_drop k text] at h
  exact (length_encodeUtf8_append h).1

namespace Marks

variable {k position : Nat} {point : Point}

theorem charOffset_eq (h : Marks text k position point) :
    (SourceIndex.ofBytes (encodeUtf8 text)).charOffset position = k := by
  rw [SourceIndex.charOffset, h.position_eq]
  split
  · next hascii => rw [byteOffset, ascii_take hascii, List.length_take, Nat.min_eq_left h.inside]
  · have hstart : 0 = (encodeUtf8 []).length := rfl
    have hall : (SourceIndex.ofBytes (encodeUtf8 text)).decoded 0 (byteOffset text k) =
        text.take k := decoded_bytes _ hstart (take_byteOffset k)
    rw [hall, List.length_take, Nat.min_eq_left h.inside]

theorem charColumn_eq (h : Marks text k position point) :
    (SourceIndex.ofBytes (encodeUtf8 text)).charColumn position point.column =
      columnNumber text k := by
  obtain ⟨front, hfront⟩ := exists_lastLine (text.take k)
  rw [SourceIndex.charColumn, columnNumber_eq_lastLine, h.position_eq, h.column_eq]
  split
  · next hascii =>
    have hall := ascii_take hascii k
    rw [hfront] at hall
    exact (length_encodeUtf8_append hall).2
  · have hstart : byteOffset text k - (encodeUtf8 (lastLine (text.take k))).length =
        (encodeUtf8 front).length := by
      conv_lhs => rw [byteOffset, hfront, encodeUtf8_append, List.length_append, ← hfront]
      exact Nat.add_sub_cancel ..
    rw [decoded_bytes _ hstart ((take_byteOffset k).trans (congrArg encodeUtf8 hfront))]

end Marks

/-! ## Sites -/

/-- A concrete node stands from one offset of a text to another. -/
structure Site.At (text : List Char) (site : Site) (s e : Nat) : Prop where
  ordered : s ≤ e
  opens : Marks text s site.start site.startPoint
  closes : Marks text e site.stop site.stopPoint

namespace Site.At

variable {site : Site} {s e : Nat}

theorem span_eq (h : site.At text s e) :
    (SourceIndex.ofBytes (encodeUtf8 text)).span site = spanOf text s e := by
  rw [spanOf, placeAt_eq h.opens.inside, placeAt_eq h.closes.inside, SourceIndex.span,
    h.opens.charOffset_eq, h.opens.charColumn_eq, h.closes.charOffset_eq, h.closes.charColumn_eq,
    h.opens.row_eq, h.closes.row_eq]
  rfl

theorem text_eq (h : site.At text s e) :
    (SourceIndex.ofBytes (encodeUtf8 text)).text site = String.ofList (slice text s e) := by
  rw [SourceIndex.text, h.opens.position_eq, h.closes.position_eq, decoded_byteOffset h.ordered]

end Site.At

end LiveChain.Syntax
