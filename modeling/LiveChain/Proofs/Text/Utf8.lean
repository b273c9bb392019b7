import LiveChain.Text.Utf8
import Mathlib.Data.List.Induction
import Mathlib.Data.List.TakeWhile

/-!
# Texts in UTF-8

The bytes of a character start with one that says how many follow, and those that follow cannot
start another. So a text is read back from its bytes, a position that no character goes over has
whole characters before it, and line feeds are where the byte of a line feed is.
-/

set_option autoImplicit false

namespace LiveChain.Text

/-! ## First bytes -/

section Lead

variable {b : UInt8}

theorem lead?_one (h : b.toNat < 0x80) : lead? b = some ⟨0, b.toNat, 0x80, 0xBF⟩ := by
  unfold lead?
  rw [if_pos h]

theorem lead?_two (h : 0xC2 ≤ b.toNat) (h' : b.toNat < 0xE0) :
    lead? b = some ⟨1, b.toNat - 0xC0, 0x80, 0xBF⟩ := by
  unfold lead?
  rw [if_neg (by omega), if_neg (by omega), if_pos h']

theorem lead?_three (h : 0xE0 ≤ b.toNat) (h' : b.toNat < 0xF0) :
    lead? b = some ⟨2, b.toNat - 0xE0, if b.toNat = 0xE0 then 0xA0 else 0x80,
      if b.toNat = 0xED then 0x9F else 0xBF⟩ := by
  unfold lead?
  rw [if_neg (by omega), if_neg (by omega), if_neg (by omega)]
  by_cases hfirst : b.toNat = 0xE0
  · simp only [hfirst, if_true]
    rfl
  · by_cases hsurrogate : b.toNat = 0xED
    · simp only [hsurrogate, if_true]
      rfl
    · simp only [if_neg hfirst, if_neg hsurrogate, if_pos h']

theorem lead?_four (h : 0xF0 ≤ b.toNat) (h' : b.toNat ≤ 0xF4) :
    lead? b = some ⟨3, b.toNat - 0xF0, if b.toNat = 0xF0 then 0x90 else 0x80,
      if b.toNat = 0xF4 then 0x8F else 0xBF⟩ := by
  unfold lead?
  rw [if_neg (by omega), if_neg (by omega), if_neg (by omega), if_neg (by omega),
    if_neg (by omega), if_neg (by omega)]
  by_cases hfirst : b.toNat = 0xF0
  · simp only [hfirst, if_true]
    rfl
  · by_cases hlast : b.toNat = 0xF4
    · simp only [hlast, if_true]
      rfl
    · simp only [if_neg hfirst, if_neg hlast, if_pos (show b.toNat < 0xF4 by omega)]

end Lead

/-! ## The bytes of a character -/

def IsContinuation (b : UInt8) : Prop := 0x80 ≤ b.toNat ∧ b.toNat ≤ 0xBF

instance (b : UInt8) : Decidable (IsContinuation b) := inferInstanceAs (Decidable (_ ∧ _))

/-- A character as its first byte, what that byte says, and the bytes that follow. -/
structure Encodes (c : Char) (b : UInt8) (l : Lead) (tail : List UInt8) : Prop where
  bytes : String.utf8EncodeChar c = b :: tail
  lead : lead? b = some l
  following : l.following = tail.length
  next : ∀ x ∈ tail.head?, l.lo ≤ x.toNat ∧ x.toNat ≤ l.hi
  continues : ∀ x ∈ tail, IsContinuation x
  code : assemble l.bits tail = c.toNat

theorem toNat_ofNat_of_lt {n : Nat} (h : n < 256) : (UInt8.ofNat n).toNat = n := by
  rw [UInt8.toNat_ofNat']
  exact Nat.mod_eq_of_lt h

theorem isContinuation_ofNat (n : Nat) : IsContinuation (UInt8.ofNat (n % 64 + 128)) := by
  rw [IsContinuation, toNat_ofNat_of_lt (by omega)]
  omega

theorem toNat_following (n : Nat) : (UInt8.ofNat (n % 64 + 128)).toNat = n % 64 + 128 :=
  toNat_ofNat_of_lt (by omega)

/-- Every character has a first byte and bytes that go on with it, and its code can be read off
them. -/
theorem exists_encodes (c : Char) : ∃ b l tail, Encodes c b l tail := by
  have hvalid : c.toNat < 0xD800 ∨ (0xDFFF < c.toNat ∧ c.toNat < 0x110000) := c.valid
  have hbytes : String.utf8EncodeChar c = if c.toNat ≤ 0x7F then [UInt8.ofNat c.toNat]
      else if c.toNat ≤ 0x7FF then
        [UInt8.ofNat (c.toNat / 64 % 32 + 192), UInt8.ofNat (c.toNat % 64 + 128)]
      else if c.toNat ≤ 0xFFFF then
        [UInt8.ofNat (c.toNat / 4096 % 16 + 224), UInt8.ofNat (c.toNat / 64 % 64 + 128),
          UInt8.ofNat (c.toNat % 64 + 128)]
      else
        [UInt8.ofNat (c.toNat / 262144 % 8 + 240), UInt8.ofNat (c.toNat / 4096 % 64 + 128),
          UInt8.ofNat (c.toNat / 64 % 64 + 128), UInt8.ofNat (c.toNat % 64 + 128)] := rfl
  by_cases hone : c.toNat ≤ 0x7F
  · rw [if_pos hone] at hbytes
    have hfirst := toNat_ofNat_of_lt (n := c.toNat) (by omega)
    exact ⟨_, _, _, hbytes, lead?_one (by omega), rfl, by simp, by simp, hfirst⟩
  rw [if_neg hone] at hbytes
  by_cases htwo : c.toNat ≤ 0x7FF
  · rw [if_pos htwo] at hbytes
    have hfirst : (UInt8.ofNat (c.toNat / 64 % 32 + 192)).toNat = c.toNat / 64 + 192 := by
      rw [toNat_ofNat_of_lt (by omega)]
      omega
    refine ⟨_, _, _, hbytes, lead?_two (by omega) (by omega), rfl, ?_, ?_, ?_⟩
    · simp only [List.head?_cons, Option.mem_some_iff, forall_eq', toNat_following]
      omega
    · simp only [List.forall_mem_cons, isContinuation_ofNat, List.not_mem_nil, false_imp_iff,
        implies_true, and_self]
    · simp only [assemble, List.foldl_cons, List.foldl_nil, toNat_following, hfirst]
      omega
  rw [if_neg htwo] at hbytes
  by_cases hthree : c.toNat ≤ 0xFFFF
  · rw [if_pos hthree] at hbytes
    have hfirst : (UInt8.ofNat (c.toNat / 4096 % 16 + 224)).toNat = c.toNat / 4096 + 224 := by
      rw [toNat_ofNat_of_lt (by omega)]
      omega
    refine ⟨_, _, _, hbytes, lead?_three (by omega) (by omega), rfl, ?_, ?_, ?_⟩
    · simp only [List.head?_cons, Option.mem_some_iff, forall_eq', toNat_following, hfirst]
      split <;> split <;> omega
    · simp only [List.forall_mem_cons, isContinuation_ofNat, List.not_mem_nil, false_imp_iff,
        implies_true, and_self]
    · simp only [assemble, List.foldl_cons, List.foldl_nil, toNat_following, hfirst]
      omega
  · rw [if_neg hthree] at hbytes
    have hfirst : (UInt8.ofNat (c.toNat / 262144 % 8 + 240)).toNat = c.toNat / 262144 + 240 := by
      rw [toNat_ofNat_of_lt (by omega)]
      omega
    refine ⟨_, _, _, hbytes, lead?_four (by omega) (by omega), rfl, ?_, ?_, ?_⟩
    · simp only [List.head?_cons, Option.mem_some_iff, forall_eq', toNat_following, hfirst]
      split <;> split <;> omega
    · simp only [List.forall_mem_cons, isContinuation_ofNat, List.not_mem_nil, false_imp_iff,
        implies_true, and_self]
    · simp only [assemble, List.foldl_cons, List.foldl_nil, toNat_following, hfirst]
      omega

/-! ## Reading a text back -/

theorem encodeUtf8_cons (c : Char) (text : List Char) :
    encodeUtf8 (c :: text) = String.utf8EncodeChar c ++ encodeUtf8 text :=
  List.flatMap_cons

theorem encodeUtf8_append (a b : List Char) : encodeUtf8 (a ++ b) = encodeUtf8 a ++ encodeUtf8 b :=
  List.flatMap_append

theorem continuing_append {lo hi : Nat} {tail : List UInt8} (rest : List UInt8)
    (hnext : ∀ x ∈ tail.head?, lo ≤ x.toNat ∧ x.toNat ≤ hi)
    (hcontinues : ∀ x ∈ tail, IsContinuation x) :
    continuing lo hi tail.length (tail ++ rest) = tail.length := by
  induction tail generalizing lo hi with
  | nil => simp [continuing]
  | cons x tail ih =>
    have hx := hnext x rfl
    rw [List.length_cons, List.cons_append, continuing, if_pos (by simpa using hx)]
    rw [ih (fun y hy => hcontinues y (List.mem_cons_of_mem x (List.mem_of_mem_head? hy)))
      fun y hy => hcontinues y (List.mem_cons_of_mem x hy)]

theorem decodeLossyFrom_length (tail rest : List UInt8) :
    decodeLossyFrom tail.length (tail ++ rest) = decodeLossy rest := by
  induction tail with
  | nil => rfl
  | cons x tail ih => exact ih

theorem decodeLossy_cons (c : Char) (rest : List UInt8) :
    decodeLossy (String.utf8EncodeChar c ++ rest) = c :: decodeLossy rest := by
  obtain ⟨b, l, tail, h⟩ := exists_encodes c
  rw [h.bytes, List.cons_append, decodeLossy, decodeLossyFrom, h.lead]
  have hgood := continuing_append rest h.next h.continues
  simp only [h.following, hgood, if_true, List.take_left, h.code, decodeLossyFrom_length,
    Char.ofNat_toNat]

theorem decodeLossy_encodeUtf8 (text : List Char) : decodeLossy (encodeUtf8 text) = text := by
  induction text with
  | nil => rfl
  | cons c text ih => rw [encodeUtf8_cons, decodeLossy_cons, ih]

/-! ## Lengths -/

theorem length_le_encodeUtf8 (text : List Char) : text.length ≤ (encodeUtf8 text).length := by
  induction text with
  | nil => exact Nat.le_refl 0
  | cons c text ih =>
    obtain ⟨b, l, tail, h⟩ := exists_encodes c
    rw [encodeUtf8_cons, List.length_append, h.bytes, List.length_cons, List.length_cons]
    omega

/-- When every character of a text is one byte, so is every character of its parts. -/
theorem length_encodeUtf8_append {a b : List Char}
    (h : (encodeUtf8 (a ++ b)).length = (a ++ b).length) :
    (encodeUtf8 a).length = a.length ∧ (encodeUtf8 b).length = b.length := by
  rw [encodeUtf8_append, List.length_append, List.length_append] at h
  have ha := length_le_encodeUtf8 a
  have hb := length_le_encodeUtf8 b
  omega

/-! ## Positions -/

/-- A position in bytes that no character goes over. -/
def AtBoundary (bytes : List UInt8) (n : Nat) : Prop :=
  n ≤ bytes.length ∧ ∀ b ∈ bytes[n]?, ¬ IsContinuation b

instance (bytes : List UInt8) (n : Nat) : Decidable (AtBoundary bytes n) :=
  inferInstanceAs (Decidable (_ ∧ _))

/-- Whole characters stand before a position that no character goes over. -/
theorem exists_chars_before {text : List Char} {n : Nat} (h : AtBoundary (encodeUtf8 text) n) :
    ∃ k ≤ text.length, n = (encodeUtf8 (text.take k)).length := by
  induction text generalizing n with
  | nil => exact ⟨0, Nat.le_refl 0, Nat.le_zero.mp h.1⟩
  | cons c text ih =>
    obtain ⟨b, l, tail, henc⟩ := exists_encodes c
    have hlength : (String.utf8EncodeChar c).length = tail.length + 1 := by rw [henc.bytes]; rfl
    obtain ⟨hn, hwhole⟩ := h
    rw [encodeUtf8_cons] at hn hwhole
    rw [List.length_append, hlength] at hn
    by_cases hinside : n < tail.length + 1
    · cases n with
      | zero => exact ⟨0, Nat.zero_le _, rfl⟩
      | succ m =>
        -- the byte there goes on with the first character
        have hm : m < tail.length := Nat.lt_of_succ_lt_succ hinside
        have hbyte : (String.utf8EncodeChar c ++ encodeUtf8 text)[m + 1]? = some tail[m] := by
          rw [henc.bytes, List.cons_append, List.getElem?_cons_succ, List.getElem?_append_left hm,
            List.getElem?_eq_getElem hm]
        exact absurd (henc.continues _ (List.getElem_mem hm)) (hwhole _ hbyte)
    · have hrest : AtBoundary (encodeUtf8 text) (n - (tail.length + 1)) := by
        refine ⟨by omega, fun x hx => hwhole x ?_⟩
        rwa [List.getElem?_append_right (by omega), hlength]
      obtain ⟨k, hk, hbytes⟩ := ih hrest
      refine ⟨k + 1, Nat.succ_le_succ hk, ?_⟩
      rw [List.take_succ_cons, encodeUtf8_cons, List.length_append, hlength]
      omega

/-! ## Line feeds -/

def lineFeedByte : UInt8 := 10

theorem mem_lineFeedByte_iff (c : Char) : lineFeedByte ∈ String.utf8EncodeChar c ↔ c = '\n' := by
  obtain ⟨b, l, tail, h⟩ := exists_encodes c
  constructor
  · intro hmem
    rw [h.bytes, List.mem_cons] at hmem
    rcases hmem with rfl | hmem
    · cases (show lead? lineFeedByte = some ⟨0, 10, 0x80, 0xBF⟩ from rfl).symm.trans h.lead
      have htail : tail = [] := List.length_eq_zero_iff.mp h.following.symm
      have hcode := h.code
      rw [htail] at hcode
      exact Char.toNat_inj.mp hcode.symm
    · exact absurd (h.continues _ hmem).1 (by decide)
  · rintro rfl
    decide

/-- Line feeds are counted alike in a text and in its bytes. -/
theorem count_encodeUtf8 (text : List Char) :
    (encodeUtf8 text).count lineFeedByte = text.count '\n' := by
  induction text with
  | nil => rfl
  | cons c text ih =>
    rw [encodeUtf8_cons, List.count_append, ih, List.count_cons, Nat.add_comm]
    congr 1
    by_cases hc : c = '\n'
    · rw [hc]
      rfl
    · rw [if_neg (by simpa using hc)]
      exact List.count_eq_zero.mpr fun h => hc ((mem_lineFeedByte_iff c).mp h)

/-- The characters since the last line feed of a text. -/
def lastLine (text : List Char) : List Char := (text.reverse.takeWhile (· ≠ '\n')).reverse

theorem exists_lastLine (text : List Char) : ∃ front, text = front ++ lastLine text := by
  refine ⟨(text.reverse.dropWhile (· ≠ '\n')).reverse, ?_⟩
  rw [lastLine, ← List.reverse_append, List.takeWhile_append_dropWhile, List.reverse_reverse]

/-- The bytes since the last line feed are those of the characters since it. -/
theorem takeWhile_encodeUtf8 (text : List Char) :
    (encodeUtf8 text).reverse.takeWhile (· ≠ lineFeedByte) = (encodeUtf8 (lastLine text)).reverse := by
  induction text using List.reverseRecOn with
  | nil => rfl
  | append_singleton text c ih =>
    rw [encodeUtf8_append, List.reverse_append, lastLine, List.reverse_append,
      List.reverse_singleton, List.singleton_append, List.takeWhile_cons]
    by_cases hc : c = '\n'
    · rw [hc]
      rfl
    · have hbytes : ∀ x ∈ (encodeUtf8 [c]).reverse, decide (x ≠ lineFeedByte) = true := by
        intro x hx
        rw [decide_eq_true_eq]
        rintro rfl
        rw [List.mem_reverse, encodeUtf8_cons, List.mem_append] at hx
        exact hc ((mem_lineFeedByte_iff c).mp (hx.resolve_right List.not_mem_nil))
      rw [List.takeWhile_append_of_pos hbytes, ih, if_pos (by simpa using hc), List.reverse_cons,
        encodeUtf8_append, List.reverse_append, lastLine]

end LiveChain.Text
