import Mathlib.Data.List.Basic

/-!
# UTF-8 on lists of bytes

The encoder and the single-character decoder of Lean's core library work on byte arrays.
Here they are restated for lists, with the two facts that scanners and printers need:
decoding is the inverse of encoding in front of any remainder (`decodeChar_append`,
`exists_of_decodeChar`), and the length of an encoding is announced by its first byte
(`firstByte_spec`).
-/

namespace CjsonRs.Library

/-- The UTF-8 encoding of a text. -/
def encode (cs : List Char) : List UInt8 := cs.flatMap String.utf8EncodeChar

/-- The character whose encoding the bytes start with. -/
def decodeChar (bs : List UInt8) : Option Char := bs.toByteArray.utf8DecodeChar? 0

theorem decodeChar_append (c : Char) (bs : List UInt8) :
    decodeChar (String.utf8EncodeChar c ++ bs) = some c := by
  rw [decodeChar, List.toByteArray_append]
  exact ByteArray.utf8DecodeChar?_utf8EncodeChar_append

theorem exists_of_decodeChar {bs : List UInt8} {c : Char} (h : decodeChar bs = some c) :
    ∃ rest, bs = String.utf8EncodeChar c ++ rest := by
  have he := String.toByteArray_utf8EncodeChar_of_utf8DecodeChar?_eq_some h
  have hlist := congrArg (fun b : ByteArray => b.data.toList) he
  simp only [ByteArray.data_extract, Array.toList_extract, List.data_toByteArray,
    List.extract_eq_drop_take', List.drop_zero] at hlist
  refine ⟨bs.drop c.utf8Size, ?_⟩
  have hpre : String.utf8EncodeChar c = bs.take c.utf8Size := by simpa using hlist
  rw [hpre, List.take_append_drop]

/-! ## Whole texts -/

@[simp] theorem encode_nil : encode [] = [] := rfl

@[simp] theorem encode_cons (c : Char) (cs : List Char) :
    encode (c :: cs) = String.utf8EncodeChar c ++ encode cs := by
  simp [encode]

@[simp] theorem encode_append (cs ds : List Char) : encode (cs ++ ds) = encode cs ++ encode ds := by
  simp [encode]

theorem utf8EncodeChar_length_pos (c : Char) : 0 < (String.utf8EncodeChar c).length := by
  rw [String.length_utf8EncodeChar]
  exact c.utf8Size_pos

/-- A character and what follows it can be read back from the bytes. -/
theorem utf8EncodeChar_append_inj {c d : Char} {xs ys : List UInt8}
    (h : String.utf8EncodeChar c ++ xs = String.utf8EncodeChar d ++ ys) : c = d ∧ xs = ys := by
  have hcd : some c = some d := by rw [← decodeChar_append c xs, h, decodeChar_append]
  obtain rfl := Option.some.inj hcd
  exact ⟨rfl, List.append_cancel_left h⟩

theorem encode_inj {cs ds : List Char} (h : encode cs = encode ds) : cs = ds := by
  induction cs generalizing ds with
  | nil =>
    cases ds with
    | nil => rfl
    | cons d ds =>
      have := utf8EncodeChar_length_pos d
      have hlen := congrArg List.length h
      simp only [encode_nil, encode_cons, List.length_nil, List.length_append] at hlen
      omega
  | cons c cs ih =>
    cases ds with
    | nil =>
      have := utf8EncodeChar_length_pos c
      have hlen := congrArg List.length h
      simp only [encode_nil, encode_cons, List.length_nil, List.length_append] at hlen
      omega
    | cons d ds =>
      simp only [encode_cons] at h
      obtain ⟨rfl, hrest⟩ := utf8EncodeChar_append_inj h
      rw [ih hrest]

/-- The text that the bytes encode, `none` when they are not valid UTF-8. -/
def fromUtf8 (bs : List UInt8) : Option (List Char) :=
  if bs = [] then some []
  else
    match decodeChar bs with
    | none => none
    | some c => (fromUtf8 (bs.drop c.utf8Size)).map (c :: ·)
termination_by bs.length
decreasing_by
  have hpos := c.utf8Size_pos
  have hne := List.length_pos_iff.mpr ‹¬bs = []›
  simp only [List.length_drop]
  omega

@[simp] theorem fromUtf8_nil : fromUtf8 [] = some [] := by
  rw [fromUtf8]
  simp

theorem fromUtf8_char_append (c : Char) (bs : List UInt8) :
    fromUtf8 (String.utf8EncodeChar c ++ bs) = (fromUtf8 bs).map (c :: ·) := by
  rw [fromUtf8, if_neg (by simp [String.utf8EncodeChar_ne_nil]), decodeChar_append]
  simp only
  rw [List.drop_append_of_le_length (by simp), ← String.length_utf8EncodeChar c, List.drop_length,
    List.nil_append]

theorem fromUtf8_encode (cs : List Char) : fromUtf8 (encode cs) = some cs := by
  induction cs with
  | nil => exact fromUtf8_nil
  | cons c cs ih => rw [encode_cons, fromUtf8_char_append, ih, Option.map_some]

/-- Validation accepts exactly the encodings of texts. -/
theorem fromUtf8_eq_some {bs : List UInt8} {cs : List Char} :
    fromUtf8 bs = some cs ↔ bs = encode cs := by
  constructor
  · intro h
    induction bs using fromUtf8.induct generalizing cs with
    | case1 =>
      rw [fromUtf8_nil] at h
      cases h
      rfl
    | case2 bs hne hd =>
      rw [fromUtf8, if_neg hne, hd] at h
      cases h
    | case3 bs hne c hd ih =>
      obtain ⟨rest, rfl⟩ := exists_of_decodeChar hd
      rw [fromUtf8_char_append] at h
      rw [List.drop_append_of_le_length (by simp), ← String.length_utf8EncodeChar c,
        List.drop_length, List.nil_append] at ih
      obtain ⟨ds, hds, rfl⟩ := Option.map_eq_some_iff.mp h
      rw [encode_cons, ih hds]
  · rintro rfl
    exact fromUtf8_encode cs

/-! ## The bytes of one character -/

theorem utf8EncodeChar_of_le {c : Char} (h : c.toNat ≤ 0x7F) :
    String.utf8EncodeChar c = [UInt8.ofNat c.toNat] := by
  have h' : c.val.toNat ≤ 0x7F := h
  simp only [String.utf8EncodeChar, if_pos h']
  rfl

/-- The first byte of an encoding determines its length; every later byte is a
continuation byte. -/
theorem firstByte_spec (c : Char) : ∃ b tail, String.utf8EncodeChar c = b :: tail ∧
    (∀ t ∈ tail, 0x80 ≤ t ∧ t ≤ 0xBF) ∧
    ((b ≤ 0x7F ∧ c.utf8Size = 1 ∧ b.toNat = c.toNat) ∨
      (0xC2 ≤ b ∧ b ≤ 0xDF ∧ c.utf8Size = 2) ∨ (0xE0 ≤ b ∧ b ≤ 0xEF ∧ c.utf8Size = 3) ∨
        (0xF0 ≤ b ∧ b ≤ 0xF4 ∧ c.utf8Size = 4)) := by
  have hlt : c.toNat < 0x110000 := by
    have h := c.valid
    simp only [UInt32.isValidChar, Nat.isValidChar] at h
    change c.val.toNat < _
    omega
  have hlen := String.length_utf8EncodeChar c
  have hval : c.val.toNat = c.toNat := rfl
  unfold String.utf8EncodeChar at hlen ⊢
  simp only [hval] at hlen ⊢
  split_ifs at hlen ⊢ with h1 h2 h3
  all_goals
    refine ⟨_, _, rfl, ?_, ?_⟩
    · simp [UInt8.le_iff_toNat_le]
      try omega
  · refine Or.inl ⟨?_, hlen.symm, ?_⟩ <;> simp [UInt8.le_iff_toNat_le] <;> omega
  · refine Or.inr (Or.inl ⟨?_, ?_, hlen.symm⟩) <;>
      simp [UInt8.le_iff_toNat_le] <;> omega
  · refine Or.inr (Or.inr (Or.inl ⟨?_, ?_, hlen.symm⟩)) <;>
      simp [UInt8.le_iff_toNat_le] <;> omega
  · refine Or.inr (Or.inr (Or.inr ⟨?_, ?_, hlen.symm⟩)) <;>
      simp [UInt8.le_iff_toNat_le] <;> omega

/-- An ASCII byte stands in the encoding of its own character only. -/
theorem mem_utf8EncodeChar {b : UInt8} {c : Char} (hb : b ≤ 0x7F) :
    b ∈ String.utf8EncodeChar c ↔ b.toNat = c.toNat := by
  obtain ⟨first, tail, hBytes, hTail, hHead⟩ := firstByte_spec c
  constructor
  · intro hMem
    rw [hBytes, List.mem_cons] at hMem
    simp only [UInt8.le_iff_toNat_le] at hb hTail hHead
    rcases hMem with rfl | hMem
    · rcases hHead with ⟨-, -, hNat⟩ | ⟨hLe, -⟩ | ⟨hLe, -⟩ | ⟨hLe, -⟩
      · exact hNat
      · exact absurd (Nat.le_trans hLe hb) (by decide)
      · exact absurd (Nat.le_trans hLe hb) (by decide)
      · exact absurd (Nat.le_trans hLe hb) (by decide)
    · exact absurd (Nat.le_trans (hTail b hMem).1 hb) (by decide)
  · intro hNat
    rw [utf8EncodeChar_of_le (hNat ▸ UInt8.le_iff_toNat_le.mp hb), ← hNat, UInt8.ofNat_toNat]
    exact List.mem_singleton_self b

end CjsonRs.Library
