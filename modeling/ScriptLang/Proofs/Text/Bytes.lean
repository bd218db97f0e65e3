/-
  ScriptLang.Proofs.Text.Bytes — a text as the bytes that encode it.

  - `bytes_ofList`: the bytes of a text are those of its characters, one after another.
  - `takeWhile_encode`: a class of characters that treats all characters
    beyond ASCII alike can be asked of the bytes instead.
  - `slice?`: the text between two bytes, if both are boundaries of characters.
-/

import ScriptLang.Text.Utf8
import Mathlib.Data.List.Basic

namespace ScriptLang.Utf8

/-- The bytes of a text. -/
def bytes (s : String) : List UInt8 := s.toByteArray.data.toList

def encode (cs : List Char) : List UInt8 := cs.flatMap String.utf8EncodeChar

/-- The character whose code is the byte. -/
def charOf (b : UInt8) : Char := Char.ofNat b.toNat

/-- The text between two bytes; none where one of them is no boundary or they are in the wrong order. -/
def slice? (s : String) (i j : Nat) : Option String :=
  if h : i ≤ j ∧ String.Pos.Raw.IsValid s ⟨i⟩ ∧ String.Pos.Raw.IsValid s ⟨j⟩ then
    some (String.extract (s.pos ⟨i⟩ h.2.1) (s.pos ⟨j⟩ h.2.2))
  else none

/-! ## Texts -/

@[simp] theorem encode_nil : encode [] = [] := rfl

@[simp] theorem encode_cons (c : Char) (cs : List Char) : encode (c :: cs) = String.utf8EncodeChar c ++ encode cs := rfl

@[simp] theorem encode_append (u v : List Char) : encode (u ++ v) = encode u ++ encode v := List.flatMap_append

theorem bytes_ofList (cs : List Char) : bytes (String.ofList cs) = encode cs := by
  rw [bytes, String.toByteArray_ofList, List.utf8Encode, List.data_toByteArray]
  rfl

theorem size_utf8Encode (cs : List Char) : cs.utf8Encode.size = (encode cs).length := List.size_toByteArray

theorem length_encode (cs : List Char) : (encode cs).length = (String.ofList cs).utf8ByteSize := by
  rw [← String.size_toByteArray, String.toByteArray_ofList, size_utf8Encode]

theorem encode_inj {u v : List Char} : encode u = encode v ↔ u = v := by
  refine ⟨fun h => ?_, congrArg encode⟩
  have hb : (String.ofList u).toByteArray = (String.ofList v).toByteArray := by
    rw [String.toByteArray_ofList, String.toByteArray_ofList]
    exact congrArg List.toByteArray h
  exact String.ofList_injective (String.toByteArray_inj.mp hb)

/-! ## Characters -/

theorem toNat_charOf (b : UInt8) : (charOf b).toNat = b.toNat := by
  have := b.toNat_lt
  have hv : Nat.isValidChar b.toNat := .inl (by omega)
  rw [charOf, Char.ofNat, dif_pos hv]
  rfl

theorem charOf_inj {a b : UInt8} : charOf a = charOf b ↔ a = b := by
  rw [← Char.toNat_inj, toNat_charOf, toNat_charOf, UInt8.toNat_inj]

theorem toNat_toUInt8 {c : Char} (h : c.toNat < 128) : c.toUInt8.toNat = c.toNat :=
  (UInt32.toNat_toUInt8 c.val).trans (Nat.mod_eq_of_lt (Nat.lt_trans h (by decide)))

theorem charOf_toUInt8 {c : Char} (h : c.toNat < 128) : charOf c.toUInt8 = c := by
  rw [← Char.toNat_inj, toNat_charOf, toNat_toUInt8 h]

theorem utf8EncodeChar_ascii {c : Char} (h : c.toNat < 128) : String.utf8EncodeChar c = [c.toUInt8] := by
  refine (if_pos (Nat.le_of_lt_succ h)).trans (congrArg (fun b => [b]) ?_)
  rw [← UInt8.toNat_inj, toNat_toUInt8 h, UInt8.toNat_ofNat']
  exact Nat.mod_eq_of_lt (Nat.lt_trans h (by decide))

/-- No byte of a character beyond ASCII is an ASCII character. -/
theorem le_of_mem_utf8EncodeChar {c : Char} (h : 128 ≤ c.toNat) {b : UInt8} (hb : b ∈ String.utf8EncodeChar c) :
    128 ≤ b.toNat := by
  have hc : ¬ c.val.toNat ≤ 127 := Nat.not_le.mpr h
  simp only [String.utf8EncodeChar, if_neg hc] at hb
  split at hb
  · simp only [List.mem_cons, List.not_mem_nil, or_false] at hb
    rcases hb with rfl | rfl <;> (rw [UInt8.toNat_ofNat']; omega)
  · split at hb
    · simp only [List.mem_cons, List.not_mem_nil, or_false] at hb
      rcases hb with rfl | rfl | rfl <;> (rw [UInt8.toNat_ofNat']; omega)
    · simp only [List.mem_cons, List.not_mem_nil, or_false] at hb
      rcases hb with rfl | rfl | rfl | rfl <;> (rw [UInt8.toNat_ofNat']; omega)

/-! ## Classes of characters -/

/-- Characters beyond ASCII are all in the class or all out of it. -/
def AsciiClass (p : Char → Bool) : Prop := ∃ beyond, ∀ c : Char, 128 ≤ c.toNat → p c = beyond

/-- Such a class holds of the bytes of a character as it does of the character. -/
theorem AsciiClass.charOf_eq {p : Char → Bool} (h : AsciiClass p) {c : Char} {b : UInt8}
    (hb : b ∈ String.utf8EncodeChar c) : p (charOf b) = p c := by
  obtain ⟨beyond, hp⟩ := h
  by_cases hc : c.toNat < 128
  · rw [utf8EncodeChar_ascii hc, List.mem_singleton] at hb
    rw [hb, charOf_toUInt8 hc]
  · have hc := Nat.not_lt.mp hc
    rw [hp c hc, hp]
    rw [toNat_charOf]
    exact le_of_mem_utf8EncodeChar hc hb

theorem AsciiClass.ne {q : Char} (hq : q.toNat < 128) : AsciiClass (· != q) := by
  refine ⟨true, fun c hc => bne_iff_ne.mpr ?_⟩
  rintro rfl
  omega

theorem takeWhile_encode {p : Char → Bool} (h : AsciiClass p) (cs : List Char) :
    (encode cs).takeWhile (p ∘ charOf) = encode (cs.takeWhile p) := by
  induction cs with
  | nil => rfl
  | cons c cs ih =>
    cases hc : p c with
    | true =>
      have hall : ∀ b ∈ String.utf8EncodeChar c, (p ∘ charOf) b = true := fun b hb => (h.charOf_eq hb).trans hc
      rw [encode_cons, List.takeWhile_append_of_pos hall, ih, List.takeWhile_cons_of_pos hc, encode_cons]
    | false =>
      rw [List.takeWhile_cons_of_neg (by simp [hc])]
      obtain ⟨b, bs, hb⟩ := List.exists_cons_of_ne_nil (String.utf8EncodeChar_ne_nil (c := c))
      have hbc : p (charOf b) = false := (h.charOf_eq (by rw [hb]; simp)).trans hc
      rw [encode_cons, hb, List.cons_append, List.takeWhile_cons_of_neg (by simp [hbc])]
      rfl

theorem count_encode {q : Char} (hq : q.toNat < 128) (cs : List Char) : (encode cs).count q.toUInt8 = cs.count q := by
  induction cs with
  | nil => rfl
  | cons c cs ih =>
    rw [encode_cons, List.count_append, ih, List.count_cons, Nat.add_comm]
    congr 1
    by_cases hc : c.toNat < 128
    · have hbeq : (c.toUInt8 == q.toUInt8) = (c == q) := by
        rw [Bool.eq_iff_iff, beq_iff_eq, beq_iff_eq, ← charOf_inj, charOf_toUInt8 hc, charOf_toUInt8 hq]
      rw [utf8EncodeChar_ascii hc, List.count_singleton, hbeq]
    · have hne : c ≠ q := fun he => hc (he ▸ hq)
      rw [if_neg (by simp [hne]), List.count_eq_zero]
      intro hmem
      have := le_of_mem_utf8EncodeChar (Nat.not_lt.mp hc) hmem
      rw [toNat_toUInt8 hq] at this
      omega

/-! ## Slices -/

/-- The characters of a text end at boundaries. -/
theorem isValid_append (u v : List Char) : String.Pos.Raw.IsValid (String.ofList (u ++ v)) ⟨(encode u).length⟩ := by
  refine String.Pos.Raw.isValid_ofList.mpr ⟨u.length, ?_⟩
  rw [List.take_left' rfl, length_encode]

theorem extract_middle (a b c : ByteArray) : (a ++ b ++ c).extract a.size (a.size + b.size) = b := by
  have h := ByteArray.extract_append_size_add (a := a) (b := b ++ c) (i := 0) (j := b.size)
  rw [Nat.add_zero, ByteArray.extract_append_eq_left rfl, ← ByteArray.append_assoc] at h
  exact h

theorem slice?_append (u v w : List Char) :
    slice? (String.ofList (u ++ v ++ w)) (encode u).length (encode (u ++ v)).length = some (String.ofList v) := by
  have hle : (encode u).length ≤ (encode (u ++ v)).length := by simp
  have hu : String.Pos.Raw.IsValid (String.ofList (u ++ v ++ w)) ⟨(encode u).length⟩ := by
    rw [List.append_assoc]
    exact isValid_append u (v ++ w)
  rw [slice?, dif_pos ⟨hle, hu, isValid_append (u ++ v) w⟩]
  congr 1
  rw [← String.toByteArray_inj, String.toByteArray_extract]
  simp only [String.toByteArray_ofList, List.utf8Encode_append, String.offset_pos]
  rw [encode_append, List.length_append, ← size_utf8Encode, ← size_utf8Encode]
  exact extract_middle _ _ _

end ScriptLang.Utf8
