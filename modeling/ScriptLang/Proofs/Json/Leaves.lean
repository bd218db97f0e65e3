/-
  ScriptLang.Proofs.Json.Leaves — JSON leaves read back from their texts.

  A leaf without quotes is a word, an integer or a double, and its text says which: words have
  no digit, and only doubles have a point or an exponent. `readLeaf` reads it back.
  - `unescape?_escape` / `stringChars_unique`: a string ends where its text says, and no two
    strings have one text.
  - `magnitude_written`: a finite double is written as digits that read back, with a point or an
    exponent.
  - `null_leaf`, `bool_leaf`, `integer_leaf`, `double_leaf`: every leaf without quotes reads back.
  - `Leaf.unique`: it ends where its text says.
-/

import ScriptLang.Json.Basic
import ScriptLang.Proofs.Number.Written

namespace ScriptLang

namespace Json

/-! ## Strings -/

/-- The control character whose code the four digits write. -/
def controlOf? (digits : List Char) : Option Char :=
  ((List.range 32).find? fun n => hex4 n == digits).map Char.ofNat

/-- The character that an escaped text starts with, and what follows it; none at a quote. -/
def unescape? : List Char → Option (Char × List Char)
  | '\\' :: '"' :: rest => some ('"', rest)
  | '\\' :: '\\' :: rest => some ('\\', rest)
  | '\\' :: 'n' :: rest => some ('\n', rest)
  | '\\' :: 'r' :: rest => some ('\r', rest)
  | '\\' :: 't' :: rest => some ('\t', rest)
  | '\\' :: 'b' :: rest => some (Char.ofNat 8, rest)
  | '\\' :: 'f' :: rest => some (Char.ofNat 12, rest)
  | '\\' :: 'u' :: rest => (controlOf? (rest.take 4)).map fun c => (c, rest.drop 4)
  | '"' :: _ => none
  | c :: rest => some (c, rest)
  | [] => none

theorem hex4_reads : ∀ n < 32, (hex4 n).length = 4 ∧ controlOf? (hex4 n) = some (Char.ofNat n) := by decide +kernel

theorem unescape?_escape (c : Char) (rest : List Char) : unescape? (escape c ++ rest) = some (c, rest) := by
  have ofNat {n : Nat} (h : c.toNat = n) : Char.ofNat n = c := by rw [← h, Char.ofNat_toNat]
  unfold escape
  split
  · subst c; rfl
  rename_i hquote
  split
  · subst c; rfl
  rename_i hslash
  split
  · subst c; rfl
  split
  · subst c; rfl
  split
  · subst c; rfl
  split
  · rename_i h8
    rw [← ofNat h8]
    rfl
  split
  · rename_i h12
    rw [← ofNat h12]
    rfl
  split
  · rename_i h32
    obtain ⟨hl, hread⟩ := hex4_reads c.toNat h32
    show (controlOf? ((hex4 c.toNat ++ rest).take 4)).map (fun d => (d, (hex4 c.toNat ++ rest).drop 4)) = _
    rw [List.take_left' hl, List.drop_left' hl, hread, Char.ofNat_toNat]
    rfl
  · show unescape? (c :: rest) = _
    unfold unescape?
    split <;> simp_all

theorem unescape?_quote (rest : List Char) : unescape? ('"' :: rest) = none := rfl

theorem escape_unique {a b : Char} {r s : List Char} (h : escape a ++ r = escape b ++ s) : a = b ∧ r = s := by
  have := congrArg unescape? h
  rw [unescape?_escape, unescape?_escape] at this
  exact Prod.mk.inj (Option.some.inj this)

/-- A quote ends a string, since none stands in one that is not escaped. -/
theorem escaped_unique {a b r s : List Char} (h : a.flatMap escape ++ '"' :: r = b.flatMap escape ++ '"' :: s) :
    a = b ∧ r = s := by
  have clash {c : Char} {cs u v : List Char} (he : '"' :: u = (c :: cs).flatMap escape ++ v) : False := by
    have := congrArg unescape? he
    rw [List.flatMap_cons, List.append_assoc, unescape?_escape, unescape?_quote] at this
    cases this
  induction a generalizing b with
  | nil =>
    cases b with
    | nil => exact ⟨rfl, (List.cons.inj h).2⟩
    | cons c b => exact (clash h).elim
  | cons c a ih =>
    cases b with
    | nil => exact (clash h.symm).elim
    | cons d b =>
      rw [List.flatMap_cons, List.flatMap_cons, List.append_assoc, List.append_assoc] at h
      obtain ⟨rfl, hrest⟩ := escape_unique h
      obtain ⟨rfl, rfl⟩ := ih hrest
      exact ⟨rfl, rfl⟩

theorem stringChars_unique {a b : String} {r s : List Char} (h : stringChars a ++ r = stringChars b ++ s) : a = b ∧ r = s := by
  simp only [stringChars, List.cons_append, List.append_assoc, List.cons.injEq, true_and] at h
  obtain ⟨hab, hrs⟩ := escaped_unique h
  exact ⟨String.toList_inj.mp hab, hrs⟩

/-! ## Numbers -/

theorem integerChars_reads (n : Int) : Numeral.signed (integerChars n) = n := by
  unfold integerChars
  split
  · rw [List.singleton_append, Numeral.signed_minus, Nat.ofDigitChars_ten_toDigits]
    omega
  · rw [List.nil_append, Numeral.signed_digits (Decimal.toDigits_isDigit _), Nat.ofDigitChars_ten_toDigits]
    omega

/-- What digits around a point, and an exponent after them, stand for. -/
def readDecimal (cs : List Char) : Decimal :=
  let (fraction, rest) := Decimal.splitFraction (cs.dropWhile Char.isDigit)
  ⟨Nat.ofDigitChars 10 (cs.takeWhile Char.isDigit ++ fraction) 0, Numeral.signed (rest.drop 1) - fraction.length⟩

def readDouble (cs : List Char) : Double :=
  let (negative, cs) := Decimal.splitSign cs
  (readDecimal cs).toDouble negative

/-- An exponent with its sign, or nothing. -/
inductive Exponent : List Char → Prop where
  | none : Exponent []
  | signed {sign : Char} {digits : List Char} (hs : sign = '-' ∨ sign = '+') (hd : ∀ c ∈ digits, c.isDigit = true) :
    Exponent ('e' :: sign :: digits)

/-- A text with a point or an exponent that reads as a double, its sign apart. -/
inductive Magnitude (x : Double) : List Char → Prop
  | mk {parts : List Char × List Char} {tail : List Char} (hd : Digits parts) (ht : Exponent tail)
      (hmarked : parts.2 = [] → tail ≠ [])
      (hx : Decimal.toDouble x.negative
        ⟨Nat.ofDigitChars 10 (parts.1 ++ parts.2) 0, Numeral.signed (tail.drop 1) - parts.2.length⟩ = x) :
    Magnitude x (Double.pointed parts ++ tail)

theorem Exponent.head {tail : List Char} (h : Exponent tail) : ∀ c ∈ tail.head?, c = 'e' := by
  cases h with
  | none => nofun
  | signed => exact fun c hc => (Option.some.inj hc).symm

theorem readDecimal_pointed {parts : List Char × List Char} {tail : List Char} (hd : Digits parts) (ht : Exponent tail) :
    readDecimal (Double.pointed parts ++ tail) =
      ⟨Nat.ofDigitChars 10 (parts.1 ++ parts.2) 0, Numeral.signed (tail.drop 1) - parts.2.length⟩ := by
  obtain ⟨whole, fraction⟩ := parts
  have hend : ∀ c ∈ tail.head?, c.isDigit = false := fun c hc => by rw [ht.head c hc]; rfl
  have hnone : Decimal.splitFraction tail = ([], tail) := by cases ht <;> rfl
  cases fraction with
  | nil =>
    have hw := takeWhile_run hd.whole hend
    simp only at hw
    simp only [readDecimal, Double.pointed, if_true, hw.1, hw.2, hnone]
  | cons c fraction =>
    have hw := takeWhile_run (v := '.' :: c :: fraction ++ tail) hd.whole fun c hc => by cases hc; rfl
    have hf := takeWhile_run hd.fraction hend
    simp only [List.cons_append] at hw hf
    simp only [readDecimal, Double.pointed, reduceCtorEq, if_false, List.append_assoc, List.cons_append, hw.1, hw.2,
      Decimal.splitFraction, hf.1, hf.2]

section

variable {x : Double}

theorem units_zero_of_digits {e : Int} (h : Decimal.toDouble x.negative ⟨0, e⟩ = x) : x.units = 0 := by
  rw [← h, Decimal.toDouble_eq, Nat.zero_mul,
    show Double.ofRatio x.negative 0 (10 ^ (-e).toNat) = .ofRatio x.negative 0 1 from
      Double.ofRatio_eq (Nat.pow_pos (by decide)) Nat.one_pos (by rw [Nat.zero_mul, Nat.zero_mul])]
  cases x.negative <;> decide +kernel

theorem zero_magnitude (hf : x.isFinite = true) (hu : x.units = 0) : Magnitude x "0.0".toList := by
  have hzero : ∀ c ∈ ['0'], c.isDigit = true := List.forall_mem_singleton.mpr rfl
  refine @Magnitude.mk x (['0'], ['0']) [] ⟨nofun, hzero, hzero⟩ .none nofun (Eq.trans ?_ (Double.ofRatio_units hf))
  rw [hu, Decimal.toDouble_eq]
  exact Double.ofRatio_eq (Nat.pow_pos (by decide)) Double.one_pos rfl

/-- A fraction is written even where there is none. -/
theorem pointed_magnitude {parts : List Char × List Char} (hd : Digits parts)
    (hx : (Digits.decimal parts).toDouble x.negative = x) :
    Magnitude x (parts.1 ++ '.' :: (if parts.2 = [] then ['0'] else parts.2)) := by
  have hp {fraction : List Char} (h : fraction ≠ []) :
      parts.1 ++ '.' :: fraction = Double.pointed (parts.1, fraction) ++ [] := by
    rw [Double.pointed, if_neg h, List.append_nil]
  split
  · rename_i hf
    have hdigits : Nat.ofDigitChars 10 (parts.1 ++ ['0']) 0 = Nat.ofDigitChars 10 (parts.1 ++ parts.2) 0 * 10 ^ 1 := by
      rw [Nat.ofDigitChars_append, Nat.ofDigitChars_cons, Nat.mul_comm, hf, List.append_nil]
      rfl
    have hshift := @Decimal.toDouble_shift x.negative (Nat.ofDigitChars 10 (parts.1 ++ parts.2) 0) 1 0 0 (-1) (by decide)
    rw [Nat.pow_zero, Nat.mul_one, ← hdigits] at hshift
    rw [hp (List.cons_ne_nil _ _)]
    refine .mk ⟨hd.whole_ne_nil, hd.whole, List.forall_mem_singleton.mpr rfl⟩ .none nofun (hshift.trans (Eq.trans ?_ hx))
    rw [Digits.decimal, hf]
    rfl
  · rename_i hf
    rw [hp hf]
    refine .mk hd .none (absurd · hf) (Eq.trans ?_ hx)
    rw [List.drop_nil, show Numeral.signed [] = 0 from rfl, Int.zero_sub, Digits.decimal]

/-- One digit stands before the point; the exponent says how many of the others belong there. -/
theorem scientific_magnitude {d : Char} {ds : List Char} {e : Int} (hd : ∀ c ∈ d :: ds, c.isDigit = true)
    (hx : Decimal.toDouble x.negative ⟨Nat.ofDigitChars 10 (d :: ds) 0, e - ds.length⟩ = x) :
    Magnitude x (Double.pointed ([d], ds) ++ 'e' :: (if e < 0 then '-' else '+') :: Nat.toDigits 10 e.natAbs) := by
  have he : Numeral.signed ((if e < 0 then '-' else '+') :: Nat.toDigits 10 e.natAbs) = e := by
    split
    · rw [Numeral.signed_minus, Nat.ofDigitChars_ten_toDigits]
      omega
    · rw [Numeral.signed_plus, Nat.ofDigitChars_ten_toDigits]
      omega
  obtain ⟨hhead, htail⟩ := List.forall_mem_cons.mp hd
  refine .mk ⟨nofun, List.forall_mem_singleton.mpr hhead, htail⟩
    (.signed (by split <;> simp) (Decimal.toDigits_isDigit _)) (fun _ => nofun) ?_
  rw [List.drop_one, List.tail_cons, he]
  exact hx

/-- The text of a double but for its sign is of one of these forms. -/
theorem magnitude_written (hf : x.isFinite = true) :
    Magnitude x (if x.units = 0 then "0.0".toList else magnitudeChars x) := by
  split
  · rename_i hu
    exact zero_magnitude hf hu
  rename_i hu
  have hx := Double.shortest_reads .even hf
  obtain ⟨hd, z, hvalue, hpoint⟩ := (x.shortest .even).significant_value
  have hpos := (x.shortest .even).positional_reads
  generalize hs : x.shortest .even = decimal at hx hd hvalue hpoint hpos
  unfold magnitudeChars
  rw [hs]
  generalize decimal.significant = shown at hd hvalue hpoint hpos ⊢
  obtain ⟨digits, point⟩ := shown
  simp only
  split
  · exact pointed_magnitude hpos.1 ((hpos.2 _).trans hx)
  · cases digits with
    | nil =>
      refine absurd ?_ hu
      simp only [Nat.ofDigitChars_nil, Nat.zero_mul] at hvalue
      exact units_zero_of_digits (e := decimal.exponent) (by rw [← hvalue]; exact hx)
    | cons d ds =>
      rw [List.length_cons] at hpoint
      have hshift := @Decimal.toDouble_shift x.negative (Nat.ofDigitChars 10 (d :: ds) 0) 0 z decimal.exponent
        (point - 1 - ds.length) (by omega)
      rw [Nat.pow_zero, Nat.mul_one, ← hvalue] at hshift
      have hread := scientific_magnitude hd (hshift.trans hx)
      cases ds <;> exact hread

theorem readDecimal_reads {text : List Char} (h : Magnitude x text) : (readDecimal text).toDouble x.negative = x := by
  obtain ⟨hd, ht, -, hx⟩ := h
  rw [readDecimal_pointed hd ht]
  exact hx

/-- Digits come first, and a point or an exponent after them. -/
theorem Magnitude.shape {text : List Char} (h : Magnitude x text) :
    (∃ c cs, text = c :: cs ∧ c.isDigit = true) ∧ ('.' ∈ text ∨ 'e' ∈ text) := by
  obtain ⟨hd, ht, hmarked, -⟩ := h
  constructor
  · obtain ⟨c, cs, hc, hdigit⟩ := hd.pointed_head
    exact ⟨c, _, by rw [hc, List.cons_append], hdigit⟩
  · unfold Double.pointed
    split
    · rename_i hf
      cases ht with
      | none => exact absurd rfl (hmarked hf)
      | signed => simp
    · simp

theorem readDouble_doubleChars (hf : x.isFinite = true) : readDouble (doubleChars x) = x := by
  have hm := magnitude_written hf
  unfold doubleChars readDouble
  rw [if_pos hf]
  generalize (if x.units = 0 then "0.0".toList else magnitudeChars x) = text at hm ⊢
  have hread := readDecimal_reads hm
  obtain ⟨⟨c, cs, rfl, hc⟩, -⟩ := hm.shape
  cases hn : x.negative with
  | true =>
    rw [hn] at hread
    exact hread
  | false =>
    rw [hn] at hread
    simp only [Bool.false_eq_true, if_false, List.nil_append, Numeral.splitSign_digit hc]
    exact hread

end

/-! ## Leaves without quotes -/

/-- The characters of words and numbers. -/
def isPlain (c : Char) : Bool := c.isAlphanum || c == '.' || c == '+' || c == '-'

/-- The leaf that a text without quotes stands for. -/
def readLeaf (text : List Char) : Json :=
  if text.any Char.isDigit then
    if text.any fun c => c == '.' || c == 'e' then .double (readDouble text) else .integer (Numeral.signed text)
  else if text = "null".toList then .null
  else .bool (text = "true".toList)

theorem isPlain_of_isDigit {c : Char} (h : c.isDigit = true) : isPlain c = true := by
  simp [isPlain, Char.isAlphanum, h]

theorem Magnitude.plain {x : Double} {text : List Char} (h : Magnitude x text) : ∀ c ∈ text, isPlain c = true := by
  obtain ⟨hd, ht, -, -⟩ := h
  refine List.forall_mem_append.mpr ⟨fun c hc => ?_, ?_⟩
  · rcases hd.digit_or_point c hc with hc | rfl
    · exact isPlain_of_isDigit hc
    · rfl
  · cases ht with
    | none => nofun
    | signed hs hds =>
      refine List.forall_mem_cons.mpr ⟨rfl, List.forall_mem_cons.mpr ⟨?_, fun c hc => isPlain_of_isDigit (hds c hc)⟩⟩
      rcases hs with rfl | rfl <;> rfl

/-- A text without quotes that is not empty and reads as the leaf. -/
structure Leaf (text : List Char) (j : Json) : Prop where
  ne_nil : text ≠ []
  plain : ∀ c ∈ text, isPlain c = true
  reads : readLeaf text = j

theorem null_leaf : Leaf "null".toList .null := ⟨nofun, List.all_eq_true.mp rfl, rfl⟩

theorem bool_leaf (value : Bool) : Leaf (if value then "true" else "false").toList (.bool value) := by
  cases value
  · exact ⟨nofun, List.all_eq_true.mp rfl, rfl⟩
  · exact ⟨nofun, List.all_eq_true.mp rfl, rfl⟩

theorem signed_plain {negative : Bool} {text : List Char} (h : ∀ c ∈ text, isPlain c = true) :
    ∀ c ∈ (if negative then ['-'] else []) ++ text, isPlain c = true := by
  refine List.forall_mem_append.mpr ⟨?_, h⟩
  cases negative
  · nofun
  · exact List.forall_mem_singleton.mpr rfl

theorem integer_leaf (n : Int) : Leaf (integerChars n) (.integer n) := by
  have hd := Decimal.toDigits_isDigit n.natAbs
  obtain ⟨c, cs, hc⟩ := List.exists_cons_of_ne_nil (Nat.toDigits_ne_nil (n := n.natAbs) (b := 10))
  have hdigit : (integerChars n).any Char.isDigit = true := by
    rw [integerChars, List.any_append, hc, List.any_cons, hd c (by rw [hc]; simp)]
    simp
  have hpoint : (integerChars n).any (fun c => c == '.' || c == 'e') = false := by
    rw [integerChars, List.any_append, Bool.or_eq_false_iff]
    constructor
    · split <;> rfl
    · refine List.any_eq_false.mpr fun c hc hp => ?_
      rw [Bool.or_eq_true, beq_iff_eq, beq_iff_eq] at hp
      have := hd c hc
      rcases hp with rfl | rfl <;> cases this
  refine ⟨(by rintro he; rw [he] at hdigit; cases hdigit), ?_, ?_⟩
  · have := @signed_plain (decide (n < 0)) _ fun c hc => isPlain_of_isDigit (hd c hc)
    simpa [integerChars] using this
  · rw [readLeaf, if_pos hdigit, hpoint, if_neg Bool.false_ne_true, integerChars_reads]

theorem double_leaf {x : Double} (hf : x.isFinite = true) : Leaf (doubleChars x) (.double x) := by
  have hm := magnitude_written hf
  have hread := readDouble_doubleChars hf
  unfold doubleChars at hread ⊢
  rw [if_pos hf] at hread ⊢
  generalize (if x.units = 0 then "0.0".toList else magnitudeChars x) = text at hm hread ⊢
  have hplain := hm.plain
  obtain ⟨⟨c, cs, rfl, hc⟩, hpoint⟩ := hm.shape
  refine ⟨fun he => List.cons_ne_nil _ _ (List.append_eq_nil_iff.mp he).2, signed_plain hplain, ?_⟩
  have hdigit : ((if x.negative then ['-'] else []) ++ c :: cs).any Char.isDigit = true := by
    rw [List.any_append, List.any_cons, hc]
    simp
  rw [readLeaf, if_pos hdigit, if_pos, hread]
  rw [List.any_append, Bool.or_eq_true]
  refine .inr (List.any_eq_true.mpr ?_)
  rcases hpoint with h | h
  · exact ⟨_, h, rfl⟩
  · exact ⟨_, h, rfl⟩

/-- What may follow a leaf: nothing, or a character that stands in none. -/
def Ends (rest : List Char) : Prop := ∀ c ∈ rest.head?, isPlain c = false

theorem Leaf.unique {u v r s : List Char} {j k : Json} (hu : Leaf u j) (hv : Leaf v k) (hr : Ends r) (hs : Ends s)
    (h : u ++ r = v ++ s) : j = k ∧ r = s := by
  obtain ⟨htu, hdu⟩ := takeWhile_run hu.plain hr
  obtain ⟨htv, hdv⟩ := takeWhile_run hv.plain hs
  rw [h, htv] at htu
  rw [h, hdv] at hdu
  exact ⟨by rw [← hu.reads, ← hv.reads, htu], hdu.symm⟩

end Json

end ScriptLang
