/-
  ScriptLang.Proofs.Tree.Encoding — the JSON text of a program stands for that program alone.

  `Json.pretty` tells values apart, so it is left to tell trees apart by their values: tags tell
  the nodes, and the leaves are told by integers, doubles and texts that give them back. Only an
  infinite double, or one that is no number, has nothing but null for a value.
  - `Date.iso_inj`: no two dates have one text.
  - `Expr.toJson_finite`, `Stmt.toJson_finite`: the value of a tree is one that `pretty` tells.
  - `Expr.toJson_inj`, `Stmt.toJson_inj`: trees of finite doubles with one value are equal.
  - `Scope.pretty_eq_iff`: two programs of finite doubles have one text just when they are equal.
-/

import ScriptLang.Proofs.Json.Pretty
import ScriptLang.Proofs.Tree.WellFormed
import ScriptLang.Tree.Json

namespace ScriptLang

/-! ## Dates -/

namespace Date

theorem signed_yearChars (year : Int) : Numeral.signed (yearChars year) = year := by
  have hvalue : Nat.ofDigitChars 10 (padded 4 year.natAbs) 0 = year.natAbs := padded_value 4 year.natAbs
  unfold yearChars
  simp only
  split
  · rw [Numeral.signed_minus, hvalue]
    omega
  split
  · rw [Numeral.signed_plus, hvalue]
    omega
  · rw [Numeral.signed_digits (padded_isDigit 4 _), hvalue]
    omega

theorem padded_inj {width m n : Nat} (h : padded width m = padded width n) : m = n := by
  rw [← padded_value width m, h, padded_value]

/-- Month and day have two digits, so the year is all that stands before them. -/
theorem iso_inj {d e : Date} (h : d.iso = e.iso) : d = e := by
  have hlength {m n : Nat} (hm : m ≤ 31) (hn : n ≤ 31) : ('-' :: padded 2 m).length = ('-' :: padded 2 n).length := by
    rw [List.length_cons, List.length_cons, padded_length (by decide) (by omega), padded_length (by decide) (by omega)]
  have hd := d.day_le
  have he := e.day_le
  obtain ⟨hmonths, hday⟩ := List.append_inj' h (hlength hd.1 he.1)
  obtain ⟨hyear, hmonth⟩ := List.append_inj' hmonths (hlength (by omega) (by omega))
  have hyear : d.year = e.year := by rw [← signed_yearChars d.year, hyear, signed_yearChars]
  have hmonth := padded_inj (List.cons.inj hmonth).2
  have hday := padded_inj (List.cons.inj hday).2
  cases d
  cases e
  cases hyear
  cases hmonth
  cases hday
  rfl

end Date

/-! ## Values -/

namespace Json

@[simp] theorem tagged_inj {t u : String} {a b : Json} : tagged t a = tagged u b ↔ t = u ∧ a = b := by simp [tagged]

@[simp] theorem named_inj {m n : String} : named m = named n ↔ m = n := by simp [named]

@[simp] theorem tagged_ne_null {t : String} {a : Json} : tagged t a ≠ .null := nofun

@[simp] theorem finite_string (value : String) : (Json.string value).Finite := .string value

@[simp] theorem finite_object {fields : List (String × Json)} : (Json.object fields).Finite ↔ ∀ f ∈ fields, f.2.Finite :=
  ⟨fun h => by cases h; assumption, .object⟩

@[simp] theorem finite_tagged {t : String} {a : Json} : (tagged t a).Finite ↔ a.Finite := by simp [tagged]

@[simp] theorem finite_named (name : String) : (named name).Finite := by simp [named]

@[simp] theorem finite_nil : (Json.array []).Finite := .array nofun

@[simp] theorem finite_cons {item : Json} {items : List Json} (h : item.Finite) (hs : (Json.array items).Finite) :
    (Json.array (item :: items)).Finite := by
  cases hs with
  | array hs => exact .array (List.forall_mem_cons.mpr ⟨h, hs⟩)

@[simp] theorem finite_names (names : List String) : (Json.array (names.map named)).Finite := by
  refine .array ?_
  intro j hj
  obtain ⟨name, -, rfl⟩ := List.mem_map.mp hj
  exact finite_named name

end Json

open Json (tagged named)

theorem Literal.toJson_finite (v : Literal) : v.toJson.Finite := by
  cases v with
  | empty => exact .string _
  | boolean value => exact Json.finite_tagged.mpr (.bool value)
  | string value => exact Json.finite_tagged.mpr (.string value)
  | integer value => exact Json.finite_tagged.mpr (.integer value.toInt)
  | double x =>
    refine Json.finite_tagged.mpr ?_
    split
    · rename_i hf
      exact .double hf
    · exact .null
  | date value => exact Json.finite_tagged.mpr (.string _)

mutual

theorem Expr.toJson_finite (e : Expr) : e.toJson.Finite := by
  cases e <;> simp [Expr.toJson, Literal.toJson_finite, Expr.toJson_finite, Expr.toJsons_finite]

theorem Expr.toJsons_finite (es : List Expr) : (Json.array (Expr.toJsons es)).Finite := by
  cases es with
  | nil => exact Json.finite_nil
  | cons e es => exact Json.finite_cons (Expr.toJson_finite e) (Expr.toJsons_finite es)

end

mutual

theorem Stmt.toJson_finite (s : Stmt) : s.toJson.Finite := by
  cases s with
  | returns value => cases value <;> simp [Stmt.toJson, Json.Finite.null, Expr.toJson_finite]
  | _ => simp [Stmt.toJson, Json.Finite.null, Expr.toJson_finite, Stmt.toJsons_finite]

theorem Stmt.toJsons_finite (ss : List Stmt) : (Json.array (Stmt.toJsons ss)).Finite := by
  cases ss with
  | nil => exact Json.finite_nil
  | cons s ss => exact Json.finite_cons (Stmt.toJson_finite s) (Stmt.toJsons_finite ss)

end

/-! ## Telling trees apart -/

theorem BinaryOp.tag_inj {a b : BinaryOp} (h : a.tag = b.tag) : a = b := by
  have reads (op : BinaryOp) : ofTag? op.tag = some op := by cases op <;> rfl
  exact Option.some.inj (by rw [← reads a, h, reads])

theorem UnaryOp.tag_inj {a b : UnaryOp} (h : a.tag = b.tag) : a = b := by
  have reads (op : UnaryOp) : ofTag? op.tag = some op := by cases op <;> rfl
  exact Option.some.inj (by rw [← reads a, h, reads])

/-- Every double among the literals is a finite number. -/
def AllFinite (vs : List Literal) : Prop := ∀ x, .double x ∈ vs → x.isFinite = true

theorem AllFinite.append {us vs : List Literal} (h : AllFinite (us ++ vs)) : AllFinite us ∧ AllFinite vs :=
  ⟨fun x hx => h x (List.mem_append_left _ hx), fun x hx => h x (List.mem_append_right _ hx)⟩

theorem Literal.toJson_inj {v w : Literal} (h : v.toJson = w.toJson) (hv : AllFinite [v]) (hw : AllFinite [w]) : v = w := by
  cases v with
  | empty =>
    cases w with
    | empty => rfl
    | _ => cases h
  | boolean value =>
    cases w with
    | boolean value' => simpa [toJson] using h
    | _ => simp [toJson, tagged] at h
  | string value =>
    cases w with
    | string value' => simpa [toJson] using h
    | _ => simp [toJson, tagged] at h
  | integer n =>
    cases w with
    | integer m => simpa [toJson, Int64.toInt_inj] using h
    | _ => simp [toJson, tagged] at h
  | double x =>
    cases w with
    | double y => simpa [toJson, hv x (List.mem_singleton.mpr rfl), hw y (List.mem_singleton.mpr rfl)] using h
    | _ => simp [toJson, tagged] at h
  | date d =>
    cases w with
    | date e =>
      have hiso : d.iso = e.iso := String.ofList_inj.mp (by simpa [toJson] using h)
      rw [Date.iso_inj hiso]
    | _ => simp [toJson, tagged] at h

mutual

theorem Expr.toJson_inj {a b : Expr} (h : a.toJson = b.toJson) (ha : AllFinite a.literals) (hb : AllFinite b.literals) :
    a = b := by
  cases a with
  | literal v =>
    cases b with
    | literal w => rw [Literal.toJson_inj (by simpa [toJson] using h) ha hb]
    | _ => simp [toJson] at h
  | var name =>
    cases b with
    | var name' => simpa [toJson] using h
    | _ => simp [toJson] at h
  | call f as =>
    cases b with
    | call g bs =>
      obtain ⟨rfl, harguments⟩ : f = g ∧ Expr.toJsons as = Expr.toJsons bs := by simpa [toJson] using h
      rw [Expr.toJsons_inj harguments ha hb]
    | _ => simp [toJson] at h
  | element array i =>
    cases b with
    | element array' j =>
      obtain ⟨rfl, hindex⟩ : array = array' ∧ i.toJson = j.toJson := by simpa [toJson] using h
      rw [Expr.toJson_inj hindex ha hb]
    | _ => simp [toJson] at h
  | unary op e =>
    cases b with
    | unary op' f =>
      obtain ⟨hop, hoperand⟩ : op.tag = op'.tag ∧ e.toJson = f.toJson := by simpa [toJson] using h
      rw [UnaryOp.tag_inj hop, Expr.toJson_inj hoperand ha hb]
    | _ => simp [toJson] at h
  | binary op l r =>
    cases b with
    | binary op' l' r' =>
      obtain ⟨hop, hl, hr⟩ : op.tag = op'.tag ∧ l.toJson = l'.toJson ∧ r.toJson = r'.toJson := by simpa [toJson] using h
      rw [BinaryOp.tag_inj hop, Expr.toJson_inj hl ha.append.1 hb.append.1, Expr.toJson_inj hr ha.append.2 hb.append.2]
    | _ => simp [toJson] at h

theorem Expr.toJsons_inj {as bs : List Expr} (h : Expr.toJsons as = Expr.toJsons bs)
    (ha : AllFinite (Expr.allLiterals as)) (hb : AllFinite (Expr.allLiterals bs)) : as = bs := by
  cases as with
  | nil =>
    cases bs with
    | nil => rfl
    | cons b bs => cases h
  | cons a as =>
    cases bs with
    | nil => cases h
    | cons b bs =>
      obtain ⟨hhead, htail⟩ := List.cons.inj h
      rw [Expr.toJson_inj hhead ha.append.1 hb.append.1, Expr.toJsons_inj htail ha.append.2 hb.append.2]

end

theorem Expr.toJson_ne_null (e : Expr) : e.toJson ≠ .null := by cases e <;> exact Json.tagged_ne_null

/-- A missing value is told from a value. -/
theorem Stmt.toJson_returns (value : Option Expr) :
    (Stmt.returns value).toJson = tagged "Return" ((value.map Expr.toJson).getD .null) := by
  cases value <;> rfl

mutual

theorem Stmt.toJson_inj {a b : Stmt} (h : a.toJson = b.toJson) (ha : AllFinite a.literals) (hb : AllFinite b.literals) :
    a = b := by
  cases a with
  | declare name e =>
    cases b with
    | declare name' f =>
      obtain ⟨rfl, hvalue⟩ : name = name' ∧ e.toJson = f.toJson := by simpa [toJson] using h
      rw [Expr.toJson_inj hvalue ha hb]
    | _ => simp [toJson, ↓toJson_returns] at h
  | declareArray name e =>
    cases b with
    | declareArray name' f =>
      obtain ⟨rfl, hlength⟩ : name = name' ∧ e.toJson = f.toJson := by simpa [toJson] using h
      rw [Expr.toJson_inj hlength ha hb]
    | _ => simp [toJson, ↓toJson_returns] at h
  | assign name e =>
    cases b with
    | assign name' f =>
      obtain ⟨rfl, hvalue⟩ : name = name' ∧ e.toJson = f.toJson := by simpa [toJson] using h
      rw [Expr.toJson_inj hvalue ha hb]
    | _ => simp [toJson, ↓toJson_returns] at h
  | assignElement array i e =>
    cases b with
    | assignElement array' j f =>
      obtain ⟨rfl, hindex, hvalue⟩ : array = array' ∧ i.toJson = j.toJson ∧ e.toJson = f.toJson := by simpa [toJson] using h
      rw [Expr.toJson_inj hindex ha.append.1 hb.append.1, Expr.toJson_inj hvalue ha.append.2 hb.append.2]
    | _ => simp [toJson, ↓toJson_returns] at h
  | ifThen e body =>
    cases b with
    | ifThen f body' =>
      obtain ⟨hcondition, hbody⟩ : e.toJson = f.toJson ∧ toJsons body = toJsons body' := by simpa [toJson] using h
      rw [Expr.toJson_inj hcondition ha.append.1 hb.append.1, Stmt.toJsons_inj hbody ha.append.2 hb.append.2]
    | _ => simp [toJson, ↓toJson_returns] at h
  | ifElse e body otherwise =>
    cases b with
    | ifElse f body' otherwise' =>
      obtain ⟨hcondition, hbody, hotherwise⟩ :
          e.toJson = f.toJson ∧ toJsons body = toJsons body' ∧ toJsons otherwise = toJsons otherwise' := by
        simpa [toJson] using h
      rw [Expr.toJson_inj hcondition ha.append.1 hb.append.1,
        Stmt.toJsons_inj hbody ha.append.2.append.1 hb.append.2.append.1,
        Stmt.toJsons_inj hotherwise ha.append.2.append.2 hb.append.2.append.2]
    | _ => simp [toJson, ↓toJson_returns] at h
  | whileLoop e body =>
    cases b with
    | whileLoop f body' =>
      obtain ⟨hcondition, hbody⟩ : e.toJson = f.toJson ∧ toJsons body = toJsons body' := by simpa [toJson] using h
      rw [Expr.toJson_inj hcondition ha.append.1 hb.append.1, Stmt.toJsons_inj hbody ha.append.2 hb.append.2]
    | _ => simp [toJson, ↓toJson_returns] at h
  | define function parameters body =>
    cases b with
    | define function' parameters' body' =>
      obtain ⟨rfl, hparameters, hbody⟩ :
          function = function' ∧ parameters.map named = parameters'.map named ∧ toJsons body = toJsons body' := by
        simpa [toJson] using h
      rw [(List.map_inj_right fun _ _ => Json.named_inj.mp).mp hparameters, Stmt.toJsons_inj hbody ha hb]
    | _ => simp [toJson, ↓toJson_returns] at h
  | returns value =>
    cases b with
    | returns value' =>
      cases value with
      | none =>
        cases value' with
        | none => rfl
        | some f => simp [toJson, f.toJson_ne_null.symm] at h
      | some e =>
        cases value' with
        | none => simp [toJson, e.toJson_ne_null] at h
        | some f => rw [Expr.toJson_inj (by simpa [toJson] using h) ha hb]
    | _ => simp [toJson, ↓toJson_returns] at h
  | block body =>
    cases b with
    | block body' => rw [Stmt.toJsons_inj (by simpa [toJson] using h) ha hb]
    | _ => simp [toJson, ↓toJson_returns] at h
  | expression e =>
    cases b with
    | expression f => rw [Expr.toJson_inj (by simpa [toJson] using h) ha hb]
    | _ => simp [toJson, ↓toJson_returns] at h

theorem Stmt.toJsons_inj {as bs : List Stmt} (h : Stmt.toJsons as = Stmt.toJsons bs)
    (ha : AllFinite (Stmt.allLiterals as)) (hb : AllFinite (Stmt.allLiterals bs)) : as = bs := by
  cases as with
  | nil =>
    cases bs with
    | nil => rfl
    | cons b bs => cases h
  | cons a as =>
    cases bs with
    | nil => cases h
    | cons b bs =>
      obtain ⟨hhead, htail⟩ := List.cons.inj h
      rw [Stmt.toJson_inj hhead ha.append.1 hb.append.1, Stmt.toJsons_inj htail ha.append.2 hb.append.2]

end

/-- Two programs whose doubles are all finite have one JSON text just when they are equal. -/
theorem Scope.pretty_eq_iff {a b : Scope} (ha : ∀ x, .double x ∈ a.literals → x.isFinite = true)
    (hb : ∀ x, .double x ∈ b.literals → x.isFinite = true) : a.toJson.pretty = b.toJson.pretty ↔ a = b := by
  constructor
  · intro h
    have hjson : a.toJson = b.toJson := Json.pretty_inj (Stmt.toJsons_finite a) (Stmt.toJsons_finite b) h
    exact Stmt.toJsons_inj (Json.array.inj hjson) ha hb
  · rintro rfl
    rfl

/-- A missing else branch is told from an empty one. -/
theorem Scope.pretty_else_ne :
    (Scope.toJson [.ifThen (.literal (.double (.ofRatio false 1 2))) []]).pretty ≠
      (Scope.toJson [.ifElse (.literal (.double (.ofRatio false 1 2))) [] []]).pretty := by
  have hfinite : AllFinite [.double (.ofRatio false 1 2)] := by
    intro x hx
    cases List.mem_singleton.mp hx
    decide +kernel
  intro h
  have heq := (Scope.pretty_eq_iff (by exact hfinite) (by exact hfinite)).mp h
  cases (List.cons.inj heq).1

/-- Infinite doubles are not told from each other. -/
example : Scope.toJson [.returns (some (.literal (.double (.infinity true))))] =
    Scope.toJson [.returns (some (.literal (.double (.infinity false))))] := rfl

end ScriptLang
