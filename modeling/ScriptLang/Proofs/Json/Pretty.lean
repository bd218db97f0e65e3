/-
  ScriptLang.Proofs.Json.Pretty — no two JSON values are set out alike.

  The text of a value says where the value ends, whatever follows it, so equal texts are taken
  apart from the left: the first character tells strings, arrays, objects and leaves from each
  other, and what follows a member tells whether one more comes.
  - `enclosed_unique`: members that end where their texts say do so between brackets too.
  - `prettyAt_unambiguous`: so does a value without infinite doubles, at any depth.
  - `pretty_inj`: two such values have one text only if they are equal.
-/

import ScriptLang.Proofs.Json.Leaves

namespace ScriptLang

namespace Json

/-- No double in the value is infinite or no number; such a double would be written as null. -/
inductive Finite : Json → Prop
  | null : Finite .null
  | bool (value : Bool) : Finite (.bool value)
  | integer (value : Int) : Finite (.integer value)
  | double {value : Double} (h : value.isFinite = true) : Finite (.double value)
  | string (value : String) : Finite (.string value)
  | array {items : List Json} (h : ∀ j ∈ items, Finite j) : Finite (.array items)
  | object {fields : List (String × Json)} (h : ∀ f ∈ fields, Finite f.2) : Finite (.object fields)

/-- Of two things in one place, the texts tell which it is and where it ends. -/
def Unambiguous {α : Type} (text : α → List Char) (a b : α) : Prop :=
  ∀ {r s : List Char}, Ends r → Ends s → text a ++ r = text b ++ s → a = b ∧ r = s

/-! ## Members between brackets -/

section

variable {α : Type} {opening closing : Char} {depth : Nat} {r s : List Char}

/-- What stands behind a member: the other members and the bracket. -/
def following (closing : Char) (depth : Nat) : List (List Char) → List Char → List Char
  | [], rest => '\n' :: (indent depth ++ closing :: rest)
  | member :: members, rest => ',' :: '\n' :: (indent (depth + 1) ++ (member ++ following closing depth members rest))

theorem following_ends (members : List (List Char)) (rest : List Char) : Ends (following closing depth members rest) := by
  cases members <;> exact fun c hc => Option.some.inj hc ▸ rfl

theorem following_eq (members : List (List Char)) (rest : List Char) : following closing depth members rest =
    (members.map fun text => '\n' :: indent (depth + 1) ++ text).flatMap (',' :: ·) ++
      '\n' :: (indent depth ++ closing :: rest) := by
  induction members with
  | nil => rfl
  | cons member members ih => simp [following, ih]

theorem enclosed_cons (member : List Char) (members : List (List Char)) (rest : List Char) :
    enclosed opening closing depth (member :: members) ++ rest =
      opening :: '\n' :: (indent (depth + 1) ++ (member ++ following closing depth members rest)) := by
  simp [enclosed, intercalate_mark, following_eq]

/-- Where each member ends as its text says, so do all of them. -/
theorem following_unique {text : α → List Char} {as bs : List α}
    (hunique : ∀ a ∈ as, ∀ b ∈ bs, Unambiguous text a b)
    (h : following closing depth (as.map text) r = following closing depth (bs.map text) s) : as = bs ∧ r = s := by
  induction as generalizing bs with
  | nil =>
    cases bs with
    | nil => exact ⟨rfl, (List.cons.inj (List.append_cancel_left (List.cons.inj h).2)).2⟩
    | cons => exact absurd (List.cons.inj h).1 (by decide)
  | cons a as ih =>
    cases bs with
    | nil => exact absurd (List.cons.inj h).1 (by decide)
    | cons b bs =>
      have hmember := List.append_cancel_left (List.cons.inj (List.cons.inj h).2).2
      obtain ⟨rfl, hrest⟩ := hunique a (List.mem_cons_self ..) b (List.mem_cons_self ..) (following_ends _ _)
        (following_ends _ _) hmember
      obtain ⟨rfl, rfl⟩ := ih (fun a ha b hb => hunique a (List.mem_cons_of_mem _ ha) b (List.mem_cons_of_mem _ hb)) hrest
      exact ⟨rfl, rfl⟩

theorem enclosed_unique {text : α → List Char} {as bs : List α} (hclosing : closing ≠ '\n')
    (hunique : ∀ a ∈ as, ∀ b ∈ bs, Unambiguous text a b)
    (h : enclosed opening closing depth (as.map text) ++ r = enclosed opening closing depth (bs.map text) ++ s) :
    as = bs ∧ r = s := by
  cases as with
  | nil =>
    cases bs with
    | nil => exact ⟨rfl, (List.cons.inj (List.cons.inj h).2).2⟩
    | cons b bs =>
      rw [List.map_cons, enclosed_cons] at h
      exact absurd (List.cons.inj (List.cons.inj h).2).1 hclosing
  | cons a as =>
    cases bs with
    | nil =>
      rw [List.map_cons, enclosed_cons] at h
      exact absurd (List.cons.inj (List.cons.inj h).2).1.symm hclosing
    | cons b bs =>
      rw [List.map_cons, List.map_cons, enclosed_cons, enclosed_cons] at h
      exact following_unique hunique (congrArg (',' :: ·) (List.cons.inj h).2)

end

/-! ## Values -/

theorem prettyItems_eq (depth : Nat) (items : List Json) : prettyItems depth items = items.map (prettyAt depth) := by
  induction items with
  | nil => rfl
  | cons item items ih => rw [prettyItems, ih, List.map_cons]

def fieldChars (depth : Nat) (field : String × Json) : List Char :=
  stringChars field.1 ++ ": ".toList ++ prettyAt depth field.2

theorem prettyFields_eq (depth : Nat) (fields : List (String × Json)) :
    prettyFields depth fields = fields.map (fieldChars depth) := by
  induction fields with
  | nil => rfl
  | cons field fields ih => rw [prettyFields, ih, List.map_cons, fieldChars]

/-- The character that a value starts with, if it is none of a leaf without quotes. -/
def lead : Json → Option Char
  | .string _ => some '"'
  | .array _ => some '['
  | .object _ => some '{'
  | _ => none

variable {a b : Json} {depth : Nat} {r s : List Char}

theorem leaf_of_lead (depth : Nat) (h : a.Finite) (hl : a.lead = none) : Leaf (prettyAt depth a) a := by
  cases h with
  | null => exact null_leaf
  | bool value => exact bool_leaf value
  | integer value => exact integer_leaf value
  | double hx => exact double_leaf hx
  | string => cases hl
  | array => cases hl
  | object => cases hl

theorem prettyAt_lead (depth : Nat) {c : Char} (hl : a.lead = some c) :
    isPlain c = false ∧ ∃ text, prettyAt depth a = c :: text := by
  have hb (opening closing : Char) (members) : ∃ text, enclosed opening closing depth members = opening :: text := by
    cases members <;> exact ⟨_, rfl⟩
  cases a <;> cases hl
  · exact ⟨rfl, _, rfl⟩
  · exact ⟨by decide, hb ..⟩
  · exact ⟨by decide, hb ..⟩

/-- Values with one text start alike. -/
theorem lead_eq (ha : a.Finite) (hb : b.Finite) (h : prettyAt depth a ++ r = prettyAt depth b ++ s) : a.lead = b.lead := by
  -- A leaf starts with a character of its own, which no other value starts with.
  have clash {a b : Json} {r s : List Char} {c : Char} (ha : a.Finite) (hla : a.lead = none) (hlb : b.lead = some c)
      (h : prettyAt depth a ++ r = prettyAt depth b ++ s) : False := by
    obtain ⟨hc, text, htext⟩ := prettyAt_lead depth hlb
    have hleaf := leaf_of_lead depth ha hla
    obtain ⟨d, ds, hd⟩ := List.exists_cons_of_ne_nil hleaf.ne_nil
    rw [htext, hd] at h
    obtain ⟨rfl, -⟩ := List.cons.inj h
    have := hleaf.plain d (by rw [hd]; exact List.mem_cons_self ..)
    rw [hc] at this
    cases this
  cases hla : a.lead with
  | none =>
    cases hlb : b.lead with
    | none => rfl
    | some d => exact (clash ha hla hlb h).elim
  | some c =>
    cases hlb : b.lead with
    | none => exact (clash hb hlb hla h.symm).elim
    | some d =>
      obtain ⟨-, u, hu⟩ := prettyAt_lead depth hla
      obtain ⟨-, v, hv⟩ := prettyAt_lead depth hlb
      rw [hu, hv] at h
      exact congrArg some (List.cons.inj h).1

theorem leaf_unambiguous (ha : a.Finite) (hb : b.Finite) (hl : a.lead = none) : Unambiguous (prettyAt depth) a b :=
  fun hr hs h => (leaf_of_lead depth ha hl).unique (leaf_of_lead depth hb (lead_eq ha hb h ▸ hl)) hr hs h

theorem field_unambiguous {f g : String × Json} (h : Unambiguous (prettyAt depth) f.2 g.2) :
    Unambiguous (fieldChars depth) f g := by
  intro r s hr hs htext
  simp only [fieldChars, List.append_assoc] at htext
  obtain ⟨hkey, hrest⟩ := stringChars_unique htext
  obtain ⟨hvalue, hrs⟩ := h hr hs (List.append_cancel_left hrest)
  exact ⟨Prod.ext hkey hvalue, hrs⟩

/-- A value ends where its text says, and no other value has that text. -/
theorem prettyAt_unambiguous (ha : a.Finite) (hb : b.Finite) : Unambiguous (prettyAt depth) a b := by
  induction ha generalizing b depth with
  | null => exact leaf_unambiguous .null hb rfl
  | bool value => exact leaf_unambiguous (.bool value) hb rfl
  | integer value => exact leaf_unambiguous (.integer value) hb rfl
  | double hx => exact leaf_unambiguous (.double hx) hb rfl
  | string value =>
    intro r s _ _ h
    have hlead := lead_eq (.string value) hb h
    cases hb <;> cases hlead
    obtain ⟨rfl, rfl⟩ := stringChars_unique h
    exact ⟨rfl, rfl⟩
  | array hitems ih =>
    intro r s _ _ h
    have hlead := lead_eq (.array hitems) hb h
    cases hb <;> cases hlead
    rename_i hitems'
    simp only [prettyAt, prettyItems_eq] at h
    obtain ⟨rfl, rfl⟩ := enclosed_unique (by decide) (fun i hi j hj => ih i hi (hitems' j hj)) h
    exact ⟨rfl, rfl⟩
  | object hfields ih =>
    intro r s _ _ h
    have hlead := lead_eq (.object hfields) hb h
    cases hb <;> cases hlead
    rename_i hfields'
    simp only [prettyAt, prettyFields_eq] at h
    obtain ⟨rfl, rfl⟩ :=
      enclosed_unique (by decide) (fun f hf g hg => field_unambiguous (ih f hf (hfields' g hg))) h
    exact ⟨rfl, rfl⟩

theorem pretty_inj (ha : a.Finite) (hb : b.Finite) (h : a.pretty = b.pretty) : a = b := by
  have hends : Ends [] := nofun
  have htext : prettyAt 0 a ++ [] = prettyAt 0 b ++ [] := congrArg (· ++ []) h
  exact (prettyAt_unambiguous ha hb hends hends htext).1

end Json

end ScriptLang
