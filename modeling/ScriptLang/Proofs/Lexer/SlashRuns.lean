/-
  ScriptLang.Proofs.Lexer.SlashRuns — groups of digits with slashes between them.

  Such a run lexes to its operands with slashes between them. Wherever an operand starts, the
  next three groups are a date if they have its widths, and otherwise one group is a number.
  So a date is also taken out of a longer run, where it was meant to be divided.
  - `Lexes.slashRun`: the tokens of a run.
  - `operands_eq_wholeOperands`: these are those of a division, or of one date, just when no
    three groups of a longer run have the widths of a date.
-/

import ScriptLang.Proofs.Lexer.Writing

namespace ScriptLang

open Lexeme
open Token (Kind)

/-- A non-empty run of digits. -/
structure IsGroup (ds : List Char) : Prop where
  ne_nil : ds ≠ []
  digits : ∀ c ∈ ds, c.isDigit = true

theorem isGroup_of_all {ds : List Char} (h : ds ≠ []) (hd : ds.all Char.isDigit = true) : IsGroup ds :=
  ⟨h, List.all_eq_true.mp hd⟩

/-- The widths of a date's three groups. -/
def DateWidths (day month year : List Char) : Prop := day.length = 2 ∧ month.length = 2 ∧ year.length = 4

instance (day month year : List Char) : Decidable (DateWidths day month year) := inferInstanceAs (Decidable (_ ∧ _))

def Token.ofGroup (ds : List Char) : Token := ⟨.number, String.ofList ds⟩

def Token.ofGroups (day month year : List Char) : Token := ⟨.date, String.ofList (day ++ '/' :: (month ++ '/' :: year))⟩

def Token.slash : Token := ⟨.slash, String.ofList ['/']⟩

/-- The operands of a run, from the left. -/
def operands : List (List Char) → List Token
  | day :: month :: year :: gs =>
    if DateWidths day month year then .ofGroups day month year :: operands gs
    else .ofGroup day :: operands (month :: year :: gs)
  | g :: gs => .ofGroup g :: operands gs
  | [] => []

/-- The operands of a run that is a date as a whole or a division of numbers. -/
def wholeOperands (gs : List (List Char)) : List Token :=
  match gs with
  | [day, month, year] => if DateWidths day month year then [.ofGroups day month year] else gs.map .ofGroup
  | _ => gs.map .ofGroup

/-- Three groups with the widths of a date stand side by side in the run, between these others. -/
def DateBetween (before after gs : List (List Char)) : Prop :=
  ∃ day month year, DateWidths day month year ∧ gs = before ++ day :: month :: year :: after

/-! ## The text of a run -/

/-- The groups with a slash before each. -/
def slashed (gs : List (List Char)) : List Char := gs.flatMap ('/' :: ·)

@[simp] theorem slashed_nil : slashed [] = [] := rfl

@[simp] theorem slashed_cons (g : List Char) (gs : List (List Char)) : slashed (g :: gs) = '/' :: (g ++ slashed gs) := rfl

theorem slashed_head (gs : List (List Char)) : ∀ c ∈ (slashed gs).head?, c = '/' := by
  cases gs with
  | nil => exact nofun
  | cons g gs => exact fun c hc => (Option.some.inj hc).symm

theorem slashed_not_digit (gs : List (List Char)) : ∀ c ∈ (slashed gs).head?, c.isDigit = false :=
  fun c hc => by rw [slashed_head gs c hc]; rfl

theorem intercalate_slash (g : List Char) (gs : List (List Char)) : ['/'].intercalate (g :: gs) = g ++ slashed gs :=
  intercalate_mark '/' g gs

/-! ## The lexemes of a run -/

section

variable {g : List Char} {gs : List (List Char)} {ts : List Token}

theorem dateTail?_slashed (hgs : ∀ g ∈ gs, IsGroup g)
    (hno : ∀ month year gs', gs = month :: year :: gs' → month.length = 2 → year.length ≠ 4) :
    dateTail? (slashed gs) = none := by
  have group {g : List Char} {gs : List (List Char)} (hg : IsGroup g) (width : Nat) :
      slashGroup? width (slashed (g :: gs)) = if g.length = width then some ('/' :: g, slashed gs) else none :=
    Lexes.slashGroup?_run width hg.digits (slashed_not_digit gs)
  match gs with
  | [] => rfl
  | [month] =>
    have hm : slashGroup? 2 (slashed [month]) = _ := group (hgs month (by simp)) 2
    simp only [dateTail?, hm]
    split <;> rfl
  | month :: year :: gs =>
    have hm : slashGroup? 2 (slashed (month :: year :: gs)) = _ := group (hgs month (by simp)) 2
    have hy : slashGroup? 4 (slashed (year :: gs)) = _ := group (hgs year (by simp)) 4
    by_cases h2 : month.length = 2
    · rw [dateTail?, hm, if_pos h2]
      simp only [Option.bind_eq_bind, Option.bind_some, hy, if_neg (hno _ _ _ rfl h2)]
      rfl
    · rw [dateTail?, hm, if_neg h2]
      rfl

/-- A group that no date starts with is a number. -/
theorem Lexes.group (hg : IsGroup g) (hno : g.length = 2 → dateTail? (slashed gs) = none) (h : Lexes (slashed gs) ts) :
    Lexes (g ++ slashed gs) (.ofGroup g :: ts) := by
  cases g with
  | nil => exact absurd rfl hg.ne_nil
  | cons c cs =>
    have hc : c.isDigit = true := hg.digits c (List.mem_cons_self ..)
    obtain ⟨htake, hdrop⟩ := takeWhile_run (fun d hd => hg.digits d (List.mem_cons_of_mem _ hd)) (slashed_not_digit gs)
    have hfraction : fraction (slashed gs) = ([], slashed gs) := by
      unfold fraction
      split
      · rename_i heq
        have := slashed_head gs '.' (by rw [heq]; rfl)
        cases this
      · rfl
    have hs : scan c (cs ++ slashed gs) = ofToken .number (c :: cs) (slashed gs) := by
      rw [(scan_digit _ hc).2, scanNumber, htake, hdrop]
      by_cases hl : (c :: cs).length = 2
      · simp only [if_pos hl, hno hl, hfraction, List.append_nil]
      · simp only [if_neg hl, hfraction, List.append_nil]
    have hkind : Kind.number ≠ .endOfText := by decide
    rw [List.cons_append]
    exact .lexeme (scan_digit [] hc).1 (by rw [hs]; rfl) hkind (by rw [hs]; exact h)

theorem operands_ne_nil (hgs : gs ≠ []) : operands gs ≠ [] := by
  unfold operands
  split
  · split <;> exact nofun
  · exact nofun
  · exact absurd rfl hgs

/-- An operand in front of a run that goes on, or of its end. -/
theorem Lexes.operand {u : List Char} {t : Token} (hu : ∀ {ts}, Lexes (slashed gs) ts → Lexes (u ++ slashed gs) (t :: ts))
    (h : gs ≠ [] → Lexes (['/'].intercalate gs) ((operands gs).intersperse .slash)) :
    Lexes (u ++ slashed gs) ((t :: operands gs).intersperse .slash) := by
  cases gs with
  | nil => exact hu .nil
  | cons g gs =>
    have hrun := h (List.cons_ne_nil g gs)
    obtain ⟨o, os, ho⟩ := List.exists_cons_of_ne_nil (operands_ne_nil (List.cons_ne_nil g gs))
    rw [intercalate_slash] at hrun
    rw [ho] at hrun ⊢
    exact hu (.mark rfl hrun)

/-- A run lexes to its operands, with a slash between any two of them. -/
theorem Lexes.slashRun (hne : gs ≠ []) (hgs : ∀ g ∈ gs, IsGroup g) :
    Lexes (['/'].intercalate gs) ((operands gs).intersperse .slash) := by
  induction gs using operands.induct with
  | case1 day month year gs hw ih =>
    obtain ⟨hd, hm, hy, hgs⟩ : IsGroup day ∧ IsGroup month ∧ IsGroup year ∧ ∀ g ∈ gs, IsGroup g := by
      simpa using hgs
    have htext : ['/'].intercalate (day :: month :: year :: gs) = (day ++ '/' :: (month ++ '/' :: year)) ++ slashed gs := by
      simp [intercalate_slash]
    rw [htext, operands, if_pos hw]
    refine .operand (fun h => ?_) fun hne => ih hne hgs
    have hdigits : ∀ c ∈ day ++ month ++ year, c.isDigit = true :=
      List.forall_mem_append.mpr ⟨List.forall_mem_append.mpr ⟨hd.digits, hm.digits⟩, hy.digits⟩
    have hdate := Lexes.date hw hdigits (slashed_not_digit gs) h
    simpa only [List.append_assoc, List.cons_append, Token.ofGroups] using hdate
  | case2 day month year gs hw ih =>
    obtain ⟨hd, hgs⟩ := List.forall_mem_cons.mp hgs
    rw [intercalate_slash, operands, if_neg hw]
    refine .operand (.group hd fun hl => dateTail?_slashed hgs ?_) fun hne => ih hne hgs
    intro m y gs' he hm hy
    cases he
    exact hw ⟨hl, hm, hy⟩
  | case3 g gs hno ih =>
    obtain ⟨hg, hgs⟩ := List.forall_mem_cons.mp hgs
    rw [intercalate_slash, operands]
    · exact .operand (.group hg fun _ => dateTail?_slashed hgs fun m y gs' he => absurd he (hno m y gs')) fun hne => ih hne hgs
    · exact hno
  | case4 => exact absurd rfl hne

end

/-! ## Dates in longer runs -/

section

variable {gs : List (List Char)}

/-- Where no three groups have the widths of a date, every operand is a number. -/
theorem operands_eq_map (h : ∀ before after, ¬ DateBetween before after gs) : operands gs = gs.map .ofGroup := by
  induction gs using operands.induct with
  | case1 day month year gs hw => exact absurd ⟨day, month, year, hw, rfl⟩ (h [] gs)
  | case2 day month year gs hw ih =>
    rw [operands, if_neg hw, List.map_cons, ih]
    rintro before after ⟨d, m, y, hd, hgs⟩
    exact h (day :: before) after ⟨d, m, y, hd, congrArg _ hgs⟩
  | case3 g gs hno ih =>
    rw [operands, List.map_cons, ih]
    · rintro before after ⟨d, m, y, hd, hgs⟩
      exact h (g :: before) after ⟨d, m, y, hd, congrArg _ hgs⟩
    · exact hno
  | case4 => rfl

/-- Three groups with the widths of a date make one operand a date, if not the date of these three. -/
theorem exists_date_of_between {before after : List (List Char)} (h : DateBetween before after gs) :
    ∃ t ∈ operands gs, t.kind = .date := by
  obtain ⟨d, m, y, hw, rfl⟩ := h
  -- A date that starts before `d` may take `d` or `m`; it is a date as well.
  induction before with
  | nil => exact ⟨.ofGroups d m y, by simp [operands, hw], rfl⟩
  | cons g before ih =>
    obtain ⟨t, ht, hk⟩ := ih
    obtain ⟨g', g'', gs, hgs⟩ : ∃ g' g'' gs, before ++ d :: m :: y :: after = g' :: g'' :: gs := by
      match before with
      | [] => exact ⟨d, m, _, rfl⟩
      | [b] => exact ⟨b, d, _, rfl⟩
      | b :: b' :: before => exact ⟨b, b', _, rfl⟩
    rw [List.cons_append, hgs]
    rw [hgs] at ht
    by_cases hw' : DateWidths g g' g''
    · exact ⟨.ofGroups g g' g'', by simp [operands, hw'], rfl⟩
    · exact ⟨t, by simp [operands, hw', ht], hk⟩

theorem not_mem_map_ofGroup {t : Token} (hk : t.kind = .date) : t ∉ gs.map .ofGroup := by
  intro ht
  obtain ⟨g, -, rfl⟩ := List.mem_map.mp ht
  cases hk

/-- A run is lexed as a date or a division as a whole, just when no part of a longer run looks like a date. -/
theorem operands_eq_wholeOperands : operands gs = wholeOperands gs ↔
    ∀ before after, DateBetween before after gs → before = [] ∧ after = [] := by
  by_cases hwhole : DateBetween [] [] gs
  · obtain ⟨d, m, y, hw, rfl⟩ := hwhole
    refine iff_of_true (by simp [operands, wholeOperands, hw]) ?_
    rintro before after ⟨d', m', y', -, he⟩
    have hl := congrArg List.length he
    simp only [List.nil_append, List.length_append, List.length_cons, List.length_nil] at hl
    exact ⟨List.length_eq_zero_iff.mp (by omega), List.length_eq_zero_iff.mp (by omega)⟩
  · have hnumbers : wholeOperands gs = gs.map .ofGroup := by
      unfold wholeOperands
      split
      · exact if_neg fun hw => hwhole ⟨_, _, _, hw, rfl⟩
      · rfl
    rw [hnumbers]
    constructor
    · intro he before after h
      obtain ⟨t, ht, hk⟩ := exists_date_of_between h
      exact absurd (he ▸ ht) (not_mem_map_ofGroup hk)
    · intro h
      refine operands_eq_map fun before after hb => hwhole ?_
      obtain ⟨rfl, rfl⟩ := h before after hb
      exact hb

/-- The tokens of a run are its operands from the left, slashes, and the end. They are those of one
    date or of a division if and only if no date is found in part of a run. -/
theorem Lexer.items_slashRun (hne : gs ≠ []) (hgs : ∀ g ∈ gs, IsGroup g) :
    (Lexer.ofText (String.ofList (['/'].intercalate gs))).items.map Prod.fst =
        ((operands gs).intersperse .slash).map .ok ++ [.ok Token.endOfText] ∧
      (operands gs = wholeOperands gs ↔ ∀ before after, DateBetween before after gs → before = [] ∧ after = []) := by
  have hl := Lexes.slashRun hne hgs
  rw [← String.toList_ofList (l := ['/'].intercalate gs)] at hl
  exact ⟨hl.items, operands_eq_wholeOperands⟩

/-- The first group has a number of its own, and the date is taken out of the others. -/
theorem Lexer.items_slashRun_second : (Lexer.ofText "10/01/02/2024").items.map Prod.fst =
    [.ok ⟨.number, "10"⟩, .ok ⟨.slash, "/"⟩, .ok ⟨.date, "01/02/2024"⟩, .ok Token.endOfText] := by
  have hgs : ∀ g ∈ [['1', '0'], ['0', '1'], ['0', '2'], ['2', '0', '2', '4']], IsGroup g := by
    simp only [List.forall_mem_cons]
    exact ⟨isGroup_of_all nofun rfl, isGroup_of_all nofun rfl, isGroup_of_all nofun rfl, isGroup_of_all nofun rfl, nofun⟩
  exact (items_slashRun (List.cons_ne_nil _ _) hgs).1

/-- A division of four numbers starts with the widths of a date. -/
theorem Lexer.items_slashRun_first : (Lexer.ofText "31/12/2023/5").items.map Prod.fst =
      [.ok ⟨.date, "31/12/2023"⟩, .ok ⟨.slash, "/"⟩, .ok ⟨.number, "5"⟩, .ok Token.endOfText] ∧
    (wholeOperands ["31".toList, "12".toList, "2023".toList, "5".toList]).intersperse .slash =
      [⟨.number, "31"⟩, ⟨.slash, "/"⟩, ⟨.number, "12"⟩, ⟨.slash, "/"⟩, ⟨.number, "2023"⟩, ⟨.slash, "/"⟩, ⟨.number, "5"⟩] := by
  have hgs : ∀ g ∈ [['3', '1'], ['1', '2'], ['2', '0', '2', '3'], ['5']], IsGroup g := by
    simp only [List.forall_mem_cons]
    exact ⟨isGroup_of_all nofun rfl, isGroup_of_all nofun rfl, isGroup_of_all nofun rfl, isGroup_of_all nofun rfl, nofun⟩
  have hl : Lexes "31/12/2023/5".toList _ := Lexes.slashRun (List.cons_ne_nil _ _) hgs
  exact ⟨hl.items, rfl⟩

end

end ScriptLang
