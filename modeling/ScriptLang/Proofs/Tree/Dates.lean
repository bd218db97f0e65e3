/-
  ScriptLang.Proofs.Tree.Dates — the dates that a program can write.

  A date token is read as a date if its text is what is written for that date, character for
  character, and otherwise its text is found fault with. So no date has two texts, and a text
  is never taken for a day that the calendar does not have.
-/

import ScriptLang.Grammar.Expression
import ScriptLang.Proofs.Calendar.Written

namespace ScriptLang.Grammar

open Date (IsDay)

/-- A date token is read as a date, or its text is malformed. -/
theorem literalOf_date_cases (u : String) : (∃ d : Date, literalOf ⟨.date, u⟩ = .ok (some (.date d))) ∨
    literalOf ⟨.date, u⟩ = .error (.malformed ⟨.date, u⟩ .date) := by
  simp only [literalOf, Literal.ofDate?]
  cases Date.ofChars? u.toList with
  | none => exact .inr rfl
  | some d => exact .inl ⟨d, rfl⟩

theorem literalOf_date_iff {u : String} {d : Date} :
    literalOf ⟨.date, u⟩ = .ok (some (.date d)) ↔ Date.ofChars? u.toList = some d := by
  simp only [literalOf, Literal.ofDate?]
  cases Date.ofChars? u.toList <;> simp

/-- A text is read as a date just if it is what is written for that date, whose year has four
    digits, and is malformed just if there is no such date. The dates that are read are the days
    of those years that the calendar has. -/
theorem literalOf_date :
    (∀ (u : String) (d : Date), literalOf ⟨.date, u⟩ = .ok (some (.date d)) ↔
      (0 ≤ d.year ∧ d.year ≤ 9999) ∧ u = String.ofList (Literal.date d).source) ∧
    (∀ u : String, literalOf ⟨.date, u⟩ = .error (.malformed ⟨.date, u⟩ .date) ↔
      ¬ ∃ d : Date, (0 ≤ d.year ∧ d.year ≤ 9999) ∧ u = String.ofList (Literal.date d).source) ∧
    ∀ (year : Int) (month day : Nat), (IsDay year month day ∧ 0 ≤ year ∧ year ≤ 9999) ↔
      ∃ (u : String) (d : Date), literalOf ⟨.date, u⟩ = .ok (some (.date d)) ∧
        d.year = year ∧ d.month = month ∧ d.day = day := by
  have reads (u : String) (d : Date) : literalOf ⟨.date, u⟩ = .ok (some (.date d)) ↔
      (0 ≤ d.year ∧ d.year ≤ 9999) ∧ u = String.ofList (Literal.date d).source := by
    rw [literalOf_date_iff, Date.ofChars?_eq_some_iff, Literal.source, ← String.toList_inj, String.toList_ofList]
  refine ⟨reads, fun u => ⟨?_, ?_⟩, fun year month day => ⟨?_, ?_⟩⟩
  · rintro hf ⟨d, hd⟩
    rw [(reads u d).mpr hd] at hf
    cases hf
  · intro hno
    exact (literalOf_date_cases u).resolve_left fun ⟨d, hd⟩ => hno ⟨d, (reads u d).mp hd⟩
  · rintro ⟨hday, hyear⟩
    let d : Date := ⟨year, month, day, Date.isDay_iff.mpr hday⟩
    exact ⟨_, d, (reads _ d).mpr ⟨hyear, rfl⟩, rfl, rfl, rfl⟩
  · rintro ⟨u, d, hd, rfl, rfl, rfl⟩
    exact ⟨Date.isDay_iff.mp d.exists_day, ((reads u d).mp hd).1⟩

end ScriptLang.Grammar
