/-
  ScriptLang.Proofs.Tree.Numbers — numbers read, written and read again.

  The text of a number token is read as an integer or a double. What is written of that is one
  number token, which is read as the same literal, on either side of 2^63 and however long the
  text is. Only a number that rounds to infinity is lost: it is written as a name.
  - `Lexer.number_ofClass`: what is known of the text of a number token.
  - `Lexer.number_again`: what is read is read again, unless it is infinite.
-/

import ScriptLang.Proofs.Grammar.Refusals
import ScriptLang.Proofs.Lexer.Writing
import ScriptLang.Proofs.Tree.Written

namespace ScriptLang

open Token (Kind)

/-- A double that is a number and has no sign is finite, or the infinite one. -/
theorem Double.eq_infinity {x : Double} (hf : x.isFinite = false) (hn : x.negative = false) (hnan : x.isNaN = false) :
    x = .infinity false := by
  obtain ⟨negative, magnitude, hm⟩ := x
  simp only [isFinite, isNaN, decide_eq_false_iff_not] at hf hnan
  obtain rfl : magnitude = infinite := by omega
  obtain rfl : negative = false := hn
  rfl

theorem Lexer.number_ofClass {l : Lexer} {u : String} (h : l.next.1 = .ok ⟨.number, u⟩) :
    ∃ parts, Digits parts ∧ u.toList = Double.pointed parts := by
  have hp : l.pull = (.ok ⟨.number, u⟩, l.next.2) := by rw [pull, h]; rfl
  rcases pull_ok hp with ⟨he, -⟩ | ⟨c, cs, -, -, ht, -⟩
  · cases he
  · exact Lexeme.scan_ofClass ht

namespace Literal

/-- A literal that is written as a number is one token, which is read as that literal. -/
theorem NumberSource.again {v : Literal} (h : v.NumberSource) :
    (Lexer.ofText (String.ofList v.source)).items.map Prod.fst =
        [.ok ⟨.number, String.ofList v.source⟩, .ok Token.endOfText] ∧
      ofNumber? (String.ofList v.source) = some v := by
  have hl : Lexes (String.ofList v.source).toList [⟨.number, String.ofList v.source⟩] := by
    rw [String.toList_ofList]
    have : Lexes (v.source ++ []) _ := h.lexes nofun .nil
    rwa [List.append_nil] at this
  exact ⟨hl.items, h.reads⟩

/-- An infinite double is written as a name. -/
theorem infinity_items : (Lexer.ofText (String.ofList (double (.infinity false)).source)).items.map Prod.fst =
    [.ok ⟨.name, "inf"⟩, .ok Token.endOfText] := by
  have hl : Lexes "inf".toList [⟨.name, "inf"⟩] :=
    @Lexes.keyword [] [] 'i' ['n', 'f'] _ rfl rfl rfl nofun .nil
  rw [source, infinite_source rfl rfl rfl]
  exact hl.items

end Literal

/-- The number of a token is an integer or a double. What it is written as is one number token
    and is read as the same literal, but for an infinite double, which is written as a name. -/
theorem Lexer.number_again {l : Lexer} {u : String} (h : l.next.1 = .ok ⟨.number, u⟩) : ∃ v,
    Literal.ofNumber? u = some v ∧ ((∃ n, v = .integer n) ∨ ∃ x, v = .double x) ∧
    (v ≠ .double (.infinity false) →
      (Lexer.ofText (String.ofList v.source)).items.map Prod.fst =
          [.ok ⟨.number, String.ofList v.source⟩, .ok Token.endOfText] ∧
        Literal.ofNumber? (String.ofList v.source) = some v) ∧
    (v = .double (.infinity false) →
      (Lexer.ofText (String.ofList v.source)).items.map Prod.fst = [.ok ⟨.name, "inf"⟩, .ok Token.endOfText]) := by
  obtain ⟨parts, hp, hu⟩ := number_ofClass h
  obtain ⟨c, cs, hc, hd⟩ := hp.pointed_head
  obtain ⟨v, hv⟩ := Option.ne_none_iff_exists'.mp (Literal.ofNumber?_pointed hp hu)
  refine ⟨v, hv, ?_⟩
  have infinite (he : v = .double (.infinity false)) :
      (Lexer.ofText (String.ofList v.source)).items.map Prod.fst = [.ok ⟨.name, "inf"⟩, .ok Token.endOfText] :=
    he ▸ Literal.infinity_items
  rcases Literal.ofNumber?_cases (hu.trans hc) hd hv with ⟨n, rfl, hn⟩ | ⟨x, rfl, hn, hnan⟩
  · exact ⟨.inl ⟨n, rfl⟩, fun _ => (Literal.integer_numberSource hn).again, infinite⟩
  · refine ⟨.inr ⟨x, rfl⟩, fun hne => ?_, infinite⟩
    cases hf : x.isFinite with
    | true => exact (Literal.double_numberSource hf hn).again
    | false => exact absurd (congrArg _ (Double.eq_infinity hf hn hnan)) hne

/-- The least number past the integers of 64 bits is a double, and is written in fewer digits. -/
theorem Lexer.number_again_two_pow_63 : ∃ x, Literal.ofNumber? "9223372036854775808" = some (.double x) ∧
    x.source = "9223372036854776000".toList ∧ Literal.ofNumber? "9223372036854776000" = some (.double x) := by
  have h : (ofText "9223372036854775808").next.1 = .ok ⟨.number, "9223372036854775808"⟩ := by decide +kernel
  obtain ⟨v, hv, -, again, -⟩ := number_again h
  have hx : Literal.ofNumber? "9223372036854775808" = some (.double (.ofRatio false (1 <<< 63) 1)) := by decide +kernel
  have hs : (Double.ofRatio false (1 <<< 63) 1).source = "9223372036854776000".toList := by decide +kernel
  obtain rfl : v = .double (.ofRatio false (1 <<< 63) 1) := Option.some.inj (hv.symm.trans hx)
  have hr := (again (by decide +kernel)).2
  rw [Literal.source, hs, String.ofList_toList] at hr
  exact ⟨_, hx, hs, hr⟩

theorem ofDigitChars_one_zeros (n : Nat) : Nat.ofDigitChars 10 ('1' :: List.replicate n '0') 0 = 10 ^ n := by
  rw [Nat.ofDigitChars_cons, Nat.ofDigitChars_replicate_zero]
  exact Nat.mul_one _

/-- One and 309 zeros after it are a number token, of the infinite double. It is written as a name. -/
theorem Lexer.number_again_infinite :
    (ofText (String.ofList ('1' :: List.replicate 309 '0'))).items.map Prod.fst =
      [.ok ⟨.number, String.ofList ('1' :: List.replicate 309 '0')⟩, .ok Token.endOfText] ∧
    Literal.ofNumber? (String.ofList ('1' :: List.replicate 309 '0')) = some (.double (.infinity false)) ∧
    (ofText (String.ofList (Literal.double (.infinity false)).source)).items.map Prod.fst =
      [.ok ⟨.name, "inf"⟩, .ok Token.endOfText] := by
  -- The number of zeros is kept as a variable, so that no power of ten is computed on the way.
  obtain ⟨k, hk⟩ : ∃ k, k = 309 := ⟨_, rfl⟩
  rw [← hk]
  have hvalue := ofDigitChars_one_zeros k
  have hd : ∀ c ∈ List.replicate k '0', c.isDigit = true := fun c hc => by rw [(List.mem_replicate.mp hc).2]; rfl
  have hp : Digits ('1' :: List.replicate k '0', []) := ⟨nofun, List.forall_mem_cons.mpr ⟨rfl, hd⟩, nofun⟩
  generalize hu : String.ofList ('1' :: List.replicate k '0') = u
  have htext : u.toList = Double.pointed ('1' :: List.replicate k '0', []) := by rw [← hu, String.toList_ofList]; rfl
  refine ⟨?_, ?_, Literal.infinity_items⟩
  · have hl : Lexes u.toList [⟨.number, u⟩] := by
      have : Lexes (Double.pointed ('1' :: List.replicate k '0', []) ++ []) _ := Lexes.number hp nofun .nil
      rwa [List.append_nil, ← htext, String.ofList_toList] at this
    exact hl.items
  · have hdouble : (Digits.decimal ('1' :: List.replicate k '0', [])).toDouble false = .infinity false := by
      rw [Digits.decimal, List.append_nil, hvalue, hk]
      show Decimal.toDouble false ⟨10 ^ 309, 0⟩ = _
      decide +kernel
    have hlarge : 1 <<< 63 ≤ Nat.ofDigitChars 10 ('1' :: List.replicate k '0') 0 := by
      rw [hvalue]
      exact Nat.le_trans (by decide) (Nat.pow_le_pow_right (by decide) (by omega : 19 ≤ k))
    rw [Literal.ofNumber?, htext, Numeral.integer?_pointed hp fun _ => hlarge, Numeral.double?_pointed hp, hdouble]
    rfl

end ScriptLang
