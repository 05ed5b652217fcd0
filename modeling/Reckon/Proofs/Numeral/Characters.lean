import Reckon.Proofs.Numeral.Spelling

/-!
# The characters of numbers

A number is written with letters, digits, points and signs.  So it has no blank and no
parenthesis in it, and it stays in one piece wherever it is put between such characters.

## Main results

* `Decimal.IsLiteral.isMark` — a literal has digits, points, signs and the letter of the exponent.
* `Numeral.isGraphic_of_read?` — a number has letters, digits, points and signs.
-/

namespace Reckon

namespace Decimal

/-- A character that a literal may have. -/
def IsMark (c : Char) : Prop := c.isDigit ∨ c ∈ ['.', 'e', 'E', '+', '-']

variable {cs : List Char}

theorem IsDigits.isMark (h : IsDigits cs) : ∀ c ∈ cs, IsMark c := fun c hc => .inl (h c hc)

theorem IsMantissa.isMark (h : IsMantissa cs) : ∀ c ∈ cs, IsMark c := by
  cases h with
  | whole h => exact h.2.isMark
  | point h hfraction =>
    exact List.forall_mem_append.mpr
      ⟨h.2.isMark, List.forall_mem_cons.mpr ⟨.inr (by decide), hfraction.isMark⟩⟩
  | fraction h => exact List.forall_mem_cons.mpr ⟨.inr (by decide), h.2.isMark⟩

theorem IsExponent.isMark (h : IsExponent cs) : ∀ c ∈ cs, IsMark c := by
  obtain ⟨hletter, hsign, h⟩ := h
  have hletters : ∀ c ∈ ['e', 'E'], IsMark c := by
    simp [IsMark]
  have hsigns : ∀ sign ∈ [[], ['+'], ['-']], ∀ c ∈ sign, IsMark c := by
    simp [IsMark]
  exact List.forall_mem_cons.mpr
    ⟨hletters _ hletter, List.forall_mem_append.mpr ⟨hsigns _ hsign, h.2.isMark⟩⟩

/-- **A literal has digits, points, signs and the letter of the exponent.** -/
theorem IsLiteral.isMark (h : IsLiteral cs) : ∀ c ∈ cs, IsMark c := by
  cases h with
  | plain h => exact h.isMark
  | scaled h hexponent => exact List.forall_mem_append.mpr ⟨h.isMark, hexponent.isMark⟩

end Decimal

namespace Numeral

/-- A character that a number may have. -/
def IsGraphic (c : Char) : Prop := c.isAlphanum ∨ c ∈ ['.', '+', '-']

instance : DecidablePred IsGraphic := fun c =>
  inferInstanceAs (Decidable (c.isAlphanum = true ∨ c ∈ ['.', '+', '-']))

theorem isGraphic_of_isMark {c : Char} (h : Decimal.IsMark c) : IsGraphic c := by
  rcases h with h | h
  · exact .inl (by simp [Char.isAlphanum, h])
  · simp only [List.mem_cons, List.not_mem_nil, or_false] at h
    rcases h with rfl | rfl | rfl | rfl | rfl
    · exact .inr (by decide)
    · exact .inl (by decide)
    · exact .inl (by decide)
    · exact .inr (by decide)
    · exact .inr (by decide)

theorem IsMagnitude.isGraphic {cs : List Char} (h : IsMagnitude cs) : ∀ c ∈ cs, IsGraphic c := by
  have hletters : ∀ {word : List Char}, word.all Char.isAlphanum → ∀ c ∈ word, IsGraphic c :=
    fun hword c hc => .inl (List.all_eq_true.mp hword c hc)
  cases h with
  | infinity => exact hletters (by decide)
  | nan => exact hletters (by decide)
  | literal h => exact fun c hc => isGraphic_of_isMark (h.isMark c hc)

/-- **A number has letters, digits, points and signs.** -/
theorem isGraphic_of_read? {text : String} {v : Float} (h : read? text = some v) :
    ∀ c ∈ text.toList, IsGraphic c := by
  have hspelling := isSome_read?_iff.mp (Option.isSome_of_eq_some h)
  generalize text.toList = cs at hspelling
  cases hspelling with
  | unsigned h => exact h.isGraphic
  | minus h => exact List.forall_mem_cons.mpr ⟨.inr (by decide), h.isGraphic⟩

end Numeral

end Reckon
