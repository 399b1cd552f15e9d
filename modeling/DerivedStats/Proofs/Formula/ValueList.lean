import DerivedStats.Proofs.Formula.Replacement

/-!
# The text of a list of values

Several values are handed on as a text, the texts of the numbers with commas between them, and read
back as the arguments of a call. Nothing is lost on the way: as many arguments come back as there
were values, and each of them stands for its value in every scope (`listOfText_values`). So no two
lists of values have one text (`intercalate_text_injective`).

A separated list that meets an item that it cannot read ends in front of it without a failure, so a
value that is not read back would make the list shorter. That there is none is what the derivation
of each single number says (`Number.derives_tokens`); a negative number is read back as a sign and
its magnitude, which together are the number again (`Number.neg_magnitude`).
-/

namespace DerivedStats

namespace Expr

/-- What is read back of a number stands for the number in every scope. -/
theorem evaluate_of_bare {e : Expr} {x : Float} (h : e.bare = Number.reading x) (scope : Scope) :
    e.evaluate scope = .ok (.scalar x) := by
  refine eq_ok_of_toOption ?_
  calc e.outcome? scope = e.bare.outcome? scope := (outcome?_bare e).symm
    _ = (Number.reading x).outcome? scope := by rw [h]
    _ = some (.scalar x) := outcome?_number_reading x

end Expr

/-- Different numbers are read back as different trees. -/
theorem Number.reading_injective : Function.Injective reading := by
  intro x y h
  have hx := Expr.evaluate_of_bare (bare_reading x) ⟨"", .empty, .empty⟩
  have hy := Expr.evaluate_of_bare (bare_reading y) ⟨"", .empty, .empty⟩
  rw [h, hy] at hx
  exact (Outcome.scalar.inj (Except.ok.inj hx)).symm

/-- **The text of a list of values gives the values back.** It is read as a list of as many
expressions, and in every scope the value of each of them is the one that was written there. -/
theorem listOfText_values {values : List Float} (hne : values ≠ []) :
    ∃ es, Expr.listOfText (",".intercalate (values.map Number.text)) = .ok es
      ∧ es.length = values.length
      ∧ ∀ scope, es.map (Expr.evaluate scope) = values.map fun x => .ok (.scalar x) := by
  obtain ⟨es, hes, hbare⟩ := valueList_eq hne
  have hlength : es.length = values.length := by simpa using congrArg List.length hbare
  refine ⟨es, hes, hlength, fun scope => ?_⟩
  -- from equal lists to equal items, and back
  rw [← List.forall₂_eq_eq_eq, List.forall₂_map_left_iff, List.forall₂_map_right_iff] at hbare ⊢
  exact hbare.imp fun e x h => Expr.evaluate_of_bare h scope

/-- Both zeros, both infinities and what is not a number, with signs next to commas. -/
theorem listOfText_values_special :
    ∃ es, Expr.listOfText "-0,-Inf,NaN,+Inf,0,-1.5" = .ok es ∧ es.length = 6
      ∧ ∀ scope, es.map (Expr.evaluate scope) = [.ok (.scalar (-0.0)),
        .ok (.scalar Number.negativeInfinity), .ok (.scalar Number.nan),
        .ok (.scalar Number.infinity), .ok (.scalar 0.0), .ok (.scalar (-1.5))] := by
  have htext : ",".intercalate ([-0.0, Number.negativeInfinity, Number.nan, Number.infinity, 0.0,
      -1.5].map Number.text) = "-0,-Inf,NaN,+Inf,0,-1.5" := by
    decide +kernel
  rw [← htext]
  exact listOfText_values (List.cons_ne_nil _ _)

/-- **No two lists of values have one text.** -/
theorem intercalate_text_injective :
    Function.Injective fun values : List Float => ",".intercalate (values.map Number.text) := by
  have hblank : (valueList []).toOption.isNone = true := by decide +kernel
  have hnil : ∀ {values : List Float}, valueList [] = valueList values → values = [] := by
    intro values h
    by_contra hne
    obtain ⟨es, hes, -⟩ := valueList_eq hne
    rw [h, hes] at hblank
    exact nomatch hblank
  intro xs ys h
  have hlist : valueList xs = valueList ys := congrArg Expr.listOfText h
  by_cases hxs : xs = []
  · subst hxs
    exact (hnil hlist).symm
  · by_cases hys : ys = []
    · subst hys
      exact hnil hlist.symm
    · obtain ⟨es, hes, hbare⟩ := valueList_eq hxs
      obtain ⟨es', hes', hbare'⟩ := valueList_eq hys
      obtain rfl : es = es' := Except.ok.inj (hes.symm.trans (hlist.trans hes'))
      exact List.map_injective_iff.mpr Number.reading_injective (hbare.symm.trans hbare')

end DerivedStats
