import DerivedStats.Proofs.Formula.Answer
import DerivedStats.Proofs.Formula.Overfull

/-!
# Substituting single samples

With at most one sample for each statistic a substitution is partial evaluation: the text compiles,
and its value under any values and placeholders that agree with the samples is the value of the
definition. Every number may be substituted: a negative one is read back as a sign and a magnitude,
which means the same.
-/

namespace DerivedStats

open Grammar

namespace Formula

/-- Both formulas answer the same number, or both report a sequence where a number is wanted. -/
def SameAnswer (f g : Formula) (values : Values) (placeholders : Placeholders) : Prop :=
  (∃ v, f.evaluate values placeholders = .ok v ∧ g.evaluate values placeholders = .ok v) ∨
    ∃ r r', f.evaluate values placeholders = .error r ∧ g.evaluate values placeholders = .error r'
      ∧ r.code = .sequenceAsScalar ∧ r'.code = .sequenceAsScalar

variable {f g : Formula} {values : Values} {placeholders : Placeholders}

/-- Formulas whose trees mean the same give the same answer, up to the place in a report. -/
theorem sameAnswer_of_outcome? (hcategory : g.category = f.category)
    (h : g.assignment.body.outcome? ⟨f.category, values, placeholders⟩ =
      f.assignment.body.outcome? ⟨f.category, values, placeholders⟩) :
    SameAnswer f g values placeholders := by
  have hg := evaluate_cases g values placeholders
  rw [hcategory, Expr.number?_congr h] at hg
  rcases evaluate_cases f values placeholders with ⟨v, hv, hnumber⟩ | ⟨r, hr, hcode, hnumber⟩
  · rw [hnumber] at hg
    rcases hg with ⟨w, hw, hsame⟩ | ⟨_, -, -, hnone⟩
    · obtain rfl := Option.some.inj hsame
      exact .inl ⟨v, hv, hw⟩
    · exact nomatch hnone
  · rw [hnumber] at hg
    rcases hg with ⟨_, -, hsome⟩ | ⟨r', hr', hcode', -⟩
    · exact nomatch hsome
    · exact .inr ⟨r, r', hr, hr', hcode, hcode'⟩

/-- **Substituting single samples is partial evaluation.** -/
theorem substitute_single {source category : String} (hf : compile source category = .ok f)
    (hsigns : f.assignment.body.signsInfinity = false) {samples : Samples}
    (hsingle : ∀ s list, samples.get? s = some list → list.length ≤ 1)
    (hmeans : ∀ s ∈ f.dependencies.dependents, ∀ list, samples.get? s = some list →
      (Scope.mk category values placeholders).read s = .scalar (list.headD 0.0)) :
    ∃ text g, f.substitute samples = .ok text ∧ compile text category = .ok g
      ∧ SameAnswer f g values placeholders := by
  obtain ⟨-, hcategory, a, ha, rfl⟩ := compile_ok.mp hf
  obtain ⟨hspelled, hbody, -⟩ := Assignment.written_of_ofText ha
  have htarget : (filled ⟨source, category, a⟩ samples).target.IsSpelled := hspelled
  obtain ⟨text, htext⟩ := substitute_total (f := ⟨source, category, a⟩) hsingle
  have hliteral : ∀ m e, samples.filler category m = some e → ∃ list,
      samples.get? (m.resolve category) = some list ∧ e = .literal .none (list.headD 0.0) := by
    intro m e hm
    obtain ⟨list, hlist, rfl⟩ := Option.map_eq_some_iff.mp hm
    have hlength := hsingle _ _ hlist
    refine ⟨list, hlist, ?_⟩
    match list with
    | [] | [_] => rfl
    | _ :: _ :: _ => simp at hlength
  have hwritten : (filled ⟨source, category, a⟩ samples).body.Written False :=
    Expr.written_fill (fun m e hm => by
      obtain ⟨list, -, rfl⟩ := hliteral m e hm
      exact .literal _ _) hbody
  have hfilled : (filled ⟨source, category, a⟩ samples).body.signsInfinity = false :=
    Expr.signsInfinity_fill (fun m e hm => by
      obtain ⟨list, -, rfl⟩ := hliteral m e hm
      exact ⟨rfl, rfl⟩) _ (by rwa [Expr.signsInfinity_bare])
  have hderives := hwritten.derives hfilled
  obtain ⟨g, hg, hgcategory, -, hgbody⟩ := compile_text hcategory htarget hwritten
    (hderives.weaken (show 1 ≤ _ from Nat.le_min.mpr ⟨Expr.one_le_precedence _, by decide⟩))
  refine ⟨text, g, htext, substitute_ok htext ▸ hg, sameAnswer_of_outcome? hgcategory ?_⟩
  have hmentions : ∀ site ∈ a.body.bare.sites false, ∀ e,
      samples.filler category site.mention = some e →
      e.outcome? ⟨category, values, placeholders⟩ =
        some (Scope.read ⟨category, values, placeholders⟩ (site.mention.resolve category)) := by
    intro site hsite e he
    obtain ⟨list, hlist, rfl⟩ := hliteral _ _ he
    rw [Expr.outcome?_literal, hmeans _ (resolve_mem_dependents hsite) list hlist]
  rw [← Expr.outcome?_bare, hgbody, Expr.outcome?_reading, filled,
    Expr.outcome?_fill _ false hmentions,
    Expr.outcome?_bare]

/-- A negative sample of `a` in `x = 2 - a * b`. -/
theorem substitute_single_negative :
    ∃ f, compile "x = 2 - a * b" "c" = .ok f ∧ ∃ text g,
      f.substitute (Table.empty.insert ⟨"c", "a", .empty⟩ [-5.0]) = .ok text
        ∧ compile text "c" = .ok g
        ∧ SameAnswer f g (Table.empty.insert ⟨"c", "a", .empty⟩ (-5.0)) .empty := by
  have hread : (compile "x = 2 - a * b" "c").toOption.map (·.assignment.body.signsInfinity)
      = some false := by decide +kernel
  have hget : ∀ s list,
      (Table.empty.insert ⟨"c", "a", .empty⟩ [-5.0] : Samples).get? s = some list →
      s = ⟨"c", "a", .empty⟩ ∧ list = [-5.0] := by
    intro s list h
    rw [Table.get?_insert] at h
    split at h
    · next hs => exact ⟨hs, (Option.some.inj h).symm⟩
    · exact nomatch h
  obtain ⟨f, hf, hsigns⟩ := exists_ok_of_toOption hread
  refine ⟨f, hf, substitute_single hf hsigns (fun s list h => ?_) fun s _ list h => ?_⟩
  · obtain ⟨-, rfl⟩ := hget s list h
    exact Nat.le_refl 1
  · obtain ⟨rfl, rfl⟩ := hget s list h
    rfl

end Formula

end DerivedStats
