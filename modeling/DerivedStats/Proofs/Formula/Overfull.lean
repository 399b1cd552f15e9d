import DerivedStats.Proofs.Formula.Replacement
import DerivedStats.Proofs.Syntax.Visiting

/-!
# Where a substitution fails

A mention outside all aggregates has room for one sample. A substitution fails if and only if some
mention has several there, and then it reports the first of them (`Formula.substitute_error`).
Nothing else can go wrong: the text of several samples is always read back as a list, whatever the
samples are, so a text that the substitution itself writes is never reported.
-/

namespace DerivedStats

namespace Formula

variable {f : Formula} {samples : Samples}

/-- The site stands outside all aggregates, and its statistic has several samples. -/
def Overfull (f : Formula) (samples : Samples) (site : Site) : Prop :=
  site.insideAggregate = false
    ∧ ∃ list, samples.get? (site.mention.resolve f.category) = some list ∧ 2 ≤ list.length

/-- What a substitution reports at a site, if it stops there. -/
def refusal (f : Formula) (samples : Samples) (site : Site) : Option Report :=
  match site.insideAggregate, samples.get? (site.mention.resolve f.category) with
  | false, some (x :: y :: more) =>
    some ((Misuse.multipleValues (site.mention.resolve f.category) (x :: y :: more).length
      site.span).toReportIn f.source)
  | _, _ => none

/-- A substitution stops at the overfull sites, with the number of samples. -/
theorem refusal_eq_some_iff {site : Site} {report : Report} :
    f.refusal samples site = some report ↔
      site.insideAggregate = false
        ∧ ∃ list, samples.get? (site.mention.resolve f.category) = some list ∧ 2 ≤ list.length
          ∧ report = (Misuse.multipleValues (site.mention.resolve f.category) list.length
            site.span).toReportIn f.source := by
  unfold refusal
  split
  · next x y more hinside hlist =>
    simp [hinside, hlist, eq_comm]
  · next hnot =>
    constructor
    · intro h
      cases h
    · rintro ⟨hinside, list, hlist, htwo, -⟩
      match list, htwo with
      | x :: y :: more, _ => exact (hnot x y more hinside hlist).elim

/-- A substitution stops at no site but the overfull ones. -/
theorem refusal_eq_none_iff {site : Site} :
    f.refusal samples site = none ↔ ¬ f.Overfull samples site := by
  rw [Option.eq_none_iff_forall_ne_some]
  constructor
  · rintro hnone ⟨hinside, list, hlist, htwo⟩
    exact hnone _ (refusal_eq_some_iff.mpr ⟨hinside, list, hlist, htwo, rfl⟩)
  · intro hnot report hsome
    obtain ⟨hinside, list, hlist, htwo, -⟩ := refusal_eq_some_iff.mp hsome
    exact hnot ⟨hinside, list, hlist, htwo⟩

/-- Of several samples there is no replacement outside all aggregates; everything else has one. -/
theorem replacement_eq_error_iff {source : String} {s : Statistic} {site : Site}
    {list : List Float} {report : Report} :
    replacement source s site list = .error report ↔
      site.insideAggregate = false ∧ 2 ≤ list.length
        ∧ report = (Misuse.multipleValues s list.length site.span).toReportIn source := by
  match list with
  | [] | [_] => simp [replacement]
  | x :: y :: more =>
    cases hinside : site.insideAggregate with
    | true =>
      obtain ⟨es, hes, -⟩ := valueList_eq (List.cons_ne_nil x (y :: more))
      simp [replacement, hinside, hes, bind, Except.bind, pure, Except.pure]
    | false => simp [replacement, hinside, eq_comm]

/-- The substitution of samples fails at a site as `Formula.refusal` says. -/
theorem refuses_substituting (f : Formula) (samples : Samples) :
    (f.substituting samples).Refuses (f.refusal samples) := by
  intro journal site report
  rw [refusal_eq_some_iff]
  unfold substituting
  simp only
  cases samples.get? (site.mention.resolve f.category) with
  | none => simp
  | some list =>
    have hmap : (replacement f.source (site.mention.resolve f.category) site list).map some
          = .error report
        ↔ replacement f.source (site.mention.resolve f.category) site list = .error report := by
      cases replacement f.source (site.mention.resolve f.category) site list <;> simp [Except.map]
    simp [hmap, replacement_eq_error_iff]

/-- A substitution fails with what it reports at the first site where it stops. -/
theorem substitute_eq_error_iff {report : Report} :
    f.substitute samples = .error report ↔
      (f.assignment.body.sites false).findSome? (f.refusal samples) = some report := by
  rw [← Expr.failure_replaceMentions_eq (refuses_substituting f samples) _ _ []]
  unfold substitute substitution
  simp only
  cases (f.assignment.body.replaceMentions (f.substituting samples) false []).failure with
  | none => simp
  | some failure => simp

/-- A substitution succeeds if no mention outside of all calls has several samples. -/
theorem exists_substitute (h : ∀ site ∈ f.assignment.body.sites false, site.insideAggregate = false →
      ∀ list, samples.get? (site.mention.resolve f.category) = some list → list.length ≤ 1) :
    ∃ text, f.substitute samples = .ok text := by
  cases hsubstitute : f.substitute samples with
  | ok text => exact ⟨text, rfl⟩
  | error report =>
    obtain ⟨site, hsite, hrefusal⟩ :=
      List.exists_of_findSome?_eq_some (substitute_eq_error_iff.mp hsubstitute)
    obtain ⟨hinside, list, hlist, htwo, -⟩ := refusal_eq_some_iff.mp hrefusal
    exact absurd (h site hsite hinside list hlist) (Nat.not_le_of_lt htwo)

/-- A substitution of at most one sample for each statistic succeeds. -/
theorem substitute_total (h : ∀ s list, samples.get? s = some list → list.length ≤ 1) :
    ∃ text, f.substitute samples = .ok text :=
  exists_substitute fun _ _ _ => h _

/-- **A substitution fails at the first mention that has several samples outside all aggregates**,
and only if there is one. The report names the statistic and the number of its samples, and its
place is that of the mention. -/
theorem substitute_error (f : Formula) (samples : Samples) :
    ((∃ report, f.substitute samples = .error report) ↔
      ∃ site ∈ f.assignment.body.sites false, f.Overfull samples site)
    ∧ ∀ report, f.substitute samples = .error report →
      ∃ before site behind list, f.assignment.body.sites false = before ++ site :: behind
        ∧ (∀ earlier ∈ before, ¬ f.Overfull samples earlier)
        ∧ site.insideAggregate = false
        ∧ samples.get? (site.mention.resolve f.category) = some list ∧ 2 ≤ list.length
        ∧ ∃ context, report = .evaluation .multipleValues
          ("Unrecoverable error during expression evaluation. "
            ++ (site.mention.resolve f.category).text ++ " has " ++ toString list.length
            ++ " values outside an aggregate")
          (some (.ofSpan site.span f.source)) context := by
  constructor
  · simp only [substitute_eq_error_iff, ← Option.isSome_iff_exists, List.findSome?_isSome_iff]
    refine exists_congr fun site => and_congr_right fun _ => ?_
    rw [← not_iff_not, ← refusal_eq_none_iff]
    simp
  · intro report hreport
    obtain ⟨before, site, behind, hsites, hsome, hnone⟩ :=
      List.findSome?_eq_some_iff.mp (substitute_eq_error_iff.mp hreport)
    obtain ⟨hinside, list, hlist, htwo, rfl⟩ := refusal_eq_some_iff.mp hsome
    exact ⟨before, site, behind, list, hsites,
      fun earlier h => refusal_eq_none_iff.mp (hnone earlier h), hinside, hlist, htwo, _, rfl⟩

/-- The call has room for the samples of `w`; of the two mentions behind it the first one is
reported. -/
example :
    ((compile "x = SUM(w) - a * b" "c").bind fun f => f.substitute
      (.ofList (["w", "b", "a"].map fun name => (⟨"c", name, .empty⟩, [1.0, 2.0]))))
      = .error (.evaluation .multipleValues
        "Unrecoverable error during expression evaluation. c.a has 2 values outside an aggregate"
        (some ⟨1, 14, 13, 1⟩) (some "a")) := by
  decide +kernel

end Formula

end DerivedStats
