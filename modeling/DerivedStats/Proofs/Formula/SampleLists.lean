import DerivedStats.Proofs.Formula.SingleSamples
import DerivedStats.Proofs.Formula.Splicing
import DerivedStats.Proofs.Formula.Spread
import DerivedStats.Proofs.Writing.Nesting

/-!
# Substituting sample lists

With several samples for open statistics there are two ways to a value: to evaluate the definition
over the spread of the samples, or to substitute the samples and to evaluate the text that this
gives. If the text compiles, then both values are the same, unless a conditional sheds samples
(`Formula.shedsSamples`): its second branch is written without parentheses, so of a list there only
the first value belongs to the conditional, and the others are arguments of the call around it even
if the first branch is taken.

The text of a list that is caught in parentheses does not compile, so nothing needs to be said about
such definitions.
-/

namespace DerivedStats

open Grammar

/-- The mentioned statistic has several samples. -/
def Samples.several (samples : Samples) (category : String) (m : Mention) : Bool :=
  (samples.get? (m.resolve category)).any fun list => 2 ≤ list.length

/-! ## Samples in place of mentions -/

namespace Expr

/-- A number is read back as a constant. -/
theorem isConstant_reading (x : Float) : (Number.reading x).IsConstant := by
  unfold Number.reading
  split
  · exact .negative _ _ _
  · exact .literal _ _

/-- A list of numbers falls into its numbers. -/
theorem pieces_readings (xs : List Float) :
    (list .none (xs.map Number.reading)).pieces = xs.map Number.reading := by
  rw [pieces, piecesOf_eq_flatMap, List.flatMap_map, List.map_eq_flatMap]
  exact List.flatMap_congr fun x _ => (isConstant_reading x).spec.1

/-- The tree of some samples can be written. -/
theorem written_samplesExpr (xs : List Float) : (samplesExpr xs).Written True := by
  match xs with
  | [] | [_] => exact .literal _ _
  | x :: y :: xs =>
    have hmem : ∀ e ∈ (x :: y :: xs).map Number.reading, ∃ z, Number.reading z = e :=
      fun e he => (List.mem_map.mp he).imp fun _ hz => hz.2
    refine .list trivial .none (by simp) (fun e he => ?_) fun e he => ?_
    · obtain ⟨z, rfl⟩ := hmem e he
      exact isConstant_reading z
    · obtain ⟨z, rfl⟩ := hmem e he
      exact (isConstant_reading z).written

/-- What takes the place of a mention can be written. -/
theorem written_filler {samples : Samples} {category : String} {m : Mention} {e : Expr}
    (h : samples.filler category m = some e) : e.Written True := by
  obtain ⟨list, -, rfl⟩ := Option.map_eq_some_iff.mp h
  exact written_samplesExpr list

/-- Samples in place of a mention stand for its values, one piece for each sample. -/
theorem splices_filler {scope scope' : Scope} {samples : Samples} {m : Mention} {xs : List Float}
    (hget : samples.get? (m.resolve scope.category) = some xs) (hne : xs ≠ [])
    (hread : (scope.read (m.resolve scope.category)).values = xs) :
    Splices scope scope' (samples.several scope.category) (samples.filler scope.category) m := by
  have hseveral : samples.several scope.category m = decide (2 ≤ xs.length) := by
    rw [Samples.several, hget, Option.any_some]
  refine ⟨samplesExpr xs, by rw [Samples.filler, hget, Option.map_some], ?_⟩
  rw [hseveral, hread]
  match xs with
  | [] => exact absurd rfl hne
  | [x] => exact ⟨rfl, rfl, by simp [samplesExpr, pieces, number?, Outcome.scalar?]⟩
  | x :: y :: xs =>
    have hlist : samplesExpr (x :: y :: xs) = list .none ((x :: y :: xs).map Number.reading) := rfl
    rw [hlist]
    refine ⟨?_, by simp [spreads], ?_⟩
    · rw [isClosed, areClosed_eq_all, List.all_map, List.all_eq_true]
      exact fun z _ => (isConstant_reading z).spec.2.1
    · rw [pieces_readings, List.map_map]
      exact List.map_congr_left fun z _ => number?_eq_some.mpr (outcome?_number_reading z)

end Expr

namespace Formula

variable {f g : Formula} {samples : Samples}

/-- All statistics that the formula reads have samples: a closed one has exactly one sample, and an
open one at least one, and it is the only one of its kind. -/
structure Sampled (f : Formula) (samples : Samples) : Prop where
  closed : ∀ s ∈ f.dependencies.dependents, s.isWildcarded = false →
    ∃ x, samples.get? s = some [x]
  wildcarded : ∀ s ∈ f.dependencies.dependents, s.isWildcarded = true →
    ∃ list, samples.get? s = some list ∧ list ≠ []
  alone : ∀ s ∈ f.dependencies.dependents, s.isWildcarded = true →
    ∀ k ∈ samples.statistics, s.sameKeys k = true → k = s

/-- No marked sample takes the name of a closed statistic that the formula reads. -/
def KeepsApart (f : Formula) (samples : Samples) : Prop :=
  ∀ s ∈ f.dependencies.dependents, s.isWildcarded = false → samples.KeepApart s

/-- A conditional of the formula sheds samples. -/
def shedsSamples (f : Formula) (samples : Samples) : Bool :=
  f.assignment.body.sheds ⟨f.category, samples.spread, .empty⟩ (samples.several f.category)

/-- At each site the samples stand for the values that the spread gives the mention. -/
theorem Sampled.splices (h : f.Sampled samples) (hapart : f.KeepsApart samples) (scope : Scope)
    {site : Site} (hsite : site ∈ f.assignment.body.bare.sites false) :
    Expr.Splices ⟨f.category, samples.spread, .empty⟩ scope (samples.several f.category)
      (samples.filler f.category) site.mention := by
  have hmem := resolve_mem_dependents hsite
  cases hopen : (site.mention.resolve f.category).isWildcarded with
  | false =>
    obtain ⟨x, hx⟩ := h.closed _ hmem hopen
    have hspread := Samples.get?_spread hopen hx (hapart _ hmem hopen)
    refine Expr.splices_filler hx (by simp) ?_
    rw [Scope.read, hopen]
    exact congrArg (fun o => [Option.getD o 0.0]) hspread
  | true =>
    obtain ⟨list, hlist, hne⟩ := h.wildcarded _ hmem hopen
    refine Expr.splices_filler hlist hne ?_
    rw [Scope.read, hopen]
    exact Samples.matches_spread hopen hlist (h.alone _ hmem hopen)

/-- **Substituting samples keeps the value** where no samples are mixed up or shed. -/
theorem substitute_samples {source category text : String} {v : Float}
    (hf : compile source category = .ok f) (hderived : f.derived.isWildcarded = false)
    (hsampled : f.Sampled samples) (hapart : f.KeepsApart samples)
    (hsheds : f.shedsSamples samples = false) (hv : f.evaluateSamples samples = .ok v)
    (htext : f.substitute samples = .ok text) (hg : compile text category = .ok g) :
    g.evaluateValues .empty = .ok v := by
  obtain ⟨-, hcategory, a, ha, rfl⟩ := compile_ok.mp hf
  obtain ⟨hspelled, hbody, -⟩ := Assignment.written_of_ofText ha
  have htarget : (filled ⟨source, category, a⟩ samples).target.IsSpelled := hspelled
  have hsplices : ∀ site ∈ a.body.bare.sites false,
      Expr.Splices ⟨category, samples.spread, .empty⟩ ⟨category, .empty, .empty⟩
        (samples.several category) (samples.filler category) site.mention :=
    fun _ hsite => hsampled.splices hapart _ hsite
  have hvalue : ∀ m e, samples.filler category m = some e → e.Written True :=
    fun _ _ => Expr.written_filler
  -- the text is that of the filled tree, and it is read back as its only piece
  have hwritten : (filled ⟨source, category, a⟩ samples).body.Written True :=
    Expr.written_fill hvalue hbody
  have hclosed : (filled ⟨source, category, a⟩ samples).body.isClosed = true :=
    Expr.isClosed_fill _ false hsplices
  obtain rfl := substitute_ok htext
  have hderives := derives_of_compile htarget hwritten hg
  obtain ⟨hfits, p, hp, hread⟩ := hwritten.piece_of_derives hclosed hderives
  obtain ⟨g', hg', hgcategory, hgtarget, -⟩ := compile_text hcategory htarget hwritten hderives
  obtain rfl : g = g' := Except.ok.inj (hg.symm.trans hg')
  -- the piece stands for the value over the spread of the samples
  have hnumber : a.body.bare.number? ⟨category, samples.spread, .empty⟩ = some v := by
    rw [evaluateSamples, Samples.expand, hderived] at hv
    rw [Expr.number?_congr (Expr.outcome?_bare _)]
    exact evaluate_eq_ok.mp hv
  have hstands := hbody.stands hvalue hsplices hfits ((Expr.sheds_bare _).trans hsheds)
  obtain ⟨q, hq, hqnumber⟩ := hstands.exists_piece hnumber
  obtain rfl : q = p := List.singleton_inj.mp (hq.symm.trans hp)
  have hgderived : g.derived.isWildcarded = false := by
    rw [← hderived, derived, dependencies, hgcategory, Dependencies.ofAssignment, hgtarget]
    rfl
  rw [evaluateValues, hgderived]
  refine evaluate_eq_ok.mpr ?_
  rw [← Expr.number?_congr (Expr.outcome?_bare _), hread,
    Expr.number?_congr (Expr.outcome?_reading _), hgcategory]
  exact hqnumber

/-- Two samples in the second branch of a conditional that is taken. -/
theorem substitute_samples_branch :
    ∃ f g, compile "x = MAX(c ? 1 : w\x7bm:\"*\"\x7d) * 2" "c" = .ok f
      ∧ f.substitute ((Table.empty.insert ⟨"c", "c", .empty⟩ [0.0]).insert
          ⟨"c", "w", .ofList [("m", "*")]⟩ [5.0, 6.0]) = .ok "x = MAX(0 ? 1 : 5, 6) * 2"
      ∧ compile "x = MAX(0 ? 1 : 5, 6) * 2" "c" = .ok g
      ∧ g.evaluateValues .empty = .ok 12.0 := by
  obtain ⟨samples, hsamples⟩ : ∃ samples : Samples, samples =
    (Table.empty.insert ⟨"c", "c", .empty⟩ [0.0]).insert ⟨"c", "w", .ofList [("m", "*")]⟩
      [5.0, 6.0] := ⟨_, rfl⟩
  have hread : (compile "x = MAX(c ? 1 : w\x7bm:\"*\"\x7d) * 2" "c").toOption.map (fun f =>
      (f.derived.isWildcarded, f.dependencies.dependents, (f.evaluateSamples samples).toOption,
        (f.substitute samples).toOption, f.shedsSamples samples)) =
      some (false, [⟨"c", "c", .empty⟩, ⟨"c", "w", .ofList [("m", "*")]⟩], some 12.0,
        some "x = MAX(0 ? 1 : 5, 6) * 2", false) := by
    subst hsamples
    decide +kernel
  have hreread :
      (compile "x = MAX(0 ? 1 : 5, 6) * 2" "c").toOption.map (fun _ => ()) = some () := by
    decide +kernel
  obtain ⟨f, hf, hfacts⟩ := exists_ok_of_toOption hread
  obtain ⟨g, hg, -⟩ := exists_ok_of_toOption hreread
  simp only [Prod.mk.injEq] at hfacts
  obtain ⟨hderived, hdependents, hv, htext, hsheds⟩ := hfacts
  have hc : samples.get? ⟨"c", "c", .empty⟩ = some [0.0] := by subst hsamples; decide +kernel
  have hw : samples.get? ⟨"c", "w", .ofList [("m", "*")]⟩ = some [5.0, 6.0] := by
    subst hsamples; decide +kernel
  have hkeys : samples.statistics = [⟨"c", "c", .empty⟩, ⟨"c", "w", .ofList [("m", "*")]⟩] := by
    subst hsamples; decide +kernel
  have hsampled : f.Sampled samples := by
    refine ⟨?_, ?_, ?_⟩ <;> rw [hdependents] <;> simp only [List.forall_mem_cons]
    · exact ⟨fun _ => ⟨_, hc⟩, fun hclosed => absurd hclosed (by decide +kernel), by simp⟩
    · exact ⟨fun hopen => absurd hopen (by decide +kernel), fun _ => ⟨_, hw, by simp⟩, by simp⟩
    · rw [hkeys]
      decide +kernel
  have hapart : f.KeepsApart samples := by
    intro s hs hclosed k list hlist i _ hmarked
    rw [hdependents] at hs
    have hname : k.name = s.name := by rw [← hmarked]; rfl
    have hk : k ∈ samples.statistics := List.mem_map_of_mem (Table.get?_eq_some_iff.mp hlist)
    rw [hkeys] at hk
    simp only [List.mem_cons, List.not_mem_nil, or_false] at hs hk
    rcases hs with rfl | rfl
    · rcases hk with rfl | rfl
      · rfl
      · exact absurd hname (by decide)
    · exact absurd hclosed (by decide +kernel)
  subst hsamples
  exact ⟨f, g, hf, eq_ok_of_toOption htext, hg, substitute_samples hf hderived hsampled hapart
    hsheds (eq_ok_of_toOption hv) (eq_ok_of_toOption htext) hg⟩

/-- If the first branch is taken, the list in the second one is shed: the definition is 1, and its
text is 7. -/
example :
    let samples : Samples := (Table.empty.insert ⟨"c", "c", .empty⟩ [1.0]).insert
      ⟨"c", "w", .ofList [("m", "*")]⟩ [5.0, 6.0]
    (compile "x = SUM(c ? 1 : w\x7bm:\"*\"\x7d)" "c").toOption.map (fun f =>
        ((f.evaluateSamples samples).toOption, (f.substitute samples).toOption))
          = some (some 1.0, some "x = SUM(1 ? 1 : 5, 6)")
      ∧ (compile "x = SUM(1 ? 1 : 5, 6)" "c").toOption.map (fun g =>
        (g.evaluateValues .empty).toOption) = some (some 7.0) := by
  decide +kernel

end Formula

end DerivedStats
