import DerivedStats.Proofs.Formula.Refilling
import DerivedStats.Proofs.Statistic.Tables

/-!
# Substituting in steps

The text of a substitution is a definition, so more samples can be substituted in it. If all
mentions with several samples are directly among the arguments of a call then this never fails, and
the last text is the one that a single substitution of all the samples gives
(`Formula.substitute_union`). The definition in between is another tree than the one that was
written: a negative sample is a sign and a number there, and a list of samples is so many arguments.
The last text does not show this.
-/

namespace DerivedStats

open Grammar

/-! ## Samples as trees -/

/-- Samples stand as one number or as a list of constants. -/
theorem samplesExpr_cases (xs : List Float) :
    (∃ x, samplesExpr xs = .literal .none x) ∨
      2 ≤ xs.length ∧ ∃ es, samplesExpr xs = .list .none es ∧ es ≠ [] ∧ ∀ e ∈ es, e.IsConstant := by
  match xs with
  | [] => exact .inl ⟨0.0, rfl⟩
  | [x] => exact .inl ⟨x, rfl⟩
  | x :: y :: xs =>
    refine .inr ⟨Nat.le_add_left 2 _, _, rfl, List.cons_ne_nil _ _, ?_⟩
    exact List.forall_mem_map.mpr fun z _ => Expr.isConstant_reading z

namespace Expr

variable {samples samples' : Samples} {category : String} {m : Mention} {e : Expr}

theorem IsConstant.composed {argument : Bool} (h : e.IsConstant) : Composed argument e := by
  cases h with
  | literal s v => exact .literal _ s v
  | negative s t v => exact .signed _ s _ (.literal _ t v)

theorem IsConstant.signsInfinity_eq (h : e.IsConstant) : e.signsInfinity = false := by
  cases h <;> rfl

/-- Samples may stand directly among the arguments of a call. -/
theorem composed_filler (h : samples.filler category m = some e) : Composed true e := by
  obtain ⟨list, -, rfl⟩ := Option.map_eq_some_iff.mp h
  rcases samplesExpr_cases list with ⟨x, hx⟩ | ⟨-, es, hes, hne, hconstant⟩
  · rw [hx]
    exact .literal _ _ x
  · rw [hes]
    exact .list _ hne fun e he => (hconstant e he).composed

/-- A single sample may stand anywhere. -/
theorem composed_filler_of_not_several (hseveral : samples.several category m = false)
    (h : samples.filler category m = some e) : Composed false e := by
  obtain ⟨list, hlist, rfl⟩ := Option.map_eq_some_iff.mp h
  rw [Samples.several, hlist, Option.any_some, decide_eq_false_iff_not] at hseveral
  rcases samplesExpr_cases list with ⟨x, hx⟩ | ⟨hlength, -⟩
  · rw [hx]
    exact .literal _ _ x
  · exact absurd hlength hseveral

/-- There are no mentions in samples. -/
theorem fill_filler (h : samples.filler category m = some e) {value : Mention → Option Expr} :
    e.fill value = e := by
  obtain ⟨list, -, rfl⟩ := Option.map_eq_some_iff.mp h
  rcases samplesExpr_cases list with ⟨x, hx⟩ | ⟨-, es, hes, -, hconstant⟩
  · rw [hx]
    rfl
  · rw [hes, fill, fillAll_eq_map, List.map_congr_left fun e he => (hconstant e he).fill_eq,
      List.map_id']

theorem looseMentions_filler (h : samples.filler category m = some e) (argument : Bool) :
    e.looseMentions argument = [] := by
  obtain ⟨list, -, rfl⟩ := Option.map_eq_some_iff.mp h
  rcases samplesExpr_cases list with ⟨x, hx⟩ | ⟨-, es, hes, -, hconstant⟩
  · rw [hx]
    rfl
  · rw [hes, looseMentions, looseMentionsOf_eq_flatMap, List.flatMap_eq_nil_iff]
    exact fun e he => (hconstant e he).looseMentions_eq argument

/-- Samples put no name of an infinity behind a sign. -/
theorem signs_filler (h : samples.filler category m = some e) :
    e.mentionsInfinity = false ∧ e.signsInfinity = false := by
  obtain ⟨list, -, rfl⟩ := Option.map_eq_some_iff.mp h
  rcases samplesExpr_cases list with ⟨x, hx⟩ | ⟨-, es, hes, -, hconstant⟩
  · rw [hx]
    exact ⟨rfl, rfl⟩
  · rw [hes, signsInfinity, anySignsInfinity_eq_any, List.any_eq_false]
    exact ⟨rfl, fun e he => Bool.eq_false_iff.mp (hconstant e he).signsInfinity_eq⟩

/-- The union of two tables fills in what the first one has, else what the second one has. -/
theorem filler_union : Samples.filler (samples.union samples') category m
    = (samples.filler category m).or (samples'.filler category m) := by
  simp only [Samples.filler, Table.get?_union]
  cases samples.get? (m.resolve category) <;> rfl

/-- Filling in the samples of two tables one after the other is filling in their union. -/
theorem fill_union (e : Expr) :
    (e.fill (samples.filler category)).fill (samples'.filler category)
      = e.fill (Samples.filler (samples.union samples') category) := by
  refine fill_fill (fun s m => ?_) e
  rw [fill, fill, filler_union]
  cases h : samples.filler category m with
  | none => rfl
  | some e => exact fill_filler h

end Expr

namespace Formula

variable {f g : Formula} {samples samples' : Samples}

/-- All mentions of the formula with several samples are directly among the arguments of a call. -/
def HasRoomFor (f : Formula) (samples : Samples) : Prop :=
  ∀ m ∈ f.assignment.body.looseMentions false, samples.several f.category m = false

/-- If lists have their places then a substitution succeeds. -/
theorem HasRoomFor.substitute (h : f.HasRoomFor samples) :
    f.substitute samples = .ok (f.filled samples).text := by
  have hsingle : ∀ site ∈ f.assignment.body.sites false, site.insideAggregate = false →
      ∀ list, samples.get? (site.mention.resolve f.category) = some list → list.length ≤ 1 := by
    intro site hsite hinside list hlist
    have hloose : site.mention ∈ f.assignment.body.looseMentions false :=
      Expr.mention_mem_looseMentions hinside _ nofun hsite
    have hseveral := h _ hloose
    rw [Samples.several, hlist, Option.any_some, decide_eq_false_iff_not] at hseveral
    exact Nat.le_of_lt_succ (Nat.not_le.mp hseveral)
  obtain ⟨text, htext⟩ := exists_substitute hsingle
  rw [htext, substitute_ok htext]

/-- The filled tree is composed. -/
theorem HasRoomFor.composed (hbody : f.assignment.body.bare.Written False) (h : f.HasRoomFor samples) :
    Expr.Composed false (f.filled samples).body := by
  refine hbody.composed_fill (fun m e => Expr.composed_filler) fun m hm e he => ?_
  rw [Expr.looseMentions_bare] at hm
  exact Expr.composed_filler_of_not_several (h m hm) he

/-- The text of a substitution compiles into the filled tree with its lists spliced in and its
negative numbers as signed magnitudes. -/
theorem HasRoomFor.compile {source category : String} (hf : Formula.compile source category = .ok f)
    (hsigns : f.assignment.body.signsInfinity = false) (h : f.HasRoomFor samples) :
    ∃ g, Formula.compile (f.filled samples).text category = .ok g ∧ g.category = category
      ∧ g.assignment.target = f.assignment.target
      ∧ g.assignment.body.bare = (f.filled samples).body.splice.reading := by
  obtain ⟨-, hcategory, a, ha, rfl⟩ := compile_ok.mp hf
  obtain ⟨htarget, hbody, -⟩ := Assignment.written_of_ofText ha
  have hcomposed := h.composed hbody
  have hwritten := hcomposed.of_items hcomposed.written_items
  have hno : (filled ⟨source, category, a⟩ samples).body.splice.signsInfinity = false := by
    rw [Expr.signsInfinity_splice]
    exact Expr.signsInfinity_fill (fun m e => Expr.signs_filler) _
      ((Expr.signsInfinity_bare _).trans hsigns)
  have hderives := (hwritten.derives hno).weaken
    (show 1 ≤ _ from Nat.le_min.mpr ⟨Expr.one_le_precedence _, by decide⟩)
  -- the spliced tree is written like the filled one
  have htext : (filled ⟨source, category, a⟩ samples).text =
      Assignment.text ⟨a.target, a.targetSpan, (filled ⟨source, category, a⟩ samples).body.splice⟩ := by
    rw [Assignment.text, Assignment.text, hcomposed.text_splice hcomposed.text_items]
    rfl
  rw [htext]
  exact compile_text hcategory htarget hwritten hderives

/-- **Substituting in steps is substituting at once.** If no sign stands in front of the name of an
infinity, and if in both tables only statistics that are mentioned as arguments of calls have several
samples, then the text with the samples of the first table compiles, and with those of the second one
it is the text with the samples of both. A statistic may be in both tables; the first step leaves no
mention of it. -/
theorem substitute_union {source category : String} (hf : Formula.compile source category = .ok f)
    (hsigns : f.assignment.body.signsInfinity = false)
    (h : f.HasRoomFor samples) (h' : f.HasRoomFor samples') :
    ∃ text g whole, f.substitute samples = .ok text ∧ Formula.compile text category = .ok g
      ∧ g.substitute samples' = .ok whole ∧ f.substitute (samples.union samples') = .ok whole := by
  obtain ⟨g, hg, hgcategory, hgtarget, hgbody⟩ := h.compile hf hsigns
  obtain ⟨-, -, a, ha, rfl⟩ := compile_ok.mp hf
  obtain ⟨-, hbody, -⟩ := Assignment.written_of_ofText ha
  have hcomposed := h.composed hbody
  -- a mention that is loose in the second definition is loose in the first one
  have hroom : g.HasRoomFor samples' := by
    intro m hm
    rw [← Expr.looseMentions_bare, hgbody] at hm
    have hfilled := hcomposed.of_items hcomposed.looseMentions_reading m hm
    have hloose := Expr.looseMentions_fill (fun _ _ argument he =>
      Expr.looseMentions_filler he argument) _ hfilled
    rw [Expr.looseMentions_bare] at hloose
    rw [hgcategory]
    exact h' m hloose
  have hunion : HasRoomFor ⟨source, category, a⟩ (samples.union samples') := by
    intro m hm
    have hs := h m hm
    have hs' := h' m hm
    rw [Samples.several] at hs hs' ⊢
    rw [Table.get?_union]
    cases hget : samples.get? (m.resolve category) with
    | none => rwa [Option.none_or]
    | some list => rwa [Option.some_or, ← hget]
  have htext : (g.filled samples').text =
      (filled ⟨source, category, a⟩ (samples.union samples')).text := by
    have hrefilled := hcomposed.text_fill_splice
      (@Expr.Composed.text_fill_reading (samples'.filler category) _ _ hcomposed)
    rw [Assignment.text, Assignment.text, filled, filled, hgcategory, hgbody, ← Expr.fill_union,
      hgtarget]
    exact congrArg _ hrefilled
  exact ⟨_, g, _, h.substitute, hg, hroom.substitute, htext ▸ hunion.substitute⟩

/-- A negative sample behind an operator in the first step, and a list in each step. -/
theorem substitute_union_lists :
    ∃ f g, compile "x = SUM(w\x7bm:\"*\"\x7d, -a, v) - a * b" "c" = .ok f
      ∧ f.substitute (.ofList [(⟨"c", "w", .ofList [("m", "*")]⟩, [5.0, -6.0]),
          (⟨"c", "b", .empty⟩, [-3.0])]) = .ok "x = SUM(5, -6, -a, v) - a * -3"
      ∧ compile "x = SUM(5, -6, -a, v) - a * -3" "c" = .ok g
      ∧ g.substitute (.ofList [(⟨"c", "a", .empty⟩, [-2.0]), (⟨"c", "v", .empty⟩, [1.0, 2.0])])
          = .ok "x = SUM(5, -6, --2, 1, 2) - -2 * -3"
      ∧ f.substitute (Table.union
          (.ofList [(⟨"c", "w", .ofList [("m", "*")]⟩, [5.0, -6.0]), (⟨"c", "b", .empty⟩, [-3.0])])
          (.ofList [(⟨"c", "a", .empty⟩, [-2.0]), (⟨"c", "v", .empty⟩, [1.0, 2.0])]))
          = .ok "x = SUM(5, -6, --2, 1, 2) - -2 * -3" := by
  obtain ⟨samples, hsamples⟩ : ∃ samples : Samples, samples =
    .ofList [(⟨"c", "w", .ofList [("m", "*")]⟩, [5.0, -6.0]), (⟨"c", "b", .empty⟩, [-3.0])] :=
    ⟨_, rfl⟩
  obtain ⟨samples', hsamples'⟩ : ∃ samples : Samples, samples =
    .ofList [(⟨"c", "a", .empty⟩, [-2.0]), (⟨"c", "v", .empty⟩, [1.0, 2.0])] := ⟨_, rfl⟩
  have hread : (compile "x = SUM(w\x7bm:\"*\"\x7d, -a, v) - a * b" "c").toOption.map (fun f =>
      (f.category, f.assignment.body.signsInfinity, f.assignment.body.looseMentions false,
        (f.substitute samples).toOption, (f.substitute (samples.union samples')).toOption)) =
      some ("c", false, [⟨none, "a", []⟩, ⟨none, "a", []⟩, ⟨none, "b", []⟩],
        some "x = SUM(5, -6, -a, v) - a * -3", some "x = SUM(5, -6, --2, 1, 2) - -2 * -3") := by
    subst hsamples hsamples'
    decide +kernel
  have hseveral : ∀ m ∈ [(⟨none, "a", []⟩ : Mention), ⟨none, "a", []⟩, ⟨none, "b", []⟩],
      samples.several "c" m = false ∧ samples'.several "c" m = false := by
    subst hsamples hsamples'
    decide +kernel
  obtain ⟨f, hf, hfacts⟩ := exists_ok_of_toOption hread
  simp only [Prod.mk.injEq] at hfacts
  obtain ⟨hcategory, hsigns, hloose, htext, hwhole⟩ := hfacts
  have hroom : f.HasRoomFor samples ∧ f.HasRoomFor samples' := by
    rw [HasRoomFor, HasRoomFor, hloose, hcategory]
    exact ⟨fun m hm => (hseveral m hm).1, fun m hm => (hseveral m hm).2⟩
  obtain ⟨text, g, whole, hsubstitute, hg, hstep, hboth⟩ :=
    substitute_union hf hsigns hroom.1 hroom.2
  obtain rfl := Except.ok.inj (hsubstitute.symm.trans (eq_ok_of_toOption htext))
  obtain rfl := Except.ok.inj (hboth.symm.trans (eq_ok_of_toOption hwhole))
  subst hsamples hsamples'
  exact ⟨f, g, hf, hsubstitute, hg, hstep, hboth⟩

end Formula

end DerivedStats
