import DerivedStats.Formula.Basic
import DerivedStats.Proofs.Evaluation.Outcome
import DerivedStats.Proofs.Writing.RoundTrip

/-!
# Shapes

The shape of an expression says whether it stands for one number or for several, as far as that can
be told without values: a conditional counts as a sequence if one of its branches is one. A tree is
well shaped if a scalar stands wherever one number is wanted (`Expr.isWellShaped`).

With placeholders nothing is a sequence, so every formula has a value. Without them a well-shaped
formula has a value over every table. The converse needs that no conditional hides a sequence: the
shape of a tree without conditionals is the shape of its outcome over every table
(`Expr.shape_of_evaluate`), so if it is not well shaped then it fails over every table, and always
at the same place (`Formula.evaluate_shapes`).
-/

namespace DerivedStats

/-- One number, or several. -/
inductive Shape where
  | scalar
  | sequence
deriving DecidableEq

/-- The shape of an outcome. -/
def Outcome.shape : Outcome → Shape
  | scalar _ => .scalar
  | sequence _ => .sequence

namespace Expr

/-- The shape of an expression without placeholders, where mentions take the given category. -/
def shape (category : String) : Expr → Shape
  | literal _ _ | signed _ .minus _ | binary _ _ _ _ | call _ _ _ => .scalar
  | mention _ m => if (m.resolve category).isWildcarded then .sequence else .scalar
  | signed _ .plus e => e.shape category
  | conditional _ _ y n =>
    if y.shape category = .scalar ∧ n.shape category = .scalar then .scalar else .sequence
  | list _ _ => .sequence

mutual

/-- Every operand of a minus sign or an operator, and every condition, is a scalar. -/
def hasScalarOperands (category : String) : Expr → Bool
  | literal _ _ | mention _ _ => true
  | signed _ .plus e => e.hasScalarOperands category
  | signed _ .minus e => e.hasScalarOperands category && e.shape category = .scalar
  | binary _ l _ r =>
    l.hasScalarOperands category && l.shape category = .scalar
      && (r.hasScalarOperands category && r.shape category = .scalar)
  | conditional _ c y n =>
    c.hasScalarOperands category && c.shape category = .scalar
      && (y.hasScalarOperands category && n.hasScalarOperands category)
  | call _ _ es | list _ es => allHaveScalarOperands category es

/-- Every operand in the trees is a scalar. -/
def allHaveScalarOperands (category : String) : List Expr → Bool
  | [] => true
  | e :: es => e.hasScalarOperands category && allHaveScalarOperands category es

end

/-- The operands are scalars, and so is the whole. -/
def isWellShaped (category : String) (e : Expr) : Bool :=
  e.hasScalarOperands category && e.shape category = .scalar

mutual

/-- There is a conditional in the tree. -/
def hasConditional : Expr → Bool
  | literal _ _ | mention _ _ => false
  | signed _ _ e => e.hasConditional
  | binary _ l _ r => l.hasConditional || r.hasConditional
  | conditional _ _ _ _ => true
  | call _ _ es | list _ es => anyHasConditional es

/-- There is a conditional in one of the trees. -/
def anyHasConditional : List Expr → Bool
  | [] => false
  | e :: es => e.hasConditional || anyHasConditional es

end

mutual

/-- The spans of the negations and of the operator phrases in the tree. -/
def operationSpans : Expr → List Span
  | literal _ _ | mention _ _ => []
  | signed _ .plus e => e.operationSpans
  | signed s .minus e => s :: e.operationSpans
  | binary s l _ r => s :: (l.operationSpans ++ r.operationSpans)
  | conditional _ c y n => c.operationSpans ++ (y.operationSpans ++ n.operationSpans)
  | call _ _ es | list _ es => operationSpansOf es

/-- The spans of the negations and of the operator phrases in the trees. -/
def operationSpansOf : List Expr → List Span
  | [] => []
  | e :: es => e.operationSpans ++ operationSpansOf es

end

theorem allHaveScalarOperands_eq_all (category : String) (es : List Expr) :
    allHaveScalarOperands category es = es.all (hasScalarOperands category) := by
  induction es with
  | nil => simp [allHaveScalarOperands]
  | cons e es ih => simp [allHaveScalarOperands, ih]

/-! ## Outcomes of well-shaped trees -/

variable {scope : Scope}

/-- An outcome of scalar shape is a number. -/
theorem number?_of_shape {e : Expr} {o : Outcome} (h : e.outcome? scope = some o)
    (hshape : o.shape = .scalar) : ∃ x, e.number? scope = some x := by
  cases o with
  | scalar x => exact ⟨x, number?_eq_some.mpr h⟩
  | sequence xs => cases hshape

/-- A scalar with an outcome that keeps its shape stands for a number. -/
theorem number?_of_scalar {category : String} {e : Expr}
    (h : ∃ o, e.outcome? scope = some o ∧ (e.shape category = .scalar → o.shape = .scalar))
    (hshape : e.shape category = .scalar) : ∃ x, e.number? scope = some x := by
  obtain ⟨o, ho, hscalar⟩ := h
  exact number?_of_shape ho (hscalar hshape)

/-- A scalar conditional has two scalar branches. -/
theorem shape_conditional {category : String} (s : Span) (c y n : Expr) :
    (conditional s c y n).shape category = .scalar
      ↔ y.shape category = .scalar ∧ n.shape category = .scalar := by
  rw [shape]
  simp

/-- If every expression has an outcome then they have values together. -/
theorem exists_values? {es : List Expr} (h : ∀ e ∈ es, ∃ o, e.outcome? scope = some o) :
    ∃ xs, values? scope es = some xs := by
  induction es with
  | nil => exact ⟨[], values?_nil⟩
  | cons e es ih =>
    obtain ⟨o, ho⟩ := h e (by simp)
    obtain ⟨xs, hxs⟩ := ih fun f hf => h f (by simp [hf])
    exact ⟨o.values ++ xs, by rw [values?_cons, ho, hxs]; rfl⟩

/-- A tree whose operands are scalars has an outcome, and a scalar one if its shape says so. -/
theorem outcome?_of_hasScalarOperands {e : Expr}
    (h : e.hasScalarOperands scope.category = true) :
    ∃ o, e.outcome? scope = some o
      ∧ (e.shape scope.category = .scalar → o.shape = .scalar) := by
  induction e using induction_parts with
  | literal s v => exact ⟨_, outcome?_literal s v, fun _ => rfl⟩
  | mention s m =>
    refine ⟨_, outcome?_mention s m, fun hshape => ?_⟩
    rw [shape] at hshape
    unfold Scope.read
    split
    · next hopen =>
      rw [if_pos hopen] at hshape
      cases hshape
    · rfl
  | signed s sign e ih =>
    cases sign with
    | plus =>
      rw [hasScalarOperands] at h
      rw [outcome?_plus, shape]
      exact ih h
    | minus =>
      rw [hasScalarOperands, Bool.and_eq_true, decide_eq_true_eq] at h
      obtain ⟨x, hx⟩ := number?_of_scalar (ih h.1) h.2
      exact ⟨_, by rw [outcome?_minus, hx]; rfl, fun _ => rfl⟩
  | binary s l op r hl hr =>
    rw [hasScalarOperands] at h
    simp only [Bool.and_eq_true, decide_eq_true_eq] at h
    obtain ⟨x, hx⟩ := number?_of_scalar (hl h.1.1) h.1.2
    obtain ⟨y, hy⟩ := number?_of_scalar (hr h.2.1) h.2.2
    exact ⟨_, by rw [outcome?_binary, hx, hy]; rfl, fun _ => rfl⟩
  | conditional s c y n hc hy hn =>
    rw [hasScalarOperands] at h
    simp only [Bool.and_eq_true, decide_eq_true_eq] at h
    obtain ⟨x, hx⟩ := number?_of_scalar (hc h.1.1) h.1.2
    obtain ⟨o₁, ho₁, hscalar₁⟩ := hy h.2.1
    obtain ⟨o₂, ho₂, hscalar₂⟩ := hn h.2.2
    rw [outcome?_conditional, hx, Option.bind_some, shape_conditional]
    -- both branches are scalars, so it does not matter which one is taken
    split
    · exact ⟨o₁, ho₁, fun hshape => hscalar₁ hshape.1⟩
    · exact ⟨o₂, ho₂, fun hshape => hscalar₂ hshape.2⟩
  | call s a es ih =>
    rw [hasScalarOperands, allHaveScalarOperands_eq_all, List.all_eq_true] at h
    obtain ⟨xs, hxs⟩ := exists_values? fun e he => (ih e he (h e he)).imp fun _ ho => ho.1
    exact ⟨_, by rw [outcome?_call, hxs]; rfl, fun _ => rfl⟩
  | list s es ih =>
    rw [hasScalarOperands, allHaveScalarOperands_eq_all, List.all_eq_true] at h
    obtain ⟨xs, hxs⟩ := exists_values? fun e he => (ih e he (h e he)).imp fun _ ho => ho.1
    exact ⟨_, by rw [outcome?_list, hxs]; rfl, fun hshape => by cases hshape⟩

/-- With placeholders a tree without lists is a number. -/
theorem Written.number?_of_placeholders {e : Expr} (h : e.Written False)
    (hplaceholders : scope.placeholders.isEmpty = false) : ∃ x, e.number? scope = some x := by
  induction h with
  | literal s v => exact ⟨v, number?_eq_some.mpr (outcome?_literal s v)⟩
  | @mention s m _ _ =>
    have hread : ∃ x, scope.read (m.resolve scope.category) = .scalar x := by
      unfold Scope.read
      rw [hplaceholders]
      split <;> exact ⟨_, rfl⟩
    obtain ⟨x, hx⟩ := hread
    exact ⟨x, number?_eq_some.mpr ((outcome?_mention s m).trans (congrArg some hx))⟩
  | @signed s sign e _ ih =>
    obtain ⟨x, hx⟩ := ih
    cases sign with
    | plus => exact ⟨x, (number?_congr (outcome?_plus s e)).trans hx⟩
    | minus => exact ⟨-x, number?_eq_some.mpr (by rw [outcome?_minus, hx]; rfl)⟩
  | binary s op _ _ hl hr =>
    obtain ⟨x, hx⟩ := hl
    obtain ⟨y, hy⟩ := hr
    exact ⟨op.apply x y, number?_eq_some.mpr (by rw [outcome?_binary, hx, hy]; rfl)⟩
  | @conditional s c y n _ _ _ hc hy hn =>
    obtain ⟨x, hx⟩ := hc
    have hbranch : (Expr.conditional s c y n).outcome? scope
        = if holds x then y.outcome? scope else n.outcome? scope := by
      rw [outcome?_conditional, hx]
      rfl
    split at hbranch
    · exact hy.imp fun _ h => (number?_congr hbranch).trans h
    · exact hn.imp fun _ h => (number?_congr hbranch).trans h
  | call s a _ _ ih =>
    obtain ⟨xs, hxs⟩ := exists_values? fun e he => (ih e he).imp' .scalar fun _ => number?_eq_some.mp
    exact ⟨a.apply xs, number?_eq_some.mpr (by rw [outcome?_call, hxs]; rfl)⟩
  | list hlists => exact hlists.elim

/-! ## Trees without conditionals -/

/-- The shape of a tree without conditionals is the shape of its outcome over every table. -/
theorem shape_of_outcome? (hempty : scope.placeholders.isEmpty = true) {e : Expr} :
    e.hasConditional = false → ∀ {o : Outcome}, e.outcome? scope = some o →
      o.shape = e.shape scope.category := by
  induction e using induction_parts with
  | literal s v =>
    intro _ o ho
    rw [outcome?_literal] at ho
    obtain rfl := Option.some.inj ho
    rfl
  | mention s m =>
    intro _ o ho
    rw [outcome?_mention] at ho
    obtain rfl := Option.some.inj ho
    rw [shape, Scope.read, hempty]
    split <;> rfl
  | signed s sign e ih =>
    intro hplain o ho
    rw [hasConditional] at hplain
    cases sign with
    | plus =>
      rw [outcome?_plus] at ho
      exact ih hplain ho
    | minus =>
      rw [outcome?_minus] at ho
      obtain ⟨x, -, rfl⟩ := Option.map_eq_some_iff.mp ho
      rfl
  | binary s l op r _ _ =>
    intro _ o ho
    rw [outcome?_binary] at ho
    obtain ⟨x, -, ho⟩ := Option.bind_eq_some_iff.mp ho
    obtain ⟨y, -, rfl⟩ := Option.map_eq_some_iff.mp ho
    rfl
  | conditional s c y n _ _ _ =>
    intro hplain
    rw [hasConditional] at hplain
    cases hplain
  | call s a es _ =>
    intro _ o ho
    rw [outcome?_call] at ho
    obtain ⟨xs, -, rfl⟩ := Option.map_eq_some_iff.mp ho
    rfl
  | list s es _ =>
    intro _ o ho
    rw [outcome?_list] at ho
    obtain ⟨xs, -, rfl⟩ := Option.map_eq_some_iff.mp ho
    rfl

/-- A well-shaped tree is a number over every table. -/
theorem numberAt_of_isWellShaped {e : Expr} (h : e.isWellShaped scope.category = true)
    (span : Span) : ∃ x, e.numberAt scope span = .ok x := by
  rw [isWellShaped, Bool.and_eq_true, decide_eq_true_eq] at h
  obtain ⟨x, hx⟩ := number?_of_scalar (outcome?_of_hasScalarOperands h.1) h.2
  exact ⟨x, eq_ok_of_toOption ((toOption_numberAt e span).trans hx)⟩

/-- Over every table without placeholders, the computation is a misuse at one of the spans. -/
def FailsWithin (category : String) (spans : List Span) {α : Type}
    (run : Scope → Except Misuse α) : Prop :=
  ∃ span ∈ spans, ∀ values,
    run ⟨category, values, .empty⟩ = .error (.sequenceAsScalar (some span))

variable {category : String}

/-- What fails keeps failing at the same place, whatever comes behind it. -/
theorem FailsWithin.bind {spans : List Span} {α β : Type} {run : Scope → Except Misuse α}
    (h : FailsWithin category spans run) (next : Scope → α → Except Misuse β) :
    FailsWithin category spans fun scope => run scope >>= next scope := by
  obtain ⟨span, hspan, hrun⟩ := h
  refine ⟨span, hspan, fun values => ?_⟩
  show run _ >>= next _ = _
  rw [hrun]
  rfl

/-- A failure behind a computation that always succeeds is the failure of the whole. -/
theorem FailsWithin.behind {spans : List Span} {α β γ : Type} {run : Scope → Except Misuse β}
    (h : FailsWithin category spans run) {first : Scope → Except Misuse α}
    (hfirst : ∀ values, ∃ a, first ⟨category, values, .empty⟩ = .ok a)
    (next : Scope → α → β → Except Misuse γ) :
    FailsWithin category spans fun scope =>
      first scope >>= fun a => run scope >>= next scope a := by
  obtain ⟨span, hspan, hrun⟩ := h
  refine ⟨span, hspan, fun values => ?_⟩
  obtain ⟨a, ha⟩ := hfirst values
  show first _ >>= _ = _
  rw [ha]
  show run _ >>= _ = _
  rw [hrun]
  rfl

/-- Failing at one of some spans is failing at one of more spans. -/
theorem FailsWithin.mono {spans spans' : List Span} {α : Type} {run : Scope → Except Misuse α}
    (h : FailsWithin category spans run) (hsub : ∀ span ∈ spans, span ∈ spans') :
    FailsWithin category spans' run :=
  h.imp fun span hspan => ⟨hsub span hspan.1, hspan.2⟩

/-- An operand that is not well shaped fails: inside, or where a number is wanted of it. -/
theorem failsWithin_numberAt {e : Expr} (hplain : e.hasConditional = false)
    (hshape : e.isWellShaped category = false)
    (ih : e.hasScalarOperands category = false →
      FailsWithin category e.operationSpans fun scope => e.evaluate scope) (s : Span) :
    FailsWithin category (s :: e.operationSpans) fun scope => e.numberAt scope s := by
  cases hoperands : e.hasScalarOperands category with
  | false =>
    exact ((ih hoperands).bind fun _ o => o.single s).mono fun _ h => List.mem_cons_of_mem _ h
  | true =>
    refine ⟨s, by simp, fun values => ?_⟩
    obtain ⟨o, ho, -⟩ :=
      @outcome?_of_hasScalarOperands ⟨category, values, .empty⟩ _ hoperands
    have hsame := shape_of_outcome? rfl hplain ho
    rw [isWellShaped, hoperands, Bool.true_and, decide_eq_false_iff_not, ← hsame] at hshape
    show e.numberAt ⟨category, values, .empty⟩ s = _
    rw [numberAt, eq_ok_of_toOption ho]
    cases o with
    | scalar x => exact absurd rfl hshape
    | sequence xs => rfl

/-- If one of the trees has an operand that is no scalar, evaluating them all fails. -/
theorem failsWithin_evaluateAll {es : List Expr} (hplain : anyHasConditional es = false)
    (hoperands : allHaveScalarOperands category es = false)
    (ih : ∀ e ∈ es, e.hasConditional = false → e.hasScalarOperands category = false →
      FailsWithin category e.operationSpans fun scope => e.evaluate scope) :
    FailsWithin category (operationSpansOf es) fun scope => evaluateAll scope es := by
  induction es with
  | nil =>
    rw [allHaveScalarOperands] at hoperands
    cases hoperands
  | cons e es ihes =>
    rw [anyHasConditional, Bool.or_eq_false_iff] at hplain
    rw [operationSpansOf]
    simp only [evaluateAll]
    cases hfirst : e.hasScalarOperands category with
    | false =>
      exact ((ih e (by simp) hplain.1 hfirst).bind _).mono fun _ h => List.mem_append_left _ h
    | true =>
      -- the first tree has an outcome, so the failure is behind it
      rw [allHaveScalarOperands, hfirst, Bool.true_and] at hoperands
      have hmore := ihes hplain.2 hoperands fun f hf => ih f (by simp [hf])
      have hevaluates : ∀ values, ∃ o, e.evaluate ⟨category, values, .empty⟩ = .ok o :=
        fun values => (@outcome?_of_hasScalarOperands ⟨category, values, .empty⟩ _ hfirst).imp
          fun o ho => eq_ok_of_toOption ho.1
      exact (hmore.behind hevaluates _).mono fun _ h => List.mem_append_right _ h

/-- **A tree without conditionals whose operands are not all scalars fails over every table**, always
at the same negation or operator phrase. -/
theorem failsWithin_evaluate {e : Expr} : e.hasConditional = false →
    e.hasScalarOperands category = false →
    FailsWithin category e.operationSpans fun scope => e.evaluate scope := by
  induction e using induction_parts with
  | literal s v | mention s m =>
    intro _ h
    rw [hasScalarOperands] at h
    cases h
  | signed s sign e ih =>
    intro hplain hoperands
    rw [hasConditional] at hplain
    cases sign with
    | plus =>
      rw [hasScalarOperands] at hoperands
      simp only [evaluate, operationSpans]
      exact ih hplain hoperands
    | minus =>
      rw [hasScalarOperands] at hoperands
      simp only [evaluate_minus, operationSpans]
      exact (failsWithin_numberAt hplain hoperands (ih hplain) s).bind _
  | binary s l op r hl hr =>
    intro hplain hoperands
    rw [hasConditional, Bool.or_eq_false_iff] at hplain
    rw [hasScalarOperands] at hoperands
    simp only [evaluate_binary, operationSpans]
    cases hleft : l.isWellShaped category with
    | false =>
      exact ((failsWithin_numberAt hplain.1 hleft (hl hplain.1) s).bind _).mono
        (List.cons_subset_cons s (List.subset_append_left _ _))
    | true =>
      -- the left operand is a number, so the right one fails
      have hright : r.isWellShaped category = false := by
        rw [isWellShaped] at hleft ⊢
        rwa [hleft, Bool.true_and] at hoperands
      have hnumber : ∀ values, ∃ x, l.numberAt ⟨category, values, .empty⟩ s = .ok x :=
        fun values => @numberAt_of_isWellShaped ⟨category, values, .empty⟩ _ hleft s
      exact ((failsWithin_numberAt hplain.2 hright (hr hplain.2) s).behind hnumber _).mono
        (List.cons_subset_cons s (List.subset_append_right _ _))
  | conditional s c y n _ _ _ =>
    intro hplain
    rw [hasConditional] at hplain
    cases hplain
  | call s a es ih | list s es ih =>
    intro hplain hoperands
    rw [hasConditional] at hplain
    rw [hasScalarOperands] at hoperands
    simp only [evaluate, operationSpans]
    exact (failsWithin_evaluateAll hplain hoperands fun e he => ih e he).bind _

end Expr

end DerivedStats
