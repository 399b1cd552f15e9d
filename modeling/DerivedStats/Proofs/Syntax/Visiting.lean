import DerivedStats.Syntax.Site
import DerivedStats.Proofs.Grammar.Derivation

/-!
# What a visitor is offered

A replacement offers the mentions of a tree to the visitor as the list of its sites has them, one by
one and none twice (`Expr.outcome_replaceMentions`): the state in which it leaves the visitor, and
the failure, are those of going through that list. A visitor that decides about failing by the site
alone fails at the first site that it refuses (`Expr.failure_replaceMentions_eq`).
-/

namespace DerivedStats

variable {σ ε α β : Type}

namespace Visitor

variable {visit : Visitor σ ε}

/-- The state and the failure of a visitor that goes through a list of sites until it fails. -/
def offer (visit : Visitor σ ε) : σ → List Site → σ × Option ε
  | state, [] => (state, none)
  | state, site :: rest =>
    match visit state site with
    | (state, .error failure) => (state, some failure)
    | (state, .ok _) => offer visit state rest

/-- Behind a failure no site is offered. -/
theorem offer_append_of_some {state : σ} {before : List Site} {failure : ε}
    (h : (offer visit state before).2 = some failure) (behind : List Site) :
    offer visit state (before ++ behind) = offer visit state before := by
  induction before generalizing state with
  | nil => exact nomatch h
  | cons site before ih =>
    rw [List.cons_append, offer, offer]
    rw [offer] at h
    cases hvisit : visit state site with
    | mk state' decision =>
      rw [hvisit] at h
      cases decision with
      | error failure => rfl
      | ok r => exact ih h

/-- Sites that the visitor gets through are followed by the others, in the state that it is in then.
-/
theorem offer_append_of_none {state : σ} {before : List Site}
    (h : (offer visit state before).2 = none) (behind : List Site) :
    offer visit state (before ++ behind) = offer visit (offer visit state before).1 behind := by
  induction before generalizing state with
  | nil => rfl
  | cons site before ih =>
    rw [List.cons_append, offer, offer]
    rw [offer] at h
    cases hvisit : visit state site with
    | mk state' decision =>
      rw [hvisit] at h
      cases decision with
      | error failure => exact nomatch h
      | ok r => exact ih h

/-- The visitor fails as `verdict` says, in whatever state it is. -/
def Refuses (visit : Visitor σ ε) (verdict : Site → Option ε) : Prop :=
  ∀ state site failure, (visit state site).2 = .error failure ↔ verdict site = some failure

/-- Such a visitor fails at the first site that has a verdict. -/
theorem failure_offer {verdict : Site → Option ε} (h : Refuses visit verdict) (state : σ)
    (sites : List Site) : (offer visit state sites).2 = sites.findSome? verdict := by
  induction sites generalizing state with
  | nil => rfl
  | cons site rest ih =>
    rw [offer, List.findSome?_cons]
    cases hvisit : visit state site with
    | mk state' decision =>
      cases decision with
      | error failure =>
        have hverdict : verdict site = some failure := (h state site failure).mp (by rw [hvisit])
        rw [hverdict]
      | ok r =>
        have hverdict : verdict site = none := by
          refine Option.eq_none_iff_forall_ne_some.mpr fun failure hsome => ?_
          have herror := (h state site failure).mpr hsome
          rw [hvisit] at herror
          exact nomatch herror
        rw [hverdict]
        exact ih state'

end Visitor

namespace Replaced

/-- What a replacement leaves of the visitor: its state and its failure. -/
def outcome (r : Replaced σ ε α) : σ × Option ε := (r.state, r.failure)

@[simp] theorem outcome_map (f : α → β) (r : Replaced σ ε α) : (r.map f).outcome = r.outcome := rfl

/-- A part of a tree and the part that comes next: the sites of both, in this order. -/
theorem outcome_andThen {visit : Visitor σ ε} {state : σ} {before behind : List Site}
    {r : Replaced σ ε α} {later : β} {next : σ → Replaced σ ε β}
    (hr : r.outcome = visit.offer state before)
    (hnext : ∀ state, (next state).outcome = visit.offer state behind) :
    (r.andThen later next).outcome = visit.offer state (before ++ behind) := by
  have hstate : r.state = (visit.offer state before).1 := congrArg Prod.fst hr
  have hfailure : r.failure = (visit.offer state before).2 := congrArg Prod.snd hr
  unfold andThen
  cases h : r.failure with
  | some failure =>
    rw [Visitor.offer_append_of_some (hfailure ▸ h), ← hr, outcome, outcome, h]
  | none =>
    rw [Visitor.offer_append_of_none (hfailure ▸ h), ← hstate]
    exact hnext r.state

end Replaced

namespace Expr

variable {visit : Visitor σ ε}

/-- If each tree offers its sites in order, then so do the trees side by side. -/
theorem outcome_replaceMentionsIn {inside : Bool} {es : List Expr}
    (hes : ∀ e ∈ es, ∀ state,
      (e.replaceMentions visit inside state).outcome = visit.offer state (e.sites inside))
    (state : σ) :
    (replaceMentionsIn visit inside state es).outcome
      = visit.offer state (sitesOfAll inside es) := by
  induction es generalizing state with
  | nil =>
    rw [replaceMentionsIn, sitesOfAll]
    rfl
  | cons e es ih =>
    rw [replaceMentionsIn, sitesOfAll, Replaced.outcome_map]
    exact Replaced.outcome_andThen (hes e (by simp) state) (ih fun f hf => hes f (by simp [hf]))

/-- **A replacement goes through the sites of the tree.** -/
theorem outcome_replaceMentions (e : Expr) : ∀ inside state,
    (e.replaceMentions visit inside state).outcome = visit.offer state (e.sites inside) := by
  induction e using induction_parts with
  | literal s v =>
    intro inside state
    rw [replaceMentions, sites]
    rfl
  | mention s m =>
    intro inside state
    rw [replaceMentions, sites, Visitor.offer]
    cases visit state ⟨m, s, inside⟩ with
    | mk state' decision =>
      cases decision with
      | error failure => rfl
      | ok r => cases r <;> rfl
  | signed s o e ih =>
    intro inside state
    rw [replaceMentions, sites, Replaced.outcome_map]
    exact ih inside state
  | binary s l o r hl hr =>
    intro inside state
    rw [replaceMentions, sites, Replaced.outcome_map]
    exact Replaced.outcome_andThen (hl inside state) (hr inside)
  | conditional s c y n hc hy hn =>
    intro inside state
    rw [replaceMentions, sites, Replaced.outcome_map, List.append_assoc]
    exact Replaced.outcome_andThen (hc inside state)
      fun state => Replaced.outcome_andThen (hy inside state) (hn inside)
  | call s a es ih | list s es ih =>
    intro inside state
    rw [replaceMentions, sites, Replaced.outcome_map]
    exact outcome_replaceMentionsIn (fun e he => ih e he _) state

/-- The failure of a visitor that decides about failing by the site alone. -/
theorem failure_replaceMentions_eq {verdict : Site → Option ε} (h : visit.Refuses verdict)
    (e : Expr) (inside : Bool) (state : σ) :
    (e.replaceMentions visit inside state).failure = (e.sites inside).findSome? verdict := by
  rw [← Visitor.failure_offer h state, ← outcome_replaceMentions]
  rfl

end Expr

end DerivedStats
