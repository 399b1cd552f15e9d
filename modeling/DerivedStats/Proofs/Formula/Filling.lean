import DerivedStats.Proofs.Evaluation.Outcome
import DerivedStats.Proofs.Syntax.Mentions
import DerivedStats.Proofs.Writing.RoundTrip

/-!
# Trees with mentions filled in

What a visitor makes of a tree if all that it does to a mention depends on the mention alone
(`Expr.fill`). Filling in is plain recursion, without a state and without failures, so what the
proofs need about replaced trees is proved of it: where a replacement succeeds its tree is the
filled one (`Expr.bare_replaceMentions`), and it keeps the meaning of the tree if it keeps that of
the mentions (`Expr.outcome?_fill`).
-/

namespace DerivedStats

namespace Expr

mutual

/-- The tree with each mention that has a value replaced by it. -/
def fill (value : Mention → Option Expr) : Expr → Expr
  | literal s v => literal s v
  | mention s m => (value m).getD (mention s m)
  | signed s o e => signed s o (e.fill value)
  | binary s l o r => binary s (l.fill value) o (r.fill value)
  | conditional s c y n => conditional s (c.fill value) (y.fill value) (n.fill value)
  | call s a es => call s a (fillAll value es)
  | list s es => list s (fillAll value es)

/-- The trees with mentions replaced. -/
def fillAll (value : Mention → Option Expr) : List Expr → List Expr
  | [] => []
  | e :: es => e.fill value :: fillAll value es

end

theorem fillAll_eq_map (value : Mention → Option Expr) (es : List Expr) :
    fillAll value es = es.map (fill value) := by
  induction es with
  | nil => simp [fillAll]
  | cons e es ih => simp [fillAll, ih]

theorem mentions_bare (e : Expr) : ∀ inside,
    (e.bare.sites inside).map Site.mention = (e.sites inside).map Site.mention := by
  intro inside
  rw [map_mention_sites, map_mention_sites]
  induction e using induction_parts with
  | literal | mention => rfl
  | signed s o e ih => rw [bare, mentions_signed, mentions_signed, ih]
  | binary s l o r hl hr => rw [bare, mentions_binary, mentions_binary, hl, hr]
  | conditional s c y n hc hy hn =>
    rw [bare, mentions_conditional, mentions_conditional, hc, hy, hn]
  | call s a es ih =>
    rw [bare, mentions_call, mentions_call, baresOf_eq_map, List.flatMap_map]
    exact List.flatMap_congr ih
  | list s es ih =>
    rw [bare, mentions_list, mentions_list, baresOf_eq_map, List.flatMap_map]
    exact List.flatMap_congr ih

/-- The spans of the tree do not matter for the filled one. -/
theorem bare_fill (value : Mention → Option Expr) (e : Expr) :
    (e.bare.fill value).bare = (e.fill value).bare := by
  induction e using induction_parts with
  | literal => rfl
  | mention s m =>
    rw [bare, fill, fill]
    cases value m <;> rfl
  | signed s o e ih => simp only [bare, fill, ih]
  | binary s l o r hl hr => simp only [bare, fill, hl, hr]
  | conditional s c y n hc hy hn => simp only [bare, fill, hc, hy, hn]
  | call s a es ih | list s es ih =>
    simp only [bare, fill, baresOf_eq_map, fillAll_eq_map, List.map_map]
    exact congrArg _ (List.map_congr_left ih)

end Expr

/-! ## Replacing -/

namespace Replaced

variable {σ ε α β : Type}

/-- If two steps get through, then each of them does, and their trees are put together. -/
theorem andThen_of_none {r : Replaced σ ε α} {later : β} {next : σ → Replaced σ ε β}
    (h : (r.andThen later next).failure = none) :
    r.failure = none ∧ (next r.state).failure = none
      ∧ (r.andThen later next).tree = (r.tree, (next r.state).tree) := by
  unfold andThen at h ⊢
  cases hr : r.failure with
  | some failure =>
    rw [hr] at h
    exact nomatch h
  | none =>
    rw [hr] at h
    exact ⟨rfl, h, rfl⟩

end Replaced

namespace Expr

variable {σ ε : Type} {visit : Visitor σ ε} {value : Mention → Option Expr}

/-- At a mention the visitor gets through, and its tree stands there, if it has one. -/
theorem replaceMentions_mention_of_none {s : Span} {m : Mention} {inside : Bool} {state : σ}
    (h : ((mention s m).replaceMentions visit inside state).failure = none) :
    ∃ r, (visit state ⟨m, s, inside⟩).2 = .ok r
      ∧ ((mention s m).replaceMentions visit inside state).tree.bare
        = (r.getD (mention s m)).bare := by
  rw [replaceMentions] at h ⊢
  cases hdecision : visit state ⟨m, s, inside⟩ with
  | mk state' decision =>
    rw [hdecision] at h
    cases decision with
    | error failure => exact nomatch h
    | ok r =>
      refine ⟨r, rfl, ?_⟩
      cases r with
      | none => rfl
      | some e => exact bare_withSpan s e

/-- Where the visitor decides, it decides as `value` does, up to spans. -/
def Decides (visit : Visitor σ ε) (value : Mention → Option Expr) : Prop :=
  ∀ state site r, (visit state site).2 = .ok r → r.map bare = (value site.mention).map bare

/-- If a visitor fills in each of the trees, then it fills in all of them. -/
theorem bares_replaceMentionsIn {inside : Bool} {es : List Expr}
    (hes : ∀ e ∈ es, ∀ state, (e.replaceMentions visit inside state).failure = none →
      (e.replaceMentions visit inside state).tree.bare = (e.fill value).bare) (state : σ)
    (h : (replaceMentionsIn visit inside state es).failure = none) :
    (replaceMentionsIn visit inside state es).tree.map bare = (es.map (fill value)).map bare := by
  induction es generalizing state with
  | nil => simp [replaceMentionsIn]
  | cons e es ih =>
    rw [replaceMentionsIn] at h ⊢
    obtain ⟨hfirst, hmore, htree⟩ := Replaced.andThen_of_none h
    rw [Replaced.map, htree, List.map_cons, List.map_cons, List.map_cons,
      hes e (by simp) state hfirst, ih (fun f hf => hes f (by simp [hf])) _ hmore]

/-- **Replaced mentions are filled in.** -/
theorem bare_replaceMentions (hvisit : Decides visit value) (e : Expr) :
    ∀ inside state, (e.replaceMentions visit inside state).failure = none →
      (e.replaceMentions visit inside state).tree.bare = (e.fill value).bare := by
  induction e using induction_parts with
  | literal s v =>
    intro inside state _
    rw [replaceMentions, fill]
  | mention s m =>
    -- the visitor leaves the mention where `value` has none for it
    intro inside state h
    obtain ⟨r, hr, htree⟩ := replaceMentions_mention_of_none h
    have hvalue : r.map bare = (value m).map bare := hvisit state ⟨m, s, inside⟩ r hr
    rw [htree, fill, ← Option.getD_map bare, ← Option.getD_map bare, hvalue]
  | signed s o e ih =>
    intro inside state h
    rw [replaceMentions] at h ⊢
    rw [fill, bare, ← ih inside state h]
    rfl
  | binary s l o r hl hr =>
    intro inside state h
    rw [replaceMentions] at h ⊢
    obtain ⟨hfirst, hmore, htree⟩ := Replaced.andThen_of_none h
    rw [Replaced.map, htree, fill, bare, bare, hl inside state hfirst, hr inside _ hmore]
  | conditional s c y n hc hy hn =>
    intro inside state h
    rw [replaceMentions] at h ⊢
    obtain ⟨hfirst, hmore, htree⟩ := Replaced.andThen_of_none h
    obtain ⟨hsecond, hmore, htree'⟩ := Replaced.andThen_of_none hmore
    rw [Replaced.map, htree, htree', fill, bare, bare, hc inside state hfirst,
      hy inside _ hsecond, hn inside _ hmore]
  | call s a es ih | list s es ih =>
    intro inside state h
    rw [replaceMentions] at h ⊢
    rw [fill, bare, baresOf_eq_map, fillAll_eq_map, Replaced.map, bare, baresOf_eq_map,
      bares_replaceMentionsIn (fun e he => ih e he _) state h]

/-! ## What filling in keeps -/

/-- Filling trees that can be written into a tree that was read gives one that can be written. -/
theorem written_fill {lists : Prop} (hvalue : ∀ m e, value m = some e → e.Written lists) {e : Expr}
    (h : e.Written False) : (e.fill value).Written lists := by
  induction h with
  | literal s v =>
    rw [fill]
    exact .literal s v
  | @mention s m h hnan =>
    rw [fill]
    cases hm : value m with
    | none => exact .mention s h hnan
    | some e => exact hvalue m e hm
  | signed s o _ ih =>
    rw [fill]
    exact .signed s o ih
  | binary s o _ _ hl hr =>
    rw [fill]
    exact .binary s o hl hr
  | conditional s _ _ _ hc hy hn =>
    rw [fill]
    exact .conditional s hc hy hn
  | call s a hne _ ih =>
    rw [fill, fillAll_eq_map]
    refine .call s a (by simpa using hne) fun e he => ?_
    obtain ⟨e', he', rfl⟩ := List.mem_map.mp he
    exact ih e' he'
  | list hlists => exact hlists.elim

/-- Filling in no names of infinities leaves a tree that is no such name. -/
theorem mentionsInfinity_fill (hvalue : ∀ m e, value m = some e → e.mentionsInfinity = false)
    {e : Expr} (h : e.mentionsInfinity = false) : (e.fill value).mentionsInfinity = false := by
  cases e with
  | mention s m =>
    rw [fill]
    cases hm : value m with
    | none => exact h
    | some e => exact hvalue m e hm
  | _ =>
    rw [fill]
    rfl

/-- Filling in no names of infinities puts none of them behind a sign. -/
theorem signsInfinity_fill
    (hvalue : ∀ m e, value m = some e → e.mentionsInfinity = false ∧ e.signsInfinity = false)
    (e : Expr) (h : e.signsInfinity = false) : (e.fill value).signsInfinity = false := by
  induction e using induction_parts with
  | literal => rfl
  | mention s m =>
    rw [fill]
    cases hm : value m with
    | none => rfl
    | some e => exact (hvalue m e hm).2
  | signed s o e ih =>
    rw [signsInfinity, Bool.or_eq_false_iff] at h
    rw [fill, signsInfinity, mentionsInfinity_fill (fun m e hm => (hvalue m e hm).1) h.1, ih h.2]
    rfl
  | binary s l o r hl hr =>
    rw [signsInfinity, Bool.or_eq_false_iff] at h
    rw [fill, signsInfinity, hl h.1, hr h.2]
    rfl
  | conditional s c y n hc hy hn =>
    rw [signsInfinity, Bool.or_eq_false_iff, Bool.or_eq_false_iff] at h
    rw [fill, signsInfinity, hc h.1.1, hy h.1.2, hn h.2]
    rfl
  | call s a es ih | list s es ih =>
    rw [signsInfinity, anySignsInfinity_eq_any, List.any_eq_false] at h
    rw [fill, signsInfinity, anySignsInfinity_eq_any, fillAll_eq_map, List.any_map,
      List.any_eq_false]
    exact fun e he => Bool.eq_false_iff.mp (ih e he (Bool.eq_false_iff.mpr (h e he)))

/-- **A tree keeps its meaning if its mentions do.** -/
theorem outcome?_fill {scope : Scope} (e : Expr) : ∀ inside,
    (∀ site ∈ e.sites inside, ∀ e', value site.mention = some e' →
      e'.outcome? scope = some (scope.read (site.mention.resolve scope.category))) →
    (e.fill value).outcome? scope = e.outcome? scope := by
  intro inside h
  replace h : ∀ m ∈ e.mentions, ∀ e', value m = some e' →
      e'.outcome? scope = some (scope.read (m.resolve scope.category)) := forall_sites.mp h
  induction e using induction_parts with
  | literal => rw [fill]
  | mention s m =>
    rw [fill]
    cases hm : value m with
    | none => rfl
    | some e =>
      rw [outcome?_mention]
      exact h m (by simp) e hm
  | signed s o e ih =>
    rw [mentions_signed] at h
    rw [fill]
    exact outcome?_signed_congr (ih h)
  | binary s l o r hl hr =>
    rw [mentions_binary, List.forall_mem_append] at h
    rw [fill, outcome?_binary, outcome?_binary, number?_congr (hl h.1), number?_congr (hr h.2)]
  | conditional s c y n hc hy hn =>
    rw [mentions_conditional, List.forall_mem_append, List.forall_mem_append] at h
    obtain ⟨⟨hcm, hym⟩, hnm⟩ := h
    rw [fill, outcome?_conditional, outcome?_conditional, number?_congr (hc hcm), hy hym, hn hnm]
  | call s a es ih =>
    rw [mentions_call, List.forall_mem_flatMap] at h
    rw [fill, outcome?_call, outcome?_call, fillAll_eq_map, values?_map fun e he => ih e he (h e he)]
  | list s es ih =>
    rw [mentions_list, List.forall_mem_flatMap] at h
    rw [fill, outcome?_list, outcome?_list, fillAll_eq_map, values?_map fun e he => ih e he (h e he)]

end Expr

end DerivedStats
