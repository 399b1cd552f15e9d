import DerivedStats.Proofs.Syntax.Place
import DerivedStats.Proofs.Syntax.Visiting

/-!
# What a replacement leaves of the tree

A visitor is offered the sites of the tree as it was before any replacement: what is put into the
tree is never looked at. The log of its turns (`Visitor.logged`) is that of going through the list
of the sites (`Visitor.turns`), up to the first failure.

The tree that is left is the old one with the replacements of the log put to their places
(`Expr.tree_replaceMentions`). The node comes out of its parts in one way for all kinds of nodes
(`Expr.replaceMentions_eq`), and the parts are gone through by induction on those still to come,
behind those that are done.

Main result: `Assignment.replaceMentions_visits`.
-/

namespace DerivedStats

variable {σ ε : Type}

/-- One turn of a visitor: the site that it is offered, and what it decides. -/
structure Turn (ε : Type) where
  site : Site
  decision : Except ε (Option Expr)

namespace Turn

/-- What stands at the site after the turn, if it is replaced: the replacement in the span of the
mention. -/
def replacement? (t : Turn ε) : Option Expr :=
  match t.decision with
  | .ok (some e) => some (e.withSpan t.site.span)
  | .ok none | .error _ => none

/-- The visitor did not fail in this turn. -/
def Passes (t : Turn ε) : Prop := ∃ r, t.decision = .ok r

/-- The replacements of the turns, with the places of the sites. -/
def edits (places : List (List Nat)) (turns : List (Turn ε)) : List (List Nat × Expr) :=
  (places.zip turns).filterMap fun (p, t) => t.replacement?.map (p, ·)

/-- The turns of two rounds edit their places one round after the other. -/
theorem edits_append {ps qs : List (List Nat)} {ts us : List (Turn ε)}
    (h : ps.length = ts.length) : edits (ps ++ qs) (ts ++ us) = edits ps ts ++ edits qs us := by
  rw [edits, List.zip_append h, List.filterMap_append]
  rfl

/-- Places that no turn comes to are not edited. -/
theorem edits_append_of_le {ps qs : List (List Nat)} {ts : List (Turn ε)}
    (h : ts.length ≤ ps.length) : edits (ps ++ qs) ts = edits ps ts := by
  have hzip : (ps ++ qs).zip ts = ps.zip ts := by
    induction ts generalizing ps with
    | nil => simp
    | cons t ts ih =>
      obtain ⟨p, ps, rfl⟩ := List.exists_cons_of_length_pos (Nat.zero_lt_of_lt h)
      simp [ih (Nat.le_of_succ_le_succ h)]
  rw [edits, edits, hzip]

/-- Moving the places moves the edits. -/
theorem edits_map (f : List Nat → List Nat) (ps : List (List Nat)) (ts : List (Turn ε)) :
    edits (ps.map f) ts = (edits ps ts).map (Prod.map f id) := by
  rw [edits, edits, List.zip_map_left, List.filterMap_map, List.map_filterMap]
  refine List.filterMap_congr fun (p, t) _ => ?_
  cases h : t.replacement? <;> simp [h]

/-- Turns that replace nothing make no edits. -/
theorem edits_eq_nil {ps : List (List Nat)} {ts : List (Turn ε)}
    (h : ∀ t ∈ ts, t.replacement? = none) : edits ps ts = [] := by
  refine List.filterMap_eq_nil_iff.mpr fun (p, t) ht => ?_
  simp [h t (List.of_mem_zip ht).2]

end Turn

namespace Visitor

variable {visit : Visitor σ ε}

/-- The visitor with a log of its turns. -/
def logged (visit : Visitor σ ε) : Visitor (σ × List (Turn ε)) ε := fun (state, log) site =>
  let (state, decision) := visit state site
  ((state, log ++ [⟨site, decision⟩]), decision)

/-- The turns of a visitor that goes through a list of sites until it fails. -/
def turns (visit : Visitor σ ε) : σ → List Site → List (Turn ε)
  | _, [] => []
  | state, site :: rest =>
    match visit state site with
    | (_, .error failure) => [⟨site, .error failure⟩]
    | (state, .ok r) => ⟨site, .ok r⟩ :: turns visit state rest

/-- Keeping a log does not change what the visitor does, and the log gets its turns. -/
theorem offer_logged (state : σ) (log : List (Turn ε)) (sites : List Site) :
    offer visit.logged (state, log) sites
      = (((offer visit state sites).1, log ++ turns visit state sites),
          (offer visit state sites).2) := by
  induction sites generalizing state log with
  | nil => rw [turns, List.append_nil]; rfl
  | cons site rest ih =>
    rw [offer, offer, turns, logged]
    cases visit state site with
    | mk state' decision =>
      cases decision with
      | error failure => rfl
      | ok r => simp [ih]

/-- A visitor has the same turns with and without a log. -/
theorem turns_logged (state : σ) (log : List (Turn ε)) (sites : List Site) :
    turns visit.logged (state, log) sites = turns visit state sites := by
  induction sites generalizing state log with
  | nil => rfl
  | cons site rest ih =>
    rw [turns, turns, logged]
    cases visit state site with
    | mk state' decision =>
      cases decision with
      | error failure => rfl
      | ok r => exact congrArg _ (ih _ _)

/-- A visitor that gets through the sites has its turn at each of them. -/
theorem turns_of_none {state : σ} {sites : List Site} (h : (offer visit state sites).2 = none) :
    (turns visit state sites).map Turn.site = sites ∧ ∀ t ∈ turns visit state sites, t.Passes := by
  induction sites generalizing state with
  | nil => exact ⟨rfl, by simp [turns]⟩
  | cons site rest ih =>
    rw [offer] at h
    rw [turns]
    cases hvisit : visit state site with
    | mk state' decision =>
      rw [hvisit] at h
      cases decision with
      | error failure => exact absurd h (Option.some_ne_none failure)
      | ok r =>
        obtain ⟨hsites, hpass⟩ := ih h
        exact ⟨by simp [hsites], List.forall_mem_cons.mpr ⟨⟨r, rfl⟩, hpass⟩⟩

/-- A visitor that fails has its last turn where it does so. -/
theorem turns_of_some {state : σ} {sites : List Site} {failure : ε}
    (h : (offer visit state sites).2 = some failure) :
    ∃ before site behind, sites = before.map Turn.site ++ site :: behind
      ∧ turns visit state sites = before ++ [⟨site, .error failure⟩] ∧ ∀ t ∈ before, t.Passes := by
  induction sites generalizing state with
  | nil => exact nomatch h
  | cons site rest ih =>
    rw [offer] at h
    rw [turns]
    cases hvisit : visit state site with
    | mk state' decision =>
      rw [hvisit] at h
      cases decision with
      | error failure' =>
        cases h
        exact ⟨[], site, rest, rfl, rfl, by simp⟩
      | ok r =>
        obtain ⟨before, last, behind, hrest, hturns, hpass⟩ := ih h
        exact ⟨⟨site, .ok r⟩ :: before, last, behind, by simp [hrest], by simp [hturns],
          List.forall_mem_cons.mpr ⟨⟨r, rfl⟩, hpass⟩⟩

/-- The sites of the turns are the first ones of the list, in its order. -/
theorem sites_turns_prefix (state : σ) (sites : List Site) :
    (turns visit state sites).map Turn.site <+: sites := by
  cases h : (offer visit state sites).2 with
  | none => exact (turns_of_none h).1.symm ▸ List.prefix_rfl
  | some failure =>
    obtain ⟨before, site, behind, hsites, hturns, -⟩ := turns_of_some h
    exact ⟨behind, by rw [hturns, hsites]; simp⟩

/-- Behind a failure there are no turns. -/
theorem turns_append_of_some {state : σ} {before : List Site} {failure : ε}
    (h : (offer visit state before).2 = some failure) (behind : List Site) :
    turns visit state (before ++ behind) = turns visit state before := by
  induction before generalizing state with
  | nil => exact nomatch h
  | cons site before ih =>
    rw [List.cons_append, turns, turns]
    rw [offer] at h
    cases hvisit : visit state site with
    | mk state' decision =>
      rw [hvisit] at h
      cases decision with
      | error failure => rfl
      | ok r => exact congrArg _ (ih h)

/-- A visitor that gets through one list goes on with the next one. -/
theorem turns_append_of_none {state : σ} {before : List Site}
    (h : (offer visit state before).2 = none) (behind : List Site) :
    turns visit state (before ++ behind)
      = turns visit state before ++ turns visit (offer visit state before).1 behind := by
  induction before generalizing state with
  | nil => rfl
  | cons site before ih =>
    rw [List.cons_append, turns, turns, offer]
    rw [offer] at h
    cases hvisit : visit state site with
    | mk state' decision =>
      rw [hvisit] at h
      cases decision with
      | error failure => exact absurd h (Option.some_ne_none failure)
      | ok r => exact congrArg _ (ih h)

end Visitor

namespace Expr

/-! ## Edits of the parts of a node -/

/-- Puts a tree to a place in one of the parts. -/
def putIn (es : List Expr) : List Nat → Expr → List Expr
  | [], _ => es
  | i :: p, new => es.modify i fun c => c.putAt p new

/-- Puts trees to their places in the parts, one after the other. -/
def putAllIn (es : List Expr) (edits : List (List Nat × Expr)) : List Expr :=
  edits.foldl (fun es edit => putIn es edit.1 edit.2) es

/-- A tree with edits inside it is its node, with the edits in its parts. -/
theorem putAll_withChildren {e : Expr} {edits : List (List Nat × Expr)}
    (h : ∀ edit ∈ edits, edit.1 ≠ []) {es : List Expr} (hes : es.length = e.children.length) :
    (e.withChildren es).putAll edits = e.withChildren (putAllIn es edits) := by
  induction edits generalizing es with
  | nil => rfl
  | cons edit edits ih =>
    obtain ⟨_ | ⟨i, p⟩, new⟩ := edit
    · exact absurd rfl (h ([], new) (by simp))
    obtain ⟨hchildren, hwith⟩ := withChildren_spec hes
    have hput : (e.withChildren es).putAt (i :: p) new
        = e.withChildren (es.modify i fun c => c.putAt p new) := by
      rw [putAt, hchildren, hwith _ (List.length_modify _ _ _)]
    rw [putAll, List.foldl_cons, hput]
    exact ih (fun edit hedit => h edit (by simp [hedit])) (by rw [List.length_modify, hes])

theorem putAllIn_append (es : List Expr) (edits edits' : List (List Nat × Expr)) :
    putAllIn es (edits ++ edits') = putAllIn (putAllIn es edits) edits' :=
  List.foldl_append

/-- Edits in one part leave the others alone. -/
theorem putAllIn_part (front : List Expr) (c : Expr) (behind : List Expr)
    (edits : List (List Nat × Expr)) :
    putAllIn (front ++ c :: behind) (edits.map (Prod.map (front.length :: ·) id))
      = front ++ c.putAll edits :: behind := by
  induction edits generalizing c with
  | nil => rfl
  | cons edit edits ih =>
    have hput : putIn (front ++ c :: behind) (front.length :: edit.1) edit.2
        = front ++ c.putAt edit.1 edit.2 :: behind := by
      simp [putIn, List.modify_eq_take_drop]
    rw [putAll, List.foldl_cons, List.map_cons, putAllIn, List.foldl_cons]
    exact (congrArg (putAllIn · _) hput).trans (ih _)

/-! ## The tree -/

variable {visit : Visitor σ ε}

/-- A node other than a mention is put together anew from its parts. -/
theorem replaceMentions_eq {e : Expr} (h : e.isMention = false) (inside : Bool) (state : σ) :
    e.replaceMentions visit inside state
      = (replaceMentionsIn visit (inside || e.isCall) state e.children).map e.withChildren := by
  cases e with
  | mention => exact nomatch h
  | literal => simp [replaceMentions, replaceMentionsIn, children, Replaced.map, withChildren]
  | call | list => simp [replaceMentions, children, isCall]; rfl
  | signed s o e =>
    simp only [replaceMentions, replaceMentionsIn, children, isCall, Bool.or_false]
    cases hf : (e.replaceMentions visit inside state).failure <;>
      simp [Replaced.andThen, Replaced.map, hf, withChildren]
  | binary s l o r =>
    simp only [replaceMentions, replaceMentionsIn, children, isCall, Bool.or_false]
    cases hl : (l.replaceMentions visit inside state).failure with
    | some => simp [Replaced.andThen, Replaced.map, hl, withChildren]
    | none =>
      cases hr : (r.replaceMentions visit inside
          (l.replaceMentions visit inside state).state).failure <;>
        simp [Replaced.andThen, Replaced.map, hl, hr, withChildren]
  | conditional s c y n =>
    simp only [replaceMentions, replaceMentionsIn, children, isCall, Bool.or_false]
    cases hc : (c.replaceMentions visit inside state).failure with
    | some => simp [Replaced.andThen, Replaced.map, hc, withChildren]
    | none =>
      cases hy : (y.replaceMentions visit inside
          (c.replaceMentions visit inside state).state).failure with
      | some => simp [Replaced.andThen, Replaced.map, hc, hy, withChildren]
      | none =>
        cases hn : (n.replaceMentions visit inside (y.replaceMentions visit inside
            (c.replaceMentions visit inside state).state).state).failure <;>
          simp [Replaced.andThen, Replaced.map, hc, hy, hn, withChildren]

/-- The parts that are done are the first ones, `front`, and the edits go on behind them. -/
theorem tree_replaceMentionsIn {inside : Bool} {es : List Expr}
    (hes : ∀ e ∈ es, ∀ state, (e.replaceMentions visit inside state).tree
      = e.putAll (Turn.edits e.places (visit.turns state (e.sites inside))))
    (front : List Expr) (state : σ) :
    putAllIn (front ++ es)
        (Turn.edits (placesFrom front.length es) (visit.turns state (sitesOfAll inside es)))
      = front ++ (replaceMentionsIn visit inside state es).tree := by
  induction es generalizing front state with
  | nil =>
    rw [placesFrom, replaceMentionsIn]
    rfl
  | cons e es ih =>
    have hoffer : (e.replaceMentions visit inside state).outcome
        = visit.offer state (e.sites inside) := outcome_replaceMentions e inside state
    have hplaces : e.places.length = (e.sites inside).length :=
      (forall₂_places_sites e inside).length_eq
    rw [placesFrom, sitesOfAll, replaceMentionsIn, Replaced.map]
    cases h : (visit.offer state (e.sites inside)).2 with
    | some failure =>
      have hfailure : (e.replaceMentions visit inside state).failure = some failure :=
        (congrArg Prod.snd hoffer).trans h
      have hle : (visit.turns state (e.sites inside)).length
          ≤ (e.places.map (front.length :: ·)).length := by
        rw [List.length_map, hplaces, ← List.length_map]
        exact (Visitor.sites_turns_prefix state (e.sites inside)).length_le
      rw [Visitor.turns_append_of_some h, Turn.edits_append_of_le hle, Turn.edits_map,
        putAllIn_part, ← hes e (by simp)]
      simp [Replaced.andThen, hfailure]
    | none =>
      have hfailure : (e.replaceMentions visit inside state).failure = none :=
        (congrArg Prod.snd hoffer).trans h
      have hlength : (e.places.map (front.length :: ·)).length
          = (visit.turns state (e.sites inside)).length := by
        have hturns := congrArg List.length (Visitor.turns_of_none h).1
        rw [List.length_map] at hturns
        rw [List.length_map, hplaces, hturns]
      have hstate : (e.replaceMentions visit inside state).state
          = (visit.offer state (e.sites inside)).1 := congrArg Prod.fst hoffer
      have hrest := ih (fun f hf => hes f (by simp [hf]))
        (front ++ [(e.replaceMentions visit inside state).tree])
        (e.replaceMentions visit inside state).state
      rw [List.length_append, List.length_singleton, List.append_assoc, List.append_assoc] at hrest
      rw [Visitor.turns_append_of_none h, Turn.edits_append hlength, Turn.edits_map,
        putAllIn_append, putAllIn_part, ← hes e (by simp), ← hstate]
      simpa [Replaced.andThen, hfailure, Replaced.map] using hrest

/-- **The tree that is left is the old one with the replacements at their places.** -/
theorem tree_replaceMentions (e : Expr) (inside : Bool) (state : σ) :
    (e.replaceMentions visit inside state).tree
      = e.putAll (Turn.edits e.places (visit.turns state (e.sites inside))) := by
  induction e using induction_children generalizing inside state with
  | mention s m =>
    rw [replaceMentions, places, sites, Visitor.turns]
    cases visit state ⟨m, s, inside⟩ with
    | mk state' decision =>
      rcases decision with failure | _ | e <;> rfl
  | node e h ih =>
    have hinner : ∀ edit ∈ Turn.edits e.places (visit.turns state (e.sites inside)),
        edit.1 ≠ [] := by
      intro edit hedit
      obtain ⟨⟨p, t⟩, hpt, hsome⟩ := List.mem_filterMap.mp hedit
      obtain ⟨new, -, rfl⟩ := Option.map_eq_some_iff.mp hsome
      have hp : p ∈ placesFrom 0 e.children := places_eq h ▸ (List.of_mem_zip hpt).1
      obtain ⟨j, c, q, -, -, rfl⟩ := mem_placesFrom.mp hp
      exact List.cons_ne_nil _ _
    have hedits := putAll_withChildren hinner (rfl : e.children.length = e.children.length)
    rw [withChildren_children] at hedits
    rw [hedits, replaceMentions_eq h, Replaced.map, places_eq h, sites_eq h]
    exact congrArg e.withChildren
      (tree_replaceMentionsIn (fun c hc state => ih c hc _ state) [] state).symm

/-- The log changes nothing else. -/
theorem replaceMentions_logged (e : Expr) (inside : Bool) (state : σ) (log : List (Turn ε)) :
    e.replaceMentions visit.logged inside (state, log)
      = ⟨(e.replaceMentions visit inside state).tree,
          ((e.replaceMentions visit inside state).state,
            log ++ visit.turns state (e.sites inside)),
          (e.replaceMentions visit inside state).failure⟩ := by
  have hlogged : (e.replaceMentions visit.logged inside (state, log)).outcome = _ :=
    outcome_replaceMentions e inside (state, log)
  rw [Visitor.offer_logged, ← outcome_replaceMentions] at hlogged
  have htree : (e.replaceMentions visit.logged inside (state, log)).tree = _ :=
    tree_replaceMentions e inside (state, log)
  rw [Visitor.turns_logged, ← tree_replaceMentions] at htree
  cases hrun : e.replaceMentions visit.logged inside (state, log) with
  | mk tree state' failure =>
    rw [hrun] at hlogged htree
    cases hlogged
    cases htree
    rfl

end Expr

/-- **A visitor is offered what the sites of a definition list.** It has its turns, which it may
log, at the mentions of the body, at every one and in their order, and at nothing else. The places
of these mentions are all that there are, none twice, and a site is marked as inside an aggregate if
and only if the call of one stands above it. If a turn fails it is the last one. The body that is
left is the old one with the replacements of the turns at their places, also if the last turn
failed; it is unchanged if there are none. -/
theorem Assignment.replaceMentions_visits (a : Assignment) (visit : Visitor σ ε) (state : σ) :
    let run := a.body.replaceMentions visit false state
    ∃ log : List (Turn ε),
      a.body.replaceMentions visit.logged false (state, [])
          = ⟨run.tree, (run.state, log), run.failure⟩
        -- what is offered
        ∧ log.map Turn.site <+: a.sites.tail
        ∧ (run.failure = none → log.map Turn.site = a.sites.tail ∧ ∀ t ∈ log, t.Passes)
        ∧ (∀ failure, run.failure = some failure → ∃ before site,
            log = before ++ [⟨site, .error failure⟩] ∧ ∀ t ∈ before, t.Passes)
        -- where the sites are in the tree
        ∧ List.Forall₂ (fun p site => a.body.at? p = some (.mention site.span site.mention)
            ∧ (site.insideAggregate = true ↔ a.body.InCall p)) a.body.places a.sites.tail
        ∧ a.body.places.Pairwise (· < ·)
        ∧ (∀ p, p ∈ a.body.places ↔ ∃ s m, a.body.at? p = some (.mention s m))
        -- what is left of it
        ∧ run.tree = a.body.putAll (Turn.edits a.body.places log)
        ∧ ((∀ t ∈ log, t.replacement? = none) → run.tree = a.body) := by
  intro run
  have hoffer : run.failure = (visit.offer state (a.body.sites false)).2 :=
    congrArg Prod.snd (Expr.outcome_replaceMentions a.body false state)
  have htree : run.tree
      = a.body.putAll (Turn.edits a.body.places (visit.turns state (a.body.sites false))) :=
    Expr.tree_replaceMentions a.body false state
  refine ⟨visit.turns state (a.body.sites false), Expr.replaceMentions_logged a.body false state [],
    Visitor.sites_turns_prefix state _, fun hnone => Visitor.turns_of_none (hoffer ▸ hnone), ?_,
    (Expr.forall₂_places_sites a.body false).imp fun p site h =>
      ⟨h.mention, h.insideAggregate.trans (by simp)⟩,
    Expr.ascending_places a.body, fun p => Expr.mem_places, htree, fun hnone => ?_⟩
  · intro failure hsome
    obtain ⟨before, site, -, -, hturns, hpass⟩ := Visitor.turns_of_some (hoffer ▸ hsome)
    exact ⟨before, site, hturns, hpass⟩
  · rw [htree, Turn.edits_eq_nil hnone]
    rfl

end DerivedStats
