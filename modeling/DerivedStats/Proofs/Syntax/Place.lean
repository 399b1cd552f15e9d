import DerivedStats.Proofs.Grammar.Derivation
import DerivedStats.Syntax.Site
import Mathlib.Data.List.Forall2

/-!
# Places in a tree

A place is the list of the numbers of the parts on the way down from the root, so the root stands at
the empty list. `Expr.at?` gives the node at a place and `Expr.putAt` exchanges it.

The places of the mentions (`Expr.places`) ascend in the order of dictionaries, which is the order
of the text, and they are all places with a mention. The sites of a tree are what stands there, one
by one, and a site is marked as being inside an aggregate if and only if the call of one stands on
the way to it (`Expr.forall₂_places_sites`).
-/

namespace DerivedStats

namespace Expr

/-- The parts of a node, from left to right. -/
def children : Expr → List Expr
  | literal _ _ | mention _ _ => []
  | signed _ _ e => [e]
  | binary _ l _ r => [l, r]
  | conditional _ c y n => [c, y, n]
  | call _ _ es | list _ es => es

@[simp] theorem children_withSpan (s : Span) (e : Expr) : (e.withSpan s).children = e.children := by
  cases e <;> rfl

/-- The node is a mention. -/
def isMention : Expr → Bool
  | mention _ _ => true
  | _ => false

/-- The node is the call of an aggregate. -/
def isCall : Expr → Bool
  | call _ _ _ => true
  | _ => false

/-- What holds of every mention, and of any other node whenever it holds of its parts, holds of
every tree. -/
@[elab_as_elim]
theorem induction_children {motive : Expr → Prop} (e : Expr)
    (mention : ∀ s m, motive (.mention s m))
    (node : ∀ e, e.isMention = false → (∀ c ∈ e.children, motive c) → motive e) : motive e := by
  induction e using induction_parts with
  | mention s m => exact mention s m
  | literal s v => exact node _ rfl (by simp [children])
  | signed s o e ih => exact node _ rfl (by simpa [children] using ih)
  | binary s l o r hl hr => exact node _ rfl (by simpa [children] using ⟨hl, hr⟩)
  | conditional s c y n hc hy hn => exact node _ rfl (by simpa [children] using ⟨hc, hy, hn⟩)
  | call s a es ih | list s es ih => exact node _ rfl ih

/-! ## Nodes by their place -/

/-- The node at a place. -/
def at? (e : Expr) : List Nat → Option Expr
  | [] => some e
  | i :: p => e.children[i]?.bind fun c => c.at? p

theorem at?_cons (e : Expr) (i : Nat) (p : List Nat) :
    e.at? (i :: p) = e.children[i]?.bind fun c => c.at? p := rfl

/-- The node with other parts, as many as it has. -/
def withChildren : Expr → List Expr → Expr
  | signed s o _, [e] => signed s o e
  | binary s _ o _, [l, r] => binary s l o r
  | conditional s _ _ _, [c, y, n] => conditional s c y n
  | call s a _, es => call s a es
  | list s _, es => list s es
  | e, _ => e

/-- A node with the parts that it has is itself. -/
theorem withChildren_children (e : Expr) : e.withChildren e.children = e := by
  cases e <;> rfl

/-- The parts of a node are then what it is given, and giving it others after that leaves nothing of
the first ones. -/
theorem withChildren_spec {e : Expr} {es : List Expr} (hes : es.length = e.children.length) :
    (e.withChildren es).children = es
      ∧ ∀ ds, ds.length = es.length → (e.withChildren es).withChildren ds = e.withChildren ds := by
  cases e with
  | literal | mention =>
    obtain rfl := List.length_eq_zero_iff.mp hes
    exact ⟨rfl, fun _ _ => rfl⟩
  | signed s o d =>
    obtain ⟨e, rfl⟩ := List.length_eq_one_iff.mp hes
    refine ⟨rfl, fun ds hds => ?_⟩
    obtain ⟨d, rfl⟩ := List.length_eq_one_iff.mp hds
    rfl
  | binary s l o r =>
    obtain ⟨l, r, rfl⟩ := List.length_eq_two.mp hes
    refine ⟨rfl, fun ds hds => ?_⟩
    obtain ⟨l, r, rfl⟩ := List.length_eq_two.mp hds
    rfl
  | conditional s c y n =>
    obtain ⟨c, y, n, rfl⟩ := List.length_eq_three.mp hes
    refine ⟨rfl, fun ds hds => ?_⟩
    obtain ⟨c, y, n, rfl⟩ := List.length_eq_three.mp hds
    rfl
  | call | list => exact ⟨rfl, fun _ _ => rfl⟩

/-- The tree with another one at the place; without such a place it stays as it is. -/
def putAt (e : Expr) : List Nat → Expr → Expr
  | [], new => new
  | i :: p, new => e.withChildren (e.children.modify i fun c => c.putAt p new)

/-- Puts trees at their places, one after the other. -/
def putAll (e : Expr) (edits : List (List Nat × Expr)) : Expr :=
  edits.foldl (fun e edit => e.putAt edit.1 edit.2) e

/-! ## The places of the mentions -/

mutual

/-- The places of the mentions, from left to right. -/
def places : Expr → List (List Nat)
  | literal _ _ => []
  | mention _ _ => [[]]
  | signed _ _ e => e.places.map (0 :: ·)
  | binary _ l _ r => l.places.map (0 :: ·) ++ r.places.map (1 :: ·)
  | conditional _ c y n =>
    c.places.map (0 :: ·) ++ (y.places.map (1 :: ·) ++ n.places.map (2 :: ·))
  | call _ _ es | list _ es => placesFrom 0 es

/-- The places of the mentions in the parts of a node, of which the first has this number. -/
def placesFrom (i : Nat) : List Expr → List (List Nat)
  | [] => []
  | e :: es => e.places.map (i :: ·) ++ placesFrom (i + 1) es

end

/-- The places of the mentions in a node are those in its parts. -/
theorem places_eq {e : Expr} (h : e.isMention = false) : e.places = placesFrom 0 e.children := by
  cases e with
  | mention => exact nomatch h
  | literal | signed | binary | conditional | call | list => simp [places, placesFrom, children]

/-- The sites in a node are those in its parts, inside an aggregate if the node is a call. -/
theorem sites_eq {e : Expr} (h : e.isMention = false) (inside : Bool) :
    e.sites inside = sitesOfAll (inside || e.isCall) e.children := by
  cases e with
  | mention => exact nomatch h
  | literal | signed | binary | conditional | call | list =>
    simp [sites, sitesOfAll, children, isCall]

/-- A place starts with the number of a part, and goes on to a place in this part. -/
theorem mem_placesFrom {i : Nat} {es : List Expr} {q : List Nat} :
    q ∈ placesFrom i es ↔ ∃ j c p, es[j]? = some c ∧ p ∈ c.places ∧ q = (i + j) :: p := by
  induction es generalizing i with
  | nil => simp [placesFrom]
  | cons e es ih =>
    rw [placesFrom, List.mem_append, List.mem_map, ih]
    constructor
    · rintro (⟨p, hp, rfl⟩ | ⟨j, c, p, hc, hp, rfl⟩)
      · exact ⟨0, e, p, rfl, hp, rfl⟩
      · exact ⟨j + 1, c, p, hc, hp, by rw [Nat.add_right_comm, Nat.add_assoc]⟩
    · rintro ⟨_ | j, c, p, hc, hp, rfl⟩
      · cases hc
        exact .inl ⟨p, hp, rfl⟩
      · exact .inr ⟨j, c, p, hc, hp, by rw [Nat.add_right_comm, Nat.add_assoc]⟩

/-- **The places of the mentions are all those at which one stands.** -/
theorem mem_places {e : Expr} {p : List Nat} :
    p ∈ e.places ↔ ∃ s m, e.at? p = some (mention s m) := by
  induction e using induction_children generalizing p with
  | mention s m =>
    cases p <;> simp [places, at?, children]
  | node e h ih =>
    rw [places_eq h, mem_placesFrom]
    cases p with
    | nil => cases e <;> simp_all [at?, isMention]
    | cons i p =>
      rw [at?_cons]
      constructor
      · rintro ⟨j, c, q, hc, hq, hcons⟩
        cases hcons
        rw [Nat.zero_add, hc]
        exact (ih c (List.mem_of_getElem? hc)).mp hq
      · rintro ⟨s, m, hm⟩
        obtain ⟨c, hc, hat⟩ := Option.bind_eq_some_iff.mp hm
        exact ⟨i, c, p, hc, (ih c (List.mem_of_getElem? hc)).mpr ⟨s, m, hat⟩, by rw [Nat.zero_add]⟩

/-- If the places ascend in each part then they ascend in the whole node. -/
theorem ascending_placesFrom {es : List Expr} (h : ∀ e ∈ es, e.places.Pairwise (· < ·)) (i : Nat) :
    (placesFrom i es).Pairwise (· < ·) := by
  induction es generalizing i with
  | nil => exact .nil
  | cons e es ih =>
    rw [placesFrom, List.pairwise_append]
    refine ⟨?_, ih (fun f hf => h f (by simp [hf])) (i + 1), ?_⟩
    · refine List.pairwise_map.mpr ((h e (by simp)).imp fun hlt => ?_)
      exact List.cons_lt_cons_iff.mpr (.inr ⟨rfl, hlt⟩)
    · intro p hp q hq
      obtain ⟨p, -, rfl⟩ := List.mem_map.mp hp
      obtain ⟨j, c, q, -, -, rfl⟩ := mem_placesFrom.mp hq
      exact List.cons_lt_cons_iff.mpr (.inl (by omega))

/-- **The places of the mentions ascend**, so none is twice among them. -/
theorem ascending_places (e : Expr) : e.places.Pairwise (· < ·) := by
  induction e using induction_children with
  | mention s m => exact List.pairwise_singleton _ _
  | node e h ih => exact places_eq h ▸ ascending_placesFrom ih 0

/-! ## Sites by their place -/

/-- The call of an aggregate stands on the way to the place. -/
def InCall (e : Expr) (p : List Nat) : Prop :=
  ∃ q, q <+: p ∧ q ≠ p ∧ ∃ c, e.at? q = some c ∧ c.isCall = true

theorem not_inCall_nil (e : Expr) : ¬ e.InCall [] := by
  rintro ⟨q, hq, hne, -⟩
  exact hne (List.prefix_nil.mp hq)

/-- A call on the way to a place is the node itself, or it is on the way from the part on. -/
theorem inCall_cons {e c : Expr} {i : Nat} (h : e.children[i]? = some c) (p : List Nat) :
    e.InCall (i :: p) ↔ e.isCall = true ∨ c.InCall p := by
  constructor
  · rintro ⟨q, hq, hne, d, hd, hcall⟩
    rcases List.prefix_cons_iff.mp hq with rfl | ⟨q, rfl, hq⟩
    · cases hd
      exact .inl hcall
    · rw [at?_cons, h] at hd
      exact .inr ⟨q, (List.cons_prefix_cons.mp hq).2, fun heq => hne (heq ▸ rfl), d, hd, hcall⟩
  · rintro (hcall | ⟨q, hq, hne, d, hd, hcall⟩)
    · exact ⟨[], List.nil_prefix, List.cons_ne_nil _ _ ∘ Eq.symm, e, rfl, hcall⟩
    · exact ⟨i :: q, List.cons_prefix_cons.mpr ⟨rfl, hq⟩, fun heq => hne (List.cons.inj heq).2, d,
        by rw [at?_cons, h]; exact hd, hcall⟩

/-- The site is that of the mention at the place, in a tree that an aggregate encloses if `inside`.
-/
structure HasSite (e : Expr) (inside : Bool) (p : List Nat) (site : Site) : Prop where
  mention : e.at? p = some (.mention site.span site.mention)
  insideAggregate : site.insideAggregate = true ↔ inside = true ∨ e.InCall p

/-- The site of a mention in a part is its site in the whole node. -/
theorem HasSite.cons {e c : Expr} {i : Nat} (hc : e.children[i]? = some c) {inside : Bool}
    {p : List Nat} {site : Site} (h : c.HasSite (inside || e.isCall) p site) :
    e.HasSite inside (i :: p) site where
  mention := by rw [at?_cons, hc]; exact h.mention
  insideAggregate := by rw [h.insideAggregate, inCall_cons hc, Bool.or_eq_true, or_assoc]

/-- Places and sites of the parts of a node are listed in the same order. -/
theorem forall₂_placesFrom_sites {e : Expr} {inside : Bool} {front es : List Expr}
    (he : e.children = front ++ es)
    (h : ∀ c ∈ es, List.Forall₂ (c.HasSite (inside || e.isCall)) c.places
      (c.sites (inside || e.isCall))) :
    List.Forall₂ (e.HasSite inside) (placesFrom front.length es)
      (sitesOfAll (inside || e.isCall) es) := by
  induction es generalizing front with
  | nil => rw [placesFrom, sitesOfAll]; exact .nil
  | cons c es ih =>
    rw [placesFrom, sitesOfAll]
    have hc : e.children[front.length]? = some c := by rw [he]; simp
    have hfirst := List.forall₂_map_left_iff.mpr ((h c (by simp)).imp fun _ _ => HasSite.cons hc)
    have hrest := @ih (front ++ [c]) (by rw [he]; simp) fun d hd => h d (by simp [hd])
    rw [List.length_append, List.length_singleton] at hrest
    exact List.rel_append hfirst hrest

/-- **The sites of a tree are the mentions at their places**, and a site is inside an aggregate if
and only if the call of one stands on the way to its place. -/
theorem forall₂_places_sites (e : Expr) (inside : Bool) :
    List.Forall₂ (e.HasSite inside) e.places (e.sites inside) := by
  induction e using induction_children generalizing inside with
  | mention s m =>
    rw [places, sites]
    exact .cons ⟨rfl, by simp [not_inCall_nil]⟩ .nil
  | node e h ih =>
    rw [places_eq h, sites_eq h]
    exact @forall₂_placesFrom_sites _ _ [] _ rfl fun c hc => ih c hc _

end Expr

end DerivedStats
