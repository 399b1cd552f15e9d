import DerivedStats.Proofs.Evaluation.Outcome
import DerivedStats.Proofs.Syntax.Mentions

/-!
# What an evaluation asks of its mentions

An evaluation asks its scope for the meaning of the mentions of the tree and for nothing else. So a
tree has the same outcome in another scope if all its mentions mean there what they meant, also if
they were written anew on the way (`Expr.evaluate_mapMentions`). Nodes keep their spans, so a misuse
is at the same place.
-/

namespace DerivedStats

namespace Expr

mutual

/-- The tree with each mention written anew. -/
def mapMentions (f : Mention → Mention) : Expr → Expr
  | literal s v => literal s v
  | mention s m => mention s (f m)
  | signed s o e => signed s o (e.mapMentions f)
  | binary s l o r => binary s (l.mapMentions f) o (r.mapMentions f)
  | conditional s c y n =>
    conditional s (c.mapMentions f) (y.mapMentions f) (n.mapMentions f)
  | call s a es => call s a (mapMentionsIn f es)
  | list s es => list s (mapMentionsIn f es)

/-- The trees with each mention written anew. -/
def mapMentionsIn (f : Mention → Mention) : List Expr → List Expr
  | [] => []
  | e :: es => e.mapMentions f :: mapMentionsIn f es

end

theorem mapMentionsIn_eq_map (f : Mention → Mention) (es : List Expr) :
    mapMentionsIn f es = es.map (mapMentions f) := by
  induction es with
  | nil => simp [mapMentionsIn]
  | cons e es ih => simp [mapMentionsIn, ih]

@[simp] theorem span_mapMentions (f : Mention → Mention) (e : Expr) :
    (e.mapMentions f).span = e.span := by
  cases e <;> rfl

@[simp] theorem mapMentions_id (e : Expr) : e.mapMentions id = e := by
  induction e using induction_parts with
  | literal | mention => rfl
  | signed s o e ih => rw [mapMentions, ih]
  | binary s l o r hl hr => rw [mapMentions, hl, hr]
  | conditional s c y n hc hy hn => rw [mapMentions, hc, hy, hn]
  | call s a es ih | list s es ih =>
    rw [mapMentions, mapMentionsIn_eq_map, List.map_congr_left ih, List.map_id']

variable {scope scope' : Scope} {f : Mention → Mention}

/-- Expressions that keep their outcomes one by one keep their values together. -/
theorem evaluateAll_map {g : Expr → Expr} {es : List Expr}
    (h : ∀ e ∈ es, (g e).evaluate scope' = e.evaluate scope) :
    evaluateAll scope' (es.map g) = evaluateAll scope es := by
  induction es with
  | nil => rw [List.map_nil, evaluateAll, evaluateAll]
  | cons e es ih =>
    rw [List.map_cons, evaluateAll, evaluateAll, h e (by simp), ih fun f hf => h f (by simp [hf])]

/-- **A tree reads its mentions only.** Where they mean the same, written as they are or anew, it
has the same outcome, or the same misuse at the same place. -/
theorem evaluate_mapMentions (e : Expr) : ∀ inside,
    (∀ site ∈ e.sites inside, scope'.read ((f site.mention).resolve scope'.category)
      = scope.read (site.mention.resolve scope.category)) →
    (e.mapMentions f).evaluate scope' = e.evaluate scope := by
  intro inside h
  replace h : ∀ m ∈ e.mentions, scope'.read ((f m).resolve scope'.category)
      = scope.read (m.resolve scope.category) := forall_sites.mp h
  induction e using induction_parts with
  | literal s v => rw [mapMentions, evaluate, evaluate]
  | mention s m => rw [mapMentions, evaluate, evaluate, h m (by simp)]
  | signed s o e ih =>
    rw [mentions_signed] at h
    cases o with
    | plus | minus => rw [mapMentions, evaluate, evaluate, ih h]
  | binary s l o r hl hr =>
    rw [mentions_binary, List.forall_mem_append] at h
    rw [mapMentions, evaluate, evaluate, hl h.1, hr h.2]
  | conditional s c y n hc hy hn =>
    rw [mentions_conditional, List.forall_mem_append, List.forall_mem_append] at h
    obtain ⟨⟨hcm, hym⟩, hnm⟩ := h
    rw [mapMentions, evaluate, evaluate, hc hcm, hy hym, hn hnm, span_mapMentions]
  | call s a es ih =>
    rw [mentions_call, List.forall_mem_flatMap] at h
    rw [mapMentions, mapMentionsIn_eq_map, evaluate, evaluate,
      evaluateAll_map fun e he => ih e he (h e he)]
  | list s es ih =>
    rw [mentions_list, List.forall_mem_flatMap] at h
    rw [mapMentions, mapMentionsIn_eq_map, evaluate, evaluate,
      evaluateAll_map fun e he => ih e he (h e he)]

/-- In scopes that give the mentions the same meaning a tree has the same outcome, or the same
misuse at the same place. -/
theorem evaluate_congr (e : Expr) (inside : Bool)
    (h : ∀ site ∈ e.sites inside, scope.read (site.mention.resolve scope.category)
      = scope'.read (site.mention.resolve scope'.category)) :
    e.evaluate scope = e.evaluate scope' := by
  have hsame := evaluate_mapMentions (f := id) e inside h
  rwa [mapMentions_id] at hsame

end Expr

end DerivedStats
