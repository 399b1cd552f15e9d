import DerivedStats.Proofs.Grammar.Derivation
import DerivedStats.Syntax.Site
import Mathlib.Data.List.Basic

/-!
# What a tree mentions

The mentions of a tree from left to right (`Expr.mentions`). A site tells also where its mention
stands and what encloses it. Where only the mentions count, as for an evaluation or for the
dependents of a formula, it makes no difference what encloses the tree
(`Expr.map_mention_sites`), so a statement on all sites is one on all mentions
(`Expr.forall_sites`), and that one splits along the parts of the tree.
-/

namespace DerivedStats

namespace Expr

/-- The mentions of a tree from left to right. -/
def mentions (e : Expr) : List Mention := (e.sites false).map Site.mention

/-- The sites of a tree are those of its mentions, whatever encloses it. -/
theorem map_mention_sites (e : Expr) : ∀ inside,
    (e.sites inside).map Site.mention = e.mentions := by
  induction e using induction_parts with
  | literal | mention => exact fun _ => rfl
  | signed s o e ih =>
    intro inside
    rw [mentions, sites, sites, ih inside, ih false]
  | binary s l o r hl hr =>
    intro inside
    rw [mentions, sites, sites, List.map_append, List.map_append, hl inside, hr inside, hl false,
      hr false]
  | conditional s c y n hc hy hn =>
    intro inside
    rw [mentions, sites, sites]
    simp only [List.map_append, hc, hy, hn]
  | call =>
    -- what is inside of a call is inside of it wherever the call stands
    intro inside
    rw [mentions, sites, sites]
  | list s es ih =>
    intro inside
    rw [mentions, sites, sites, sitesOfAll_eq_flatMap, sitesOfAll_eq_flatMap, List.map_flatMap,
      List.map_flatMap]
    exact List.flatMap_congr fun e he => (ih e he inside).trans (ih e he false).symm

/-- A property of the mentions is one of the sites. -/
theorem forall_sites {P : Mention → Prop} {e : Expr} {inside : Bool} :
    (∀ site ∈ e.sites inside, P site.mention) ↔ ∀ m ∈ e.mentions, P m := by
  rw [← map_mention_sites e inside, List.forall_mem_map]

/-! ## The mentions of the parts -/

@[simp] theorem mentions_literal (s : Span) (v : Float) : (literal s v).mentions = [] := rfl

@[simp] theorem mentions_mention (s : Span) (m : Mention) : (mention s m).mentions = [m] := rfl

@[simp] theorem mentions_signed (s : Span) (o : Sign) (e : Expr) :
    (signed s o e).mentions = e.mentions := by
  rw [mentions, sites, mentions]

@[simp] theorem mentions_binary (s : Span) (l : Expr) (o : Operator) (r : Expr) :
    (binary s l o r).mentions = l.mentions ++ r.mentions := by
  rw [mentions, sites, List.map_append, mentions, mentions]

@[simp] theorem mentions_conditional (s : Span) (c y n : Expr) :
    (conditional s c y n).mentions = c.mentions ++ y.mentions ++ n.mentions := by
  rw [mentions, sites, List.map_append, List.map_append, mentions, mentions, mentions]

/-- The sites in trees side by side are those of their mentions. -/
theorem mentions_all (inside : Bool) (es : List Expr) :
    (sitesOfAll inside es).map Site.mention = es.flatMap mentions := by
  rw [sitesOfAll_eq_flatMap, List.map_flatMap]
  exact List.flatMap_congr fun e _ => map_mention_sites e inside

@[simp] theorem mentions_call (s : Span) (a : Aggregate) (es : List Expr) :
    (call s a es).mentions = es.flatMap mentions := by
  rw [mentions, sites, mentions_all]

@[simp] theorem mentions_list (s : Span) (es : List Expr) :
    (list s es).mentions = es.flatMap mentions := by
  rw [mentions, sites, mentions_all]

end Expr

end DerivedStats
