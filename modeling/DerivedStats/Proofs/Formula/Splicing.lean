import DerivedStats.Proofs.Formula.Filling
import DerivedStats.Proofs.Writing.Pieces

/-!
# Splicing lists into a tree

The value of a tree whose mentions are filled with lists of samples. Where the tree fits, its pieces
stand for the values that the mentions gave it (`Expr.Written.stands`), with one exception: a
list in the second branch of a conditional sheds all but its first value behind the conditional,
even when the first branch is taken. A tree in which this happens is said to shed
(`Expr.sheds`).
-/

namespace DerivedStats

namespace Expr

/-! ## Shed values -/

/-- A list stands in the tree outside of all calls once the mentions with several samples have
become lists. -/
def spreadsFor (several : Mention → Bool) : Expr → Bool
  | literal _ _ | call _ _ _ => false
  | mention _ m => several m
  | signed _ _ e => e.spreadsFor several
  | binary _ l _ r => l.spreadsFor several || r.spreadsFor several
  | conditional _ c y n => c.spreadsFor several || y.spreadsFor several || n.spreadsFor several
  | list _ _ => true

mutual

/-- The evaluation comes to a conditional that takes its first branch, although a mention with
several samples stands in the second one outside of further calls. -/
def sheds (scope : Scope) (several : Mention → Bool) : Expr → Bool
  | literal _ _ | mention _ _ => false
  | signed _ _ e => e.sheds scope several
  | binary _ l _ r => l.sheds scope several || r.sheds scope several
  | conditional _ c y n =>
    c.sheds scope several ||
      if (c.number? scope).any holds then y.sheds scope several || n.spreadsFor several
      else n.sheds scope several
  | call _ _ es | list _ es => anySheds scope several es

/-- One of the trees sheds. -/
def anySheds (scope : Scope) (several : Mention → Bool) : List Expr → Bool
  | [] => false
  | e :: es => e.sheds scope several || anySheds scope several es

end

variable {scope scope' : Scope} {several : Mention → Bool} {value : Mention → Option Expr}

theorem anySheds_eq_any (es : List Expr) :
    anySheds scope several es = es.any (sheds scope several) := by
  induction es with
  | nil => simp [anySheds]
  | cons e es ih => simp [anySheds, ih]

theorem spreadsFor_bare (e : Expr) : e.bare.spreadsFor several = e.spreadsFor several := by
  induction e using induction_parts with
  | signed s o e ih => simp only [bare, spreadsFor, ih]
  | binary s l o r hl hr => simp only [bare, spreadsFor, hl, hr]
  | conditional s c y n hc hy hn => simp only [bare, spreadsFor, hc, hy, hn]
  | _ => rfl

theorem sheds_bare (e : Expr) : e.bare.sheds scope several = e.sheds scope several := by
  induction e using induction_parts with
  | literal | mention => rfl
  | signed s o e ih => simp only [bare, sheds, ih]
  | binary s l o r hl hr => simp only [bare, sheds, hl, hr]
  | conditional s c y n hc hy hn =>
    simp only [bare, sheds, hc, hy, hn, spreadsFor_bare, number?_congr (outcome?_bare c)]
  | call s a es ih | list s es ih =>
    rw [bare, sheds, sheds, baresOf_eq_map, anySheds_eq_any, anySheds_eq_any, List.any_map]
    rw [Bool.eq_iff_iff, List.any_eq_true, List.any_eq_true]
    exact exists_congr fun e => and_congr_right fun he => by rw [Function.comp, ih e he]

/-! ## Filled mentions -/

/-- The mention is filled with a tree without mentions, whose pieces stand for the values of the
mention; it spreads if the mention has several. -/
def Splices (scope scope' : Scope) (several : Mention → Bool) (value : Mention → Option Expr)
    (m : Mention) : Prop :=
  ∃ e, value m = some e ∧ e.isClosed = true ∧ e.spreads = several m
    ∧ e.pieces.map (number? scope') = (scope.read (m.resolve scope.category)).values.map some

/-- If every mention is filled then none is left. -/
theorem isClosed_fill (e : Expr) : ∀ inside,
    (∀ site ∈ e.sites inside, Splices scope scope' several value site.mention) →
    (e.fill value).isClosed = true := by
  intro inside h
  replace h : ∀ m ∈ e.mentions, Splices scope scope' several value m := forall_sites.mp h
  induction e using induction_parts with
  | literal => rfl
  | mention s m =>
    obtain ⟨e, he, hclosed, -⟩ := h m (by simp)
    rw [fill, he]
    exact hclosed
  | signed s o e ih =>
    rw [mentions_signed] at h
    rw [fill, isClosed, ih h]
  | binary s l o r hl hr =>
    rw [mentions_binary, List.forall_mem_append] at h
    rw [fill, isClosed, hl h.1, hr h.2]
    rfl
  | conditional s c y n hc hy hn =>
    rw [mentions_conditional, List.forall_mem_append, List.forall_mem_append] at h
    rw [fill, isClosed, hc h.1.1, hy h.1.2, hn h.2]
    rfl
  | call s a es ih =>
    rw [mentions_call, List.forall_mem_flatMap] at h
    rw [fill, isClosed, areClosed_eq_all, fillAll_eq_map, List.all_map, List.all_eq_true]
    exact fun e he => ih e he (h e he)
  | list s es ih =>
    rw [mentions_list, List.forall_mem_flatMap] at h
    rw [fill, isClosed, areClosed_eq_all, fillAll_eq_map, List.all_map, List.all_eq_true]
    exact fun e he => ih e he (h e he)

/-- A filled tree spreads if a mention with several samples stands outside of all calls. -/
theorem spreads_fill (e : Expr) (h : ∀ m ∈ e.mentions, Splices scope scope' several value m) :
    (e.fill value).spreads = e.spreadsFor several := by
  induction e using induction_parts with
  | literal | call | list => rfl
  | mention s m =>
    obtain ⟨e, he, -, hspreads, -⟩ := h m (by simp)
    rw [fill, he]
    exact hspreads
  | signed s o e ih =>
    rw [mentions_signed] at h
    rw [fill, spreads, spreadsFor, ih h]
  | binary s l o r hl hr =>
    rw [mentions_binary, List.forall_mem_append] at h
    rw [fill, spreads, spreadsFor, hl h.1, hr h.2]
  | conditional s c y n hc hy hn =>
    rw [mentions_conditional, List.forall_mem_append, List.forall_mem_append] at h
    rw [fill, spreads, spreadsFor, hc h.1.1, hy h.1.2, hn h.2]

/-- A filled tree that fits divides into its pieces: it has no name of an infinity left to be
signed. -/
theorem Fits.divides_fill (hvalue : ∀ m e, value m = some e → e.Written True) {e : Expr}
    (h : (e.fill value).Fits) (hwritten : e.Written False)
    (hsplices : ∀ m ∈ e.mentions, Splices scope scope' several value m) :
    (e.fill value).Divides :=
  h.divides (written_fill hvalue hwritten)
    (signsInfinity_of_isClosed (isClosed_fill e false (forall_sites.mpr hsplices)))

/-! ## The values of the pieces -/

/-- Numbers side by side. -/
theorem values?_of_numbers {ps : List Expr} {xs : List Float}
    (h : ps.map (number? scope) = xs.map some) : values? scope ps = some xs := by
  induction ps generalizing xs with
  | nil =>
    obtain rfl : xs = [] := by simpa using h.symm
    exact values?_nil
  | cons p ps ih =>
    cases xs with
    | nil => simp at h
    | cons x xs =>
      rw [List.map_cons, List.map_cons, List.cons.injEq] at h
      rw [values?_cons, number?_eq_some.mp h.1, ih h.2]
      rfl

theorem exists_piece {e : Expr} {x : Float}
    (h : e.pieces.map (number? scope) = (Outcome.scalar x).values.map some) :
    ∃ p, e.pieces = [p] ∧ p.number? scope = some x :=
  List.map_eq_singleton_iff.mp h

/-- A plus sign changes none of the numbers that the pieces stand for. -/
theorem numbers_plus (s : Span) (e : Expr) :
    (signed s .plus e).pieces.map (number? scope) = e.pieces.map (number? scope) := by
  rw [pieces]
  cases e.pieces with
  | nil => rfl
  | cons p ps => rw [List.map_cons, List.map_cons, number?_congr (outcome?_plus s p)]

/-- The pieces of the filled tree stand for the values that the tree has. -/
def Stands (scope scope' : Scope) (value : Mention → Option Expr) (e : Expr) : Prop :=
  ∀ o, e.outcome? scope = some o →
    (e.fill value).pieces.map (number? scope') = o.values.map some

/-- A tree that stands for a number is one piece when it is filled. -/
theorem Stands.exists_piece {e : Expr} {x : Float} (h : e.Stands scope scope' value)
    (hx : e.number? scope = some x) :
    ∃ p, (e.fill value).pieces = [p] ∧ p.number? scope' = some x :=
  Expr.exists_piece (h _ (number?_eq_some.mp hx))

/-- Trees side by side stand for their values one after the other. -/
theorem Stands.row {es : List Expr} (h : ∀ e ∈ es, e.Stands scope scope' value) {xs : List Float}
    (hxs : values? scope es = some xs) :
    ((es.map (fill value)).flatMap pieces).map (number? scope') = xs.map some := by
  induction es generalizing xs with
  | nil =>
    obtain rfl := Option.some.inj (values?_nil.symm.trans hxs)
    rfl
  | cons e es ih =>
    rw [values?_cons, Option.bind_eq_some_iff] at hxs
    obtain ⟨o, ho, hmore⟩ := hxs
    obtain ⟨ys, hys, rfl⟩ := Option.map_eq_some_iff.mp hmore
    rw [List.map_cons, List.flatMap_cons, List.map_append, List.map_append, h e (by simp) o ho,
      ih (fun f hf => h f (by simp [hf])) hys]

/-- A signed tree stands for its values if the tree behind the sign does. -/
theorem Stands.signed {e : Expr} (h : e.Stands scope scope' value) (s : Span) (sign : Sign) :
    (signed s sign e).Stands scope scope' value := by
  intro o ho
  rw [fill]
  cases sign with
  | plus =>
    rw [outcome?_plus] at ho
    rw [numbers_plus]
    exact h o ho
  | minus =>
    -- a minus wants a number, so there is one piece
    rw [outcome?_minus] at ho
    obtain ⟨x, hx, rfl⟩ := Option.map_eq_some_iff.mp ho
    obtain ⟨p, hp, hnumber⟩ := h.exists_piece hx
    rw [pieces_signed hp, List.map_singleton, number?, outcome?_minus, hnumber]
    rfl

/-- An operator phrase stands for its value if both sides do. -/
theorem Stands.binary {l r : Expr} (hl : l.Stands scope scope' value)
    (hr : r.Stands scope scope' value) (s : Span) (op : Operator) :
    (binary s l op r).Stands scope scope' value := by
  intro o ho
  rw [outcome?_binary, Option.bind_eq_some_iff] at ho
  obtain ⟨x, hx, ho⟩ := ho
  obtain ⟨y, hy, rfl⟩ := Option.map_eq_some_iff.mp ho
  obtain ⟨p, hp, hpnumber⟩ := hl.exists_piece hx
  obtain ⟨q, hq, hqnumber⟩ := hr.exists_piece hy
  rw [fill, pieces, hp, hq, graft, List.map_singleton, number?, outcome?_binary, hpnumber, hqnumber]
  rfl

/-- The pieces behind the first one of the second branch stand there whatever the condition says, so
there are none if the first branch is taken. -/
theorem Stands.conditional {c y n : Expr} (hc : c.Stands scope scope' value)
    (hy : (c.number? scope).any holds = true →
      y.Stands scope scope' value ∧ ∃ r, (n.fill value).pieces = [r])
    (hn : (c.number? scope).any holds = false → n.Stands scope scope' value)
    (hbranch : ∃ q, (y.fill value).pieces = [q]) (hne : (n.fill value).pieces ≠ []) (s : Span) :
    (conditional s c y n).Stands scope scope' value := by
  intro o ho
  rw [outcome?_conditional, Option.bind_eq_some_iff] at ho
  obtain ⟨x, hx, ho⟩ := ho
  obtain ⟨p, hp, hpnumber⟩ := hc.exists_piece hx
  obtain ⟨q, hq⟩ := hbranch
  rw [hx, Option.any_some] at hy hn
  rw [fill, pieces, hp, hq]
  by_cases hholds : holds x = true
  · rw [if_pos hholds] at ho
    obtain ⟨hstands, r, hr⟩ := hy hholds
    rw [← hstands o ho, hr, hq, graft, List.map_singleton, List.map_singleton, number?,
      outcome?_conditional, hpnumber, Option.bind_some, if_pos hholds, List.headD_cons, number?]
  · rw [if_neg hholds] at ho
    obtain ⟨r, rs, hr⟩ := List.exists_cons_of_ne_nil hne
    rw [← hn (Bool.eq_false_iff.mpr hholds) o ho, hr, graft, List.map_cons, List.map_cons, number?,
      outcome?_conditional, hpnumber, Option.bind_some, if_neg hholds, number?]

/-- A call stands for its value if the arguments stand for theirs. -/
theorem Stands.call {es : List Expr} (h : ∀ e ∈ es, e.Stands scope scope' value) (s : Span)
    (a : Aggregate) : (call s a es).Stands scope scope' value := by
  intro o ho
  rw [outcome?_call] at ho
  obtain ⟨xs, hxs, rfl⟩ := Option.map_eq_some_iff.mp ho
  rw [fill, fillAll_eq_map, pieces, piecesOf_eq_flatMap, List.map_singleton, number?, outcome?_call,
    values?_of_numbers (Stands.row h hxs)]
  rfl

/-- **The pieces of a filled tree stand for the values of the tree**, unless it sheds some. -/
theorem Written.stands (hvalue : ∀ m e, value m = some e → e.Written True) {e : Expr}
    (h : e.Written False) : ∀ {inside : Bool},
    (∀ site ∈ e.sites inside, Splices scope scope' several value site.mention) →
    (e.fill value).Fits → e.sheds scope several = false → e.Stands scope scope' value := by
  intro inside hsplices
  replace hsplices : ∀ m ∈ e.mentions, Splices scope scope' several value m :=
    forall_sites.mp hsplices
  induction h with
  | literal s v =>
    intro _ _ o ho
    rw [outcome?_literal] at ho
    obtain rfl := Option.some.inj ho
    rw [fill, pieces, List.map_singleton, number?, outcome?_literal]
    rfl
  | @mention s m _ _ =>
    intro _ _ o ho
    obtain ⟨e, he, -, -, hpieces⟩ := hsplices m (by simp)
    rw [outcome?_mention] at ho
    obtain rfl := Option.some.inj ho
    rw [fill, he]
    exact hpieces
  | signed s sign _ ih =>
    intro hfits hsheds
    rw [mentions_signed] at hsplices
    rw [fill] at hfits
    rw [sheds] at hsheds
    cases hfits with
    | signed _ _ hfits _ => exact (ih hsplices hfits hsheds).signed s sign
  | binary s op _ _ hl hr =>
    intro hfits hsheds
    rw [mentions_binary, List.forall_mem_append] at hsplices
    rw [fill] at hfits
    rw [sheds, Bool.or_eq_false_iff] at hsheds
    cases hfits with
    | binary _ _ hlfits hrfits _ _ =>
      exact (hl hsplices.1 hlfits hsheds.1).binary (hr hsplices.2 hrfits hsheds.2) s op
  | @conditional s c y n _ hyw hnw hc hy hn =>
    intro hfits hsheds
    rw [mentions_conditional, List.forall_mem_append, List.forall_mem_append] at hsplices
    obtain ⟨⟨hcsplices, hysplices⟩, hnsplices⟩ := hsplices
    rw [fill] at hfits
    rw [sheds, Bool.or_eq_false_iff] at hsheds
    cases hfits with
    | conditional _ hcfits hyfits hnfits _ hbranch =>
      obtain ⟨q, hq, -⟩ := (hyfits.divides_fill hvalue hyw hysplices).single hbranch
      have hndivides := hnfits.divides_fill hvalue hnw hnsplices
      refine (hc hcsplices hcfits hsheds.1).conditional (fun hholds => ?_) (fun hfails => ?_)
        ⟨q, hq⟩ hndivides.ne_nil s
      · obtain ⟨hyes, hno⟩ : y.sheds scope several = false ∧ n.spreadsFor several = false := by
          rw [if_pos hholds, Bool.or_eq_false_iff] at hsheds
          exact hsheds.2
        obtain ⟨r, hr, -⟩ := hndivides.single ((spreads_fill n hnsplices).trans hno)
        exact ⟨hy hysplices hyfits hyes, r, hr⟩
      · rw [if_neg (Bool.eq_false_iff.mp hfails)] at hsheds
        exact hn hnsplices hnfits hsheds.2
  | call s a _ _ ih =>
    intro hfits hsheds
    rw [mentions_call, List.forall_mem_flatMap] at hsplices
    rw [fill, fillAll_eq_map] at hfits
    rw [sheds, anySheds_eq_any, List.any_eq_false] at hsheds
    cases hfits with
    | call _ _ hfits =>
      refine Stands.call (fun e he => ?_) s a
      exact ih e he (hsplices e he) (hfits _ (List.mem_map_of_mem he))
        (Bool.eq_false_iff.mpr (hsheds e he))
  | list hlists => exact hlists.elim

end Expr

end DerivedStats
