import DerivedStats.Proofs.Writing.Reading

/-!
# Trees with lists

A list is written without parentheses, so its commas end up wherever the list stands: the written
form of `SUM(a + w)` with `5, 6` for `w` is that of a call with the two arguments `a + 5` and `6`.
The pieces of a tree are the trees between these commas (`Expr.pieces`). A tree fits if no comma is
caught between parentheses or in the first branch of a conditional (`Expr.Fits`); then its tokens
are those of its pieces with commas between them, and each piece is a tree without lists
(`Expr.Fits.divides`).
-/

namespace DerivedStats

open Grammar

namespace Expr

/-- A list stands in the tree outside of all calls. -/
def spreads : Expr → Bool
  | literal _ _ | mention _ _ | call _ _ _ => false
  | signed _ _ e => e.spreads
  | binary _ l _ r => l.spreads || r.spreads
  | conditional _ c y n => c.spreads || y.spreads || n.spreads
  | list _ _ => true

/-- No list stands between parentheses that are not those of a call, nor in the first branch of a
conditional. -/
inductive Fits : Expr → Prop where
  | literal (s : Span) (v : Float) : Fits (literal s v)
  | mention (s : Span) (m : Mention) : Fits (mention s m)
  | signed (s : Span) (o : Sign) {e : Expr} (he : Fits e)
      (hgroup : e.precedence < signPrecedence → e.spreads = false) : Fits (signed s o e)
  | binary (s : Span) (o : Operator) {l r : Expr} (hl : Fits l) (hr : Fits r)
      (hleft : l.precedence < o.precedence → l.spreads = false)
      (hright : r.precedence ≤ o.precedence → r.spreads = false) : Fits (binary s l o r)
  | conditional (s : Span) {c y n : Expr} (hc : Fits c) (hy : Fits y) (hn : Fits n)
      (hgroup : c.precedence ≤ conditionalPrecedence → c.spreads = false)
      (hbranch : y.spreads = false) : Fits (conditional s c y n)
  | call (s : Span) (a : Aggregate) {es : List Expr} (h : ∀ e ∈ es, Fits e) : Fits (call s a es)
  | list (s : Span) (es : List Expr) : Fits (list s es)

mutual

/-- The test whether a tree fits. -/
def fits : Expr → Bool
  | literal _ _ | mention _ _ | list _ _ => true
  | signed _ _ e => e.fits && decide (e.precedence < signPrecedence → e.spreads = false)
  | binary _ l o r =>
    l.fits && r.fits && decide (l.precedence < o.precedence → l.spreads = false)
      && decide (r.precedence ≤ o.precedence → r.spreads = false)
  | conditional _ c y n =>
    c.fits && y.fits && n.fits
      && decide (c.precedence ≤ conditionalPrecedence → c.spreads = false) && !y.spreads
  | call _ _ es => allFit es

/-- The test whether several trees fit. -/
def allFit : List Expr → Bool
  | [] => true
  | e :: es => e.fits && allFit es

end

theorem allFit_eq_all (es : List Expr) : allFit es = es.all fits := by
  induction es with
  | nil => simp [allFit]
  | cons e es ih => simp [allFit, ih]

/-- The test finds out whether a tree fits. -/
theorem fits_iff (e : Expr) : e.fits = true ↔ e.Fits := by
  induction e using induction_parts with
  | literal s v => exact ⟨fun _ => .literal s v, fun _ => rfl⟩
  | mention s m => exact ⟨fun _ => .mention s m, fun _ => rfl⟩
  | signed s o e ih =>
    rw [fits, Bool.and_eq_true, decide_eq_true_iff, ih]
    constructor
    · rintro ⟨he, hgroup⟩
      exact .signed s o he hgroup
    · rintro ⟨⟩
      exact ⟨‹_›, ‹_›⟩
  | binary s l o r hl hr =>
    rw [fits]
    simp only [Bool.and_eq_true, decide_eq_true_iff, hl, hr]
    constructor
    · rintro ⟨⟨⟨hl, hr⟩, hleft⟩, hright⟩
      exact .binary s o hl hr hleft hright
    · rintro ⟨⟩
      exact ⟨⟨⟨‹_›, ‹_›⟩, ‹_›⟩, ‹_›⟩
  | conditional s c y n hc hy hn =>
    rw [fits]
    simp only [Bool.and_eq_true, decide_eq_true_iff, Bool.not_eq_true', hc, hy, hn]
    constructor
    · rintro ⟨⟨⟨⟨hc, hy⟩, hn⟩, hgroup⟩, hbranch⟩
      exact .conditional s hc hy hn hgroup hbranch
    · rintro ⟨⟩
      exact ⟨⟨⟨⟨‹_›, ‹_›⟩, ‹_›⟩, ‹_›⟩, ‹_›⟩
  | call s a es ih =>
    rw [fits, allFit_eq_all, List.all_eq_true]
    constructor
    · exact fun h => .call s a fun e he => (ih e he).mp (h e he)
    · rintro ⟨⟩
      exact fun e he => (ih e he).mpr (‹∀ e ∈ es, e.Fits› e he)
  | list s es => exact ⟨fun _ => .list s es, fun _ => rfl⟩

instance (e : Expr) : Decidable e.Fits := decidable_of_iff _ (fits_iff e)

/-! ## Pieces -/

/-- Two rows of trees made one: the last tree of the first row is joined with the first one of the
second row. -/
def graft (join : Expr → Expr → Expr) : List Expr → List Expr → List Expr
  | [], rs => rs
  | [l], [] => [l]
  | [l], r :: rs => join l r :: rs
  | l :: l' :: ls, rs => l :: graft join (l' :: ls) rs

mutual

/-- The trees between the commas of the written form. Calls are pieces of their own, with the pieces
of all arguments as arguments. -/
def pieces : Expr → List Expr
  | literal s v => [literal s v]
  | mention s m => [mention s m]
  | signed s o e =>
    match e.pieces with
    | [] => []
    | p :: ps => signed s o p :: ps
  | binary s l o r => graft (fun l r => binary s l o r) l.pieces r.pieces
  | conditional s c y n =>
    graft (fun c n => conditional s c (y.pieces.headD y) n) c.pieces n.pieces
  | call s a es => [call s a (piecesOf es)]
  | list _ es => piecesOf es

/-- The pieces of several trees, one after the other. -/
def piecesOf : List Expr → List Expr
  | [] => []
  | e :: es => e.pieces ++ piecesOf es

end

theorem piecesOf_eq_flatMap (es : List Expr) : piecesOf es = es.flatMap pieces := by
  induction es with
  | nil => simp [piecesOf]
  | cons e es ih => simp [piecesOf, ih]

theorem graft_ne_nil {join : Expr → Expr → Expr} {ls rs : List Expr} (hls : ls ≠ []) :
    graft join ls rs ≠ [] := by
  match ls, rs with
  | [], _ => exact absurd rfl hls
  | [_], [] | [_], _ :: _ | _ :: _ :: _, _ => simp [graft]

/-- What holds of the trees of both rows and of all trees joined from them holds of the row made of
them. In a row of one tree, this one is always joined. -/
theorem forall_mem_graft {join : Expr → Expr → Expr} {P : Expr → Prop} {ls rs : List Expr}
    (hls : ls ≠ []) (hrs : rs ≠ []) (hl : 2 ≤ ls.length → ∀ l ∈ ls, P l)
    (hr : 2 ≤ rs.length → ∀ r ∈ rs, P r) (hjoin : ∀ l ∈ ls, ∀ r ∈ rs, P (join l r)) :
    ∀ p ∈ graft join ls rs, P p := by
  obtain ⟨r, rs, rfl⟩ := List.exists_cons_of_ne_nil hrs
  induction ls with
  | nil => exact absurd rfl hls
  | cons l ls ih =>
    cases ls with
    | nil =>
      intro p hp
      rcases List.mem_cons.mp hp with rfl | hp
      · exact hjoin l (by simp) r (by simp)
      · have hpos := List.length_pos_of_mem hp
        exact hr (by rw [List.length_cons]; omega) p (by simp [hp])
    | cons l' ls =>
      have hboth := hl (by simp)
      intro p hp
      rcases List.mem_cons.mp hp with rfl | hp
      · exact hboth p (by simp)
      · exact ih (by simp) (fun _ m hm => hboth m (by simp [hm]))
          (fun m hm => hjoin m (by simp [hm])) p hp

/-- What starts the first item starts the list. -/
theorem intercalate_append_cons (s x y : List Token) (ls : List (List Token)) :
    List.intercalate s ((x ++ y) :: ls) = x ++ List.intercalate s (y :: ls) := by
  rw [intercalate_cons, intercalate_cons, List.append_assoc]

/-- The tokens of a row made of two. In a row of several trees the join adds no parentheses. -/
theorem intercalate_graft {join : Expr → Expr → Expr} {f g : Expr → List Token} (mid : List Token)
    {ls rs : List Expr} (hls : ls ≠ []) (hrs : rs ≠ [])
    (hf : 2 ≤ ls.length → ∀ l ∈ ls, f l = l.tokens) (hg : 2 ≤ rs.length → ∀ r ∈ rs, g r = r.tokens)
    (hjoin : ∀ l ∈ ls, ∀ r ∈ rs, (join l r).tokens = f l ++ (mid ++ g r)) :
    List.intercalate [.comma] ((graft join ls rs).map tokens) =
      List.intercalate [.comma] (ls.map f) ++ (mid ++ List.intercalate [.comma] (rs.map g)) := by
  obtain ⟨r, rs, rfl⟩ := List.exists_cons_of_ne_nil hrs
  induction ls with
  | nil => exact absurd rfl hls
  | cons l ls ih =>
    cases ls with
    | nil =>
      -- the first tree of the second row is joined; behind it the rows are the same
      have htail : rs.map tokens = rs.map g := by
        cases rs with
        | nil => rfl
        | cons r' rs =>
          exact List.map_congr_left fun m hm => (hg (by simp) m (List.mem_cons_of_mem _ hm)).symm
      rw [graft, List.map_cons, htail, hjoin l (by simp) r (by simp), intercalate_append_cons,
        intercalate_append_cons, ← List.map_cons]
      simp
    | cons l' ls =>
      have hboth := hf (by simp)
      have hmore := ih (by simp) (fun _ m hm => hboth m (by simp [hm]))
        fun m hm => hjoin m (by simp [hm])
      have hne : (graft join (l' :: ls) (r :: rs)).map tokens ≠ [] := by
        simpa using graft_ne_nil (by simp)
      have hrow : List.intercalate [.comma] ((l :: l' :: ls).map f)
          = l.tokens ++ ([.comma] ++ List.intercalate [.comma] ((l' :: ls).map f)) := by
        have hmap : (l' :: ls).map f ≠ [] := List.cons_ne_nil _ _
        rw [List.map_cons, List.intercalate_cons_of_ne_nil hmap, List.append_assoc, hboth l (by simp)]
      rw [graft, List.map_cons, List.intercalate_cons_of_ne_nil hne, hmore, hrow]
      simp only [List.append_assoc]

/-! ## Trees without mentions -/

mutual

/-- The tree has no mentions. -/
def isClosed : Expr → Bool
  | literal _ _ => true
  | mention _ _ => false
  | signed _ _ e => e.isClosed
  | binary _ l _ r => l.isClosed && r.isClosed
  | conditional _ c y n => c.isClosed && y.isClosed && n.isClosed
  | call _ _ es | list _ es => areClosed es

/-- None of the trees has mentions. -/
def areClosed : List Expr → Bool
  | [] => true
  | e :: es => e.isClosed && areClosed es

end

theorem areClosed_eq_all (es : List Expr) : areClosed es = es.all isClosed := by
  induction es with
  | nil => simp [areClosed]
  | cons e es ih => simp [areClosed, ih]

theorem mentionsInfinity_of_isClosed {e : Expr} (h : e.isClosed = true) :
    e.mentionsInfinity = false := by
  cases e with
  | mention => exact nomatch h
  | _ => rfl

/-- A tree without mentions has no name of an infinity behind a sign. -/
theorem signsInfinity_of_isClosed {e : Expr} (h : e.isClosed = true) : e.signsInfinity = false := by
  induction e using induction_parts with
  | literal | mention => rfl
  | signed s o e ih =>
    rw [isClosed] at h
    rw [signsInfinity, mentionsInfinity_of_isClosed h, ih h]
    rfl
  | binary s l o r hl hr =>
    rw [isClosed, Bool.and_eq_true] at h
    rw [signsInfinity, hl h.1, hr h.2]
    rfl
  | conditional s c y n hc hy hn =>
    rw [isClosed, Bool.and_eq_true, Bool.and_eq_true] at h
    rw [signsInfinity, hc h.1.1, hy h.1.2, hn h.2]
    rfl
  | call s a es ih | list s es ih =>
    rw [isClosed, areClosed_eq_all, List.all_eq_true] at h
    rw [signsInfinity, anySignsInfinity_eq_any, List.any_eq_false]
    exact fun e he => Bool.eq_false_iff.mp (ih e he (h e he))

/-! ## The tokens of the pieces -/

/-- What is known of the pieces of a tree that fits. -/
structure Divides (e : Expr) : Prop where
  ne_nil : e.pieces ≠ []
  written : ∀ p ∈ e.pieces, p.Written False
  signs : ∀ p ∈ e.pieces, p.signsInfinity = false
  plain : e.mentionsInfinity = false → ∀ p ∈ e.pieces, p.mentionsInfinity = false
  precedence : ∀ p ∈ e.pieces, min e.precedence 8 ≤ p.precedence
  single : e.spreads = false → ∃ p, e.pieces = [p] ∧ min p.precedence 8 = min e.precedence 8
  tokens : e.tokens = List.intercalate [.comma] (e.pieces.map Expr.tokens)

/-- A mention has no commas, so what has several pieces is no mention. -/
theorem mentionsInfinity_of_pieces {e : Expr} (h : 2 ≤ e.pieces.length) :
    e.mentionsInfinity = false := by
  cases e with
  | mention => simp [pieces] at h
  | _ => rfl

/-- The pieces of an operand take parentheses where the operand does. -/
theorem Divides.operand {e : Expr} (h : e.Divides) (needed : Expr → Bool) {k : Nat} (hk : k ≤ 8)
    (hneeded : ∀ p : Expr, needed p = true ↔ p.precedence < k)
    (hgroup : needed e = true → e.spreads = false) :
    groupTokens (needed e) e.tokens =
        List.intercalate [.comma] (e.pieces.map fun p => groupTokens (needed p) p.tokens)
      ∧ (2 ≤ e.pieces.length → ∀ p ∈ e.pieces, groupTokens (needed p) p.tokens = p.tokens
        ∧ k ≤ p.precedence) := by
  cases hspreads : e.spreads with
  | false =>
    obtain ⟨p, hp, hprecedence⟩ := h.single hspreads
    have hsame : needed e = needed p := by
      rw [Bool.eq_iff_iff, hneeded, hneeded]
      omega
    rw [h.tokens, hp, hsame]
    exact ⟨by simp, fun hlength => by simp at hlength⟩
  | true =>
    -- a tree with commas stands without parentheses, and its pieces bind as strongly as it does
    have hno : needed e = false := by
      rw [Bool.eq_false_iff]
      intro hneed
      rw [hgroup hneed] at hspreads
      exact nomatch hspreads
    have hle : k ≤ e.precedence := by
      rw [Bool.eq_false_iff, ne_eq, hneeded] at hno
      omega
    have hpieces : ∀ p ∈ e.pieces, groupTokens (needed p) p.tokens = p.tokens
        ∧ k ≤ p.precedence := by
      intro p hp
      have hkp : k ≤ p.precedence := by
        have := h.precedence p hp
        omega
      have hnop : needed p = false := by
        rw [Bool.eq_false_iff, ne_eq, hneeded]
        omega
      rw [hnop]
      exact ⟨rfl, hkp⟩
    rw [hno, List.map_congr_left fun p hp => (hpieces p hp).1]
    exact ⟨h.tokens, fun _ => hpieces⟩

/-- A sign belongs to the first piece of what it stands in front of. -/
theorem pieces_signed {s : Span} {o : Sign} {e p : Expr} {ps : List Expr} (h : e.pieces = p :: ps) :
    (signed s o e).pieces = signed s o p :: ps := by
  rw [pieces, h]

/-- A sign is a token of its own in front of anything but a name of an infinity. -/
theorem tokens_signed {lists : Prop} {e : Expr} (h : e.Written lists)
    (hno : e.mentionsInfinity = false) (s : Span) (o : Sign) :
    (signed s o e).tokens
      = .ofSign o :: groupTokens (e.precedence < signPrecedence) e.tokens := by
  rw [tokens, h.signTokens_eq o hno]

/-- A signed tree divides into its pieces if what has commas stands without parentheses. -/
theorem divides_signed {lists : Prop} {e : Expr} (h : e.Divides) (hwritten : e.Written lists)
    (hno : e.mentionsInfinity = false) (hgroup : e.precedence < signPrecedence → e.spreads = false)
    (s : Span) (o : Sign) : (signed s o e).Divides := by
  obtain ⟨htokens, hmany⟩ := h.operand (fun e => e.precedence < signPrecedence)
    (Nat.le_refl 8) (fun p => decide_eq_true_iff) (fun hneed => hgroup (of_decide_eq_true hneed))
  obtain ⟨p, ps, hpieces⟩ := List.exists_cons_of_ne_nil h.ne_nil
  have hp : p ∈ e.pieces := by simp [hpieces]
  have hps : ∀ q ∈ ps, q ∈ e.pieces := fun q hq => by simp [hpieces, hq]
  have hmany : ∀ q ∈ ps, groupTokens (q.precedence < signPrecedence) q.tokens = q.tokens
      ∧ 8 ≤ q.precedence := fun q hq => by
    have hpos := List.length_pos_of_mem hq
    exact hmany (by rw [hpieces, List.length_cons]; omega) q (hps q hq)
  refine ⟨?_, ?_, ?_, fun _ => ?_, ?_, fun hspreads => ?_, ?_⟩
  · rw [pieces_signed hpieces]
    exact List.cons_ne_nil _ _
  · rw [pieces_signed hpieces, List.forall_mem_cons]
    exact ⟨.signed s o (h.written p hp), fun q hq => h.written q (hps q hq)⟩
  · rw [pieces_signed hpieces, List.forall_mem_cons]
    refine ⟨?_, fun q hq => h.signs q (hps q hq)⟩
    rw [signsInfinity, h.plain hno p hp, h.signs p hp]
    rfl
  · rw [pieces_signed hpieces, List.forall_mem_cons]
    exact ⟨rfl, fun q hq => h.plain hno q (hps q hq)⟩
  · rw [pieces_signed hpieces, List.forall_mem_cons]
    exact ⟨Nat.min_le_left _ _,
      fun q hq => Nat.le_trans (Nat.min_le_right _ _) (hmany q hq).2⟩
  · obtain ⟨q, hq, -⟩ := h.single hspreads
    obtain ⟨rfl, rfl⟩ := List.cons.inj (hpieces.symm.trans hq)
    exact ⟨_, pieces_signed hpieces, rfl⟩
  · rw [hpieces, List.map_cons, List.map_congr_left fun q hq => (hmany q hq).1] at htokens
    rw [tokens_signed hwritten hno, htokens, pieces_signed hpieces, List.map_cons,
      tokens_signed (h.written p hp) (h.plain hno p hp)]
    exact (intercalate_append_cons [.comma] [.ofSign o] _ _).symm

/-- An operator phrase divides into its pieces if what has commas stands without parentheses. -/
theorem divides_binary {l r : Expr} (hl : l.Divides) (hr : r.Divides) (s : Span) (o : Operator)
    (hleft : l.precedence < o.precedence → l.spreads = false)
    (hright : r.precedence ≤ o.precedence → r.spreads = false) : (binary s l o r).Divides := by
  have hlt : o.precedence < 8 := o.precedence_lt_sign
  obtain ⟨htokens, hmany⟩ := hl.operand (fun e => e.precedence < o.precedence)
    (Nat.le_of_lt hlt) (fun p => decide_eq_true_iff) fun hneed => hleft (of_decide_eq_true hneed)
  obtain ⟨htokens', hmany'⟩ := hr.operand (fun e => e.precedence ≤ o.precedence)
    hlt (fun p => decide_eq_true_iff.trans Nat.lt_succ_iff.symm)
    fun hneed => hright (of_decide_eq_true hneed)
  refine ⟨?_, ?_, ?_, fun _ => ?_, ?_, fun hspreads => ?_, ?_⟩
  · rw [pieces]
    exact graft_ne_nil hl.ne_nil
  · rw [pieces]
    exact forall_mem_graft hl.ne_nil hr.ne_nil (fun _ => hl.written) (fun _ => hr.written)
      fun p hp q hq => .binary s o (hl.written p hp) (hr.written q hq)
  · rw [pieces]
    refine forall_mem_graft hl.ne_nil hr.ne_nil (fun _ => hl.signs) (fun _ => hr.signs)
      fun p hp q hq => ?_
    rw [signsInfinity, hl.signs p hp, hr.signs q hq]
    rfl
  · rw [pieces]
    exact forall_mem_graft hl.ne_nil hr.ne_nil
      (fun hlength => hl.plain (mentionsInfinity_of_pieces hlength))
      (fun hlength => hr.plain (mentionsInfinity_of_pieces hlength)) fun _ _ _ _ => rfl
  · rw [pieces]
    refine forall_mem_graft hl.ne_nil hr.ne_nil (fun hlength p hp => ?_) (fun hlength p hp => ?_)
      fun p hp q hq => Nat.min_le_left _ _
    · exact Nat.le_trans (Nat.min_le_left _ _) (hmany hlength p hp).2
    · exact Nat.le_trans (Nat.min_le_left _ _) (Nat.le_of_succ_le (hmany' hlength p hp).2)
  · rw [spreads, Bool.or_eq_false_iff] at hspreads
    obtain ⟨p, hp, -⟩ := hl.single hspreads.1
    obtain ⟨q, hq, -⟩ := hr.single hspreads.2
    refine ⟨binary s p o q, ?_, rfl⟩
    rw [pieces, hp, hq]
    rfl
  · rw [tokens, htokens, htokens', pieces, intercalate_graft [.operator o] hl.ne_nil hr.ne_nil
      (fun hlength p hp => (hmany hlength p hp).1)
      (fun hlength p hp => (hmany' hlength p hp).1) fun p hp q hq => by rw [tokens]; rfl]
    rfl

/-- A conditional divides into its pieces if its condition has no commas in parentheses, and its
first branch has none at all. -/
theorem divides_conditional {c y n : Expr} (hc : c.Divides) (hy : y.Divides) (hn : n.Divides)
    (s : Span) (hgroup : c.precedence ≤ conditionalPrecedence → c.spreads = false)
    (hbranch : y.spreads = false) : (conditional s c y n).Divides := by
  obtain ⟨htokens, hmany⟩ := hc.operand (fun e => e.precedence ≤ conditionalPrecedence)
    (k := 2) (by decide) (fun p => decide_eq_true_iff.trans Nat.lt_succ_iff.symm)
    fun hneed => hgroup (of_decide_eq_true hneed)
  obtain ⟨y', hy', -⟩ := hy.single hbranch
  have hmem : y' ∈ y.pieces := by simp [hy']
  have hpieces : (conditional s c y n).pieces =
      graft (fun c n => conditional s c y' n) c.pieces n.pieces := by
    rw [pieces, hy']
    rfl
  refine ⟨?_, ?_, ?_, fun _ => ?_, ?_, fun hspreads => ?_, ?_⟩
  · rw [hpieces]
    exact graft_ne_nil hc.ne_nil
  · rw [hpieces]
    exact forall_mem_graft hc.ne_nil hn.ne_nil (fun _ => hc.written) (fun _ => hn.written)
      fun p hp q hq => .conditional s (hc.written p hp) (hy.written y' hmem) (hn.written q hq)
  · rw [hpieces]
    refine forall_mem_graft hc.ne_nil hn.ne_nil (fun _ => hc.signs) (fun _ => hn.signs)
      fun p hp q hq => ?_
    rw [signsInfinity, hc.signs p hp, hy.signs y' hmem, hn.signs q hq]
    rfl
  · rw [hpieces]
    exact forall_mem_graft hc.ne_nil hn.ne_nil
      (fun hlength => hc.plain (mentionsInfinity_of_pieces hlength))
      (fun hlength => hn.plain (mentionsInfinity_of_pieces hlength)) fun _ _ _ _ => rfl
  · intro p _
    exact Nat.le_trans (Nat.min_le_left _ _) p.one_le_precedence
  · rw [spreads, Bool.or_eq_false_iff, Bool.or_eq_false_iff] at hspreads
    obtain ⟨p, hp, -⟩ := hc.single hspreads.1.1
    obtain ⟨q, hq, -⟩ := hn.single hspreads.2
    refine ⟨conditional s p y' q, ?_, rfl⟩
    rw [hpieces, hp, hq]
    rfl
  · rw [hpieces, intercalate_graft (g := tokens) (.question :: (y'.tokens ++ [.colon]))
      hc.ne_nil hn.ne_nil (fun hlength p hp => (hmany hlength p hp).1) (fun _ _ _ => rfl)
      fun p hp q hq => by rw [tokens]; simp]
    rw [tokens, htokens, hy.tokens, hn.tokens, hy']
    simp

/-- Two lists with separators make one with a separator in the middle. -/
theorem intercalate_append (s : List Token) {xs ys : List (List Token)} (hxs : xs ≠ [])
    (hys : ys ≠ []) :
    List.intercalate s (xs ++ ys) = List.intercalate s xs ++ (s ++ List.intercalate s ys) := by
  induction xs with
  | nil => exact absurd rfl hxs
  | cons x xs ih =>
    by_cases hnil : xs = []
    · rw [hnil, List.singleton_append, List.intercalate_cons_of_ne_nil hys,
        List.intercalate_singleton, List.append_assoc]
    · rw [List.cons_append, List.intercalate_cons_of_ne_nil (by simp [hnil]), ih hnil,
        List.intercalate_cons_of_ne_nil hnil]
      simp only [List.append_assoc]

/-- The tokens of trees side by side are those of their pieces side by side. -/
theorem intercalate_pieces {es : List Expr} (h : ∀ e ∈ es, e.Divides) :
    List.intercalate [.comma] (es.map tokens)
      = List.intercalate [.comma] ((es.flatMap pieces).map tokens) := by
  induction es with
  | nil => rfl
  | cons e es ih =>
    have he := h e (by simp)
    have hes : ∀ f ∈ es, f.Divides := fun f hf => h f (by simp [hf])
    rw [List.flatMap_cons, List.map_append, List.map_cons]
    by_cases hnil : es = []
    · rw [hnil, List.flatMap_nil, List.map_nil, List.append_nil, ← he.tokens]
      simp
    · have hmap : es.map tokens ≠ [] := by simpa using hnil
      have hpieces : (es.flatMap pieces).map tokens ≠ [] := by
        obtain ⟨f, hf⟩ := List.exists_mem_of_ne_nil _ hnil
        obtain ⟨p, hp⟩ := List.exists_mem_of_ne_nil _ (hes f hf).ne_nil
        exact List.ne_nil_of_mem (List.mem_map_of_mem (List.mem_flatMap.mpr ⟨f, hf, hp⟩))
      rw [List.intercalate_cons_of_ne_nil hmap, List.append_assoc, ih hes,
        intercalate_append _ (by simpa using he.ne_nil) hpieces, ← he.tokens]

/-- A call is a single piece if its arguments divide. -/
theorem divides_call {es : List Expr} (hne : es ≠ []) (h : ∀ e ∈ es, e.Divides) (s : Span)
    (a : Aggregate) : (call s a es).Divides := by
  have hpieces : (call s a es).pieces = [call s a (es.flatMap pieces)] := by
    rw [pieces, piecesOf_eq_flatMap]
  have hmem : ∀ p ∈ es.flatMap pieces, ∃ e ∈ es, p ∈ e.pieces := fun p hp => List.mem_flatMap.mp hp
  refine ⟨?_, ?_, ?_, fun _ => ?_, ?_, fun _ => ⟨_, hpieces, rfl⟩, ?_⟩
  · rw [hpieces]
    exact List.cons_ne_nil _ _
  · rw [hpieces]
    intro p hp
    obtain rfl := List.mem_singleton.mp hp
    refine .call s a (fun hnil => ?_) fun p hp => ?_
    · obtain ⟨e, he⟩ := List.exists_mem_of_ne_nil _ hne
      obtain ⟨q, hq⟩ := List.exists_mem_of_ne_nil _ (h e he).ne_nil
      exact List.ne_nil_of_mem (List.mem_flatMap.mpr ⟨e, he, hq⟩) hnil
    · obtain ⟨e, he, hp⟩ := hmem p hp
      exact (h e he).written p hp
  · rw [hpieces]
    intro p hp
    obtain rfl := List.mem_singleton.mp hp
    rw [signsInfinity, anySignsInfinity_eq_any, List.any_eq_false]
    intro p hp
    obtain ⟨e, he, hp⟩ := hmem p hp
    exact Bool.eq_false_iff.mp ((h e he).signs p hp)
  · rw [hpieces]
    exact List.forall_mem_singleton.mpr rfl
  · rw [hpieces]
    intro p hp
    obtain rfl := List.mem_singleton.mp hp
    exact Nat.min_le_left _ _
  · rw [hpieces, List.map_singleton, tokens, tokens, tokensOf_eq_map, tokensOf_eq_map,
      intercalate_pieces h]
    simp

theorem IsConstant.written {lists : Prop} {e : Expr} (h : e.IsConstant) : e.Written lists := by
  cases h with
  | literal s v => exact .literal s v
  | negative s t v => exact .signed s .minus (.literal t v)

/-- A constant is its own only piece, has no mentions and stands without parentheses. -/
theorem IsConstant.spec {e : Expr} (h : e.IsConstant) :
    e.pieces = [e] ∧ e.isClosed = true ∧ 8 ≤ e.precedence := by
  cases h with
  | literal s v =>
    refine ⟨rfl, rfl, ?_⟩
    rw [precedence]
    split <;> decide
  | negative s t v => exact ⟨rfl, rfl, Nat.le_refl 8⟩

/-- A list divides into its elements. -/
theorem divides_list {es : List Expr} (hlength : 2 ≤ es.length) (h : ∀ e ∈ es, e.IsConstant)
    (s : Span) : (list s es).Divides := by
  have hpieces : (list s es).pieces = es := by
    rw [pieces, piecesOf_eq_flatMap, List.flatMap_congr fun e he => (h e he).spec.1]
    exact List.flatMap_singleton' es
  refine ⟨?_, ?_, ?_, fun _ => ?_, ?_, fun hspreads => ?_, ?_⟩
  · rw [hpieces]
    rintro rfl
    simp at hlength
  · rw [hpieces]
    exact fun p hp => (h p hp).written
  · rw [hpieces]
    exact fun p hp => signsInfinity_of_isClosed (h p hp).spec.2.1
  · rw [hpieces]
    exact fun p hp => mentionsInfinity_of_isClosed (h p hp).spec.2.1
  · rw [hpieces]
    exact fun p hp => Nat.le_trans (Nat.min_le_right _ _) (h p hp).spec.2.2
  · exact nomatch hspreads
  · rw [hpieces, tokens, tokensOf_eq_map]

/-- **The written form of a tree that fits is the row of its pieces**, if no sign in it makes an
infinity of a name. -/
theorem Fits.divides {e : Expr} (h : e.Fits) (hwritten : e.Written True)
    (hno : e.signsInfinity = false) : e.Divides := by
  induction h with
  | literal s v =>
    exact ⟨by simp [pieces], by simp [pieces, Written.literal], by simp [pieces, signsInfinity],
      fun _ => by simp [pieces, mentionsInfinity], by simp [pieces], fun _ => ⟨_, rfl, rfl⟩,
      by simp [pieces]⟩
  | mention s m =>
    cases hwritten with
    | mention _ hm hnan =>
      exact ⟨by simp [pieces], by simpa [pieces] using .mention s hm hnan,
        by simp [pieces, signsInfinity], fun hplain => by simpa [pieces] using hplain,
        by simp [pieces], fun _ => ⟨_, rfl, rfl⟩, by simp [pieces]⟩
  | signed s o he hgroup ih =>
    rw [signsInfinity, Bool.or_eq_false_iff] at hno
    cases hwritten with
    | signed _ _ hwritten => exact divides_signed (ih hwritten hno.2) hwritten hno.1 hgroup s o
  | binary s o _ _ hleft hright hl hr =>
    rw [signsInfinity, Bool.or_eq_false_iff] at hno
    cases hwritten with
    | binary _ _ hwl hwr => exact divides_binary (hl hwl hno.1) (hr hwr hno.2) s o hleft hright
  | conditional s _ _ _ hgroup hbranch hc hy hn =>
    rw [signsInfinity, Bool.or_eq_false_iff, Bool.or_eq_false_iff] at hno
    cases hwritten with
    | conditional _ hwc hwy hwn =>
      exact divides_conditional (hc hwc hno.1.1) (hy hwy hno.1.2) (hn hwn hno.2) s hgroup hbranch
  | call s a _ ih =>
    rw [signsInfinity, anySignsInfinity_eq_any, List.any_eq_false] at hno
    cases hwritten with
    | call _ _ hne hw =>
      exact divides_call hne (fun e he => ih e he (hw e he) (Bool.eq_false_iff.mpr (hno e he))) s a
  | list s es =>
    cases hwritten with
    | list _ _ hlength hconstant _ => exact divides_list hlength hconstant s

end Expr

end DerivedStats
