import DerivedStats.Proofs.Grammar.Border
import DerivedStats.Proofs.Grammar.Language
import DerivedStats.Proofs.Grammar.Unambiguous
import DerivedStats.Proofs.Syntax.Place

/-!
# Spans are exact

Evaluation cuts the pieces of source text that it shows from the spans of nodes, so a span must hold
the whole text of its node and nothing else. The parts of a node stand one behind the other on tokens
of their own (`Spread`), which gives the order of their spans. The text in the span of a node is made
of the tokens of the node, also when nothing comes behind it (`Located.recut`), so it derives the tree
of the node and is read. That it is read as the same node, with the same spans but for the distance to
the start of the source, follows from `Placed.unique`.

Main result: `Assignment.spans_exact`.
-/

namespace DerivedStats

namespace Expr

mutual

/-- The tree in a text that starts `d` bytes earlier. -/
def shift (d : Nat) : Expr → Expr
  | literal s v => literal (s.shift d) v
  | mention s m => mention (s.shift d) m
  | signed s o e => signed (s.shift d) o (e.shift d)
  | binary s l o r => binary (s.shift d) (l.shift d) o (r.shift d)
  | conditional s c y n => conditional (s.shift d) (c.shift d) (y.shift d) (n.shift d)
  | call s a es => call (s.shift d) a (shiftAll d es)
  | list s es => list (s.shift d) (shiftAll d es)

/-- The trees in a text that starts `d` bytes earlier. -/
def shiftAll (d : Nat) : List Expr → List Expr
  | [] => []
  | e :: es => e.shift d :: shiftAll d es

end

theorem shiftAll_eq_map (d : Nat) (es : List Expr) : shiftAll d es = es.map (shift d) := by
  induction es with
  | nil => rfl
  | cons e es ih => rw [shiftAll, ih, List.map_cons]

/-- A tree that moves takes its span along. -/
theorem shift_withSpan (d : Nat) (s : Span) (e : Expr) :
    (e.withSpan s).shift d = (e.shift d).withSpan (s.shift d) := by
  cases e <;> rfl

/-- Moving a tree changes nothing but its spans. -/
@[simp] theorem bare_shift (d : Nat) (e : Expr) : (e.shift d).bare = e.bare := by
  induction e using induction_parts with
  | literal | mention => rfl
  | signed s o e ih => simp only [shift, bare, ih]
  | binary s l o r hl hr => simp only [shift, bare, hl, hr]
  | conditional s c y n hc hy hn => simp only [shift, bare, hc, hy, hn]
  | call s a es ih | list s es ih =>
    simp only [shift, bare, shiftAll_eq_map, baresOf_eq_map, List.map_map]
    exact congrArg _ (List.map_congr_left ih)

/-- The second tree is a node of the first one. -/
inductive Node : Expr → Expr → Prop where
  | root (e : Expr) : Node e e
  | part {e c n : Expr} (hc : c ∈ e.children) (h : Node c n) : Node e n

/-- The span of the node is that of its text in the source. -/
structure Exact (source : List Char) (n : Expr) : Prop where
  nonempty : n.span.start < n.span.stop
  inside : n.span.stop ≤ Text.byteLength source
  covers : ∀ c ∈ n.children, n.span.start ≤ c.span.start ∧ c.span.stop ≤ n.span.stop
  apart : n.children.Pairwise fun c d => c.span.stop ≤ d.span.start
  reads : ∃ piece e, Text.slice? n.span.start n.span.stop source = some piece
    ∧ ofText (String.ofList piece) = .ok e ∧ e.shift n.span.start = n

end Expr

/-- A span that is moved to where another one starts, and is that one then, started at nothing. -/
theorem Span.eq_of_shift {s t : Span} (h : s.shift t.start = t) : s = ⟨0, t.length⟩ := by
  obtain ⟨start, stop⟩ := s
  obtain ⟨start', stop'⟩ := t
  simp only [Span.shift, Span.mk.injEq] at h
  obtain ⟨hstart, hstop⟩ := h
  simp only [Span.length, Span.mk.injEq]
  omega

namespace Grammar

/-! ## Moving the text -/

@[simp] theorem shiftTokens_append (d : Nat) (ts us : List (Token × Span)) :
    shiftTokens d (ts ++ us) = shiftTokens d ts ++ shiftTokens d us :=
  List.map_append

@[simp] theorem shiftTokens_cons (d : Nat) (t : Token) (s : Span) (ts : List (Token × Span)) :
    shiftTokens d ((t, s) :: ts) = (t, s.shift d) :: shiftTokens d ts :=
  rfl

/-- Tokens that move take up the moved piece. -/
theorem extent_shift (d : Nat) {ts : List (Token × Span)} (hts : ts ≠ []) :
    extent (shiftTokens d ts) = (extent ts).shift d := by
  obtain ⟨t, us, rfl⟩ := List.exists_cons_of_ne_nil hts
  rw [extent, extent, shiftTokens, List.getLast?_map, List.getLast?_eq_some_getLast hts]
  rfl

/-- A row moves with its phrases. -/
theorem row_shift (d : Nat) (t : Token) (ps : List (Part Expr)) :
    shiftTokens d (row t ps)
      = row t (ps.map fun p => ⟨p.separator.shift d, shiftTokens d p.tokens, p.value.shift d⟩) := by
  induction ps generalizing t with
  | nil => rfl
  | cons p ps ih =>
    rw [row, List.map_cons, row, ← ih]
    simp [shiftTokens]

/-- A tree moves with its tokens. -/
theorem Placed.shift {k : Nat} {ts : List (Token × Span)} {e : Expr} (h : Placed k ts e) (d : Nat) :
    Placed k (shiftTokens d ts) (e.shift d) := by
  have hne := h.ne_nil
  induction h with
  | @conditional k cs ys ns ts c y n s s' hk hc hy hn hts ihc ihy ihn =>
    rw [Expr.shift, ← extent_shift d hne]
    have htokens := congrArg (shiftTokens d) hts
    simp only [shiftTokens_append, shiftTokens_cons] at htokens
    exact .conditional hk (ihc hc.ne_nil) (ihy hy.ne_nil) (ihn hn.ne_nil) htokens
  | @binary k ls rs ts l r s o hk hl hr hts ihl ihr =>
    rw [Expr.shift, ← extent_shift d hne]
    have htokens := congrArg (shiftTokens d) hts
    simp only [shiftTokens_append, shiftTokens_cons] at htokens
    exact .binary hk (ihl hl.ne_nil) (ihr hr.ne_nil) htokens
  | @signed k us ts e at_ s hk hu hts ih =>
    rw [Expr.shift, ← extent_shift d hne]
    have htokens := congrArg (shiftTokens d) hts
    rw [shiftTokens_cons] at htokens
    exact .signed hk (ih hu.ne_nil) htokens
  | infinity hk s at_ => exact .infinity hk s _
  | number hk x at_ => exact .number hk x _
  | nan hk at_ => exact .nan hk _
  | @group k us ts e s s' hk hu hts ih =>
    rw [Expr.shift_withSpan, ← extent_shift d hne]
    have htokens := congrArg (shiftTokens d) hts
    simp only [shiftTokens_append, shiftTokens_cons] at htokens
    exact .group hk (ih hu.ne_nil) htokens
  | @call k ps ts s s' a hk hnil hps hts ih =>
    rw [Expr.shift, ← extent_shift d hne, Expr.shiftAll_eq_map, List.map_map]
    have hcall := @Placed.call k
      (ps.map fun p => ⟨p.separator.shift d, shiftTokens d p.tokens, p.value.shift d⟩)
      (shiftTokens d ts) (s.shift d) (s'.shift d) a hk (by simpa using hnil)
      (by
        intro q hq
        obtain ⟨p, hp, rfl⟩ := List.mem_map.mp hq
        exact ih p hp (hps p hp).ne_nil)
      (by rw [hts, ← row_shift]; simp [shiftTokens])
    rwa [List.map_map] at hcall
  | @mention k ts m hk hts hm =>
    rw [Expr.shift, ← extent_shift d hne]
    refine .mention hk ?_ hm
    rw [← hts, shiftTokens, List.map_map]
    rfl

/-! ## Parts of a node -/

/-- The trees are placed one behind the other, each on tokens of its own. -/
inductive Spread : List (Token × Span) → List Expr → Prop where
  | nil (ts : List (Token × Span)) : Spread ts []
  | cons {ts us vs : List (Token × Span)} {e : Expr} {es : List Expr} (xs : List (Token × Span))
      (h : Placed 1 us e) (more : Spread vs es) (hts : ts = xs ++ (us ++ vs)) : Spread ts (e :: es)

namespace Spread

variable {ts us vs : List (Token × Span)} {es : List Expr}

/-- There may be more tokens in front. -/
theorem behind (h : Spread ts es) (us : List (Token × Span)) : Spread (us ++ ts) es := by
  cases h with
  | nil => exact .nil _
  | cons xs h more hts =>
    refine .cons (us ++ xs) h more ?_
    rw [hts, List.append_assoc]

/-- There may be more tokens behind. -/
theorem before (h : Spread ts es) (us : List (Token × Span)) : Spread (ts ++ us) es := by
  induction h with
  | nil => exact .nil _
  | cons xs h more hts ih =>
    refine .cons xs h ih ?_
    rw [hts, List.append_assoc, List.append_assoc]

/-- A single tree is placed on its own tokens. -/
theorem single {e : Expr} (h : Placed 1 ts e) : Spread ts [e] :=
  .cons [] h (.nil []) (by simp)

/-- The phrases of a row are placed one behind the other. -/
theorem row {t : Token} {ps : List (Part Expr)} (h : ∀ p ∈ ps, Placed 1 p.tokens p.value) :
    Spread (row t ps) (ps.map (·.value)) := by
  induction ps generalizing t with
  | nil => exact .nil _
  | cons p ps ih =>
    exact .cons [(t, p.separator)] (h p (by simp)) (ih fun q hq => h q (by simp [hq])) rfl

/-- In tokens that stand in order, the trees have spans in order. -/
theorem ordered {a b : Nat} (h : Spread ts es) (hts : Ordered a ts b) :
    (∀ e ∈ es, a ≤ e.span.start ∧ e.span.stop ≤ b)
      ∧ es.Pairwise fun c d => c.span.stop ≤ d.span.start := by
  induction h generalizing a with
  | nil => exact ⟨by simp, .nil⟩
  | @cons ts us vs e es xs h more heq ih =>
    subst heq
    obtain ⟨m₁, hxs, hrest⟩ := ordered_append.mp hts
    obtain ⟨m₂, hus, hvs⟩ := ordered_append.mp hrest
    obtain ⟨hstart, hlt, hstop, -⟩ := hus.extent h.ne_nil
    obtain ⟨hwithin, hpairs⟩ := ih hvs
    rw [← h.span_eq] at hstart hlt hstop
    have h₁ := hxs.le
    have h₂ := hvs.le
    refine ⟨?_, List.pairwise_cons.mpr ⟨fun d hd => ?_, hpairs⟩⟩
    · intro d hd
      rcases List.mem_cons.mp hd with rfl | hd
      · exact ⟨by omega, by omega⟩
      · obtain ⟨h₃, h₄⟩ := hwithin d hd
        exact ⟨by omega, h₄⟩
    · exact hstop.trans (hwithin d hd).1

/-- Each of the trees is placed on a piece of the tokens. -/
theorem mem {e : Expr} (h : Spread ts es) (he : e ∈ es) :
    ∃ xs us vs, ts = xs ++ (us ++ vs) ∧ Placed 1 us e := by
  induction h with
  | nil => exact nomatch he
  | @cons ts us vs d es xs h more hts ih =>
    rcases List.mem_cons.mp he with rfl | he
    · exact ⟨xs, us, vs, hts, h⟩
    · obtain ⟨xs', us', vs', rfl, hplaced⟩ := ih he
      refine ⟨xs ++ (us ++ xs'), us', vs', ?_, hplaced⟩
      rw [hts, List.append_assoc, List.append_assoc]

end Spread

/-- The parts of a node are placed on tokens of the node. -/
theorem Placed.spread {k : Nat} {ts : List (Token × Span)} {e : Expr} (h : Placed k ts e) :
    Spread ts e.children := by
  induction h with
  | conditional _ hc hy hn hts =>
    exact .cons [] (hc.weaken (by decide))
      ((Spread.cons [] hy ((Spread.single hn).behind [_]) rfl).behind [_]) hts
  | @binary _ _ _ _ _ _ _ o _ hl hr hts =>
    exact .cons [] (hl.weaken (by cases o <;> decide))
      ((Spread.single (hr.weaken (by cases o <;> decide))).behind [_]) hts
  | signed _ hu hts =>
    rw [hts]
    exact (Spread.single (hu.weaken (by decide))).behind [_]
  | infinity | number | nan | mention => exact .nil _
  | group _ _ hts ih =>
    rw [hts, Expr.children_withSpan]
    exact (ih.before [_]).behind [_]
  | call _ _ hps hts =>
    rw [hts]
    exact ((Spread.row hps).before [_]).behind [_]

/-- A node of a tree is placed on some of the tokens. -/
theorem Placed.node {ts : List (Token × Span)} {e n : Expr} (h : Placed 1 ts e) (hn : e.Node n) :
    ∃ xs us vs, ts = xs ++ (us ++ vs) ∧ Placed 1 us n := by
  induction hn generalizing ts with
  | root e => exact ⟨[], ts, [], by simp, h⟩
  | part hc _ ih =>
    obtain ⟨xs, us, vs, rfl, hplaced⟩ := h.spread.mem hc
    obtain ⟨xs', us', vs', rfl, hplaced'⟩ := ih hplaced
    exact ⟨xs ++ xs', us', vs' ++ vs, by simp only [List.append_assoc], hplaced'⟩

/-! ## Reading the text of a node -/

/-- The text in the span of some tokens is made of these tokens, also on its own. -/
theorem Located.slice {source : List Char} {c' : Cursor} {xs us vs : List (Token × Span)}
    (h : Located (.start source) (xs ++ (us ++ vs)) c') (hne : us ≠ []) :
    ∃ piece m, Text.slice? (extent us).start (extent us).stop source = some piece
      ∧ Located ((Cursor.start piece).shift (extent us).start) us m ∧ m.rest = [] := by
  obtain ⟨m₁, hxs, hmore⟩ := h.split
  obtain ⟨m₂, hus, hvs⟩ := hmore.split
  obtain ⟨u, us, rfl⟩ := List.exists_cons_of_ne_nil hne
  -- the tokens reach from `n₁` to `n₂`; the spacing on both sides is not in the extent
  obtain ⟨n₁, n₂, hgap, htight, hgap', hstart, hstop⟩ := hus.tight
  obtain ⟨front, hfront⟩ := (hxs.to_gap hgap).between
  obtain ⟨piece, hpiece⟩ := htight.between
  have hextent : extent (u :: us) = ⟨n₁.offset, n₂.offset⟩ := by
    rw [extent, List.getLast?_eq_some_getLast hne, hstart, hstop]
    rfl
  have hoffset : n₁.offset = Text.byteLength front := by
    rw [hfront.offset]
    exact Nat.zero_add _
  refine ⟨piece, ⟨n₂.offset, []⟩, ?_, ?_, rfl⟩
  · have htext : source = front ++ (piece ++ n₂.rest) := by
      rw [← hpiece.text]
      exact hfront.text
    rw [hextent, hpiece.offset, hoffset, htext]
    exact Text.slice?_append front piece n₂.rest
  · -- on its own the piece ends, as if a border stood there
    have hcut := htight.recut hpiece (.nil n₂) .nil (.inl rfl)
    rw [List.append_nil, List.append_nil] at hcut
    have hshift : (Cursor.start piece).shift n₁.offset = ⟨n₁.offset, piece⟩ :=
      congrArg (Cursor.mk · piece) (Nat.zero_add _)
    rw [hextent, hshift]
    exact hcut

/-- A text on its own that is placed somewhere is read as the tree that it is placed with. -/
theorem Placed.reads {piece : List Char} {d : Nat} {m : Cursor} {us : List (Token × Span)} {e : Expr}
    (h : Placed 1 us e) (hlocated : Located ((Cursor.start piece).shift d) us m) (hnil : m.rest = []) :
    ∃ e₀, Expr.ofText (String.ofList piece) = .ok e₀ ∧ e₀.shift d = e := by
  have hlexes : Lexes piece (us.map (·.1)) [] := hnil ▸ hlocated.lexes
  have hstart : (String.ofList piece).toList = piece := String.toList_ofList
  obtain ⟨e₀, c, hok, hbare⟩ :=
    (complete_expression_iff (s := String.ofList piece) (e := e)).mpr
      ⟨_, hstart.symm ▸ hlexes, h.derives⟩
  refine ⟨e₀, readText_ok_iff.mpr ⟨firstStray?_of_lexes (hstart.symm ▸ hlexes), c, hok⟩, ?_⟩
  rw [hstart] at hok
  obtain ⟨ts, hts, hend, hplaced⟩ := complete_sound expression_sound hok
  -- the text has one sequence of tokens, so reading has found the given ones
  have htokens : shiftTokens d ts = us := (hts.shift d).unique hlocated (hend.trans hnil.symm)
  exact (htokens ▸ hplaced.shift d).unique h (by rw [Expr.bare_shift, hbare])

/-- The text of a mention is read as the mention, and the span is all of the text. -/
theorem Located.reads_mention {piece : List Char} {m : Cursor} {us : List (Token × Span)}
    {mention : Mention} (h : Located ((Cursor.start piece).shift (extent us).start) us m)
    (hnil : m.rest = []) (htokens : us.map (·.1) = mention.tokens) :
    Mention.ofText (String.ofList piece) = .ok (mention, ⟨0, (extent us).length⟩) := by
  have hne : us ≠ [] := by
    rintro rfl
    exact nomatch htokens
  have hlexes : Lexes piece mention.tokens [] := htokens ▸ hnil ▸ h.lexes
  have hstart : (String.ofList piece).toList = piece := String.toList_ofList
  obtain ⟨⟨m', span⟩, offset, hok, rfl⟩ := soleMention_complete hlexes 0
  obtain ⟨ts, hts, hend, -, rfl⟩ := soleMention_ok hok
  have hshift : shiftTokens (extent us).start ts = us := (hts.shift _).unique h hnil.symm
  have hextent : (extent ts).shift (extent us).start = extent us := by
    rw [← extent_shift _ fun hts => hne (by rw [← hshift, hts]; rfl), hshift]
  rw [Span.eq_of_shift hextent] at hok
  exact readText_ok_iff.mpr
    ⟨firstStray?_of_lexes (hstart.symm ▸ hlexes), _, hstart.symm ▸ hok⟩

/-- A mention is placed on its tokens or in parentheses. -/
theorem Placed.mention_tokens {k : Nat} {us : List (Token × Span)} {s : Span} {m : Mention}
    (h : Placed k us (.mention s m)) :
    us.map (·.1) = m.tokens ∨ ∃ at_ vs, us = (.openParen, at_) :: vs := by
  generalize he : Expr.mention s m = e at h
  cases h with
  | mention _ hts _ =>
    obtain ⟨-, rfl⟩ := Expr.mention.inj he
    exact .inl hts
  | group _ _ hts => exact .inr ⟨_, _, hts⟩
  | _ => exact nomatch he

/-- The text of tokens that start with a parenthesis starts with it. -/
theorem Located.head_openParen {c m : Cursor} {at_ : Span} {us : List (Token × Span)}
    (h : Located c ((.openParen, at_) :: us) m) (hstart : c.offset = at_.start) :
    c.rest.head? = some '(' := by
  cases h with
  | token gap word next more =>
    obtain ⟨w, hw, -⟩ := gap
    obtain rfl := hw.eq_of_offset hstart
    obtain ⟨d, ds, hd, cs, hcs⟩ := next.starts.heads
    obtain ⟨rfl, -⟩ := List.cons.inj (Option.some.inj hcs)
    rw [hd]
    rfl

/-- A tree that is placed on some tokens of a source has an exact span. -/
theorem Placed.exact {source : List Char} {c' : Cursor} {xs us vs : List (Token × Span)} {e : Expr}
    (h : Placed 1 us e) (hlocated : Located (.start source) (xs ++ (us ++ vs)) c')
    (hnil : c'.rest = []) : e.Exact source := by
  obtain ⟨m₁, -, hmore⟩ := ordered_append.mp hlocated.ordered
  obtain ⟨m₂, hus, hvs⟩ := ordered_append.mp hmore
  obtain ⟨-, hlt, hle, hwithin⟩ := hus.extent h.ne_nil
  obtain ⟨w, hw⟩ := hlocated.between
  have hend := hw.at_end_iff.mp hnil
  obtain ⟨hcovers, hapart⟩ := h.spread.ordered hwithin
  obtain ⟨piece, m, hslice, hpiece, hm⟩ := hlocated.slice h.ne_nil
  obtain ⟨e₀, hok, hshift⟩ := h.reads hpiece hm
  rw [← h.span_eq] at hlt hle hcovers hslice hshift
  exact {
    nonempty := hlt
    inside := hend ▸ hle.trans hvs.le
    covers := hcovers
    apart := hapart
    reads := ⟨piece, e₀, hslice, hok, hshift⟩ }

end Grammar

open Grammar

/-- **Spans are exact.** In a definition that is read, the span of the target is not empty and stands
in front of the body, and the span of every node of the body is not empty, lies in the source, holds
the spans of the parts of the node, which do not overlap and stand in their order, and cuts out a text
that is read as the same node, with all spans moved to the start of the text. The text of the target,
and that of every mention that is not in parentheses, is read as that mention on its own. -/
theorem Assignment.spans_exact {source : String} {a : Assignment}
    (h : Assignment.ofText source = .ok a) :
    (a.targetSpan.start < a.targetSpan.stop ∧ a.targetSpan.stop ≤ a.body.span.start)
    ∧ (∀ n, a.body.Node n → n.Exact source.toList)
    ∧ (∃ piece, Text.slice? a.targetSpan.start a.targetSpan.stop source.toList = some piece
      ∧ Mention.ofText (String.ofList piece) = .ok (a.target, ⟨0, a.targetSpan.length⟩))
    ∧ ∀ s m, a.body.Node (.mention s m) →
      ∃ piece, Text.slice? s.start s.stop source.toList = some piece
        ∧ (piece.head? ≠ some '(' →
          Mention.ofText (String.ofList piece) = .ok (m, ⟨0, s.length⟩)) := by
  obtain ⟨-, c, hok⟩ := readText_ok_iff.mp h
  obtain ⟨ts, hlocated, hnil, ls, rs, at_, rfl, hls, hspan, hplaced⟩ := assignment_ok hok
  have hne : ls ≠ [] := by
    rintro rfl
    exact nomatch hls
  -- the tokens of a node of the body, among those of the source
  have hnode : ∀ n, a.body.Node n → ∃ xs us vs, Placed 1 us n
      ∧ Located (.start source.toList) (xs ++ (us ++ vs)) c := by
    intro n hn
    obtain ⟨xs, us, vs, rfl, hplaced'⟩ := hplaced.node hn
    refine ⟨ls ++ (.equals, at_) :: xs, us, vs, hplaced', ?_⟩
    simpa only [List.append_assoc, List.cons_append] using hlocated
  refine ⟨?_, fun n hn => ?_, ?_, fun s m hm => ?_⟩
  · obtain ⟨m₁, hfirst, hequals, hsign, hrest⟩ := ordered_append.mp hlocated.ordered
    obtain ⟨-, hlt, hle, -⟩ := hfirst.extent hne
    obtain ⟨hstart, -, -, -⟩ := hrest.extent hplaced.ne_nil
    rw [hspan, hplaced.span_eq]
    exact ⟨hlt, by omega⟩
  · obtain ⟨xs, us, vs, hplaced', hlocated'⟩ := hnode n hn
    exact hplaced'.exact hlocated' hnil
  · have hfront : Located _ ([] ++ (ls ++ (.equals, at_) :: rs)) c := hlocated
    obtain ⟨piece, m, hslice, hpiece, hm⟩ := hfront.slice hne
    rw [hspan]
    exact ⟨piece, hslice, hpiece.reads_mention hm hls⟩
  · obtain ⟨xs, us, vs, hplaced', hlocated'⟩ := hnode _ hm
    obtain ⟨piece, m', hslice, hpiece, hm'⟩ := hlocated'.slice hplaced'.ne_nil
    have hextent : s = extent us := hplaced'.span_eq
    rw [hextent]
    refine ⟨piece, hslice, fun hhead => ?_⟩
    rcases hplaced'.mention_tokens with htokens | ⟨at', us', rfl⟩
    · exact hpiece.reads_mention hm' htokens
    · exact absurd (hpiece.head_openParen (Nat.zero_add _)) hhead

/-- The parentheses belong to the span of the node in them. -/
theorem Assignment.spans_exact_group : ∃ a, Assignment.ofText "t = (a) * MAX(b, -c)" = .ok a
    ∧ a.body.children.map Expr.span = [⟨4, 7⟩, ⟨10, 20⟩]
    ∧ ∀ n, a.body.Node n → n.Exact "t = (a) * MAX(b, -c)".toList := by
  have hspans : (Assignment.ofText "t = (a) * MAX(b, -c)").toOption.any
      (fun a => a.body.children.map Expr.span == [⟨4, 7⟩, ⟨10, 20⟩]) = true := by
    decide +kernel
  cases h : Assignment.ofText "t = (a) * MAX(b, -c)" with
  | error r =>
    rw [h] at hspans
    exact nomatch hspans
  | ok a =>
    rw [h] at hspans
    exact ⟨a, rfl, by simpa [Except.toOption] using hspans, (Assignment.spans_exact h).2.1⟩

end DerivedStats
