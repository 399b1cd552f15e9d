import DerivedStats.Proofs.Grammar.Language
import DerivedStats.Proofs.Writing.Joining

/-!
# Nesting

What is open between two tokens: the parentheses and braces, and the first branches of conditionals,
with the innermost in front. A machine that reads tokens from left to right keeps track of it, and
stops at a token that cannot stand there, such as a comma that is caught in a group.

The tokens of a phrase pass and leave everything as it was (`Derives.keeps`). The tokens of a tree
with lists pass only if the tree fits, its commas are not outside of all calls, and no sign makes an
infinity of a part of a mention (`Expr.Written.nests`). So these are the trees with lists that are
read back (`Expr.Written.derives_iff`).
-/

namespace DerivedStats

open Grammar

/-- Something open: a group, the arguments of a call, the dimensions of a statistic, or the first
branch of a conditional. -/
inductive Frame where
  | group
  | call
  | braces
  | branch
deriving DecidableEq

/-- A comma can stand inside. -/
def Frame.admitsComma : Frame → Bool
  | call | braces => true
  | group | branch => false

/-- What is open, and whether the last token was a name. -/
structure Nesting where
  frames : List Frame
  named : Bool
deriving DecidableEq

namespace Nesting

/-- The nesting behind a token, if the token can stand there. -/
def advance (n : Nesting) : Token → Option Nesting
  | .name _ _ => some ⟨n.frames, true⟩
  | .number _ | .infinity _ | .quoted _ | .operator _ => some ⟨n.frames, false⟩
  | .openParen => some ⟨(if n.named then .call else .group) :: n.frames, false⟩
  | .openBrace => if n.named then some ⟨.braces :: n.frames, false⟩ else none
  | .question => some ⟨.branch :: n.frames, false⟩
  | .closeParen =>
    match n.frames with
    | .group :: fs | .call :: fs => some ⟨fs, false⟩
    | _ => none
  | .closeBrace =>
    match n.frames with
    | .braces :: fs => some ⟨fs, false⟩
    | _ => none
  | .colon =>
    match n.frames with
    | .branch :: fs => some ⟨fs, false⟩
    | .braces :: fs => some ⟨.braces :: fs, false⟩
    | _ => none
  | .comma => if n.frames.head?.any Frame.admitsComma then some ⟨n.frames, false⟩ else none
  | .equals | .point => none

/-- The nesting behind several tokens. -/
def advanceAll (n : Nesting) : List Token → Option Nesting
  | [] => some n
  | t :: ts => (n.advance t).bind fun m => m.advanceAll ts

/-- Tokens pass one part after the other. -/
theorem advanceAll_append (n : Nesting) (ts us : List Token) :
    n.advanceAll (ts ++ us) = (n.advanceAll ts).bind fun m => m.advanceAll us := by
  induction ts generalizing n with
  | nil => rfl
  | cons t ts ih =>
    rw [List.cons_append, advanceAll, advanceAll, Option.bind_assoc]
    simp only [ih]

theorem advanceAll_append_eq_some {n m : Nesting} {ts us : List Token} :
    n.advanceAll (ts ++ us) = some m ↔ ∃ k, n.advanceAll ts = some k ∧ k.advanceAll us = some m := by
  rw [advanceAll_append, Option.bind_eq_some_iff]

theorem advanceAll_cons_eq_some {n m : Nesting} {t : Token} {ts : List Token} :
    n.advanceAll (t :: ts) = some m ↔ ∃ k, n.advance t = some k ∧ k.advanceAll ts = some m := by
  rw [advanceAll, Option.bind_eq_some_iff]

theorem advanceAll_singleton (n : Nesting) (t : Token) : n.advanceAll [t] = n.advance t := by
  rw [advanceAll]
  cases n.advance t <;> rfl

/-- A comma passes where the innermost thing that is open admits it. -/
theorem advance_comma_eq_some {n m : Nesting} :
    n.advance .comma = some m ↔
      n.frames.head?.any Frame.admitsComma = true ∧ m = ⟨n.frames, false⟩ := by
  rw [advance]
  by_cases h : n.frames.head?.any Frame.admitsComma = true
  · rw [if_pos h, Option.some_inj, eq_comm]
    exact ⟨fun hm => ⟨h, hm⟩, fun hm => hm.2⟩
  · rw [if_neg h]
    constructor
    · intro hm
      cases hm
    · intro hm
      exact absurd hm.1 h

/-- The tokens pass, and what was open before them is open behind them. -/
def Keeps (fs : List Frame) (ts : List Token) : Prop :=
  ∃ named, advanceAll ⟨fs, false⟩ ts = some ⟨fs, named⟩

/-- Words with commas between them, where a comma can stand. -/
theorem keeps_intercalate {fs : List Frame} (hcomma : fs.head?.any Frame.admitsComma = true)
    {ls : List (List Token)} (h : ∀ l ∈ ls, Keeps fs l) :
    Keeps fs (List.intercalate [.comma] ls) := by
  induction ls with
  | nil => exact ⟨false, rfl⟩
  | cons l ls ih =>
    obtain ⟨named, hl⟩ := h l (by simp)
    by_cases hnil : ls = []
    · rw [hnil, List.intercalate_singleton]
      exact ⟨named, hl⟩
    · obtain ⟨named', hmore⟩ := ih fun l' hl' => h l' (by simp [hl'])
      refine ⟨named', ?_⟩
      rw [List.intercalate_cons_of_ne_nil hnil, List.append_assoc, advanceAll_append_eq_some]
      refine ⟨_, hl, advanceAll_cons_eq_some.mpr ⟨⟨fs, false⟩, ?_, hmore⟩⟩
      exact advance_comma_eq_some.mpr ⟨hcomma, rfl⟩

/-- A dimension passes between braces. -/
theorem keeps_dimension (fs : List Frame) (d : Dimension) : Keeps (.braces :: fs) d.tokens :=
  ⟨false, rfl⟩

/-- A mention passes everywhere. -/
theorem keeps_mention (fs : List Frame) (m : Mention) : Keeps fs m.tokens := by
  rw [Mention.tokens]
  split
  · exact ⟨true, rfl⟩
  · have hdimensions : Keeps (.braces :: fs)
        (List.intercalate [.comma] (m.dimensions.map Dimension.tokens)) :=
      keeps_intercalate rfl fun l hl => by
        obtain ⟨d, -, rfl⟩ := List.mem_map.mp hl
        exact keeps_dimension fs d
    obtain ⟨named, hdimensions⟩ := hdimensions
    refine ⟨false, ?_⟩
    rw [advanceAll_cons_eq_some]
    refine ⟨_, rfl, advanceAll_cons_eq_some.mpr ⟨_, rfl, ?_⟩⟩
    exact advanceAll_append_eq_some.mpr ⟨_, hdimensions, rfl⟩

end Nesting

open Nesting

/-- **A phrase leaves everything open as it was.** -/
theorem Grammar.Derives.keeps {k : Nat} {ts : List Token} {e : Expr} (h : Derives k ts e) :
    ∀ fs, Keeps fs ts := by
  induction h with
  | weaker _ ih => exact ih
  | conditional _ _ _ hc hy hn =>
    intro fs
    obtain ⟨_, hcondition⟩ := hc fs
    obtain ⟨_, hyes⟩ := hy (.branch :: fs)
    obtain ⟨named, hno⟩ := hn fs
    refine ⟨named, advanceAll_append_eq_some.mpr ⟨_, hcondition, advanceAll_cons_eq_some.mpr ?_⟩⟩
    refine ⟨_, rfl, advanceAll_append_eq_some.mpr ⟨_, hyes, advanceAll_cons_eq_some.mpr ?_⟩⟩
    exact ⟨_, rfl, hno⟩
  | binary o _ _ hl hr =>
    intro fs
    obtain ⟨_, hleft⟩ := hl fs
    obtain ⟨named, hright⟩ := hr fs
    refine ⟨named, advanceAll_append_eq_some.mpr ⟨_, hleft, ?_⟩⟩
    exact advanceAll_cons_eq_some.mpr ⟨_, rfl, hright⟩
  | signed s _ ih =>
    intro fs
    obtain ⟨named, h⟩ := ih fs
    refine ⟨named, advanceAll_cons_eq_some.mpr ⟨_, ?_, h⟩⟩
    cases s <;> rfl
  | infinity | number => exact fun fs => ⟨false, rfl⟩
  | nan => exact fun fs => ⟨true, rfl⟩
  | group _ ih =>
    intro fs
    obtain ⟨_, h⟩ := ih (.group :: fs)
    exact ⟨false, advanceAll_cons_eq_some.mpr ⟨_, rfl, advanceAll_append_eq_some.mpr ⟨_, h, rfl⟩⟩⟩
  | @call a arguments _ _ ih =>
    intro fs
    have harguments : Keeps (.call :: fs) (List.intercalate [.comma] (arguments.map (·.1))) :=
      keeps_intercalate rfl fun l hl => by
        obtain ⟨p, hp, rfl⟩ := List.mem_map.mp hl
        exact ih p hp (.call :: fs)
    obtain ⟨_, h⟩ := harguments
    refine ⟨false, advanceAll_cons_eq_some.mpr ⟨_, rfl, advanceAll_cons_eq_some.mpr ⟨_, rfl, ?_⟩⟩⟩
    exact advanceAll_append_eq_some.mpr ⟨_, h, rfl⟩
  | mention m _ => exact fun fs => keeps_mention fs m

namespace Expr

/-! ## The tokens of a tree with lists -/

/-- What is known of a tree whose tokens pass: a comma can stand around it if it spreads, and
everything open is left as it was. -/
structure Passes (e : Expr) (fs : List Frame) (n : Nesting) : Prop where
  fits : e.Fits
  signs : e.joined.signsInfinity = false
  comma : e.spreads = true → fs.head?.any Frame.admitsComma = true
  frames : n.frames = fs

/-- The tree is known wherever its tokens pass. -/
def Nests (e : Expr) : Prop :=
  ∀ fs n, advanceAll ⟨fs, false⟩ e.tokens = some n → e.Passes fs n

/-- No tree with commas passes where no comma can stand. -/
theorem Passes.spreads_eq_false {e : Expr} {fs : List Frame} {n : Nesting} (h : e.Passes fs n)
    (hfs : fs.head?.any Frame.admitsComma = false) : e.spreads = false :=
  Bool.eq_false_iff.mpr fun hs => Bool.false_ne_true (hfs.symm.trans (h.comma hs))

/-- A tree in a group does not spread. -/
theorem Nests.operand {e : Expr} (h : e.Nests) {needed : Bool} {fs : List Frame} {n : Nesting}
    (hrun : advanceAll ⟨fs, false⟩ (groupTokens needed e.tokens) = some n) :
    e.Passes fs n ∧ (needed = true → e.spreads = false) := by
  cases needed with
  | false => exact ⟨h fs n hrun, fun hneeded => absurd hneeded Bool.false_ne_true⟩
  | true =>
    obtain ⟨k, hk, hrun⟩ := advanceAll_cons_eq_some.mp hrun
    obtain rfl : ⟨.group :: fs, false⟩ = k := Option.some.inj hk
    obtain ⟨k, hinner, hclose⟩ := advanceAll_append_eq_some.mp hrun
    have hpasses := h _ _ hinner
    have hspreads := hpasses.spreads_eq_false rfl
    rw [advanceAll_singleton, advance, hpasses.frames] at hclose
    obtain rfl := Option.some.inj hclose
    exact ⟨⟨hpasses.fits, hpasses.signs, fun hs => absurd hs (by simp [hspreads]), rfl⟩,
      fun _ => hspreads⟩

/-- Trees with commas between them. -/
theorem nests_row {es : List Expr} (h : ∀ e ∈ es, e.Nests) {fs : List Frame} {n : Nesting}
    (hrun : advanceAll ⟨fs, false⟩ (List.intercalate [.comma] (es.map tokens)) = some n) :
    (∀ e ∈ es, ∃ m, e.Passes fs m) ∧ (2 ≤ es.length → fs.head?.any Frame.admitsComma = true)
      ∧ n.frames = fs := by
  induction es generalizing n with
  | nil =>
    obtain rfl := Option.some.inj hrun
    exact ⟨by simp, by simp, rfl⟩
  | cons e es ih =>
    by_cases hnil : es = []
    · rw [hnil, List.map_singleton, List.intercalate_singleton] at hrun
      have hpasses := h e (by simp) fs n hrun
      exact ⟨by simpa [hnil] using ⟨n, hpasses⟩, by simp [hnil], hpasses.frames⟩
    · rw [List.map_cons, List.intercalate_cons_of_ne_nil (by simpa using hnil), List.append_assoc,
        advanceAll_append_eq_some] at hrun
      obtain ⟨k, hfirst, hrun⟩ := hrun
      have hpasses := h e (by simp) fs k hfirst
      obtain ⟨k', hcomma, hmore⟩ := advanceAll_cons_eq_some.mp hrun
      obtain ⟨hadmits, rfl⟩ := advance_comma_eq_some.mp hcomma
      rw [hpasses.frames] at hadmits hmore
      obtain ⟨hmorepasses, -, hframes⟩ := ih (fun f hf => h f (by simp [hf])) hmore
      exact ⟨List.forall_mem_cons.mpr ⟨⟨k, hpasses⟩, hmorepasses⟩, fun _ => hadmits, hframes⟩

/-- If no joined tree signs a name of an infinity then none of them does. -/
theorem anySignsInfinity_joinedAll {es : List Expr} (h : ∀ e ∈ es, e.joined.signsInfinity = false) :
    anySignsInfinity (joinedAll es) = false := by
  rw [joinedAll_eq_map, anySignsInfinity_eq_any, List.any_map, List.any_eq_false]
  exact fun e he => Bool.eq_false_iff.mp (h e he)

/-- A number opens and closes nothing. -/
theorem frames_number {x : Float} {fs : List Frame} {n : Nesting}
    (h : advanceAll ⟨fs, false⟩ (Number.tokens x) = some n) : n.frames = fs := by
  unfold Number.tokens at h
  repeat' split at h
  all_goals
    obtain rfl := Option.some.inj h
    rfl

theorem nests_literal (s : Span) (v : Float) : (literal s v).Nests := fun _ _ hrun =>
  ⟨.literal s v, rfl, fun hs => absurd hs Bool.false_ne_true, frames_number hrun⟩

/-- A mention is known wherever its tokens pass. -/
theorem nests_mention (s : Span) (m : Mention) : (mention s m).Nests := by
  intro fs n hrun
  obtain ⟨named, hkeeps⟩ := keeps_mention fs m
  rw [tokens, hkeeps] at hrun
  obtain rfl := Option.some.inj hrun
  exact ⟨.mention s m, rfl, fun hs => absurd hs Bool.false_ne_true, rfl⟩

/-- Where a sign makes an infinity of a name, neither a point nor a brace can stand behind it. -/
theorem isInfinityWord_of_advanceAll {m : Mention} (hm : isInfinityName m.firstName = true)
    {o : Sign} {fs : List Frame} {n : Nesting}
    (hrun : advanceAll ⟨fs, false⟩ (signTokens o m.tokens) = some n) (s : Span) :
    (mention s m).isInfinityWord = true ∧ n.frames = fs := by
  obtain ⟨category, name, ds⟩ := m
  cases category with
  | some c =>
    rw [Mention.tokens, signTokens, if_pos (show isInfinityName c = true from hm)] at hrun
    cases hrun
  | none =>
    have hname : isInfinityName name = true := hm
    rw [Mention.tokens, signTokens, if_pos hname] at hrun
    cases ds with
    | cons d ds => cases hrun
    | nil =>
      obtain rfl := Option.some.inj hrun
      exact ⟨hname, rfl⟩

/-- A signed tree is known wherever its tokens pass, if the tree behind the sign is. -/
theorem Nests.signed {e : Expr} (h : e.Nests) {lists : Prop} (hwritten : e.Written lists) (s : Span)
    (o : Sign) : (signed s o e).Nests := by
  intro fs n hrun
  by_cases hmention : e.mentionsInfinity = true
  · cases hwritten with
    | @mention t m hm hnan =>
      obtain ⟨hword, hframes⟩ := isInfinityWord_of_advanceAll hmention hrun t
      refine ⟨.signed s o (.mention t m) fun _ => rfl, ?_,
        fun hs => absurd hs Bool.false_ne_true, hframes⟩
      rw [joined, if_pos hword]
      rfl
    | _ => exact absurd hmention Bool.false_ne_true
  · have hno := Bool.eq_false_iff.mpr hmention
    rw [tokens_signed hwritten hno] at hrun
    obtain ⟨k, hk, hrun⟩ := advanceAll_cons_eq_some.mp hrun
    obtain rfl : ⟨fs, false⟩ = k := by cases o <;> exact Option.some.inj hk
    obtain ⟨hpasses, hgroup⟩ := h.operand hrun
    refine ⟨.signed s o hpasses.fits fun hlt => hgroup (decide_eq_true hlt), ?_, hpasses.comma,
      hpasses.frames⟩
    rw [joined]
    split
    · rfl
    · rw [signsInfinity, mentionsInfinity_joined, hno, hpasses.signs]
      rfl

/-- An operator phrase is known wherever its tokens pass, if both sides are. -/
theorem Nests.binary {l r : Expr} (hl : l.Nests) (hr : r.Nests) (s : Span) (o : Operator) :
    (binary s l o r).Nests := by
  intro fs n hrun
  rw [tokens] at hrun
  obtain ⟨k, hleft, hmore⟩ := advanceAll_append_eq_some.mp hrun
  obtain ⟨hlpasses, hlgroup⟩ := hl.operand hleft
  obtain ⟨j, hj, hright⟩ := advanceAll_cons_eq_some.mp hmore
  obtain rfl := Option.some.inj hj
  rw [hlpasses.frames] at hright
  obtain ⟨hrpasses, hrgroup⟩ := hr.operand hright
  refine ⟨.binary s o hlpasses.fits hrpasses.fits (fun hlt => hlgroup (decide_eq_true hlt))
    (fun hle => hrgroup (decide_eq_true hle)), ?_, fun hs => ?_, hrpasses.frames⟩
  · rw [joined, signsInfinity, hlpasses.signs, hrpasses.signs]
    rfl
  · rw [spreads, Bool.or_eq_true] at hs
    exact hs.elim hlpasses.comma hrpasses.comma

/-- A conditional is known wherever its tokens pass, if its parts are. -/
theorem Nests.conditional {c y n : Expr} (hc : c.Nests) (hy : y.Nests) (hn : n.Nests) (s : Span) :
    (conditional s c y n).Nests := by
  intro fs m hrun
  rw [tokens] at hrun
  obtain ⟨k, hcondition, hmore⟩ := advanceAll_append_eq_some.mp hrun
  obtain ⟨hcpasses, hcgroup⟩ := hc.operand hcondition
  obtain ⟨j, hj, hbranches⟩ := advanceAll_cons_eq_some.mp hmore
  obtain rfl := Option.some.inj hj
  rw [hcpasses.frames] at hbranches
  obtain ⟨i, hyes, hmore⟩ := advanceAll_append_eq_some.mp hbranches
  have hypasses := hy _ _ hyes
  -- between the question mark and the colon no comma can stand
  have hbranch := hypasses.spreads_eq_false rfl
  obtain ⟨j, hj, hno⟩ := advanceAll_cons_eq_some.mp hmore
  rw [advance, hypasses.frames] at hj
  obtain rfl := Option.some.inj hj
  have hnpasses := hn _ _ hno
  refine ⟨.conditional s hcpasses.fits hypasses.fits hnpasses.fits
    (fun hle => hcgroup (decide_eq_true hle)) hbranch, ?_, fun hs => ?_, hnpasses.frames⟩
  · rw [joined, signsInfinity, hcpasses.signs, hypasses.signs, hnpasses.signs]
    rfl
  · rw [spreads, hbranch, Bool.or_false, Bool.or_eq_true] at hs
    exact hs.elim hcpasses.comma hnpasses.comma

/-- A call is known wherever its tokens pass, if its arguments are. -/
theorem nests_call {es : List Expr} (h : ∀ e ∈ es, e.Nests) (s : Span) (a : Aggregate) :
    (call s a es).Nests := by
  intro fs n hrun
  rw [tokens, tokensOf_eq_map] at hrun
  obtain ⟨k, hk, hmore⟩ := advanceAll_cons_eq_some.mp hrun
  obtain rfl := Option.some.inj hk
  obtain ⟨j, hj, hinner⟩ := advanceAll_cons_eq_some.mp hmore
  obtain rfl := Option.some.inj hj
  obtain ⟨i, harguments, hclose⟩ := advanceAll_append_eq_some.mp hinner
  obtain ⟨hpasses, -, hframes⟩ := nests_row h harguments
  rw [advanceAll_singleton, advance, hframes] at hclose
  obtain rfl := Option.some.inj hclose
  refine ⟨.call s a fun e he => ?_, ?_, fun hs => absurd hs Bool.false_ne_true, rfl⟩
  · obtain ⟨m, hm⟩ := hpasses e he
    exact hm.fits
  · rw [joined, signsInfinity]
    exact anySignsInfinity_joinedAll fun e he => (hpasses e he).elim fun _ hm => hm.signs

/-- A list is known wherever its tokens pass, if its elements are. -/
theorem nests_list {es : List Expr} (h : ∀ e ∈ es, e.Nests) (hlength : 2 ≤ es.length) (s : Span) :
    (list s es).Nests := by
  intro fs n hrun
  rw [tokens, tokensOf_eq_map] at hrun
  obtain ⟨hpasses, hcomma, hframes⟩ := nests_row h hrun
  refine ⟨.list s es, ?_, fun _ => hcomma hlength, hframes⟩
  rw [joined, signsInfinity]
  exact anySignsInfinity_joinedAll fun e he => (hpasses e he).elim fun _ hm => hm.signs

/-- **Where the tokens of a tree pass, the tree fits.** -/
theorem Written.nests {e : Expr} (h : e.Written True) : e.Nests := by
  induction h with
  | literal s v => exact nests_literal s v
  | mention s h hnan => exact nests_mention s _
  | signed s o hwritten ih => exact ih.signed hwritten s o
  | binary s o _ _ hl hr => exact hl.binary hr s o
  | conditional s _ _ _ hc hy hn => exact hc.conditional hy hn s
  | call s a _ _ ih => exact nests_call ih s a
  | list _ s hlength _ _ ih => exact nests_list ih hlength s

/-- If the tokens of a tree derive anything, then nothing is open around the tree, so it has no
commas of its own. -/
theorem Written.fits_of_derives {e d : Expr} (h : e.Written True)
    (hderives : Derives conditionalPrecedence e.tokens d) :
    e.Fits ∧ e.spreads = false ∧ e.joined.signsInfinity = false := by
  obtain ⟨named, hrun⟩ := hderives.keeps []
  have hpasses := h.nests [] _ hrun
  exact ⟨hpasses.fits, hpasses.spreads_eq_false rfl, hpasses.signs⟩

/-- The tokens of a tree that fits and has no commas of its own derive its only piece. -/
theorem Written.derives_piece {e : Expr} (h : e.Written True) (hfits : e.Fits)
    (hspreads : e.spreads = false) (hno : e.signsInfinity = false) :
    ∃ p, e.pieces = [p] ∧ Derives conditionalPrecedence e.tokens p.reading := by
  have hdivides := hfits.divides h hno
  obtain ⟨p, hp, -⟩ := hdivides.single hspreads
  have hmem : p ∈ e.pieces := by simp [hp]
  have htokens : e.tokens = p.tokens := by simpa [hp] using hdivides.tokens
  refine ⟨p, hp, ?_⟩
  rw [htokens]
  exact ((hdivides.written p hmem).derives (hdivides.signs p hmem)).weaken
    (Nat.le_min.mpr ⟨one_le_precedence p, by decide⟩)

/-- **The tokens of a tree with lists derive a tree** if and only if no comma is caught or left over
and no sign makes an infinity of a part of a mention. -/
theorem Written.derives_iff {e : Expr} (h : e.Written True) :
    (∃ d, Derives conditionalPrecedence e.tokens d) ↔
      e.Fits ∧ e.spreads = false ∧ e.joined.signsInfinity = false := by
  constructor
  · rintro ⟨d, hderives⟩
    exact h.fits_of_derives hderives
  · rintro ⟨hfits, hspreads, hno⟩
    obtain ⟨p, -, hderives⟩ :=
      h.joined.derives_piece hfits.joined ((spreads_joined e).trans hspreads) hno
    rw [tokens_joined] at hderives
    exact ⟨_, hderives⟩

/-- If a tree with lists is read back, then into the reading of its only piece. -/
theorem Written.piece_of_derives {e d : Expr} (h : e.Written True) (hclosed : e.isClosed = true)
    (hderives : Derives conditionalPrecedence e.tokens d) :
    e.Fits ∧ ∃ p, e.pieces = [p] ∧ d = p.reading := by
  obtain ⟨hfits, hspreads, -⟩ := h.fits_of_derives hderives
  obtain ⟨p, hp, hreading⟩ := h.derives_piece hfits hspreads (signsInfinity_of_isClosed hclosed)
  have hlexes := h.writes_text.lexes (.inl rfl)
  rw [List.append_nil] at hlexes
  exact ⟨hfits, p, hp, Derives.unique hlexes hderives hlexes hreading⟩

end Expr

end DerivedStats
