import DerivedStats.Proofs.Grammar.Placement
import Mathlib.Algebra.BigOperators.Ring.Finset
import Mathlib.Algebra.Order.BigOperators.Group.List
import Mathlib.Tactic.Ring

/-!
# One derivation

Located tokens derive a bare tree in one way at most: the trees with their spans are the same
(`Placed.unique`). Where the tokens are cut into the parts of a node is settled by counting. The
tokens other than parentheses are as many as the tree says (`Expr.symbols`), which fixes the cuts at
operators and separators. That the parentheses of a phrase are balanced tells a group from a phrase
that only starts and ends with groups, such as `(a) + (b)`. Both counts are the sum of weights
(`Token.weight`).
-/

namespace DerivedStats

namespace Expr

mutual

/-- The number of tokens besides parentheses that a tree is read from. -/
def symbols : Expr → Nat
  | literal _ _ => 1
  | mention _ m => m.tokens.length
  | signed _ _ e => e.symbols + 1
  | binary _ l _ r => l.symbols + r.symbols + 1
  | conditional _ c y n => c.symbols + y.symbols + n.symbols + 2
  | call _ _ es => symbolsOf es
  | list _ es => symbolsOf es

/-- The number for several trees, each with a name or a comma in front. -/
def symbolsOf : List Expr → Nat
  | [] => 0
  | e :: es => e.symbols + 1 + symbolsOf es

end

theorem symbolsOf_eq_sum (es : List Expr) : symbolsOf es = (es.map fun e => e.symbols + 1).sum := by
  induction es with
  | nil => rfl
  | cons e es ih => rw [symbolsOf, ih, List.map_cons, List.sum_cons]

/-- The part that a tree with an operator or a condition starts with. -/
def leading? : Expr → Option Expr
  | binary _ l _ _ => some l
  | conditional _ c _ _ => some c
  | _ => none

/-- A tree without parts is known up to its span from its bare tree. -/
theorem eq_of_literal {v : Float} {e : Expr} (h : e.bare = .literal .none v) :
    e = .literal e.span v := by
  cases e with
  | literal s w => exact congrArg _ (Expr.literal.inj h).2
  | _ => exact nomatch h

/-- A mention is known up to its span from its bare tree. -/
theorem eq_of_mention {m : Mention} {e : Expr} (h : e.bare = .mention .none m) :
    e = .mention e.span m := by
  cases e with
  | mention s n => exact congrArg _ (Expr.mention.inj h).2
  | _ => exact nomatch h

end Expr

namespace Grammar

/-! ## Weights -/

/-- Parentheses weigh `b` and `-b`, any other token weighs one. -/
def Token.weight (b : Int) : Token → Int
  | openParen => b
  | closeParen => -b
  | _ => 1

/-- The token is not a parenthesis. -/
def Token.Counts (t : Token) : Prop := ∀ b, t.weight b = 1

/-- If parentheses weigh nothing then no token weighs less. -/
theorem Token.weight_zero_nonneg (t : Token) : 0 ≤ t.weight 0 := by
  cases t <;> simp [Token.weight]

/-- The weight of several tokens. -/
def weightOf (b : Int) (ts : List Token) : Int := (ts.map (Token.weight b)).sum

@[simp] theorem weightOf_nil (b : Int) : weightOf b [] = 0 := rfl

@[simp] theorem weightOf_cons (b : Int) (t : Token) (ts : List Token) :
    weightOf b (t :: ts) = t.weight b + weightOf b ts := by
  rw [weightOf, List.map_cons, List.sum_cons, weightOf]

@[simp] theorem weightOf_append (b : Int) (ts us : List Token) :
    weightOf b (ts ++ us) = weightOf b ts + weightOf b us := by
  rw [weightOf, List.map_append, List.sum_append, weightOf, weightOf]

/-- If parentheses weigh nothing then tokens do not weigh less. -/
theorem weightOf_zero_nonneg (ts : List Token) : 0 ≤ weightOf 0 ts := by
  refine List.sum_nonneg fun w hw => ?_
  obtain ⟨t, -, rfl⟩ := List.mem_map.mp hw
  exact t.weight_zero_nonneg

/-- So many opening parentheses weigh so many times as much. -/
theorem weightOf_replicate_openParen (b : Int) (n : Nat) :
    weightOf b (List.replicate n .openParen) = n * b := by
  induction n with
  | zero => simp
  | succ n ih =>
    rw [List.replicate_succ, weightOf_cons, ih, Token.weight]
    push_cast
    ring

/-- Without parentheses the weight is the number of tokens. -/
theorem weightOf_eq_length {ts : List Token} (h : ∀ t ∈ ts, t.Counts) (b : Int) :
    weightOf b ts = ts.length := by
  induction ts with
  | nil => rfl
  | cons t ts ih =>
    rw [weightOf_cons, ih fun u hu => h u (by simp [hu]), h t (by simp), List.length_cons]
    push_cast
    ring

/-- With one more in front, a list with commas weighs one more than each of its items. -/
theorem weightOf_intercalate (b : Int) {ls : List (List Token)} (hne : ls ≠ []) :
    1 + weightOf b (List.intercalate [.comma] ls) = (ls.map fun l => weightOf b l + 1).sum := by
  induction ls with
  | nil => exact absurd rfl hne
  | cons l ls ih =>
    by_cases hnil : ls = []
    · subst hnil
      simp [add_comm]
    · rw [List.intercalate_cons_of_ne_nil hnil, List.map_cons, List.sum_cons, ← ih hnil]
      simp only [weightOf_append, weightOf_cons, weightOf_nil, Token.weight]
      ring

/-- There are no parentheses in a mention. -/
theorem counts_mention {m : Mention} : ∀ t ∈ m.tokens, t.Counts := by
  intro t ht
  rcases Mention.mem_tokens ht with ⟨k, n, rfl⟩ | ⟨v, rfl⟩ | ht
  · exact fun b => rfl
  · exact fun b => rfl
  · simp only [List.mem_cons, List.not_mem_nil, or_false] at ht
    rcases ht with rfl | rfl | rfl | rfl <;> exact fun b => rfl

/-- What derives a tree weighs as much as the tree has symbols: its parentheses are balanced, and its
other tokens are as many as the tree says. -/
theorem Derives.weightOf_eq {k : Nat} {ts : List Token} {e : Expr} (h : Derives k ts e) (b : Int) :
    weightOf b ts = e.symbols := by
  induction h with
  | weaker _ ih => exact ih
  | conditional _ _ _ hc hy hn =>
    simp only [weightOf_append, weightOf_cons, hc, hy, hn, Token.weight, Expr.symbols]
    push_cast
    ring
  | binary o _ _ hl hr =>
    simp only [weightOf_append, weightOf_cons, hl, hr, Token.weight, Expr.symbols]
    push_cast
    ring
  | signed s _ ih =>
    have hsign : (Token.ofSign s).weight b = 1 := by cases s <;> rfl
    rw [weightOf_cons, ih, hsign, Expr.symbols]
    push_cast
    ring
  | infinity | number | nan => rfl
  | group _ ih =>
    simp only [weightOf_append, weightOf_cons, weightOf_nil, ih, Token.weight]
    ring
  | @call a arguments hne _ ih =>
    have hitems : ((arguments.map (·.1)).map fun l => weightOf b l + 1).sum
        = (Expr.symbolsOf (arguments.map (·.2)) : Int) := by
      rw [Expr.symbolsOf_eq_sum, List.map_map, List.map_map, Nat.cast_list_sum, List.map_map]
      refine congrArg List.sum (List.map_congr_left fun p hp => ?_)
      simp [ih p hp]
    have hne' : arguments.map (·.1) ≠ [] := by simpa using hne
    have hcommas := weightOf_intercalate b hne'
    rw [hitems] at hcommas
    simp only [weightOf_append, weightOf_cons, weightOf_nil, Token.weight, Expr.symbols, ← hcommas]
    ring
  | mention m _ => exact weightOf_eq_length counts_mention b

/-! ## Cuts -/

/-- Where a token that counts stands, the weight of what is in front of it tells the place. -/
theorem cut_unique {ls ls' rs rs' : List Token} {x x' : Token} (h : ls ++ x :: rs = ls' ++ x' :: rs')
    (hx : x.Counts) (hx' : x'.Counts) (hweight : weightOf 0 ls = weightOf 0 ls') : ls = ls' := by
  -- a cut further on would have the token of the first one in front of it
  have hlater : ∀ {as bs cs : List Token} {y : Token}, y.Counts → as ++ y :: bs <+: cs →
      weightOf 0 as < weightOf 0 cs := by
    rintro as bs cs y hy ⟨ds, rfl⟩
    have h₁ := weightOf_zero_nonneg bs
    have h₂ := weightOf_zero_nonneg ds
    simp only [weightOf_append, weightOf_cons, hy 0]
    omega
  rcases List.append_eq_append_iff.mp h with ⟨as, hls', has⟩ | ⟨as, hls, has⟩
  · cases as with
    | nil => simpa using hls'.symm
    | cons a as =>
      obtain ⟨rfl, -⟩ := List.cons.inj has
      exact absurd hweight (ne_of_lt (hlater hx ⟨[], by rw [List.append_nil, hls']⟩))
  · cases as with
    | nil => simpa using hls
    | cons a as =>
      obtain ⟨rfl, -⟩ := List.cons.inj has
      exact absurd hweight.symm (ne_of_lt (hlater hx' ⟨[], by rw [List.append_nil, hls]⟩))

/-- A phrase with an operator or a condition starts with the tokens of its first part, behind the
parentheses of all groups that it is in. -/
theorem Derives.leading {k : Nat} {ts : List Token} {e f : Expr} (h : Derives k ts e)
    (hf : e.leading? = some f) :
    ∃ n j ls x rs, ts = List.replicate n .openParen ++ (ls ++ x :: rs) ∧ x.Counts ∧ Derives j ls f := by
  induction h with
  | weaker _ ih => exact ih hf
  | conditional hc _ _ =>
    obtain rfl := Option.some.inj hf
    exact ⟨0, _, _, _, _, rfl, fun b => rfl, hc⟩
  | binary o hl _ =>
    obtain rfl := Option.some.inj hf
    exact ⟨0, _, _, _, _, rfl, fun b => rfl, hl⟩
  | group _ ih =>
    obtain ⟨n, j, ls, x, rs, rfl, hx, hls⟩ := ih hf
    exact ⟨n + 1, j, ls, x, rs ++ [.closeParen], by simp [List.replicate_succ], hx, hls⟩
  | _ => exact nomatch hf

/-- A phrase in parentheses is not cut within the parentheses. -/
theorem Derives.group_ne_cut {j k : Nat} {us ls rs : List Token} {x : Token} {e f : Expr}
    (h : Derives j us e) (hf : e.leading? = some f) (hls : Derives k ls f) (hx : x.Counts) :
    .openParen :: (us ++ [.closeParen]) ≠ ls ++ x :: rs := by
  intro heq
  obtain ⟨n, i, ls', y, rs', rfl, hy, hls'⟩ := h.leading hf
  have hends : (List.replicate (n + 1) .openParen ++ ls') ++ y :: (rs' ++ [.closeParen])
      = ls ++ x :: rs := by
    rw [← heq]
    simp [List.replicate_succ]
  have hcut : List.replicate (n + 1) .openParen ++ ls' = ls := by
    refine cut_unique hends hy hx ?_
    rw [weightOf_append, weightOf_replicate_openParen, hls'.weightOf_eq, hls.weightOf_eq]
    simp
  have hbalance := hls.weightOf_eq 1
  rw [← hcut, weightOf_append, weightOf_replicate_openParen, hls'.weightOf_eq] at hbalance
  push_cast at hbalance
  omega

/-! ## Places -/

/-- The cut of located tokens at the end of a first part. -/
theorem Placed.cut_unique {j k : Nat} {ls ls' rs rs' : List (Token × Span)} {x x' : Token × Span}
    {l l' : Expr} (h : Placed k ls l) (h' : Placed j ls' l') (hbare : l.bare = l'.bare)
    (heq : ls ++ x :: rs = ls' ++ x' :: rs') (hx : x.1.Counts) (hx' : x'.1.Counts) :
    ls = ls' ∧ rs = rs' := by
  have htokens := congrArg (List.map (·.1)) heq
  rw [List.map_append, List.map_append, List.map_cons, List.map_cons] at htokens
  have hmap := Grammar.cut_unique htokens hx hx' (by
    rw [h.derives.weightOf_eq, h'.derives.weightOf_eq, hbare])
  have hlength : ls.length = ls'.length := by simpa using congrArg List.length hmap
  obtain ⟨rfl, hrest⟩ := List.append_inj heq hlength
  exact ⟨rfl, (List.cons.inj hrest).2⟩

/-- A phrase in parentheses is none with an operator or a condition outside of all parentheses. -/
theorem Placed.group_ne_cut {j k : Nat} {us ls rs : List (Token × Span)} {s s' : Span}
    {x : Token × Span} {e l : Expr} (h : Placed j us e) (hl : Placed k ls l)
    (hleading : e.bare.leading? = some l.bare) (hx : x.1.Counts) :
    (.openParen, s) :: (us ++ [(.closeParen, s')]) ≠ ls ++ x :: rs := by
  intro heq
  have htokens : .openParen :: (us.map (·.1) ++ [.closeParen])
      = ls.map (·.1) ++ x.1 :: rs.map (·.1) := by
    simpa using congrArg (List.map (·.1)) heq
  exact h.derives.group_ne_cut hleading hl.derives hx htokens

/-- Phrases in a row are the same if they are the same up to spans, provided that this is so for each
single one. -/
theorem row_unique {t : Token} {ps ps' : List (Part Expr)} {u u' : Token × Span}
    (h : ∀ p ∈ ps, Placed 1 p.tokens p.value
      ∧ ∀ {j : Nat} {d : Expr}, Placed j p.tokens d → p.value.bare = d.bare → p.value = d)
    (h' : ∀ p ∈ ps', Placed 1 p.tokens p.value)
    (hbare : (ps.map (·.value)).map Expr.bare = (ps'.map (·.value)).map Expr.bare)
    (heq : row t ps ++ [u] = row t ps' ++ [u']) : ps.map (·.value) = ps'.map (·.value) := by
  induction ps generalizing t ps' with
  | nil =>
    cases ps' with
    | nil => rfl
    | cons p' ps' => exact nomatch hbare
  | cons p ps ih =>
    cases ps' with
    | nil => exact nomatch hbare
    | cons p' ps' =>
      obtain ⟨hp, hps⟩ := List.cons.inj hbare
      obtain ⟨hplaced, hunique⟩ := h p (by simp)
      have hplaced' := h' p' (by simp)
      simp only [row, List.cons_append, List.append_assoc] at heq
      have htail := (List.cons.inj heq).2
      -- a comma behind the first phrase shows where it ends; without one it is the last
      have hparts : p.tokens = p'.tokens ∧ row .comma ps ++ [u] = row .comma ps' ++ [u'] := by
        cases ps with
        | nil =>
          cases ps' with
          | nil => exact ⟨(List.append_inj' htail rfl).1, (List.append_inj' htail rfl).2⟩
          | cons q' qs' => exact nomatch hps
        | cons q qs =>
          cases ps' with
          | nil => exact nomatch hps
          | cons q' qs' =>
            obtain ⟨htokens, -⟩ := hplaced.cut_unique hplaced' hp htail (fun b => rfl) fun b => rfl
            refine ⟨htokens, ?_⟩
            rw [htokens] at htail
            exact List.append_cancel_left htail
      have hvalue : p.value = p'.value := hunique (hparts.1 ▸ hplaced') hp
      rw [List.map_cons, List.map_cons, hvalue,
        ih (fun q hq => h q (by simp [hq])) (fun q hq => h' q (by simp [hq])) hps hparts.2]

/-- Located tokens derive a bare tree with one choice of spans. -/
theorem Placed.unique {j k : Nat} {ts : List (Token × Span)} {e d : Expr} (h : Placed k ts e)
    (h' : Placed j ts d) (hbare : e.bare = d.bare) : e = d := by
  induction h generalizing j d with
  | conditional _ hc hy hn hts ihc ihy ihn =>
    cases h' with
    -- the bare parts are the same, so the tokens are cut at the same places
    | conditional _ hc' hy' hn' hts' =>
      obtain ⟨-, hbc, hby, hbn⟩ := Expr.conditional.inj hbare
      have heq := hts.symm.trans hts'
      obtain ⟨rfl, hmore⟩ := hc.cut_unique hc' hbc heq (fun b => rfl) fun b => rfl
      obtain ⟨rfl, rfl⟩ := hy.cut_unique hy' hby hmore (fun b => rfl) fun b => rfl
      rw [ihc hc' hbc, ihy hy' hby, ihn hn' hbn]
    -- the group would be cut inside of its parentheses
    | group _ hu hts' =>
      rw [Expr.bare_withSpan] at hbare
      exact absurd (hts'.symm.trans hts) (hu.group_ne_cut hc (by rw [← hbare]; rfl) fun b => rfl)
    | _ => exact nomatch hbare
  | binary _ hl hr hts ihl ihr =>
    cases h' with
    | binary _ hl' hr' hts' =>
      obtain ⟨-, hbl, rfl, hbr⟩ := Expr.binary.inj hbare
      obtain ⟨rfl, rfl⟩ :=
        hl.cut_unique hl' hbl (hts.symm.trans hts') (fun b => rfl) fun b => rfl
      rw [ihl hl' hbl, ihr hr' hbr]
    | group _ hu hts' =>
      rw [Expr.bare_withSpan] at hbare
      exact absurd (hts'.symm.trans hts) (hu.group_ne_cut hl (by rw [← hbare]; rfl) fun b => rfl)
    | _ => exact nomatch hbare
  | @signed _ _ _ _ _ s _ hu hts ih =>
    cases h' with
    | signed _ hu' hts' =>
      obtain ⟨-, rfl, hb⟩ := Expr.signed.inj hbare
      obtain ⟨-, rfl⟩ := List.cons.inj (hts.symm.trans hts')
      rw [ih hu' hb]
    | group _ hu' hts' =>
      have hsign := (Prod.mk.inj (List.cons.inj (hts.symm.trans hts')).1).1
      cases s <;> exact nomatch hsign
    | _ => exact nomatch hbare
  -- a bare tree without parts leaves only the span open, which is that of all tokens
  | infinity | number | nan =>
    rw [Expr.eq_of_literal hbare.symm, h'.span_eq]
    rfl
  | mention _ hts _ => rw [Expr.eq_of_mention hbare.symm, h'.span_eq]
  | group _ hu hts ih =>
    rw [Expr.bare_withSpan] at hbare
    cases h' with
    | conditional _ hc' _ _ hts' =>
      exact absurd (hts.symm.trans hts') (hu.group_ne_cut hc' (by rw [hbare]; rfl) fun b => rfl)
    | binary _ hl' _ hts' =>
      exact absurd (hts.symm.trans hts') (hu.group_ne_cut hl' (by rw [hbare]; rfl) fun b => rfl)
    | @signed _ _ _ _ _ s _ _ hts' =>
      have hsign := (Prod.mk.inj (List.cons.inj (hts.symm.trans hts')).1).1
      cases s <;> exact nomatch hsign
    | group _ hu' hts' =>
      rw [Expr.bare_withSpan] at hbare
      obtain ⟨-, htail⟩ := List.cons.inj (hts.symm.trans hts')
      obtain ⟨rfl, -⟩ := List.append_inj' htail rfl
      rw [ih hu' hbare]
    | call _ _ _ hts' => exact nomatch hts.symm.trans hts'
    | mention _ hts' _ =>
      rw [hts] at hts'
      exact nomatch hts'
    | _ => exact nomatch hts
  | call _ hne hps hts ih =>
    cases h' with
    | call _ hne' hps' hts' =>
      obtain ⟨-, rfl, hb⟩ := Expr.call.inj hbare
      rw [Expr.baresOf_eq_map, Expr.baresOf_eq_map] at hb
      obtain ⟨-, htail⟩ := List.cons.inj (hts.symm.trans hts')
      rw [row_unique (fun p hp => ⟨hps p hp, fun hd hpd => ih p hp hd hpd⟩) hps' hb htail]
    | group _ hu' hts' => exact nomatch hts.symm.trans hts'
    | _ => exact nomatch hbare

end Grammar

end DerivedStats
