import DerivedStats.Proofs.Writing.Pieces

/-!
# Signs that are joined with a name

A sign directly in front of the name of an infinity makes one word with it once the tree is written.
If the mention is nothing but this name, then the word is that of an infinite number, and the tree
is written like the one that has the number in its place (`Expr.joined`, `Expr.tokens_joined`). What
is left in the joined tree of signs in front of such names are those with a point or a brace behind
the name, which no phrase has behind a number.
-/

namespace DerivedStats

open Grammar

/-- An infinite number is written as a single token. -/
theorem Number.tokens_infinity (o : Sign) : tokens o.infinity = [.infinity o] := by
  have hnan : o.infinity.isNaN = false := by cases o <;> decide +kernel
  have hinf : o.infinity.isInf = true := by cases o <;> decide +kernel
  rw [tokens, hnan, hinf]
  cases o with
  | plus => rw [show isNegative Sign.plus.infinity = false by decide +kernel]; rfl
  | minus => rw [show isNegative Sign.minus.infinity = true by decide +kernel]; rfl

namespace Expr

/-- The expression is a mention that is nothing but the name of an infinity. -/
def isInfinityWord : Expr → Bool
  | mention _ m => m.category.isNone && m.dimensions.isEmpty && isInfinityName m.name
  | _ => false

mutual

/-- The tree with each sign directly in front of the bare name of an infinity joined with it. -/
def joined : Expr → Expr
  | literal s v => literal s v
  | mention s m => mention s m
  | signed s o e => if e.isInfinityWord then literal s o.infinity else signed s o e.joined
  | binary s l o r => binary s l.joined o r.joined
  | conditional s c y n => conditional s c.joined y.joined n.joined
  | call s a es => call s a (joinedAll es)
  | list s es => list s (joinedAll es)

/-- The joined trees. -/
def joinedAll : List Expr → List Expr
  | [] => []
  | e :: es => e.joined :: joinedAll es

end

theorem joinedAll_eq_map (es : List Expr) : joinedAll es = es.map joined := by
  induction es with
  | nil => simp [joinedAll]
  | cons e es ih => simp [joinedAll, ih]

/-- The bare name of an infinity is a mention without category and dimensions. -/
theorem exists_of_isInfinityWord {e : Expr} (h : e.isInfinityWord = true) :
    ∃ s n, e = mention s ⟨none, n, []⟩ ∧ isInfinityName n = true := by
  cases e with
  | mention s m =>
    obtain ⟨category, n, ds⟩ := m
    rw [isInfinityWord, Bool.and_eq_true, Bool.and_eq_true, Option.isNone_iff_eq_none,
      List.isEmpty_iff] at h
    obtain ⟨⟨rfl, rfl⟩, hn⟩ := h
    exact ⟨s, n, rfl, hn⟩
  | _ => exact nomatch h

/-- A joined tree takes parentheses where the tree does. -/
theorem min_precedence_joined (e : Expr) : min e.joined.precedence 8 = min e.precedence 8 := by
  cases e with
  | signed s o e =>
    rw [joined]
    split
    · rw [precedence]
      split <;> rfl
    · rfl
  | _ => rfl

/-- Up to the level of signs, a joined tree binds weaker than a level if the tree does. -/
theorem precedence_joined_lt {k : Nat} (e : Expr) (hk : k ≤ 8) :
    e.joined.precedence < k ↔ e.precedence < k := by
  have := min_precedence_joined e
  omega

/-- Below the level of signs, a joined tree binds no stronger than a level if the tree does not. -/
theorem precedence_joined_le {k : Nat} (e : Expr) (hk : k < 8) :
    e.joined.precedence ≤ k ↔ e.precedence ≤ k := by
  have := min_precedence_joined e
  omega

theorem mentionsInfinity_joined (e : Expr) : e.joined.mentionsInfinity = e.mentionsInfinity := by
  cases e with
  | signed s o e =>
    rw [joined]
    split <;> rfl
  | _ => rfl

theorem spreads_joined (e : Expr) : e.joined.spreads = e.spreads := by
  induction e using induction_parts with
  | literal | mention | call | list => rfl
  | signed s o e ih =>
    rw [joined]
    split
    · next h =>
      obtain ⟨t, n, rfl, -⟩ := exists_of_isInfinityWord h
      rfl
    · rw [spreads, spreads, ih]
  | binary s l o r hl hr => rw [joined, spreads, spreads, hl, hr]
  | conditional s c y n hc hy hn => rw [joined, spreads, spreads, hc, hy, hn]

/-- **A joined tree is written like the tree.** -/
theorem tokens_joined (e : Expr) : e.joined.tokens = e.tokens := by
  have hrow : ∀ {es : List Expr}, (∀ e ∈ es, e.joined.tokens = e.tokens) →
      tokensOf (joinedAll es) = tokensOf es := by
    intro es hes
    rw [joinedAll_eq_map, tokensOf_eq_map, tokensOf_eq_map, List.map_map]
    exact List.map_congr_left hes
  induction e using induction_parts with
  | literal | mention => rfl
  | signed s o e ih =>
    rw [joined]
    split
    · next h =>
      obtain ⟨t, n, rfl, hn⟩ := exists_of_isInfinityWord h
      rw [tokens, Number.tokens_infinity]
      exact (if_pos hn).symm
    · have hneeded := precedence_joined_lt e (show signPrecedence ≤ 8 from Nat.le_refl 8)
      rw [tokens, tokens, ih, decide_eq_decide.mpr hneeded]
  | binary s l o r hl hr =>
    have hlt : o.precedence < 8 := o.precedence_lt_sign
    have hleft := precedence_joined_lt l (Nat.le_of_lt hlt)
    have hright := precedence_joined_le r hlt
    rw [joined, tokens, tokens, hl, hr, decide_eq_decide.mpr hleft, decide_eq_decide.mpr hright]
  | conditional s c y n hc hy hn =>
    have hneeded := precedence_joined_le c (show conditionalPrecedence < 8 by decide)
    rw [joined, tokens, tokens, hc, hy, hn, decide_eq_decide.mpr hneeded]
  | call s a es ih | list s es ih => rw [joined, tokens, tokens, hrow ih]

theorem IsConstant.joined_eq {e : Expr} (h : e.IsConstant) : e.joined = e := by
  cases h with
  | literal => rfl
  | negative => rfl

/-- A joined tree can be written. -/
theorem Written.joined {lists : Prop} {e : Expr} (h : e.Written lists) : e.joined.Written lists := by
  induction h with
  | literal s v => exact .literal s v
  | mention s h hnan => exact .mention s h hnan
  | signed s o _ ih =>
    rw [Expr.joined]
    split
    · exact .literal _ _
    · exact .signed s o ih
  | binary s o _ _ hl hr => exact .binary s o hl hr
  | conditional s _ _ _ hc hy hn => exact .conditional s hc hy hn
  | call s a hne _ ih =>
    rw [Expr.joined, joinedAll_eq_map]
    exact .call s a (by simpa using hne) (List.forall_mem_map.mpr ih)
  | @list hlists s es hlength hconstant h ih =>
    have hsame : es.map Expr.joined = es :=
      (List.map_congr_left fun e he => (hconstant e he).joined_eq).trans (List.map_id' es)
    rw [Expr.joined, joinedAll_eq_map, hsame]
    exact .list hlists s hlength hconstant h

/-- A joined tree fits if the tree does. -/
theorem Fits.joined {e : Expr} (h : e.Fits) : e.joined.Fits := by
  induction h with
  | literal s v => exact .literal s v
  | mention s m => exact .mention s m
  | @signed s o e _ hgroup ih =>
    rw [Expr.joined]
    split
    · exact .literal _ _
    · refine .signed s o ih fun hlt => ?_
      rw [spreads_joined]
      exact hgroup ((precedence_joined_lt e (Nat.le_refl 8)).mp hlt)
  | @binary s o l r _ _ hleft hright hl hr =>
    have hlt := o.precedence_lt_sign
    refine .binary s o hl hr (fun hl => ?_) fun hr => ?_
    · rw [spreads_joined]
      exact hleft ((precedence_joined_lt l (Nat.le_of_lt hlt)).mp hl)
    · rw [spreads_joined]
      exact hright ((precedence_joined_le r hlt).mp hr)
  | @conditional s c y n _ _ _ hgroup hbranch hc hy hn =>
    refine .conditional s hc hy hn (fun hle => ?_) ?_
    · rw [spreads_joined]
      exact hgroup ((precedence_joined_le c (by decide)).mp hle)
    · rw [spreads_joined]
      exact hbranch
  | call s a _ ih =>
    rw [Expr.joined, joinedAll_eq_map]
    exact .call s a (List.forall_mem_map.mpr ih)
  | list s es => exact .list s _

end Expr

end DerivedStats
