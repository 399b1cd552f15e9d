import DerivedStats.Proofs.Writing.Tokens

/-!
# What a written tree is read back as

The tokens of a written tree derive the tree again (`Expr.Written.derives`): the parentheses that
the written form has are the ones that the levels of the grammar call for. There are two
differences. A negative number comes back as a sign and its magnitude (`Expr.reading`), and a sign
directly in front of a statistic whose first name is that of an infinity does not come back at all
(`Expr.signsInfinity`).
-/

namespace DerivedStats

open Grammar

/-! ## Signs in front of the name of an infinity -/

namespace Expr

/-- The expression is a mention whose first name is that of an infinity. -/
def mentionsInfinity : Expr → Bool
  | mention _ m => isInfinityName m.firstName
  | _ => false

mutual

/-- Somewhere in the tree a sign stands directly in front of a mention whose first name is that of an
infinity. -/
def signsInfinity : Expr → Bool
  | literal _ _ | mention _ _ => false
  | signed _ _ e => e.mentionsInfinity || e.signsInfinity
  | binary _ l _ r => l.signsInfinity || r.signsInfinity
  | conditional _ c y n => c.signsInfinity || y.signsInfinity || n.signsInfinity
  | call _ _ es | list _ es => anySignsInfinity es

/-- One of the trees has such a sign. -/
def anySignsInfinity : List Expr → Bool
  | [] => false
  | e :: es => e.signsInfinity || anySignsInfinity es

end

theorem anySignsInfinity_eq_any (es : List Expr) : anySignsInfinity es = es.any signsInfinity := by
  induction es with
  | nil => simp [anySignsInfinity]
  | cons e es ih => simp [anySignsInfinity, ih]

end Expr

/-- The token starts with the name of an infinity. -/
def Grammar.Token.namesInfinity : Token → Bool
  | name k n => isInfinityName (k.getD n)
  | _ => false

/-- A sign is a token of its own in front of anything but a name of an infinity. -/
theorem signTokens_cons (s : Sign) {t : Token} (ts : List Token) (h : t.namesInfinity = false) :
    signTokens s (t :: ts) = .ofSign s :: t :: ts := by
  cases t with
  | name k n => cases k <;> exact if_neg (by simpa [Token.namesInfinity] using h)
  | _ => rfl

/-- The word of a number does not start with the name of an infinity. -/
theorem Number.tokens_head (x : Float) :
    ∃ t ts, tokens x = t :: ts ∧ t.namesInfinity = false := by
  unfold tokens
  split
  · exact ⟨_, _, rfl, by decide⟩
  · split
    · exact ⟨_, _, rfl, rfl⟩
    · split
      · exact ⟨_, _, rfl, rfl⟩
      · exact ⟨_, _, rfl, rfl⟩

/-- Behind another sign, a sign is never joined with a name. -/
theorem signTokens_head (s : Sign) {ts : List Token} (hne : ts ≠ []) :
    ∃ t us, signTokens s ts = t :: us ∧ t.namesInfinity = false := by
  have hsign : (Token.ofSign s).namesInfinity = false := by cases s <;> rfl
  obtain ⟨t, ts, rfl⟩ := List.exists_cons_of_ne_nil hne
  cases t with
  | name k n =>
    cases k with
    | none =>
      by_cases h : isInfinityName n = true
      · exact ⟨_, _, if_pos h, rfl⟩
      · exact ⟨_, _, if_neg h, hsign⟩
    | some k =>
      by_cases h : isInfinityName k = true
      · exact ⟨_, _, if_pos h, rfl⟩
      · exact ⟨_, _, if_neg h, hsign⟩
  | _ => exact ⟨_, _, rfl, hsign⟩

theorem groupTokens_ne_nil {needed : Bool} {ts : List Token} (h : ts ≠ []) :
    groupTokens needed ts ≠ [] := by
  cases needed with
  | false => exact h
  | true => exact nofun

namespace Expr

theorem Written.tokens_ne_nil {lists : Prop} {e : Expr} (h : e.Written lists) : e.tokens ≠ [] := by
  obtain ⟨t, us, mid, heq, -⟩ := h.writes_text [] (.inl rfl)
  rw [heq]
  exact nofun

/-- A constant does not start with the name of an infinity. -/
theorem IsConstant.tokens_head {e : Expr} (h : e.IsConstant) :
    ∃ t ts, e.tokens = t :: ts ∧ t.namesInfinity = false := by
  cases h with
  | literal s v =>
    rw [tokens]
    exact Number.tokens_head v
  | negative s t v =>
    rw [tokens, tokens]
    refine signTokens_head _ (groupTokens_ne_nil ?_)
    obtain ⟨t, ts, heq, -⟩ := Number.tokens_head v
    rw [heq]
    exact List.cons_ne_nil _ _

/-- A tree without parentheses behind a sign does not start with the name of an infinity, unless it
is a mention of one. -/
theorem Written.tokens_head {lists : Prop} {e : Expr} (h : e.Written lists)
    (hprecedence : signPrecedence ≤ e.precedence) (hno : e.mentionsInfinity = false) :
    ∃ t ts, e.tokens = t :: ts ∧ t.namesInfinity = false := by
  cases h with
  | literal s v =>
    rw [tokens]
    exact Number.tokens_head v
  | mention s h hnan =>
    rw [tokens, Mention.tokens]
    exact ⟨_, _, rfl, hno⟩
  | signed s o h =>
    rw [tokens]
    exact signTokens_head o (groupTokens_ne_nil h.tokens_ne_nil)
  | binary s o => exact absurd hprecedence (Nat.not_le.mpr o.precedence_lt_sign)
  | conditional =>
    exact absurd hprecedence (Nat.not_le.mpr (show conditionalPrecedence < signPrecedence by decide))
  | call s a =>
    rw [tokens]
    exact ⟨_, _, rfl, by cases a <;> decide⟩
  | @list _ s es hlength hconstant =>
    -- a list binds like a literal, and it starts with the first of its values
    rw [tokens, tokensOf_eq_map]
    obtain ⟨e, more, rfl⟩ :=
      List.exists_cons_of_length_pos (Nat.lt_of_lt_of_le Nat.zero_lt_two hlength)
    obtain ⟨f, es, rfl⟩ := List.exists_cons_of_length_pos (Nat.le_of_succ_le_succ hlength)
    obtain ⟨t, ts, heq, ht⟩ := (hconstant e (by simp)).tokens_head
    rw [List.map_cons, List.map_cons, List.intercalate_cons_cons, heq]
    exact ⟨_, _, rfl, ht⟩

/-- A sign is a token of its own unless its operand is a mention of an infinity. -/
theorem Written.signTokens_eq {lists : Prop} {e : Expr} (h : e.Written lists) (s : Sign)
    (hno : e.mentionsInfinity = false) :
    signTokens s (groupTokens (e.precedence < signPrecedence) e.tokens)
      = .ofSign s :: groupTokens (e.precedence < signPrecedence) e.tokens := by
  by_cases hprecedence : e.precedence < signPrecedence
  · rw [decide_eq_true hprecedence]
    rfl
  · obtain ⟨t, ts, heq, ht⟩ := h.tokens_head (Nat.not_lt.mp hprecedence) hno
    rw [decide_eq_false hprecedence, show groupTokens false e.tokens = t :: ts from heq]
    exact signTokens_cons s ts ht

end Expr

/-! ## Reading back -/

/-- The bare tree that the text of a number is read as. -/
def Number.reading (x : Float) : Expr :=
  if isNegative x && !x.isInf then .signed .none .minus (.literal .none (magnitude x))
  else .literal .none x

namespace Expr

mutual

/-- The bare tree with the negative numbers as they are read back. -/
def reading : Expr → Expr
  | literal _ v => Number.reading v
  | mention _ m => mention .none m
  | signed _ s e => signed .none s e.reading
  | binary _ l o r => binary .none l.reading o r.reading
  | conditional _ c y n => conditional .none c.reading y.reading n.reading
  | call _ a es => call .none a (readingsOf es)
  | list _ es => list .none (readingsOf es)

/-- The readings of several trees. -/
def readingsOf : List Expr → List Expr
  | [] => []
  | e :: es => e.reading :: readingsOf es

end

theorem readingsOf_eq_map (es : List Expr) : readingsOf es = es.map reading := by
  induction es with
  | nil => simp [readingsOf]
  | cons e es ih => simp [readingsOf, ih]

end Expr

/-- The tokens of a number derive what it is read as. -/
theorem Number.derives_tokens (x : Float) : Derives 8 (tokens x) (reading x) := by
  unfold tokens reading
  by_cases hnan : x.isNaN = true
  · have hneg : isNegative x = false := by rw [isNegative, hnan]; rfl
    rw [if_pos hnan, if_neg (by simp [hneg]), eq_nan hnan]
    exact .weaker .nan
  rw [if_neg hnan]
  by_cases hinf : x.isInf = true
  · have hread : (isNegative x && !x.isInf) = false := by simp [hinf]
    have hvalue := eq_infinity hinf
    simp only [if_pos hinf, hread, Bool.false_eq_true, if_false]
    by_cases hneg : isNegative x = true
    · rw [if_pos hneg] at hvalue
      rw [if_pos hneg, hvalue]
      exact .infinity .minus
    · rw [if_neg hneg] at hvalue
      rw [if_neg hneg, hvalue]
      exact .infinity .plus
  rw [if_neg hinf]
  by_cases hneg : isNegative x = true
  · rw [if_pos hneg, if_pos (by simp [hneg, hinf])]
    exact .signed .minus (.weaker (.number _))
  · rw [if_neg hneg, if_neg (by simp [hneg]),
      magnitude_eq (Bool.eq_false_iff.mpr hnan) (Bool.eq_false_iff.mpr hneg)]
    exact .weaker (.number _)

/-- A phrase fits into any place once it has parentheses where it binds too weakly. -/
theorem derives_groupTokens {needed : Bool} {j k : Nat} {ts : List Token} {e : Expr}
    (h : Derives (min k 8) ts e) (hk : 1 ≤ k) (hj : j ≤ 8) (hneeded : needed = false → j ≤ k) :
    Derives j (groupTokens needed ts) e := by
  cases needed with
  | true => exact (Derives.group (h.weaken (by omega))).weaken (by omega)
  | false => exact h.weaken (by have := hneeded rfl; omega)

namespace Expr

/-- The level of a conditional is the lowest one. -/
theorem one_le_precedence (e : Expr) : 1 ≤ e.precedence := by
  cases e with
  | literal s v =>
    rw [precedence]
    split <;> decide
  | binary s l o r => exact Nat.le_of_lt o.conditional_lt_precedence
  | _ => exact Nat.le_of_ble_eq_true rfl

/-- **The tokens of a written tree derive the tree.** -/
theorem Written.derives {e : Expr} (h : e.Written False) (hno : e.signsInfinity = false) :
    Derives (min e.precedence 8) e.tokens e.reading := by
  induction h with
  | literal s v =>
    rw [tokens, reading]
    exact (Number.derives_tokens v).weaken (Nat.min_le_right _ _)
  | mention s h hnan =>
    rw [tokens, reading]
    exact (Derives.mention _ hnan).weaken (Nat.le_trans (Nat.min_le_right _ _) (by decide))
  | @signed s o e h ih =>
    rw [signsInfinity, Bool.or_eq_false_iff] at hno
    rw [tokens, reading, h.signTokens_eq o hno.1]
    refine (Derives.signed o ?_).weaken (Nat.min_le_right _ _)
    exact derives_groupTokens (ih hno.2) e.one_le_precedence (Nat.le_refl 8) fun hneeded =>
      Nat.not_lt.mp (of_decide_eq_false hneeded)
  | @binary s o l r _ _ hl hr =>
    rw [signsInfinity, Bool.or_eq_false_iff] at hno
    have hlt := o.precedence_lt_sign
    rw [tokens, reading, precedence, Nat.min_eq_left (show o.precedence ≤ 8 from Nat.le_of_lt hlt)]
    refine Derives.binary o ?_ ?_
    · exact derives_groupTokens (hl hno.1) l.one_le_precedence (Nat.le_of_lt hlt) fun hneeded =>
        Nat.not_lt.mp (of_decide_eq_false hneeded)
    · exact derives_groupTokens (hr hno.2) r.one_le_precedence hlt fun hneeded =>
        Nat.not_le.mp (of_decide_eq_false hneeded)
  | @conditional s c y n _ _ _ hc hy hn =>
    rw [signsInfinity, Bool.or_eq_false_iff, Bool.or_eq_false_iff] at hno
    rw [tokens, reading, precedence]
    have hone := y.one_le_precedence
    have hone' := n.one_le_precedence
    refine Derives.conditional ?_ ((hy hno.1.2).weaken (by omega)) ((hn hno.2).weaken (by omega))
    exact derives_groupTokens (hc hno.1.1) c.one_le_precedence (by decide) fun hneeded =>
      Nat.not_le.mp (of_decide_eq_false hneeded)
  | @call s a es hne h ih =>
    rw [signsInfinity, anySignsInfinity_eq_any, List.any_eq_false] at hno
    rw [tokens, reading, tokensOf_eq_map, readingsOf_eq_map]
    have hderives := @Derives.call a (es.map fun e => (e.tokens, e.reading)) (by simpa using hne)
      (by
        intro p hp
        obtain ⟨e, he, rfl⟩ := List.mem_map.mp hp
        have hone := e.one_le_precedence
        exact (ih e he (Bool.eq_false_iff.mpr (hno e he))).weaken (by omega))
    rw [List.map_map, List.map_map] at hderives
    exact hderives.weaken (Nat.le_trans (Nat.min_le_right _ _) (by decide))
  | list hlists => exact hlists.elim

end Expr

end DerivedStats
