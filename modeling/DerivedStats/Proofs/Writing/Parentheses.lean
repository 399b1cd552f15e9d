import DerivedStats.Proofs.Writing.RoundTrip

/-!
# No needless parentheses

A pair of parentheses either holds the arguments of a call or groups a phrase. The written form of a
tree groups nothing that could stand without parentheses: whatever tokens derive the tree, they have
as many groups as the written form at least (`Derives.groups_le`). So among all texts that are read
as one definition, up to spans, none has fewer groups than the text that the definition is written
as.

The bound is shown along the derivation. A phrase that stands at a level that is too strong for its
tree is in a group, and a pair of parentheses is written around an operand for no other reason.

Main result: `Assignment.text_fewest_groups`.
-/

namespace DerivedStats

namespace Grammar

/-! ## Counting groups -/

/-- The token is the name of an aggregate. A parenthesis behind it belongs to a call. -/
def Token.namesAggregate : Token → Bool
  | name none n => Aggregate.all.any fun a => a.name == n
  | _ => false

/-- The number of pairs of parentheses that group, each counted where it opens; `called` tells
whether the name of an aggregate stands in front of the tokens. -/
def groupsBehind (called : Bool) : List Token → Nat
  | [] => 0
  | t :: ts => (if t = .openParen ∧ called = false then 1 else 0) + groupsBehind t.namesAggregate ts

/-- The number of pairs of parentheses that do not belong to the call of an aggregate. -/
def groups (ts : List Token) : Nat := groupsBehind false ts

theorem namesAggregate_name (a : Aggregate) : (Token.name none a.name).namesAggregate = true := by
  cases a <;> decide

theorem namesAggregate_ofSign (s : Sign) : (Token.ofSign s).namesAggregate = false := by
  cases s <;> rfl

theorem groupsBehind_cons {t : Token} (ht : t ≠ .openParen) (called : Bool) (ts : List Token) :
    groupsBehind called (t :: ts) = groupsBehind t.namesAggregate ts := by
  rw [groupsBehind, if_neg fun h => ht h.1, Nat.zero_add]

/-- At a token other than an opening parenthesis the count can be cut. -/
theorem groupsBehind_append_cons {t : Token} (ht : t ≠ .openParen) (called : Bool)
    (ts us : List Token) :
    groupsBehind called (ts ++ t :: us)
      = groupsBehind called ts + groupsBehind t.namesAggregate us := by
  induction ts generalizing called with
  | nil => rw [List.nil_append, groupsBehind_cons ht, groupsBehind, Nat.zero_add]
  | cons x ts ih => rw [List.cons_append, groupsBehind, groupsBehind, ih, Nat.add_assoc]

/-- At a token that neither opens nor calls, the groups on both sides add up. -/
theorem groups_append_cons {t : Token} (ht : t ≠ .openParen) (hname : t.namesAggregate = false)
    (ts us : List Token) : groups (ts ++ t :: us) = groups ts + groups us := by
  rw [groups, groupsBehind_append_cons ht, hname, groups, groups]

/-- Behind the name of an aggregate the first parenthesis does not count. -/
theorem groupsBehind_le (called : Bool) (ts : List Token) : groupsBehind called ts ≤ groups ts := by
  cases ts with
  | nil => exact Nat.le_refl _
  | cons t ts =>
    rw [groups, groupsBehind, groupsBehind]
    refine Nat.add_le_add_right ?_ _
    by_cases h : t = .openParen ∧ called = false
    · rw [if_pos h, if_pos ⟨h.1, rfl⟩]
    · rw [if_neg h]
      exact Nat.zero_le _

/-- Without opening parentheses there are no groups. -/
theorem groupsBehind_eq_zero {ts : List Token} (h : .openParen ∉ ts) (called : Bool) :
    groupsBehind called ts = 0 := by
  induction ts generalizing called with
  | nil => rfl
  | cons t ts ih =>
    rw [groupsBehind_cons (List.ne_of_not_mem_cons h).symm, ih (List.not_mem_of_not_mem_cons h)]

/-- Parentheses around tokens are one more group. -/
theorem groups_group (ts : List Token) :
    groups (.openParen :: (ts ++ [.closeParen])) = groups ts + 1 := by
  rw [groups, groupsBehind, if_pos ⟨rfl, rfl⟩, Nat.add_comm]
  exact congrArg (· + 1) (groups_append_cons (by decide) rfl ts [])

/-- The parentheses of a call are no group. -/
theorem groups_call (a : Aggregate) (ts : List Token) :
    groups (.name none a.name :: .openParen :: (ts ++ [.closeParen])) = groups ts := by
  rw [groups, groupsBehind_cons (by simp), namesAggregate_name, groupsBehind, if_neg (by simp),
    Nat.zero_add]
  exact groups_append_cons (by decide) rfl ts []

/-- The groups of a list with commas are those of its items. -/
theorem groups_intercalate (ls : List (List Token)) :
    groups (List.intercalate [.comma] ls) = (ls.map groups).sum := by
  induction ls with
  | nil => rfl
  | cons l ls ih =>
    by_cases hnil : ls = []
    · rw [hnil, List.intercalate_singleton, List.map_singleton, List.sum_singleton]
    · rw [List.intercalate_cons_of_ne_nil hnil, List.append_assoc, List.singleton_append,
        groups_append_cons (by decide) rfl, ih, List.map_cons, List.sum_cons]

theorem groups_ofSign (s : Sign) (ts : List Token) : groups (.ofSign s :: ts) = groups ts := by
  rw [groups, groupsBehind_cons (by cases s <;> decide), namesAggregate_ofSign, groups]

theorem groups_mention (m : Mention) : groups m.tokens = 0 := by
  refine groupsBehind_eq_zero (fun hmem => ?_) false
  rcases Mention.mem_tokens hmem with ⟨k, n, h⟩ | ⟨v, h⟩ | h
  · exact nomatch h
  · exact nomatch h
  · simp at h

end Grammar

open Grammar

/-! ## Groups of the written form -/

/-- Parentheses where they are needed are one more group. -/
theorem groups_groupTokens (needed : Bool) (ts : List Token) :
    groups (groupTokens needed ts) = groups ts + needed.toNat := by
  cases needed with
  | false => rfl
  | true => exact groups_group ts

/-- A sign that is joined with a name opens no parenthesis. -/
theorem groups_signTokens_le (s : Sign) (ts : List Token) :
    groups (signTokens s ts) ≤ groups ts := by
  unfold signTokens
  split
  · next n us =>
    split
    · rw [groups, groupsBehind_cons (by simp), groups, groupsBehind_cons (by simp)]
      next hn =>
        have hname : (Token.name none n).namesAggregate = false := by
          simp only [isInfinityName, Bool.or_eq_true, beq_iff_eq] at hn
          rcases hn with rfl | rfl <;> decide
        rw [hname]
        exact Nat.le_refl _
    · exact Nat.le_of_eq (groups_ofSign s _)
  · next k n us =>
    split
    · -- the name behind the point may be that of an aggregate, but then it only hides a parenthesis
      rw [groups, groupsBehind_cons (by simp), groupsBehind_cons (by simp),
        groupsBehind_cons (by simp), groups, groupsBehind_cons (by simp)]
      exact groupsBehind_le _ us
    · exact Nat.le_of_eq (groups_ofSign s _)
  · exact Nat.le_of_eq (groups_ofSign s _)

theorem Number.groups_tokens (x : Float) : groups (tokens x) = 0 := by
  unfold tokens
  repeat' split
  all_goals exact groupsBehind_eq_zero (by simp) false

/-- An operand with the parentheses that the written form gives it. -/
theorem groups_operand_le {j : Nat} {us : List Token} {d : Expr} {needed : Bool}
    (hd : groups d.tokens ≤ groups us ∧ (d.precedence < min j 8 → groups d.tokens < groups us))
    (hneeded : needed = true → d.precedence < min j 8) :
    groups (groupTokens needed d.tokens) ≤ groups us := by
  rw [groups_groupTokens]
  cases needed with
  | false => exact hd.1
  | true => exact hd.2 (hneeded rfl)

/-- **The written form of a tree has no more groups than the tokens that derive the tree**, and
fewer if the tree binds too weakly for the level of the derivation. -/
theorem Grammar.Derives.groups_le {k : Nat} {ts : List Token} {e : Expr} (h : Derives k ts e) :
    groups e.tokens ≤ groups ts ∧ (e.precedence < min k 8 → groups e.tokens < groups ts) := by
  induction h with
  | weaker _ ih => exact ⟨ih.1, fun hlt => ih.2 (by omega)⟩
  | @conditional cs _ _ c _ _ _ _ _ hc hy hn =>
    have hcondition : groups (groupTokens (decide (c.precedence ≤ conditionalPrecedence)) c.tokens)
        ≤ groups cs := groups_operand_le hc fun hneeded =>
      Nat.lt_of_le_of_lt (of_decide_eq_true hneeded) (by decide)
    refine ⟨?_, fun hlt => absurd hlt (by simp [Expr.precedence, conditionalPrecedence])⟩
    rw [Expr.tokens, groups_append_cons (by decide) rfl, groups_append_cons (by decide) rfl,
      groups_append_cons (by decide) rfl, groups_append_cons (by decide) rfl]
    exact Nat.add_le_add hcondition (Nat.add_le_add hy.1 hn.1)
  | @binary ls rs l r o _ _ hl hr =>
    have hlt := o.precedence_lt_sign
    have hsign : signPrecedence = 8 := rfl
    have hleft : groups (groupTokens (decide (l.precedence < o.precedence)) l.tokens) ≤ groups ls :=
      groups_operand_le hl fun hneeded => by
        have := of_decide_eq_true hneeded
        omega
    have hright : groups (groupTokens (decide (r.precedence ≤ o.precedence)) r.tokens) ≤ groups rs :=
      groups_operand_le hr fun hneeded => by
        have := of_decide_eq_true hneeded
        omega
    refine ⟨?_, fun hlt => absurd hlt (by simp [Expr.precedence])⟩
    rw [Expr.tokens, groups_append_cons (by simp) rfl, groups_append_cons (by simp) rfl]
    exact Nat.add_le_add hleft hright
  | @signed ts e s _ ih =>
    refine ⟨?_, fun hlt => absurd hlt (by simp [Expr.precedence, signPrecedence])⟩
    rw [Expr.tokens, groups_ofSign]
    exact (groups_signTokens_le s _).trans (groups_operand_le ih of_decide_eq_true)
  | infinity s => exact ⟨by cases s <;> decide +kernel, by cases s <;> decide +kernel⟩
  | number x =>
    rw [Expr.tokens, Number.groups_tokens]
    refine ⟨Nat.zero_le _, fun hlt => absurd hlt ?_⟩
    rw [Expr.precedence]
    split <;> decide
  | nan => exact ⟨by decide +kernel, by decide +kernel⟩
  | @group ts e _ ih =>
    rw [groups_group]
    exact ⟨Nat.le_succ_of_le ih.1, fun _ => Nat.lt_succ_of_le ih.1⟩
  | @call a arguments _ _ ih =>
    refine ⟨?_, fun hlt => absurd hlt (by simp [Expr.precedence, atomPrecedence])⟩
    rw [Expr.tokens, Expr.tokensOf_eq_map, groups_call, groups_call, groups_intercalate,
      groups_intercalate, List.map_map, List.map_map, List.map_map]
    exact List.sum_le_sum fun p hp => (ih p hp).1
  | mention m _ =>
    rw [Expr.tokens, groups_mention]
    exact ⟨Nat.le_refl _, fun hlt => absurd hlt (by simp [Expr.precedence, atomPrecedence])⟩

/-! ## Definitions -/

/-- The target of a definition has no groups. -/
theorem groups_definition (m : Mention) (ts : List Token) :
    groups (m.tokens ++ .equals :: ts) = groups ts := by
  rw [groups_append_cons (by decide) rfl, groups_mention, Nat.zero_add]

/-- **A definition is written without needless parentheses.** The text of a definition that was read
has no more groups than the source that it was read from, and no more than any other text that is
read as the same definition up to spans. -/
theorem Assignment.text_fewest_groups {source : String} {a : Assignment}
    (h : Assignment.ofText source = .ok a) :
    ∃ ts written, Lexes source.toList ts [] ∧ Lexes a.text.toList written []
      ∧ groups written ≤ groups ts
      ∧ ∀ source' b us, Assignment.ofText source' = .ok b → b.bare = a.bare →
        Lexes source'.toList us [] → groups written ≤ groups us := by
  obtain ⟨htarget, hbody, -⟩ := written_of_ofText h
  have hlexes := lexes_text (a := a.bare) htarget hbody
  rw [text_bare] at hlexes
  have hfewest : ∀ source' b us, Assignment.ofText source' = .ok b → b.bare = a.bare →
      Lexes source'.toList us [] →
      groups (a.bare.target.tokens ++ .equals :: a.bare.body.tokens) ≤ groups us := by
    intro source' b us hb hbare hus
    obtain ⟨us', hus', vs, hderives, rfl⟩ := assignment_language.mp ⟨b, hb, rfl⟩
    obtain rfl := hus.unique hus'
    rw [groups_definition, groups_definition, ← hbare]
    exact hderives.groups_le.1
  obtain ⟨ts, hts, -⟩ := assignment_language.mp ⟨a, h, rfl⟩
  exact ⟨ts, _, hts, hlexes, hfewest source a ts h rfl hts, hfewest⟩

/-- Of three groups one is needed. -/
theorem Assignment.text_fewest_groups_product :
    ∃ a, Assignment.ofText "x = ((a + b)) * (MAX(c))" = .ok a ∧ a.text = "x = (a + b) * MAX(c)"
      ∧ ∃ ts written, Lexes "x = ((a + b)) * (MAX(c))".toList ts [] ∧ Lexes a.text.toList written []
        ∧ groups written ≤ groups ts := by
  have htext : (Assignment.ofText "x = ((a + b)) * (MAX(c))").toOption.any
      (fun a => a.text == "x = (a + b) * MAX(c)") = true := by
    decide +kernel
  cases h : Assignment.ofText "x = ((a + b)) * (MAX(c))" with
  | error r =>
    rw [h] at htext
    exact nomatch htext
  | ok a =>
    rw [h] at htext
    obtain ⟨ts, written, hts, hwritten, hle, -⟩ := Assignment.text_fewest_groups h
    exact ⟨a, rfl, by simpa [Except.toOption] using htext, ts, written, hts, hwritten, hle⟩

end DerivedStats
