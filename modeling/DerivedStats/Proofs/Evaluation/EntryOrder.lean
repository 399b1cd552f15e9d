import DerivedStats.Proofs.Evaluation.Extremes
import DerivedStats.Proofs.Evaluation.Shape
import DerivedStats.Proofs.Statistic.Tables

/-!
# The order of the entries

A wildcard meets the values of a table in the order of the entries, and sums and averages depend on
that order. Where no wildcard ends in one of them (`Expr.sumsOpen`) the order of the entries makes no
difference: two tables with the same entries give each phrase outcomes that agree (`Agree`), which
is to say one number or one misuse, or the same values in two orders. Only the least and the
greatest of several numbers take values in any order, and their answer is that of the values as long
as zeros of both signs do not meet (`Expr.KeepsZerosApart`).
-/

namespace DerivedStats

/-- The aggregate adds its values up. -/
def Aggregate.isSummation : Aggregate → Bool
  | sum | average => true
  | minimum | maximum => false

namespace Expr

mutual

/-- Some open mention has a sum or an average as its nearest aggregate; `summing` tells whether the
nearest aggregate around the whole is one. -/
def sumsOpen (category : String) (summing : Bool) : Expr → Bool
  | literal _ _ => false
  | mention _ m => summing && (m.resolve category).isWildcarded
  | signed _ _ e => e.sumsOpen category summing
  | binary _ l _ r => l.sumsOpen category summing || r.sumsOpen category summing
  | conditional _ c y n =>
    c.sumsOpen category summing || (y.sumsOpen category summing || n.sumsOpen category summing)
  | call _ a es => sumsOpenIn category a.isSummation es
  | list _ es => sumsOpenIn category summing es

/-- Some open mention in the expressions has a sum or an average as its nearest aggregate. -/
def sumsOpenIn (category : String) (summing : Bool) : List Expr → Bool
  | [] => false
  | e :: es => e.sumsOpen category summing || sumsOpenIn category summing es

end

mutual

/-- Zeros of both signs do not meet in a least or a greatest number that is evaluated; what is not
evaluated does not matter. -/
def KeepsZerosApart (scope : Scope) : Expr → Prop
  | literal _ _ | mention _ _ => True
  | signed _ _ e => e.KeepsZerosApart scope
  | binary _ l _ r =>
    l.KeepsZerosApart scope ∧ ∀ x, l.evaluate scope = .ok (.scalar x) → r.KeepsZerosApart scope
  | conditional _ c y n =>
    c.KeepsZerosApart scope ∧ ∀ x, c.evaluate scope = .ok (.scalar x) →
      if holds x then y.KeepsZerosApart scope else n.KeepsZerosApart scope
  | call _ a es =>
    KeepZerosApart scope es ∧ ∀ xs, evaluateAll scope es = .ok xs →
      a.isSummation = false → ¬ a.ZerosMeet xs
  | list _ es => KeepZerosApart scope es

/-- Zeros of both signs do not meet in the expressions, as far as they are evaluated. -/
def KeepZerosApart (scope : Scope) : List Expr → Prop
  | [] => True
  | e :: es =>
    e.KeepsZerosApart scope ∧ ∀ o, e.evaluate scope = .ok o → KeepZerosApart scope es

end

end Expr

/-! ## Outcomes that agree -/

/-- The results are the same or, if the order of values does not matter, sequences of the same
values. -/
inductive Agree (ordered : Bool) : Except Misuse Outcome → Except Misuse Outcome → Prop
  | same (r : Except Misuse Outcome) : Agree ordered r r
  | rearranged (h : ordered = false) {xs ys : List Float} (hperm : xs.Perm ys) :
      Agree ordered (.ok (.sequence xs)) (.ok (.sequence ys))

namespace Agree

variable {ordered : Bool} {r r' : Except Misuse Outcome}

/-- Results that agree are the same, or they are sequences of the same values. -/
theorem cases (h : Agree ordered r r') :
    r = r' ∨ ordered = false ∧ ∃ xs ys, xs.Perm ys ∧ r = .ok (.sequence xs)
      ∧ r' = .ok (.sequence ys) := by
  cases h with
  | same => exact .inl rfl
  | rearranged h hperm => exact .inr ⟨h, _, _, hperm, rfl, rfl⟩

/-- Where a single number is wanted, results that agree are worth the same. -/
theorem single (h : Agree ordered r r') (span : Span) :
    (r >>= fun o => o.single span) = r' >>= fun o => o.single span := by
  cases h with
  | same => rfl
  | rearranged h hperm => rfl

end Agree

namespace Scope

variable {scope : Scope} {values' : Values}

/-- The value of a statistic does not depend on the order of the entries. -/
theorem valueOf_perm (hperm : scope.values.entries.Perm values'.entries) (s : Statistic) :
    scope.valueOf s = { scope with values := values' }.valueOf s := by
  rw [valueOf, valueOf, Table.get?_perm hperm]

/-- What a statistic means agrees; if the order of values matters, it must not be open. -/
theorem agree_read (hperm : scope.values.entries.Perm values'.entries) {ordered : Bool}
    {s : Statistic} (hopen : (ordered && s.isWildcarded) = false) :
    Agree ordered (.ok (scope.read s)) (.ok ({ scope with values := values' }.read s)) := by
  unfold read
  split
  · next hwild =>
    have hordered : ordered = false := by simpa [hwild] using hopen
    split
    · exact .rearranged hordered ((hperm.filter _).map _)
    · rw [valueOf_perm hperm]
      exact .same _
  · rw [valueOf_perm hperm]
    exact .same _

end Scope

namespace Expr

variable {scope scope' : Scope} {ordered : Bool}

theorem sumsOpenIn_eq_any (category : String) (summing : Bool) (es : List Expr) :
    sumsOpenIn category summing es = es.any (sumsOpen category summing) := by
  induction es with
  | nil => rw [sumsOpenIn, List.any_nil]
  | cons e es ih => rw [sumsOpenIn, List.any_cons, ih]

/-- A list is evaluated from its first element on. -/
theorem evaluate_list_cons (s : Span) (e : Expr) (es : List Expr) :
    (list s (e :: es)).evaluate scope = do
      let first ← e.evaluate scope
      let more ← (list s es).evaluate scope
      return .sequence (first.values ++ more.values) := by
  rw [evaluate, evaluateAll, evaluate]
  simp only [bind_assoc, pure_bind, Outcome.values]

/-- A list of phrases that agree agrees. -/
theorem agree_list (s : Span) {es : List Expr}
    (hes : ∀ e ∈ es, e.KeepsZerosApart scope → Agree ordered (e.evaluate scope) (e.evaluate scope'))
    (hzeros : KeepZerosApart scope es) :
    Agree ordered ((list s es).evaluate scope) ((list s es).evaluate scope') := by
  induction es with
  | nil =>
    rw [evaluate, evaluate, evaluateAll, evaluateAll]
    exact .same _
  | cons e es ih =>
    rw [KeepZerosApart] at hzeros
    obtain ⟨hfirst, hrest⟩ := hzeros
    have hrest : ∀ o, e.evaluate scope = .ok o →
        Agree ordered ((list s es).evaluate scope) ((list s es).evaluate scope') :=
      fun o ho => ih (fun f hf => hes f (by simp [hf])) (hrest o ho)
    rw [evaluate_list_cons, evaluate_list_cons]
    rcases (hes e (by simp) hfirst).cases with heq | ⟨hordered, xs, ys, hperm, hxs, hys⟩
    · rw [← heq]
      cases ho : e.evaluate scope with
      | error m => exact .same _
      | ok o =>
        rcases (hrest o ho).cases with heq | ⟨hordered, us, vs, hperm, hus, hvs⟩
        · rw [heq]
          exact .same _
        · rw [hus, hvs]
          exact .rearranged hordered (hperm.append_left _)
    · rcases (hrest _ hxs).cases with heq | ⟨-, us, vs, hperm', hus, hvs⟩
      · rw [hxs, hys, heq]
        cases (list s es).evaluate scope' with
        | error m => exact .same _
        | ok o => exact .rearranged hordered (hperm.append_right _)
      · rw [hxs, hys, hus, hvs]
        exact .rearranged hordered (hperm.append hperm')

/-- A list stands for the values of its elements. -/
theorem evaluateAll_of_list {s : Span} {es : List Expr} {xs : List Float}
    (h : (list s es).evaluate scope = .ok (.sequence xs)) : evaluateAll scope es = .ok xs := by
  rw [evaluate] at h
  cases hall : evaluateAll scope es with
  | error m =>
    rw [hall] at h
    cases h
  | ok ys =>
    rw [hall] at h
    exact congrArg Except.ok (Outcome.sequence.inj (Except.ok.inj h))

/-- An aggregate over values that agree has one answer: a sum takes them in one order, and to a least
or a greatest the order is nothing. -/
theorem evaluate_call_congr (s : Span) {a : Aggregate} {es : List Expr}
    (hagree : Agree a.isSummation ((list s es).evaluate scope) ((list s es).evaluate scope'))
    (hzeros : ∀ xs, evaluateAll scope es = .ok xs → a.isSummation = false → ¬ a.ZerosMeet xs) :
    (call s a es).evaluate scope = (call s a es).evaluate scope' := by
  rw [evaluate_call scope s s a es, evaluate_call scope' s s a es]
  rcases hagree.cases with heq | ⟨hextreme, xs, ys, hperm, hxs, hys⟩
  · rw [heq]
  · have ha : a = .minimum ∨ a = .maximum := by
      cases a with
      | sum | average => exact absurd hextreme (by decide)
      | minimum => exact .inl rfl
      | maximum => exact .inr rfl
    have hanswer : a.apply xs = a.apply ys :=
      Aggregate.apply_perm ha hperm (hzeros xs (evaluateAll_of_list hxs) hextreme)
    rw [hxs, hys]
    exact congrArg (fun x => Except.ok (Outcome.scalar x)) hanswer

/-- The right operand is asked for only if the left one is a number. -/
theorem evaluate_binary_congr (s : Span) (op : Operator) {l r : Expr}
    (hleft : l.numberAt scope s = l.numberAt scope' s)
    (hright : ∀ x, l.evaluate scope = .ok (.scalar x) → r.numberAt scope s = r.numberAt scope' s) :
    (binary s l op r).evaluate scope = (binary s l op r).evaluate scope' := by
  rw [evaluate_binary, evaluate_binary, ← hleft]
  cases hx : l.numberAt scope s with
  | error m => rfl
  | ok x => rw [hright x (evaluate_of_numberAt hx)]

/-- A conditional agrees if the branch agrees that its condition takes. -/
theorem agree_conditional (s : Span) {c y n : Expr}
    (hcondition : c.numberAt scope c.span = c.numberAt scope' c.span)
    (hyes : ∀ x, c.evaluate scope = .ok (.scalar x) → holds x = true →
      Agree ordered (y.evaluate scope) (y.evaluate scope'))
    (hno : ∀ x, c.evaluate scope = .ok (.scalar x) → ¬ holds x = true →
      Agree ordered (n.evaluate scope) (n.evaluate scope')) :
    Agree ordered ((conditional s c y n).evaluate scope)
      ((conditional s c y n).evaluate scope') := by
  rw [evaluate_conditional, evaluate_conditional, ← hcondition]
  cases hx : c.numberAt scope c.span with
  | error m => exact .same _
  | ok x =>
    show Agree ordered (if holds x then _ else _) (if holds x then _ else _)
    split
    · next hholds => exact hyes x (evaluate_of_numberAt hx) hholds
    · next hfails => exact hno x (evaluate_of_numberAt hx) hfails

/-- **Two tables with the same entries give a phrase outcomes that agree.** In a sum the outcomes are
the same, as no wildcard ends there. -/
theorem agree_evaluate {values' : Values} (hperm : scope.values.entries.Perm values'.entries)
    (e : Expr) : ∀ summing, e.sumsOpen scope.category summing = false → e.KeepsZerosApart scope →
      Agree summing (e.evaluate scope) (e.evaluate { scope with values := values' }) := by
  induction e using induction_parts with
  | literal s v =>
    intro summing _ _
    rw [evaluate, evaluate]
    exact .same _
  | mention s m =>
    intro summing hsums _
    rw [sumsOpen] at hsums
    rw [evaluate, evaluate]
    exact Scope.agree_read hperm hsums
  | signed s o e ih =>
    intro summing hsums hzeros
    rw [sumsOpen] at hsums
    rw [KeepsZerosApart] at hzeros
    cases o with
    | plus =>
      rw [evaluate, evaluate]
      exact ih summing hsums hzeros
    | minus =>
      have hnumber := (ih summing hsums hzeros).single s
      rw [evaluate_minus, evaluate_minus, numberAt, numberAt, hnumber]
      exact .same _
  | binary s l op r hl hr =>
    intro summing hsums hzeros
    rw [sumsOpen, Bool.or_eq_false_iff] at hsums
    rw [KeepsZerosApart] at hzeros
    rw [evaluate_binary_congr s op ((hl summing hsums.1 hzeros.1).single s)
      fun x hx => (hr summing hsums.2 (hzeros.2 x hx)).single s]
    exact .same _
  | conditional s c y n hc hy hn =>
    intro summing hsums hzeros
    rw [sumsOpen, Bool.or_eq_false_iff, Bool.or_eq_false_iff] at hsums
    rw [KeepsZerosApart] at hzeros
    refine agree_conditional s ((hc summing hsums.1 hzeros.1).single c.span)
      (fun x hx hholds => ?_) fun x hx hfails => ?_
    · have hbranch := hzeros.2 x hx
      rw [if_pos hholds] at hbranch
      exact hy summing hsums.2.1 hbranch
    · have hbranch := hzeros.2 x hx
      rw [if_neg hfails] at hbranch
      exact hn summing hsums.2.2 hbranch
  | list s es ih =>
    intro summing hsums hzeros
    rw [sumsOpen, sumsOpenIn_eq_any, List.any_eq_false] at hsums
    rw [KeepsZerosApart] at hzeros
    exact agree_list s (fun e he => ih e he summing (by simpa using hsums e he)) hzeros
  | call s a es ih =>
    intro summing hsums hzeros
    rw [sumsOpen, sumsOpenIn_eq_any, List.any_eq_false] at hsums
    rw [KeepsZerosApart] at hzeros
    have hagree := agree_list s
      (fun e he => ih e he a.isSummation (by simpa using hsums e he)) hzeros.1
    rw [evaluate_call_congr s hagree hzeros.2]
    exact .same _

end Expr

namespace Formula

/-- **Least and greatest numbers over a wildcard do not depend on the order of the entries.** If no
open mention ends in a sum or an average and zeros of both signs do not meet, a formula has the same
value, or the same report, over two tables with the same entries in two orders. And over any numbers
the least is zero if there are none, `nan` exactly if one of them is, and otherwise one of them that
is at most each of them; and so for the greatest. -/
theorem evaluate_entries_perm :
    (∀ (f : Formula) (values values' : Values) (placeholders : Placeholders),
      f.assignment.body.sumsOpen f.category false = false →
      values.entries.Perm values'.entries →
      f.assignment.body.KeepsZerosApart ⟨f.category, values, placeholders⟩ →
      f.evaluate values placeholders = f.evaluate values' placeholders)
    ∧ (∀ xs, IsExtreme (fun x y => x ≤ y) xs (Aggregate.minimum.apply xs))
    ∧ ∀ xs, IsExtreme (fun x y => y ≤ x) xs (Aggregate.maximum.apply xs) := by
  refine ⟨?_, Aggregate.isExtreme_minimum, Aggregate.isExtreme_maximum⟩
  intro f values values' placeholders hsums hperm hzeros
  have hagree := @Expr.agree_evaluate ⟨f.category, values, placeholders⟩ values' hperm
    f.assignment.body false hsums hzeros
  have hnumber : f.assignment.body.evaluateScalar ⟨f.category, values, placeholders⟩
      = f.assignment.body.evaluateScalar ⟨f.category, values', placeholders⟩ :=
    hagree.single f.assignment.body.span
  rw [evaluate, evaluate, hnumber]

/-- Both zeros are among the entries, but the least number is below them. -/
theorem evaluate_entries_perm_least :
    ∃ (f : Formula) (values values' : Values),
      f.assignment.body.sumsOpen f.category false = false
      ∧ values.entries.Perm values'.entries
      ∧ f.assignment.body.KeepsZerosApart ⟨f.category, values, .empty⟩
      ∧ f.evaluate values .empty = f.evaluate values' .empty
      ∧ (f.evaluate values .empty).toOption = some (-1.0) := by
  let f : Formula := ⟨"x = MIN(k\x7bm:\"*\"\x7d)", "c", ⟨none, "x", []⟩, ⟨0, 1⟩,
    .call ⟨4, 17⟩ .minimum [.mention ⟨8, 16⟩ ⟨none, "k", [⟨"m", "*"⟩]⟩]⟩
  let entry (value : String) (x : Float) : Statistic × Float :=
    (⟨"c", "k", .ofList [("m", value)]⟩, x)
  let values : Values := ⟨[entry "a" (-0.0), entry "b" 0.0, entry "d" (-1.0)], by decide⟩
  let values' : Values := ⟨[entry "b" 0.0, entry "a" (-0.0), entry "d" (-1.0)], by decide⟩
  have hsums : f.assignment.body.sumsOpen f.category false = false := by decide +kernel
  have hperm : values.entries.Perm values'.entries := List.Perm.swap _ _ _
  have hall : Expr.evaluateAll ⟨"c", values, .empty⟩
      [.mention ⟨8, 16⟩ ⟨none, "k", [⟨"m", "*"⟩]⟩] = .ok [-0.0, 0.0, -1.0] := by rfl
  have hzeros : f.assignment.body.KeepsZerosApart ⟨f.category, values, .empty⟩ := by
    refine ⟨⟨trivial, fun _ _ => trivial⟩, fun xs hxs _ => ?_⟩
    obtain rfl := Except.ok.inj (hall.symm.trans hxs)
    intro hmeet
    exact absurd hmeet.1 (by decide +kernel)
  exact ⟨f, values, values', hsums, hperm, hzeros,
    evaluate_entries_perm.1 f values values' .empty hsums hperm hzeros, by decide +kernel⟩

end Formula

end DerivedStats
