import DerivedStats.Evaluation.Evaluate
import DerivedStats.Proofs.Writing.Reading

/-!
# Outcomes without places

A misuse tells where it is, so the outcomes of two trees can differ in a span although they mean the
same. `Expr.outcome?` forgets the misuse; nothing else is lost, as every misuse of an evaluation is
of one kind (`Expr.code_of_evaluate`). The equations for each node are the rules of evaluation, and
the proofs about values work with them alone.

A tree has the same outcome as its bare tree, and as the tree that it is read back as: the negation
of a magnitude is the negative number that was written (`Expr.outcome?_reading`).
-/

namespace DerivedStats

/-! ## Where one number is wanted -/

namespace Expr

variable {scope : Scope}

/-- The number that an expression stands for; a sequence is a misuse at the given span. -/
def numberAt (scope : Scope) (span : Span) (e : Expr) : Except Misuse Float := do
  (← e.evaluate scope).single span

/-- A minus sign wants a number. -/
theorem evaluate_minus (s : Span) (e : Expr) :
    (signed s .minus e).evaluate scope = do return .scalar (-(← e.numberAt scope s)) := by
  rw [evaluate, numberAt, bind_assoc]

/-- An operator wants two numbers, and takes the left one first. -/
theorem evaluate_binary (s : Span) (l : Expr) (op : Operator) (r : Expr) :
    (binary s l op r).evaluate scope = do
      let x ← l.numberAt scope s
      return .scalar (op.apply x (← r.numberAt scope s)) := by
  rw [evaluate, numberAt, bind_assoc]
  simp only [numberAt, bind_assoc]

/-- A condition wants a number, and only the branch that it selects is evaluated. -/
theorem evaluate_conditional (s : Span) (c y n : Expr) :
    (conditional s c y n).evaluate scope = (c.numberAt scope c.span >>= fun x =>
      if holds x then y.evaluate scope else n.evaluate scope) := by
  rw [evaluate, numberAt, bind_assoc]

end Expr

/-! ## Misuses of an evaluation -/

/-- Two steps fail if the first one does, or if the second one does after it. -/
theorem error_of_bind {ε α β : Type} {x : Except ε α} {f : α → Except ε β} {r : ε}
    (h : x >>= f = .error r) : x = .error r ∨ ∃ a, x = .ok a ∧ f a = .error r := by
  cases x with
  | error r' =>
    obtain rfl := Except.error.inj h
    exact .inl rfl
  | ok a => exact .inr ⟨a, rfl, h⟩

/-- Where one number is wanted, the only misuse is a sequence. -/
theorem Outcome.code_of_single {span : Option Span} {o : Outcome} {m : Misuse}
    (h : o.single span = .error m) : m.code = .sequenceAsScalar := by
  cases o with
  | scalar x => exact nomatch h
  | sequence xs =>
    obtain rfl := Except.error.inj h
    rfl

namespace Expr

variable {scope : Scope}

/-- If every expression fails in one way only, so do all of them together. -/
theorem code_of_evaluateAll {es : List Expr}
    (hes : ∀ e ∈ es, ∀ m, e.evaluate scope = .error m → m.code = .sequenceAsScalar) {m : Misuse}
    (h : evaluateAll scope es = .error m) : m.code = .sequenceAsScalar := by
  induction es with
  | nil =>
    rw [evaluateAll] at h
    exact nomatch h
  | cons e es ih =>
    rw [evaluateAll] at h
    rcases error_of_bind h with h | ⟨o, -, h⟩
    · exact hes e (by simp) m h
    rcases error_of_bind h with h | ⟨more, -, h⟩
    · exact ih (fun f hf => hes f (by simp [hf])) h
    · exact nomatch h

/-- If an expression fails in one way only, so does asking it for a number. -/
theorem code_of_numberAt {span : Span} {e : Expr} {m : Misuse}
    (he : ∀ {m : Misuse}, e.evaluate scope = .error m → m.code = .sequenceAsScalar)
    (h : e.numberAt scope span = .error m) : m.code = .sequenceAsScalar := by
  rcases error_of_bind h with h | ⟨o, -, h⟩
  · exact he h
  · exact Outcome.code_of_single h

/-- Whatever goes wrong in an evaluation, it is a sequence where a number is wanted. -/
theorem code_of_evaluate {e : Expr} :
    ∀ {m : Misuse}, e.evaluate scope = .error m → m.code = .sequenceAsScalar := by
  induction e using induction_parts with
  | literal s v | mention s m =>
    intro m h
    rw [evaluate] at h
    cases h
  | signed s o e ih =>
    intro m h
    cases o with
    | plus =>
      rw [evaluate] at h
      exact ih h
    | minus =>
      rw [evaluate_minus] at h
      rcases error_of_bind h with h | ⟨x, -, h⟩
      · exact code_of_numberAt ih h
      · cases h
  | binary s l o r hl hr =>
    intro m h
    rw [evaluate_binary] at h
    rcases error_of_bind h with h | ⟨x, -, h⟩
    · exact code_of_numberAt hl h
    rcases error_of_bind h with h | ⟨y, -, h⟩
    · exact code_of_numberAt hr h
    · cases h
  | conditional s c y n hc hy hn =>
    intro m h
    rw [evaluate_conditional] at h
    rcases error_of_bind h with h | ⟨x, -, h⟩
    · exact code_of_numberAt hc h
    split at h
    · exact hy h
    · exact hn h
  | call s a es ih | list s es ih =>
    intro m h
    rw [evaluate] at h
    rcases error_of_bind h with h | ⟨xs, -, h⟩
    · exact code_of_evaluateAll (fun e he m => ih e he) h
    · cases h

/-! ## The rules of evaluation -/

/-- The outcome of an expression, if it has one. -/
def outcome? (scope : Scope) (e : Expr) : Option Outcome := (e.evaluate scope).toOption

/-- The number that an expression stands for, if it stands for one. -/
def number? (scope : Scope) (e : Expr) : Option Float :=
  (e.outcome? scope).bind Outcome.scalar?

/-- The values of several expressions, one after the other, if all have outcomes. -/
def values? (scope : Scope) (es : List Expr) : Option (List Float) :=
  (evaluateAll scope es).toOption

end Expr

theorem toOption_bind {ε α β : Type} (x : Except ε α) (f : α → Except ε β) :
    (x >>= f).toOption = x.toOption.bind fun a => (f a).toOption := by
  cases x <;> rfl

/-- A computation that has a result succeeds with it. -/
theorem eq_ok_of_toOption {ε α : Type} {x : Except ε α} {a : α} (h : x.toOption = some a) :
    x = .ok a := by
  cases x with
  | error r => exact nomatch h
  | ok b => exact congrArg Except.ok (Option.some.inj h)

theorem exists_ok_of_toOption {ε α β : Type} {x : Except ε α} {f : α → β} {b : β}
    (h : x.toOption.map f = some b) : ∃ a, x = .ok a ∧ f a = b := by
  cases x with
  | error r => exact nomatch h
  | ok a => exact ⟨a, rfl, Option.some.inj h⟩

/-- The single number of an outcome is the number that it is. -/
theorem Outcome.toOption_single (span : Option Span) (o : Outcome) :
    (o.single span).toOption = o.scalar? := by
  cases o <;> rfl

namespace Expr

variable {scope : Scope}

/-- Where a number is wanted, it is the number that the expression stands for. -/
theorem toOption_numberAt (e : Expr) (span : Span) :
    (e.numberAt scope span).toOption = e.number? scope := by
  rw [numberAt, toOption_bind, number?, outcome?]
  simp only [Outcome.toOption_single]

/-- The value of a whole tree is the number that it stands for. -/
theorem toOption_evaluateScalar (e : Expr) : (e.evaluateScalar scope).toOption = e.number? scope :=
  toOption_numberAt e e.span

/-- An expression stands for a number exactly if its outcome is this number. -/
theorem number?_eq_some {e : Expr} {x : Float} :
    e.number? scope = some x ↔ e.outcome? scope = some (.scalar x) := by
  rw [number?, Option.bind_eq_some_iff]
  constructor
  · rintro ⟨o, ho, hx⟩
    cases o with
    | scalar y =>
      obtain rfl : y = x := Option.some.inj hx
      exact ho
    | sequence ys => cases hx
  · exact fun h => ⟨_, h, rfl⟩

/-- Where a single number is found it is the number of the phrase. -/
theorem evaluate_of_numberAt {span : Span} {e : Expr} {x : Float}
    (h : e.numberAt scope span = .ok x) : e.evaluate scope = .ok (.scalar x) := by
  have hnumber : e.number? scope = some x := by rw [← toOption_numberAt e span, h]; rfl
  exact eq_ok_of_toOption (number?_eq_some.mp hnumber)

@[simp] theorem outcome?_literal (s : Span) (v : Float) :
    (literal s v).outcome? scope = some (.scalar v) := by
  rw [outcome?, evaluate]
  rfl

@[simp] theorem outcome?_mention (s : Span) (m : Mention) :
    (mention s m).outcome? scope = some (scope.read (m.resolve scope.category)) := by
  rw [outcome?, evaluate]
  rfl

@[simp] theorem outcome?_plus (s : Span) (e : Expr) :
    (signed s .plus e).outcome? scope = e.outcome? scope := by
  rw [outcome?, evaluate, outcome?]

@[simp] theorem outcome?_minus (s : Span) (e : Expr) :
    (signed s .minus e).outcome? scope = (e.number? scope).map fun x => .scalar (-x) := by
  rw [outcome?, evaluate_minus, toOption_bind, toOption_numberAt]
  cases e.number? scope <;> rfl

@[simp] theorem outcome?_binary (s : Span) (l : Expr) (o : Operator) (r : Expr) :
    (binary s l o r).outcome? scope =
      (l.number? scope).bind fun x => (r.number? scope).map fun y => .scalar (o.apply x y) := by
  rw [outcome?, evaluate_binary, toOption_bind, toOption_numberAt]
  congr 1
  funext x
  rw [toOption_bind, toOption_numberAt]
  cases r.number? scope <;> rfl

@[simp] theorem outcome?_conditional (s : Span) (c y n : Expr) :
    (conditional s c y n).outcome? scope =
      (c.number? scope).bind fun x => if holds x then y.outcome? scope else n.outcome? scope := by
  rw [outcome?, evaluate_conditional, toOption_bind, toOption_numberAt]
  congr 1
  funext x
  split <;> rfl

@[simp] theorem outcome?_list (s : Span) (es : List Expr) :
    (list s es).outcome? scope = (values? scope es).map .sequence := by
  rw [outcome?, evaluate, toOption_bind, values?]
  cases (evaluateAll scope es) <;> rfl

@[simp] theorem outcome?_call (s : Span) (a : Aggregate) (es : List Expr) :
    (call s a es).outcome? scope = (values? scope es).map fun xs => .scalar (a.apply xs) := by
  rw [outcome?, evaluate_call scope s s, toOption_bind, ← outcome?, outcome?_list]
  cases values? scope es <;> rfl

@[simp] theorem values?_nil : values? scope [] = some [] := by
  rw [values?, evaluateAll]
  rfl

@[simp] theorem values?_cons (e : Expr) (es : List Expr) :
    values? scope (e :: es) =
      (e.outcome? scope).bind fun o => (values? scope es).map (o.values ++ ·) := by
  rw [values?, evaluateAll, toOption_bind, outcome?, values?]
  cases e.evaluate scope with
  | error m => rfl
  | ok o => cases evaluateAll scope es <;> rfl

/-! ## Trees that mean the same -/

/-- Trees with the same outcomes have the same values. -/
theorem values?_map {f : Expr → Expr} {es : List Expr}
    (h : ∀ e ∈ es, (f e).outcome? scope = e.outcome? scope) :
    values? scope (es.map f) = values? scope es := by
  induction es with
  | nil => rfl
  | cons e es ih =>
    rw [List.map_cons, values?_cons, values?_cons, h e (by simp),
      ih fun g hg => h g (by simp [hg])]

theorem number?_congr {e f : Expr} (h : e.outcome? scope = f.outcome? scope) :
    e.number? scope = f.number? scope := by
  rw [number?, number?, h]

theorem outcome?_signed_congr {s t : Span} {o : Sign} {e f : Expr}
    (h : e.outcome? scope = f.outcome? scope) :
    (signed s o e).outcome? scope = (signed t o f).outcome? scope := by
  cases o with
  | plus => rw [outcome?_plus, outcome?_plus, h]
  | minus => rw [outcome?_minus, outcome?_minus, number?_congr h]

/-- Spans do not matter. -/
theorem outcome?_bare (e : Expr) : e.bare.outcome? scope = e.outcome? scope := by
  induction e using induction_parts with
  | literal | mention => simp [bare]
  | signed s o e ih => exact outcome?_signed_congr ih
  | binary s l o r hl hr =>
    rw [bare, outcome?_binary, outcome?_binary, number?_congr hl, number?_congr hr]
  | conditional s c y n hc hy hn =>
    rw [bare, outcome?_conditional, outcome?_conditional, number?_congr hc, hy, hn]
  | call s a es ih => rw [bare, outcome?_call, outcome?_call, baresOf_eq_map, values?_map ih]
  | list s es ih => rw [bare, outcome?_list, outcome?_list, baresOf_eq_map, values?_map ih]

/-- A number that is written and read again evaluates to itself. -/
theorem outcome?_number_reading (x : Float) :
    (Number.reading x).outcome? scope = some (.scalar x) := by
  unfold Number.reading
  split
  · next h =>
    rw [Bool.and_eq_true] at h
    rw [outcome?_minus, number?, outcome?_literal]
    exact congrArg (fun y => some (Outcome.scalar y)) (Number.neg_magnitude h.1)
  · rw [outcome?_literal]

/-- **What is read back means the same.** -/
theorem outcome?_reading (e : Expr) : e.reading.outcome? scope = e.outcome? scope := by
  induction e using induction_parts with
  | literal s v => rw [reading, outcome?_number_reading, outcome?_literal]
  | mention => rw [reading, outcome?_mention, outcome?_mention]
  | signed s o e ih => exact outcome?_signed_congr ih
  | binary s l o r hl hr =>
    rw [reading, outcome?_binary, outcome?_binary, number?_congr hl, number?_congr hr]
  | conditional s c y n hc hy hn =>
    rw [reading, outcome?_conditional, outcome?_conditional, number?_congr hc, hy, hn]
  | call s a es ih => rw [reading, outcome?_call, outcome?_call, readingsOf_eq_map, values?_map ih]
  | list s es ih => rw [reading, outcome?_list, outcome?_list, readingsOf_eq_map, values?_map ih]

end Expr

end DerivedStats
