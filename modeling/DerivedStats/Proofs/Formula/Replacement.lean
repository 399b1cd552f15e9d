import DerivedStats.Formula.Substitution
import DerivedStats.Proofs.Formula.Filling

/-!
# The text of a substitution

A substitution writes the definition with samples filled in (`Formula.substitute_ok`): one sample
becomes a number, none becomes zero, and several become the list that their text is read back as.
A text that was written this way compiles if its tokens derive a tree, and into that tree
(`Formula.compile_text`).
-/

namespace DerivedStats

open Grammar

/-! ## What takes the place of a mention -/

/-- The bare tree that stands for some samples. -/
def samplesExpr : List Float → Expr
  | [] => .literal .none 0.0
  | [x] => .literal .none x
  | xs => .list .none (xs.map Number.reading)

/-- What the samples put in place of a mention. -/
def Samples.filler (samples : Samples) (category : String) (m : Mention) : Option Expr :=
  (samples.get? (m.resolve category)).map samplesExpr

theorem Number.bare_reading (x : Float) : (reading x).bare = reading x := by
  unfold reading
  split <;> rfl

/-- The text of several values is read back as their readings. -/
theorem valueList_eq {values : List Float} (hne : values ≠ []) :
    ∃ es, valueList values = .ok es ∧ es.map Expr.bare = values.map Number.reading := by
  have hwrites : Writes (List.intercalate [','] (values.map fun x => (Number.text x).toList))
      (List.intercalate [.comma] (values.map Number.tokens)) :=
    writes_intercalate (by simp) hne fun x _ => Number.writes_text x
  have hlexes := hwrites.lexes (.inl rfl)
  rw [List.append_nil] at hlexes
  have hlexes : Lexes (",".intercalate (values.map Number.text)).toList (List.intercalate [.comma]
      ((values.map fun x => (Number.tokens x, Number.reading x)).map (·.1))) [] := by
    simpa [String.toList_intercalate, Function.comp_def] using hlexes
  have hderives : ∀ p ∈ values.map fun x => (Number.tokens x, Number.reading x),
      Derives conditionalPrecedence p.1 p.2 := by
    intro p hp
    obtain ⟨x, -, rfl⟩ := List.mem_map.mp hp
    exact (Number.derives_tokens x).weaken (by decide)
  obtain ⟨es, hes, hbare⟩ := listOfText_of_derives (by simpa using hne) hlexes hderives
  exact ⟨es, hes, by simpa [Function.comp_def] using hbare⟩

/-- What replaces a mention is the tree of its samples, up to spans. -/
theorem bare_replacement {source : String} {s : Statistic} {site : Site} {samples : List Float}
    {e : Expr} (h : replacement source s site samples = .ok e) :
    e.bare = (samplesExpr samples).bare := by
  unfold replacement at h
  cases samples with
  | nil =>
    obtain rfl := Except.ok.inj h
    rfl
  | cons x more =>
    cases more with
    | nil =>
      obtain rfl := Except.ok.inj h
      rfl
    | cons y more =>
      simp only at h
      split at h
      · obtain ⟨es, hes, hbare⟩ := valueList_eq (List.cons_ne_nil x (y :: more))
        rw [hes] at h
        obtain rfl := Except.ok.inj h
        show (Expr.list .none es).bare =
          (Expr.list .none ((x :: y :: more).map Number.reading)).bare
        rw [Expr.bare, Expr.bare, Expr.baresOf_eq_map, Expr.baresOf_eq_map, hbare, List.map_map]
        exact congrArg _ (List.map_congr_left fun x _ => (Number.bare_reading x).symm)
      · cases h

namespace Formula

variable {f : Formula} {samples : Samples}

/-- The substitution of samples decides about a site by its mention alone. -/
theorem decides_substituting (f : Formula) (samples : Samples) :
    Expr.Decides (f.substituting samples) (samples.filler f.category) := by
  intro journal site r h
  unfold substituting at h
  simp only at h
  unfold Samples.filler
  cases hs : samples.get? (site.mention.resolve f.category) with
  | none =>
    rw [hs] at h
    obtain rfl := Except.ok.inj h
    rfl
  | some list =>
    rw [hs] at h
    simp only at h
    cases hreplace : replacement f.source (site.mention.resolve f.category) site list with
    | error report =>
      rw [hreplace] at h
      exact nomatch h
    | ok e =>
      rw [hreplace] at h
      obtain rfl := Except.ok.inj h
      exact congrArg some (bare_replacement hreplace)

/-- The definition with the samples filled in. -/
def filled (f : Formula) (samples : Samples) : Assignment :=
  { f.assignment with body := f.assignment.body.bare.fill (samples.filler f.category) }

/-- **A substitution writes the definition with the samples filled in.** -/
theorem substitute_ok {text : String} (h : f.substitute samples = .ok text) :
    text = (f.filled samples).text := by
  unfold substitute substitution at h
  simp only at h
  split at h
  · exact nomatch h
  · next hnone =>
    obtain rfl := Except.ok.inj h
    have hbare := Expr.bare_replaceMentions (decides_substituting f samples) _ _ _ hnone
    rw [filled, Assignment.text, Assignment.text, ← Expr.text_bare, hbare, ← Expr.bare_fill,
      Expr.text_bare]

/-- What is mentioned in the body is a dependent. -/
theorem resolve_mem_dependents {site : Site} (h : site ∈ f.assignment.body.bare.sites false) :
    site.mention.resolve f.category ∈ f.dependencies.dependents := by
  have hmem : site.mention ∈ (f.assignment.body.sites false).map Site.mention := by
    rw [← Expr.mentions_bare]
    exact List.mem_map_of_mem h
  obtain ⟨site', hsite', heq⟩ := List.mem_map.mp hmem
  exact mem_firstOccurrences.mpr (List.mem_map.mpr ⟨site', hsite', by rw [heq]⟩)

/-! ## Compiling the text -/

/-- A definition compiles if its text and its category are not blank and the text is read. -/
theorem compile_ok {source category : String} {f : Formula} :
    compile source category = .ok f ↔
      Text.isBlankText source = false ∧ Text.isBlankText category = false
        ∧ ∃ a, Assignment.ofText source = .ok a ∧ f = ⟨source, category, a⟩ := by
  unfold compile
  by_cases hsource : Text.isBlankText source = true
  · simp [hsource]
  · by_cases hcategory : Text.isBlankText category = true
    · simp [hsource, hcategory]
    · cases h : Assignment.ofText source with
      | error r => simp [hsource, hcategory, bind, Except.bind]
      | ok a => simp [hsource, hcategory, bind, Except.bind, pure, Except.pure, eq_comm]

theorem isBlank_of_isNameStart {c : Char} (h : isNameStart c = true) : Text.isBlank c = false := by
  have hrange : 65 ≤ c.toNat ∧ c.toNat ≤ 122 := by
    simp only [isNameStart, isLetter, Bool.or_eq_true, Bool.and_eq_true, decide_eq_true_eq,
      Char.le_def, UInt32.le_iff_toNat_le] at h
    rcases h with (h | h) | rfl
    · exact ⟨h.1, Nat.le_trans h.2 (by decide)⟩
    · exact ⟨Nat.le_trans (by decide) h.1, h.2⟩
    · decide
  simp [Text.isBlank]
  omega

/-- The text of a definition is not blank: it starts with the name of what it defines. -/
theorem isBlankText_text {a : Assignment} (h : a.target.IsSpelled) :
    Text.isBlankText a.text = false := by
  have hstart : ∃ c cs, a.text.toList = c :: cs ∧ isNameStart c = true := by
    have htext : a.text.toList =
        a.target.label ++ (a.target.braces ++ (" = " ++ a.body.text).toList) := by
      rw [Assignment.text, String.append_assoc, String.toList_append, Mention.toList_text,
        List.append_assoc]
    have hlabel : ∃ c cs, a.target.label = c :: cs ∧ isNameStart c = true := by
      unfold Mention.label
      cases hcategory : a.target.category with
      | none =>
        obtain ⟨c, cs, hname, hc, -⟩ := h.name
        exact ⟨c, cs, hname, hc⟩
      | some k =>
        obtain ⟨c, cs, hname, hc, -⟩ := h.category k hcategory
        exact ⟨c, cs ++ '.' :: a.target.name.toList, by simp [hname], hc⟩
    obtain ⟨c, cs, hlabel, hc⟩ := hlabel
    exact ⟨c, _, by rw [htext, hlabel]; rfl, hc⟩
  obtain ⟨c, cs, htext, hc⟩ := hstart
  rw [Text.isBlankText, htext, List.all_cons, isBlank_of_isNameStart hc]
  rfl

/-- A definition that was written compiles if its tokens derive a tree, and into that tree. -/
theorem compile_text {lists : Prop} {a : Assignment} {e : Expr} {category : String}
    (hcategory : Text.isBlankText category = false) (htarget : a.target.IsSpelled)
    (hbody : a.body.Written lists) (hderives : Derives conditionalPrecedence a.body.tokens e) :
    ∃ f, compile a.text category = .ok f ∧ f.category = category ∧ f.assignment.target = a.target
      ∧ f.assignment.body.bare = e := by
  have hlexes := Assignment.lexes_text htarget hbody
  have hdefinition : DerivesAssignment (a.target.tokens ++ .equals :: a.body.tokens)
      (Assignment.bare ⟨a.target, .none, e⟩) := by
    rw [Assignment.bare, hderives.bare]
    exact ⟨_, hderives, rfl⟩
  obtain ⟨b, hb, hbare⟩ := assignment_language.mpr ⟨_, hlexes, hdefinition⟩
  obtain ⟨htarget', -, hbody'⟩ := Assignment.mk.inj hbare
  exact ⟨_, compile_ok.mpr ⟨isBlankText_text htarget, hcategory, b, hb, rfl⟩, rfl, htarget',
    hbody'.trans hderives.bare⟩

/-- There is no equals sign in a mention. -/
theorem equals_not_mem_tokens (m : Mention) : Token.equals ∉ m.tokens := by
  intro h
  rcases m.mem_tokens h with ⟨k, n, hname⟩ | ⟨v, hquoted⟩ | hmem
  · exact nomatch hname
  · exact nomatch hquoted
  · exact absurd hmem (by decide)

/-- What stands behind the first separator of a text is determined by the text. -/
theorem cancel_separator {α : Type} {x : α} {as bs cs ds : List α} (has : x ∉ as) (hbs : x ∉ bs)
    (h : as ++ x :: cs = bs ++ x :: ds) : cs = ds := by
  induction as generalizing bs with
  | nil =>
    cases bs with
    | nil => exact (List.cons.inj h).2
    | cons b bs => exact absurd (List.cons.inj h).1 fun hx => hbs (by simp [hx])
  | cons a as ih =>
    cases bs with
    | nil => exact absurd (List.cons.inj h).1 fun hx => has (by simp [hx])
    | cons b bs =>
      exact ih (fun hx => has (by simp [hx])) (fun hx => hbs (by simp [hx])) (List.cons.inj h).2

/-- If the text of a definition that was written compiles, then its tokens derive the tree that it
compiles into. -/
theorem derives_of_compile {lists : Prop} {a : Assignment} {category : String} {f : Formula}
    (htarget : a.target.IsSpelled) (hbody : a.body.Written lists)
    (h : compile a.text category = .ok f) :
    Derives conditionalPrecedence a.body.tokens f.assignment.body.bare := by
  obtain ⟨-, -, b, hb, rfl⟩ := compile_ok.mp h
  obtain ⟨ts, hts, us, hderives, rfl⟩ := assignment_language.mp ⟨b, hb, rfl⟩
  have htokens := hts.unique (Assignment.lexes_text htarget hbody)
  rwa [cancel_separator (equals_not_mem_tokens _) (equals_not_mem_tokens _) htokens] at hderives

end Formula

end DerivedStats
