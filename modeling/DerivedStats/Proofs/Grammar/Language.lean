import DerivedStats.Grammar.Read
import DerivedStats.Proofs.Grammar.Completeness
import DerivedStats.Proofs.Number.Nearest

/-!
# The language of expressions

The parsers read exactly the texts whose tokens derive from the grammar, and answer the tree of the
derivation; a text has at most one. The check of the characters that comes first refuses none of
these texts.

Of an expression `complete_expression_iff` says this, and of a definition `assignment_language`. The
check keeps a table of characters of its own, and in quotes and in `!=`, `&&` and `||` a state; that
it agrees with the parsers is shown token by token (`Spells.stray?`), and `check_refuses_nothing`
carries it to whole texts.
-/

namespace DerivedStats

namespace Grammar

open DerivedStats.Grammar.Parser

/-! ## The check of the characters -/

/-- A character that the check lets pass between tokens. -/
def passes (c : Char) : Bool := isNameChar c || Text.isBlank c || isPunctuation c

/-- The check passes over a word if it lets all its characters pass. -/
theorem stray?_of_passes {w : List Char} (h : ∀ c ∈ w, passes c = true) (rest : List Char)
    (offset : Nat) :
    ∃ offset', stray? .plain offset (w ++ rest) = stray? .plain offset' rest := by
  induction w generalizing offset with
  | nil => exact ⟨offset, rfl⟩
  | cons c w ih =>
    obtain ⟨offset', hrest⟩ := ih (fun d hd => h d (by simp [hd])) (offset + c.utf8Size)
    refine ⟨offset', ?_⟩
    have hc := h c (by simp)
    unfold passes at hc
    rw [List.cons_append, stray?, if_pos hc]
    exact hrest

theorem passes_of_isNameChar {c : Char} (h : isNameChar c = true) : passes c = true := by
  simp [passes, h]

theorem passes_of_isDigit {c : Char} (h : isDigit c = true) : passes c = true :=
  passes_of_isNameChar (isNameChar_of_isDigit h)

theorem passes_of_isSpacing {c : Char} (h : isSpacing c = true) : passes c = true := by
  simp only [isSpacing, Bool.or_eq_true, decide_eq_true_eq] at h
  rcases h with ((rfl | rfl) | rfl) | rfl <;> decide

theorem passes_fraction {f ds : List Char} (h : SpellsFraction f ds) :
    ∀ c ∈ f, passes c = true := by
  cases h with
  | absent => simp
  | present h =>
    intro c hc
    rcases List.mem_cons.mp hc with rfl | hc
    · decide
    · exact passes_of_isDigit (h.2 c hc)

theorem passes_power {p ds : List Char} {n : Bool} (h : SpellsPower p n ds) :
    ∀ c ∈ p, passes c = true := by
  have hmark : ∀ {c : Char}, c = 'e' ∨ c = 'E' → passes c = true := by
    rintro c (rfl | rfl) <;> decide
  cases h with
  | absent => simp
  | unsigned hm h =>
    intro c hc
    rcases List.mem_cons.mp hc with rfl | hc
    · exact hmark hm
    · exact passes_of_isDigit (h.2 c hc)
  | signed hm hs h =>
    intro c hc
    rcases List.mem_cons.mp hc with rfl | hc
    · exact hmark hm
    rcases List.mem_cons.mp hc with rfl | hc
    · rcases hs with rfl | rfl <;> decide
    · exact passes_of_isDigit (h.2 c hc)

/-- The check passes over a dimension value up to the closing quote. -/
theorem stray?_quoted {v : List Char} (h : ∀ c ∈ v, (c = '*' || isValueChar c) = true)
    (start offset : Nat) (rest : List Char) :
    ∃ offset', stray? (.quoted start) offset (v ++ '"' :: rest) = stray? .plain offset' rest := by
  induction v generalizing offset with
  | nil => exact ⟨offset + 1, by simp [stray?]⟩
  | cons c v ih =>
    obtain ⟨offset', hrest⟩ := ih (fun d hd => h d (by simp [hd])) (offset + 1)
    refine ⟨offset', ?_⟩
    have hc := h c (by simp)
    have hquote : c ≠ '"' := by
      rintro rfl
      exact absurd hc (by decide)
    rw [List.cons_append, stray?, if_neg hquote, if_pos hc]
    exact hrest

/-- The check passes over the word of a token. -/
theorem Spells.stray? {w : List Char} {t : Token} (h : Spells w t) (rest : List Char)
    (offset : Nat) :
    ∃ offset', stray? .plain offset (w ++ rest) = stray? .plain offset' rest := by
  cases h with
  | symbol h =>
    have hsingle : ∀ {c : Char}, passes c = true →
        ∃ offset', Grammar.stray? .plain offset ([c] ++ rest) = Grammar.stray? .plain offset' rest :=
      fun hc => stray?_of_passes (by simpa using hc) rest offset
    cases t with
    | number _ | infinity _ | name _ _ | quoted _ => simp [Token.symbol?] at h
    | operator o =>
      obtain rfl := Option.some.inj h
      cases o with
      | or | and | notEqual => exact ⟨offset + 1 + 1, rfl⟩
      | equal | greaterOrEqual | lessOrEqual =>
        exact stray?_of_passes (List.all_eq_true.mp (by decide)) rest offset
      | _ => exact hsingle (by decide)
    | _ =>
      obtain rfl := Option.some.inj h
      exact hsingle (by decide)
  | number hw hf hp =>
    refine stray?_of_passes (fun c hc => ?_) rest offset
    rcases List.mem_append.mp hc with hc | hc
    · exact passes_of_isDigit (hw.2 c hc)
    rcases List.mem_append.mp hc with hc | hc
    · exact passes_fraction hf c hc
    · exact passes_power hp c hc
  | infinity s h =>
    refine stray?_of_passes ?_ rest offset
    cases s <;> rcases h with rfl | rfl <;> exact List.all_eq_true.mp (by decide)
  | name h => exact stray?_of_passes (fun c hc => passes_of_isNameChar (h.all c hc)) rest offset
  | qualified hk h =>
    refine stray?_of_passes (fun c hc => ?_) rest offset
    rcases List.mem_append.mp hc with hc | hc
    · exact passes_of_isNameChar (hk.all c hc)
    rcases List.mem_cons.mp hc with rfl | hc
    · decide
    · exact passes_of_isNameChar (h.all c hc)
  | @quoted v hv =>
    have hall : ∀ c ∈ v, (c = '*' || isValueChar c) = true := by
      rcases hv with rfl | ⟨-, hv⟩
      · exact List.all_eq_true.mp (by decide)
      · intro c hc
        simp [hv c hc]
    obtain ⟨offset', hrest⟩ := stray?_quoted hall offset (offset + 1) rest
    refine ⟨offset', ?_⟩
    rw [← hrest]
    simp [Grammar.stray?, isNameChar, isNameStart, isLetter, isDigit, Text.isBlank, isPunctuation]

/-- In front of what comes next stands nothing but spacing. -/
theorem exists_spacing (cs : List Char) :
    ∃ w, cs = w ++ ahead cs ∧ ∀ c ∈ w, isSpacing c = true := by
  obtain ⟨w, rest, rfl, hall, hend⟩ := exists_run (p := isSpacing) cs
  refine ⟨w, ?_, hall⟩
  congr 1
  rw [ahead, List.dropWhile_append_of_pos hall, ← ahead, ahead_of_head hend]

/-- A text that is made of tokens has no stray characters. -/
theorem firstStray?_of_lexes {cs : List Char} {ts : List Token} (h : Lexes cs ts []) :
    firstStray? cs = none := by
  have hall : ∀ offset, stray? .plain offset cs = none := by
    generalize hrest : ([] : List Char) = rest at h
    induction h with
    | @done cs rest h =>
      intro offset
      subst hrest
      obtain ⟨w, hw, hspacing⟩ := exists_spacing cs
      obtain ⟨offset', hstray⟩ :=
        stray?_of_passes (fun c hc => passes_of_isSpacing (hspacing c hc)) (ahead cs) offset
      rw [hw, hstray, h]
      rfl
    | @token cs mid rest t ts hnext _ ih =>
      intro offset
      obtain ⟨w, hw, hspacing⟩ := exists_spacing cs
      obtain ⟨offset', hstray⟩ :=
        stray?_of_passes (fun c hc => passes_of_isSpacing (hspacing c hc)) (ahead cs) offset
      obtain ⟨v, hspells, htext, -⟩ := hnext.starts
      obtain ⟨offset'', hstray'⟩ := hspells.stray? mid offset'
      rw [hw, hstray, htext, hstray', ih hrest]
  exact hall 0

end Grammar

open Grammar

/-! ## Whole texts -/

/-- A text is read with a parser that accepts it if it has no stray characters. -/
theorem readText_ok_iff {α : Type} {p : Parser α} {s : String} {a : α} :
    readText p s = .ok a ↔
      firstStray? s.toList = none ∧ ∃ c, p (.start s.toList) = .ok (a, c) := by
  unfold readText Grammar.read
  cases firstStray? s.toList with
  | some stray => simp [Except.mapError]
  | none =>
    cases h : p (.start s.toList) with
    | error failure => simp [Except.mapError]
    | ok r =>
      simp only [Except.mapError, true_and, Except.ok.injEq]
      exact ⟨fun h => ⟨r.2, by rw [← h]⟩, fun ⟨c, hc⟩ => by rw [hc]⟩

/-- A text that is tokens up to its end has no stray characters. -/
theorem firstStray?_of_located {s : String} {ts : List (Token × Span)} {c : Cursor}
    (h : Located (.start s.toList) ts c) (hend : c.rest = []) : firstStray? s.toList = none :=
  firstStray?_of_lexes (hend ▸ h.lexes)

/-- What a parser accepts as tokens up to the end of the text, it accepts behind the check too. -/
theorem readText_ok_iff_of_located {α : Type} {p : Parser α} {s : String} {a : α}
    (h : ∀ c, p (.start s.toList) = .ok (a, c) →
      ∃ ts, Located (.start s.toList) ts c ∧ c.rest = []) :
    (∃ c, p (.start s.toList) = .ok (a, c)) ↔
      firstStray? s.toList = none ∧ readText p s = .ok a := by
  constructor
  · rintro ⟨c, hc⟩
    obtain ⟨ts, hts, hend⟩ := h c hc
    have hclean := firstStray?_of_located hts hend
    exact ⟨hclean, readText_ok_iff.mpr ⟨hclean, c, hc⟩⟩
  · rintro ⟨-, hread⟩
    exact (readText_ok_iff.mp hread).2

/-- **The check of the characters refuses no text of the grammar.** Whatever one of the four
grammars of whole texts accepts on its own has no stray characters, and is read as what the grammar
answers. -/
theorem check_refuses_nothing (s : String) :
    (∀ a, (∃ c, assignment (.start s.toList) = .ok (a, c)) ↔
      firstStray? s.toList = none ∧ Assignment.ofText s = .ok a)
    ∧ (∀ e, (∃ c, complete expression (.start s.toList) = .ok (e, c)) ↔
      firstStray? s.toList = none ∧ Expr.ofText s = .ok e)
    ∧ (∀ es, (∃ c, complete (arguments expression) (.start s.toList) = .ok (es, c)) ↔
      firstStray? s.toList = none ∧ Expr.listOfText s = .ok es)
    ∧ (∀ m, (∃ c, soleMention (.start s.toList) = .ok (m, c)) ↔
      firstStray? s.toList = none ∧ Mention.ofText s = .ok m) := by
  refine ⟨fun a => readText_ok_iff_of_located fun c hc => ?_,
    fun e => readText_ok_iff_of_located fun c hc => ?_,
    fun es => readText_ok_iff_of_located fun c hc => ?_,
    fun m => readText_ok_iff_of_located fun c hc => ?_⟩
  · obtain ⟨ts, hts, hend, -⟩ := assignment_ok hc
    exact ⟨ts, hts, hend⟩
  · obtain ⟨ts, hts, hend, -⟩ := complete_sound expression_sound hc
    exact ⟨ts, hts, hend⟩
  · obtain ⟨ts, hts, hend, -⟩ :=
      complete_sound (commaSeparated_sound expression_sound).mapFailure hc
    exact ⟨ts, hts, hend⟩
  · obtain ⟨ts, hts, hend, -⟩ := soleMention_ok hc
    exact ⟨ts, hts, hend⟩

/-- A text is read as a tree exactly if its tokens derive the tree. -/
theorem complete_expression_iff {s : String} {e : Expr} :
    (∃ e' c, complete expression (.start s.toList) = .ok (e', c) ∧ e'.bare = e.bare) ↔
      ∃ ts, Lexes s.toList ts [] ∧ Derives conditionalPrecedence ts e.bare := by
  constructor
  · rintro ⟨e', c, hok, hbare⟩
    obtain ⟨ts, hts, hnil, hplaced⟩ := complete_sound expression_sound hok
    exact ⟨_, hnil ▸ hts.lexes, hbare ▸ hplaced.derives⟩
  · rintro ⟨ts, hts, hd⟩
    obtain ⟨rest, hrest, hread⟩ := expression_complete hts hd (.inl rfl)
    obtain ⟨e', offset, hok, hbare⟩ := reads_complete hrest hread 0
    exact ⟨e', _, hok, hbare⟩

/-- The tokens of a text derive one tree at most: it is the one that the parser answers. -/
theorem Grammar.Derives.unique {s : String} {ts us : List Token} {d e : Expr}
    (hts : Lexes s.toList ts []) (hd : Derives conditionalPrecedence ts d)
    (hus : Lexes s.toList us []) (he : Derives conditionalPrecedence us e) : d = e := by
  obtain ⟨d', c, hok, hd'⟩ := complete_expression_iff.mpr ⟨ts, hts, hd.bare.symm ▸ hd⟩
  obtain ⟨e', c', hok', he'⟩ := complete_expression_iff.mpr ⟨us, hus, he.bare.symm ▸ he⟩
  obtain ⟨rfl, -⟩ := Prod.mk.inj (Except.ok.inj (hok.symm.trans hok'))
  rw [← hd.bare, ← he.bare, ← hd', he']

/-- **The language of expressions.** The parser accepts a text with a tree if and only if the tokens
of the text derive the tree. A text has one list of tokens and one tree at most, and its numbers are
the nearest doubles, infinity being the one for numbers that are too great. -/
theorem expression_language (s : String) (e : Expr) :
    ((∃ e' c, complete expression (.start s.toList) = .ok (e', c) ∧ e'.bare = e.bare) ↔
      ∃ ts, Lexes s.toList ts [] ∧ Derives conditionalPrecedence ts e.bare)
    ∧ Set.Subsingleton {p : List Token × Expr |
        Lexes s.toList p.1 [] ∧ Derives conditionalPrecedence p.1 p.2}
    ∧ ∀ d : Decimal, Decimal.IsNearest d.value d.toFloat
      ∧ (d.toFloat = Number.infinity ↔ ((2 : ℚ) ^ 54 - 1) * 2 ^ (970 : Int) ≤ d.value) := by
  refine ⟨complete_expression_iff, ?_, fun d => ⟨d.toFloat_isNearest, d.toFloat_eq_infinity_iff⟩⟩
  rintro ⟨ts, d⟩ ⟨hts, hd⟩ ⟨us, d'⟩ ⟨hus, hd'⟩
  exact Prod.ext (hts.unique hus) (hd.unique hts hus hd')

/-- The expressions of a text with commas between them. -/
theorem listOfText_of_derives {s : String} {parts : List (List Token × Expr)} (hne : parts ≠ [])
    (hts : Lexes s.toList (List.intercalate [.comma] (parts.map (·.1))) [])
    (hd : ∀ p ∈ parts, Derives conditionalPrecedence p.1 p.2) :
    ∃ es, Expr.listOfText s = .ok es ∧ es.map Expr.bare = parts.map (·.2) := by
  have hparts : ∀ p ∈ parts,
      ReadsItem ((ahead s.toList).length + 1) (Stops 1) expression Expr.bare p :=
    fun p hp cs mid _ hcs hstops => expression_complete hcs (hd p hp) hstops
  have hends : EndsList (Stops 1) [] := ⟨fun _ hmid => .inl hmid, by simp⟩
  obtain ⟨rest, hrest, hread⟩ := commaSeparated_complete
    (fun mid r hnext => .inr ⟨.comma, r, hnext, trivial⟩) hne hparts (Nat.lt_succ_self _) hends hts
  obtain ⟨es, offset, hok, hes⟩ := reads_complete hrest hread.labelled 0
  exact ⟨es, readText_ok_iff.mpr ⟨firstStray?_of_lexes hts, _, hok⟩, hes⟩

/-- The text of a definition is read if and only if its tokens form one, and then as the definition
that they form. -/
theorem assignment_language {s : String} {a : Assignment} :
    (∃ b, Assignment.ofText s = .ok b ∧ b.bare = a.bare) ↔
      ∃ ts, Lexes s.toList ts [] ∧ DerivesAssignment ts a.bare := by
  constructor
  · rintro ⟨b, hb, hbare⟩
    obtain ⟨-, c, hc⟩ := readText_ok_iff.mp hb
    obtain ⟨ts, hts, hnil, hplaced⟩ := assignment_ok hc
    exact ⟨_, hnil ▸ hts.lexes, hbare ▸ hplaced.derives⟩
  · rintro ⟨ts, hts, hd⟩
    obtain ⟨b, offset, hb, hbare⟩ := assignment_complete hts hd 0
    exact ⟨b, readText_ok_iff.mpr ⟨firstStray?_of_lexes hts, _, hb⟩, hbare⟩

end DerivedStats
