import DerivedStats.Proofs.Formula.SampleLists

/-!
# Which substitutions compile

A substitution writes a text, and this text need not compile. Several samples are written with
commas and without parentheses of their own, so where they stand between parentheses that are not
those of a call, or in the first branch of a conditional, the commas are caught there. And a sign in
front of a mention that begins with the name of an infinity makes a number of this name, with a
point or a brace behind it. There is no other way to fail (`Formula.compile_substitute_iff`).

Commas are never left over outside of all calls: there a substitution of several samples fails
(`Formula.spreads_filled`).
-/

namespace DerivedStats

open Grammar

namespace Expr

theorem spreads_bare (e : Expr) : e.bare.spreads = e.spreads := by
  induction e using induction_parts with
  | literal | mention | call | list => rfl
  | signed s o e ih => rw [bare, spreads, spreads, ih]
  | binary s l o r hl hr => rw [bare, spreads, spreads, hl, hr]
  | conditional s c y n hc hy hn => rw [bare, spreads, spreads, hc, hy, hn]

/-- A tree that was read has no lists. -/
theorem Written.spreads_eq_false {e : Expr} (h : e.Written False) : e.spreads = false := by
  induction h with
  | literal | mention | call => rfl
  | signed s o _ ih => rw [spreads, ih]
  | binary s o _ _ hl hr =>
    rw [spreads, hl, hr]
    rfl
  | conditional s _ _ _ hc hy hn =>
    rw [spreads, hc, hy, hn]
    rfl
  | list hlists => exact hlists.elim

/-- If a visitor puts no lists outside of calls, then none stand there behind it. -/
theorem spreads_replaceMentions {σ ε : Type} {visit : Visitor σ ε}
    (hvisit : ∀ state m s e, (visit state ⟨m, s, false⟩).2 = .ok (some e) → e.spreads = false)
    (e : Expr) : ∀ state, e.spreads = false → (e.replaceMentions visit false state).failure = none →
      (e.replaceMentions visit false state).tree.spreads = false := by
  induction e using induction_parts with
  | literal s v =>
    intro state _ _
    rw [replaceMentions]
    rfl
  | mention s m =>
    intro state _ h
    obtain ⟨r, hr, htree⟩ := replaceMentions_mention_of_none h
    rw [← spreads_bare, htree, spreads_bare]
    cases r with
    | none => rfl
    | some e => exact hvisit state m s e hr
  | signed s o e ih =>
    intro state hspreads h
    rw [replaceMentions] at h ⊢
    exact ih state hspreads h
  | binary s l o r hl hr =>
    intro state hspreads h
    rw [spreads, Bool.or_eq_false_iff] at hspreads
    rw [replaceMentions] at h ⊢
    obtain ⟨hfirst, hmore, htree⟩ := Replaced.andThen_of_none h
    rw [Replaced.map, htree, spreads, hl state hspreads.1 hfirst, hr _ hspreads.2 hmore]
    rfl
  | conditional s c y n hc hy hn =>
    intro state hspreads h
    rw [spreads, Bool.or_eq_false_iff, Bool.or_eq_false_iff] at hspreads
    rw [replaceMentions] at h ⊢
    obtain ⟨hfirst, hmore, htree⟩ := Replaced.andThen_of_none h
    obtain ⟨hsecond, hmore, htree'⟩ := Replaced.andThen_of_none hmore
    rw [Replaced.map, htree, htree', spreads, hc state hspreads.1.1 hfirst,
      hy _ hspreads.1.2 hsecond, hn _ hspreads.2 hmore]
    rfl
  | call s a es ih =>
    intro state _ _
    rw [replaceMentions]
    rfl
  | list =>
    intro state hspreads
    cases hspreads

end Expr

namespace Formula

variable {f : Formula} {samples : Samples}

/-- Outside of calls there is room for one sample only. -/
theorem spreads_replacement {source : String} {s : Statistic} {site : Site} {list : List Float}
    {e : Expr} (hsite : site.insideAggregate = false)
    (h : replacement source s site list = .ok e) : e.spreads = false := by
  unfold replacement at h
  split at h
  · obtain rfl := Except.ok.inj h
    rfl
  · obtain rfl := Except.ok.inj h
    rfl
  · rw [if_neg (Bool.eq_false_iff.mp hsite)] at h
    exact nomatch h

/-- Outside of calls no list is put in place of a mention. -/
theorem spreads_substituting (journal : List Event) (m : Mention) (s : Span) (e : Expr)
    (h : (f.substituting samples journal ⟨m, s, false⟩).2 = .ok (some e)) : e.spreads = false := by
  unfold substituting at h
  simp only at h
  split at h
  · exact nomatch h
  · next list _ =>
    cases hreplace : replacement f.source (m.resolve f.category) ⟨m, s, false⟩ list with
    | error report =>
      rw [hreplace] at h
      exact nomatch h
    | ok e' =>
      rw [hreplace] at h
      obtain rfl := Option.some.inj (Except.ok.inj h)
      exact spreads_replacement rfl hreplace

/-- **A substitution leaves no list outside of all calls.** -/
theorem spreads_filled {text : String} (hbody : f.assignment.body.bare.Written False)
    (htext : f.substitute samples = .ok text) : (f.filled samples).body.spreads = false := by
  unfold substitute substitution at htext
  simp only at htext
  split at htext
  · exact nomatch htext
  · next hnone =>
    have hbare := Expr.bare_replaceMentions (decides_substituting f samples) _ _ _ hnone
    have hno : f.assignment.body.spreads = false :=
      (Expr.spreads_bare _).symm.trans hbody.spreads_eq_false
    have htree := Expr.spreads_replaceMentions spreads_substituting _ _ hno hnone
    rw [filled, ← Expr.spreads_bare, Expr.bare_fill, ← hbare, Expr.spreads_bare]
    exact htree

/-- **Which substitutions compile.** The text of a substitution compiles if and only if no comma of
a sample list is caught and no sign makes an infinity of a part of a mention. -/
theorem compile_substitute_iff {source category text : String} (hf : compile source category = .ok f)
    (htext : f.substitute samples = .ok text) :
    (∃ g, compile text category = .ok g) ↔
      (f.filled samples).body.Fits ∧ (f.filled samples).body.joined.signsInfinity = false := by
  obtain ⟨-, hcategory, a, ha, rfl⟩ := compile_ok.mp hf
  obtain ⟨hspelled, hbody, -⟩ := Assignment.written_of_ofText ha
  have htarget : (filled ⟨source, category, a⟩ samples).target.IsSpelled := hspelled
  have hwritten : (filled ⟨source, category, a⟩ samples).body.Written True :=
    Expr.written_fill (fun _ _ => Expr.written_filler) hbody
  have hspreads := spreads_filled hbody htext
  obtain rfl := substitute_ok htext
  constructor
  · rintro ⟨g, hg⟩
    obtain ⟨hfits, -, hno⟩ := hwritten.fits_of_derives (derives_of_compile htarget hwritten hg)
    exact ⟨hfits, hno⟩
  · rintro ⟨hfits, hno⟩
    obtain ⟨d, hderives⟩ := hwritten.derives_iff.mpr ⟨hfits, hspreads, hno⟩
    obtain ⟨g, hg, -⟩ := compile_text hcategory htarget hwritten hderives
    exact ⟨g, hg⟩

/-- The comma of two samples in a sum that is the operand of a product. -/
theorem compile_substitute_caught_list :
    ∃ f, compile "x = SUM(2 * (w\x7bm:\"*\"\x7d + 1))" "c" = .ok f
      ∧ f.substitute (Table.empty.insert ⟨"c", "w", .ofList [("m", "*")]⟩ [5.0, 6.0])
        = .ok "x = SUM(2 * (5, 6 + 1))"
      ∧ ¬ ∃ g, compile "x = SUM(2 * (5, 6 + 1))" "c" = .ok g := by
  have hread : (compile "x = SUM(2 * (w\x7bm:\"*\"\x7d + 1))" "c").toOption.map (fun f =>
      ((f.substitute (Table.empty.insert ⟨"c", "w", .ofList [("m", "*")]⟩ [5.0, 6.0])).toOption,
        decide (f.filled (Table.empty.insert ⟨"c", "w", .ofList [("m", "*")]⟩ [5.0, 6.0])).body.Fits))
      = some (some "x = SUM(2 * (5, 6 + 1))", false) := by
    decide +kernel
  obtain ⟨f, hf, hfacts⟩ := exists_ok_of_toOption hread
  obtain ⟨htext, hfits⟩ := Prod.mk.inj hfacts
  have htext := eq_ok_of_toOption htext
  exact ⟨f, hf, htext, fun hg =>
    of_decide_eq_false hfits ((compile_substitute_iff hf htext).mp hg).1⟩

/-- Directly among the arguments of a call nothing is caught: the comma separates arguments. -/
example : (compile "x = SUM(w\x7bm:\"*\"\x7d + 1) * 2" "c").toOption.map (fun f =>
    ((f.substitute (Table.empty.insert ⟨"c", "w", .ofList [("m", "*")]⟩ [5.0, 6.0])).toOption,
      decide (f.filled (Table.empty.insert ⟨"c", "w", .ofList [("m", "*")]⟩ [5.0, 6.0])).body.Fits))
    = some (some "x = SUM(5, 6 + 1) * 2", true) := by
  decide +kernel

end Formula

end DerivedStats
