import DerivedStats.Proofs.Formula.SampleLists
import DerivedStats.Proofs.Writing.Composition

/-!
# Filling a tree that was read back

A tree that was filled with samples is written and read back, and then it is filled again. There is
room for a list of samples where a mention stands directly among the arguments of a call, so the
other mentions (`Expr.looseMentions`) must have single samples. Then the filled tree is composed
(`Expr.Written.composed_fill`), and it is read back as another tree: its lists are spliced into the
calls, and its negative numbers are signed magnitudes. But no mention of it is loose that was not
loose before (`Expr.Composed.looseMentions_reading`), and both trees are written alike with whatever
is filled into them next (`Expr.Composed.text_fill_reading`).
-/

namespace DerivedStats

open Grammar

/-! ## Numbers -/

/-- What a number is read back as is written like the number. -/
theorem Number.text_reading (x : Float) : (reading x).text = text x := by
  unfold reading
  split
  · next h =>
    obtain ⟨hneg, hfinite⟩ := Bool.and_eq_true_iff.mp h
    obtain ⟨hnan, -⟩ := isNegative_iff.mp hneg
    rw [text_negative hneg (by simpa using hfinite), Expr.text, Expr.text, Expr.precedence,
      isNegative_magnitude hnan]
    rfl
  · rfl

/-- What a number is read back as binds as tightly as the number. -/
theorem Number.precedence_reading (s : Span) (x : Float) :
    (reading x).precedence = (Expr.literal s x).precedence := by
  unfold reading
  split
  · next h =>
    obtain ⟨hneg, -⟩ := Bool.and_eq_true_iff.mp h
    exact (if_pos hneg).symm
  · rfl

namespace Expr

/-! ## Mentions that are no arguments -/

mutual

/-- The mentions that do not stand directly among the arguments of a call, from left to right;
`argument` tells whether the tree itself stands there. -/
def looseMentions (argument : Bool) : Expr → List Mention
  | literal _ _ => []
  | mention _ m => if argument then [] else [m]
  | signed _ _ e => e.looseMentions false
  | binary _ l _ r => l.looseMentions false ++ r.looseMentions false
  | conditional _ c y n => c.looseMentions false ++ y.looseMentions false ++ n.looseMentions false
  | call _ _ es => looseMentionsOf true es
  | list _ es => looseMentionsOf argument es

/-- The mentions in several trees side by side that do not stand directly among arguments. -/
def looseMentionsOf (argument : Bool) : List Expr → List Mention
  | [] => []
  | e :: es => e.looseMentions argument ++ looseMentionsOf argument es

end

theorem looseMentionsOf_eq_flatMap (argument : Bool) (es : List Expr) :
    looseMentionsOf argument es = es.flatMap (looseMentions argument) := by
  induction es with
  | nil => simp [looseMentionsOf]
  | cons e es ih => simp [looseMentionsOf, ih]

theorem looseMentions_bare (e : Expr) :
    ∀ argument, e.bare.looseMentions argument = e.looseMentions argument := by
  have hall : ∀ {argument : Bool} {es : List Expr},
      (∀ e ∈ es, e.bare.looseMentions argument = e.looseMentions argument) →
      looseMentionsOf argument (es.map bare) = looseMentionsOf argument es := by
    intro argument es hes
    rw [looseMentionsOf_eq_flatMap, looseMentionsOf_eq_flatMap, List.flatMap_map]
    exact List.flatMap_congr hes
  induction e using induction_parts with
  | literal | mention => exact fun _ => rfl
  | signed s o e ih =>
    intro argument
    rw [bare, looseMentions, looseMentions, ih]
  | binary s l o r hl hr =>
    intro argument
    rw [bare, looseMentions, looseMentions, hl, hr]
  | conditional s c y n hc hy hn =>
    intro argument
    rw [bare, looseMentions, looseMentions, hc, hy, hn]
  | call s a es ih =>
    intro argument
    rw [bare, looseMentions, looseMentions, baresOf_eq_map, hall fun e he => ih e he true]
  | list s es ih =>
    intro argument
    rw [bare, looseMentions, looseMentions, baresOf_eq_map, hall fun e he => ih e he argument]

/-- A mention that no call encloses is no argument. -/
theorem mention_mem_looseMentions {site : Site} (hsite : site.insideAggregate = false) (e : Expr) :
    ∀ {inside argument : Bool}, (argument = true → inside = true) → site ∈ e.sites inside →
      site.mention ∈ e.looseMentions argument := by
  -- an operand is no argument
  have hoperand : ∀ {inside : Bool}, false = true → inside = true :=
    fun h => absurd h Bool.false_ne_true
  induction e using induction_parts with
  | literal =>
    intro inside argument _ h
    rw [sites] at h
    cases h
  | mention s m =>
    intro inside argument hinside h
    rw [sites] at h
    obtain rfl := List.mem_singleton.mp h
    cases argument with
    | false => exact List.mem_singleton_self m
    | true => exact absurd (hsite.symm.trans (hinside rfl)) Bool.false_ne_true
  | signed s o e ih =>
    intro inside argument _ h
    rw [sites] at h
    rw [looseMentions]
    exact ih hoperand h
  | binary s l o r hl hr =>
    intro inside argument _ h
    rw [sites, List.mem_append] at h
    rw [looseMentions, List.mem_append]
    exact h.imp (hl hoperand) (hr hoperand)
  | conditional s c y n hc hy hn =>
    intro inside argument _ h
    rw [sites, List.mem_append, List.mem_append] at h
    rw [looseMentions, List.mem_append, List.mem_append]
    exact h.imp (Or.imp (hc hoperand) (hy hoperand)) (hn hoperand)
  | call s a es ih =>
    intro inside argument _ h
    rw [sites, sitesOfAll_eq_flatMap] at h
    rw [looseMentions, looseMentionsOf_eq_flatMap]
    obtain ⟨e, he, h⟩ := List.mem_flatMap.mp h
    exact List.mem_flatMap.mpr ⟨e, he, ih e he id h⟩
  | list s es ih =>
    intro inside argument hinside h
    rw [sites, sitesOfAll_eq_flatMap] at h
    rw [looseMentions, looseMentionsOf_eq_flatMap]
    obtain ⟨e, he, h⟩ := List.mem_flatMap.mp h
    exact List.mem_flatMap.mpr ⟨e, he, ih e he hinside h⟩

/-! ## Filled trees -/

variable {value value' both : Mention → Option Expr}

/-- Filling in twice is filling in once what the two steps make of each mention. -/
theorem fill_fill (h : ∀ s m, ((mention s m).fill value).fill value' = (mention s m).fill both)
    (e : Expr) : (e.fill value).fill value' = e.fill both := by
  induction e using induction_parts with
  | literal => rfl
  | mention s m => exact h s m
  | signed s o e ih => rw [fill, fill, fill, ih]
  | binary s l o r hl hr => rw [fill, fill, fill, hl, hr]
  | conditional s c y n hc hy hn => rw [fill, fill, fill, hc, hy, hn]
  | call s a es ih | list s es ih =>
    rw [fill, fill, fill, fillAll_eq_map, fillAll_eq_map, fillAll_eq_map, List.map_map]
    exact congrArg _ (List.map_congr_left ih)

/-- A tree that was read is composed once it is filled, if only arguments are filled with lists. -/
theorem Written.composed_fill (hvalue : ∀ m e, value m = some e → Composed true e) {e : Expr}
    (h : e.Written False) : ∀ {argument : Bool},
      (∀ m ∈ e.looseMentions argument, ∀ e', value m = some e' → Composed false e') →
      Composed argument (e.fill value) := by
  induction h with
  | literal s v => exact fun _ => .literal _ s v
  | @mention s m h hnan =>
    intro argument hloose
    rw [fill]
    cases hm : value m with
    | none => exact .mention _ s h hnan
    | some e =>
      cases argument with
      | true => exact hvalue m e hm
      | false => exact hloose m (List.mem_singleton_self m) e hm
  | signed s o _ ih =>
    intro argument hloose
    rw [fill]
    rw [looseMentions] at hloose
    exact .signed _ s o (ih hloose)
  | binary s o _ _ hl hr =>
    intro argument hloose
    rw [fill]
    rw [looseMentions, List.forall_mem_append] at hloose
    exact .binary _ s o (hl hloose.1) (hr hloose.2)
  | conditional s _ _ _ hc hy hn =>
    intro argument hloose
    rw [fill]
    rw [looseMentions, List.forall_mem_append, List.forall_mem_append] at hloose
    exact .conditional _ s (hc hloose.1.1) (hy hloose.1.2) (hn hloose.2)
  | call s a hne _ ih =>
    intro argument hloose
    rw [fill, fillAll_eq_map]
    rw [looseMentions, looseMentionsOf_eq_flatMap] at hloose
    refine .call _ s a (by simpa using hne) (List.forall_mem_map.mpr fun e he => ih e he ?_)
    exact fun m hm => hloose m (List.mem_flatMap.mpr ⟨e, he, hm⟩)
  | list hlists => exact hlists.elim

/-- No mention becomes loose where others are filled. -/
theorem looseMentions_fill (hvalue : ∀ m e argument, value m = some e → e.looseMentions argument = [])
    (e : Expr) : ∀ {argument : Bool} {m : Mention}, m ∈ (e.fill value).looseMentions argument →
      m ∈ e.looseMentions argument := by
  induction e using induction_parts with
  | literal => exact id
  | mention s n =>
    intro argument m h
    rw [fill] at h
    cases hn : value n with
    | none => rwa [hn] at h
    | some e =>
      rw [hn, Option.getD_some, hvalue n e argument hn] at h
      cases h
  | signed s o e ih => exact ih
  | binary s l o r hl hr =>
    intro argument m h
    rw [fill, looseMentions, List.mem_append] at h
    rw [looseMentions, List.mem_append]
    exact h.imp hl hr
  | conditional s c y n hc hy hn =>
    intro argument m h
    rw [fill, looseMentions, List.mem_append, List.mem_append] at h
    rw [looseMentions, List.mem_append, List.mem_append]
    exact h.imp (Or.imp hc hy) hn
  | call s a es ih | list s es ih =>
    intro argument m h
    rw [fill, looseMentions, looseMentionsOf_eq_flatMap, fillAll_eq_map, List.flatMap_map] at h
    rw [looseMentions, looseMentionsOf_eq_flatMap]
    obtain ⟨e, he, h⟩ := List.mem_flatMap.mp h
    exact List.mem_flatMap.mpr ⟨e, he, ih e he h⟩

/-! ## Trees that are read back -/

theorem IsConstant.fill_eq {e : Expr} (h : e.IsConstant) : e.fill value = e := by
  cases h <;> rfl

theorem IsConstant.looseMentions_eq {e : Expr} (h : e.IsConstant) (argument : Bool) :
    e.looseMentions argument = [] := by
  cases h <;> rfl

/-- A mention that is loose in the tree that is read back was loose before. -/
theorem Composed.looseMentions_reading {argument : Bool} {e : Expr} (h : Composed argument e) :
    ∀ p ∈ e.items, ∀ m ∈ p.reading.looseMentions argument, m ∈ e.looseMentions argument := by
  have hall : ∀ {es : List Expr},
      (∀ e ∈ es, ∀ p ∈ e.items, ∀ m ∈ p.reading.looseMentions true, m ∈ e.looseMentions true) →
      ∀ p ∈ spliceAll es, ∀ m ∈ p.reading.looseMentions true, m ∈ looseMentionsOf true es := by
    intro es hes p hp m hm
    rw [spliceAll_eq_flatMap] at hp
    obtain ⟨e, he, hp⟩ := List.mem_flatMap.mp hp
    rw [looseMentionsOf_eq_flatMap]
    exact List.mem_flatMap.mpr ⟨e, he, hes e he p hp m hm⟩
  induction h with
  | literal argument s v =>
    refine List.forall_mem_singleton.mpr fun m hm => ?_
    rw [splice, reading, (isConstant_reading v).looseMentions_eq] at hm
    cases hm
  | mention => exact List.forall_mem_singleton.mpr fun m hm => hm
  | signed _ s o h ih => exact List.forall_mem_singleton.mpr (h.of_items ih)
  | binary _ s o hl hr ihl ihr =>
    refine List.forall_mem_singleton.mpr fun m hm => ?_
    rw [splice, reading, looseMentions, List.mem_append] at hm
    rw [looseMentions, List.mem_append]
    exact hm.imp (hl.of_items ihl m) (hr.of_items ihr m)
  | conditional _ s hc hy hn ihc ihy ihn =>
    refine List.forall_mem_singleton.mpr fun m hm => ?_
    rw [splice, reading, looseMentions, List.mem_append, List.mem_append] at hm
    rw [looseMentions, List.mem_append, List.mem_append]
    exact hm.imp (Or.imp (hc.of_items ihc m) (hy.of_items ihy m)) (hn.of_items ihn m)
  | call _ s a hne h ih =>
    refine List.forall_mem_singleton.mpr fun m hm => ?_
    rw [splice, reading, looseMentions, readingsOf_eq_map, looseMentionsOf_eq_flatMap,
      List.flatMap_map] at hm
    obtain ⟨p, hp, hm⟩ := List.mem_flatMap.mp hm
    exact hall ih p hp m hm
  | list s _ _ ih => exact hall ih

/-- What a filled item is read back as binds as tightly as the item. -/
theorem precedence_fill_reading (e : Expr) :
    (e.splice.reading.fill value).precedence = (e.fill value).precedence := by
  cases e with
  | literal s v =>
    rw [splice, reading, (isConstant_reading v).fill_eq]
    exact Number.precedence_reading s v
  | mention s m =>
    rw [splice, reading, fill, fill]
    cases value m <;> rfl
  | _ => rfl

/-- A tree that is no list is read back as a single item, written like the tree. -/
theorem Composed.text_fill_splice {e : Expr} (h : Composed false e)
    (htext : ", ".intercalate (e.items.map fun p => (p.reading.fill value).text)
      = (e.fill value).text) : (e.splice.reading.fill value).text = (e.fill value).text := by
  rwa [h.items_eq, List.map_singleton, String.intercalate_singleton] at htext

/-- **The tree that is read back is written alike**, with whatever is filled into it. -/
theorem Composed.text_fill_reading {argument : Bool} {e : Expr} (h : Composed argument e) :
    ", ".intercalate (e.items.map fun p => (p.reading.fill value).text) = (e.fill value).text := by
  have hsingle : ∀ {p e : Expr}, (p.reading.fill value).text = (e.fill value).text →
      ", ".intercalate ([p].map fun p => (p.reading.fill value).text) = (e.fill value).text := by
    intro p e htext
    rwa [List.map_singleton, String.intercalate_singleton]
  induction h with
  | literal _ s v =>
    refine hsingle ?_
    rw [splice, reading, (isConstant_reading v).fill_eq, Number.text_reading]
    rfl
  | mention _ s =>
    refine hsingle ?_
    rw [splice, reading, fill, fill]
    cases value _ <;> rfl
  | signed _ s o h ih =>
    refine hsingle ?_
    rw [splice, reading, fill, fill, text, text, precedence_fill_reading, h.text_fill_splice ih]
  | binary _ s o hl hr ihl ihr =>
    refine hsingle ?_
    rw [splice, reading, fill, fill, text, text, precedence_fill_reading, precedence_fill_reading,
      hl.text_fill_splice ihl, hr.text_fill_splice ihr]
  | conditional _ s hc hy hn ihc ihy ihn =>
    refine hsingle ?_
    rw [splice, reading, fill, fill, text, text, precedence_fill_reading, hc.text_fill_splice ihc,
      hy.text_fill_splice ihy, hn.text_fill_splice ihn]
  | call _ s a _ h ih =>
    refine hsingle ?_
    rw [splice, reading, fill, fill, text, text]
    simp only [readingsOf_eq_map, fillAll_eq_map, texts_eq_map, List.map_map, Function.comp_def]
    rw [intercalate_spliceAll (fun e he => (h e he).items_ne_nil) ih]
  | list s _ h ih =>
    rw [items, fill, text, fillAll_eq_map, texts_eq_map, List.map_map,
      intercalate_spliceAll (fun e he => (h e he).items_ne_nil) ih]
    rfl

end Expr

end DerivedStats
