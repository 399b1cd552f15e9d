import DerivedStats.Proofs.Grammar.Derivation
import DerivedStats.Proofs.Grammar.LongestMatch
import DerivedStats.Proofs.Grammar.Soundness

/-!
# Words side by side

What happens to the tokens of two words when one is written behind the other. The words here are
followed by a delimiter, a character that no token goes on with, so they keep their tokens
(`Writes`). The one exception is a sign in front of a name: `-` and then `Inf` is not a sign and a
name but the word for an infinity, and the rest of a qualified name is left alone with its point
(`signTokens`).

Main results: `Writes.sign`, and the other rules for `Writes`.
-/

namespace DerivedStats.Grammar

/-- The name is one that turns into an infinity behind a sign. -/
def isInfinityName (n : String) : Bool := n == "Inf" || n == "INF"

/-- The tokens of a sign directly in front of a word with the given tokens. -/
def signTokens (s : Sign) : List Token → List Token
  | .name none n :: ts =>
    if isInfinityName n then .infinity s :: ts else .ofSign s :: .name none n :: ts
  | .name (some k) n :: ts =>
    if isInfinityName k then .infinity s :: .point :: .name none n :: ts
    else .ofSign s :: .name (some k) n :: ts
  | ts => .ofSign s :: ts

/-- What follows ends the word in front of it, whatever the word is. -/
def Delimited (rest : List Char) : Prop :=
  rest = [] ∨ ∃ c cs, rest = c :: cs ∧ c ∈ [' ', ')', ',', '\x7d']

/-- What a delimiter starts does not start with a character of a class without delimiters. -/
theorem Delimited.not_any {rest : List Char} (h : Delimited rest) {p : Char → Bool}
    (hp : [' ', ')', ',', '\x7d'].any p = false) : rest.head?.any p = false := by
  rcases h with rfl | ⟨c, cs, rfl, hc⟩
  · rfl
  · simpa using List.any_eq_false.mp hp c hc

/-- What a delimiter starts does not start with any other character. -/
theorem Delimited.head_ne {rest : List Char} (h : Delimited rest) {x : Char}
    (hx : x ∉ [' ', ')', ',', '\x7d']) : rest.head? ≠ some x := by
  rcases h with rfl | ⟨c, cs, rfl, hc⟩
  · simp
  · rintro heq
    obtain rfl := Option.some.inj heq
    exact hx hc

/-- What a delimiter starts is no second part of a name. -/
theorem Delimited.not_point {rest : List Char} (h : Delimited rest) (c : Char) (cs : List Char)
    (hrest : rest = '.' :: c :: cs) : isNameStart c = false :=
  absurd (by rw [hrest]; rfl) (h.head_ne (by decide : '.' ∉ _))

/-! ## A sign in front -/

/-- A sign is written with one character, which is its symbol. -/
theorem symbol_ofSign (s : Sign) :
    ∃ c, s.symbol.toList = [c] ∧ (Token.ofSign s).symbol? = some [c] := by
  cases s
  · exact ⟨'+', rfl, rfl⟩
  · exact ⟨'-', rfl, rfl⟩

/-- A sign is a token of its own if it does not open an infinity. -/
theorem next_ofSign {s : Sign} {cs : List Char} (h : ¬ OpensInfinity (s.symbol.toList ++ cs)) :
    Next (s.symbol.toList ++ cs) (.ofSign s) cs := by
  obtain ⟨c, hc, hsymbol⟩ := symbol_ofSign s
  have hsign : c = '+' ∨ c = '-' := by
    cases s
    · exact .inl (List.cons.inj hc).1.symm
    · exact .inr (List.cons.inj hc).1.symm
  rw [hc] at h ⊢
  exact next_character hsymbol (fun _ => h) fun heq => by
    rcases hsign with rfl | rfl <;> simp at heq

/-- A sign and the name of an infinity behind it are one token. -/
theorem next_sign_infinity (s : Sign) {w rest : List Char} (h : w = "Inf".toList ∨ w = "INF".toList)
    (hend : rest.head?.any isNameChar = false) :
    Next (s.symbol.toList ++ (w ++ rest)) (.infinity s) rest :=
  next_infinity ⟨_, .infinity s h, by rw [List.append_assoc], fun _ _ => hend⟩

/-- A sign opens an infinity if the word behind it is a name of one. -/
theorem opensInfinity_sign {s : Sign} {cs : List Char} (h : OpensInfinity (s.symbol.toList ++ cs)) :
    ∃ w rest, (w = "Inf".toList ∨ w = "INF".toList) ∧ cs = w ++ rest
      ∧ rest.head?.any isNameChar = false := by
  obtain ⟨s', rest, w, hspell, htext, hend⟩ := h
  cases hspell with
  | symbol h => simp [Token.symbol?] at h
  | @infinity _ w hw =>
    refine ⟨w, rest, hw, ?_, hend _ rfl⟩
    obtain ⟨c, hc, -⟩ := symbol_ofSign s
    obtain ⟨c', hc', -⟩ := symbol_ofSign s'
    rw [hc, hc'] at htext
    exact (List.cons.inj htext).2

/-- There are two spellings of the infinity. -/
theorem isInfinityName_iff {w : List Char} :
    isInfinityName (String.ofList w) = true ↔ w = "Inf".toList ∨ w = "INF".toList := by
  have hofList : ∀ {v : String}, String.ofList w = v ↔ w = v.toList := by
    intro v
    rw [← String.toList_inj, String.toList_ofList]
  simp only [isInfinityName, Bool.or_eq_true, beq_iff_eq, hofList]

/-- The name behind a sign that opens an infinity. -/
theorem next_of_opensInfinity {s : Sign} {cs rest : List Char} {t : Token}
    (hnext : Next cs t rest) (h : OpensInfinity (s.symbol.toList ++ cs)) :
    (∃ n, t = .name none n ∧ isInfinityName n = true)
      ∨ ∃ k n, t = .name (some k) n ∧ isInfinityName k = true := by
  obtain ⟨w, after, hw, rfl, hend⟩ := opensInfinity_sign h
  have hname := isName_infinity hw
  by_cases hpoint : ∃ c ds, after = '.' :: c :: ds ∧ isNameStart c = true
  · obtain ⟨c, ds, rfl, hc⟩ := hpoint
    obtain ⟨v, rest', hds, hall, hend'⟩ := @exists_run isNameChar ds
    have hq := next_qualified hname (show IsName (c :: v) from ⟨c, v, rfl, hc, hall⟩) hend'
    rw [List.cons_append, ← hds] at hq
    obtain ⟨rfl, -⟩ := hnext.unique hq
    exact .inr ⟨_, _, rfl, isInfinityName_iff.mpr hw⟩
  · have hq := next_name hname hend fun c ds hds => by
      by_contra hc
      exact hpoint ⟨c, ds, hds, by simpa using hc⟩
    obtain ⟨rfl, -⟩ := hnext.unique hq
    exact .inl ⟨_, rfl, isInfinityName_iff.mpr hw⟩

/-! ## Words that keep their tokens -/

/-- The word is made of the tokens, whatever delimiter follows it. No spacing starts it, and a name
that it starts with does not stand in front of a point. -/
def Writes (w : List Char) (ts : List Token) : Prop :=
  ∀ rest, Delimited rest → ∃ t us mid, ts = t :: us ∧ Next (w ++ rest) t mid ∧ Lexes mid us rest
    ∧ ∀ k n, t = .name k n → mid.head? ≠ some '.'

/-- In front of a delimiter a word is made of its tokens. -/
theorem Writes.lexes {w rest : List Char} {ts : List Token} (h : Writes w ts)
    (hrest : Delimited rest) : Lexes (w ++ rest) ts rest := by
  obtain ⟨t, us, mid, rfl, hnext, hmore, -⟩ := h rest hrest
  exact .token (by rwa [hnext.ahead_eq]) hmore

/-- A word that is a single token. -/
theorem writes_token {w : List Char} {t : Token}
    (h : ∀ rest, Delimited rest → Next (w ++ rest) t rest) : Writes w [t] :=
  fun rest hrest =>
    ⟨t, [], rest, rfl, h rest hrest, .done rfl, fun _ _ _ => hrest.head_ne (by decide)⟩

/-- What a delimiter starts can be written behind a word. -/
theorem Writes.append {w v : List Char} {ts us : List Token} (h : Writes w ts)
    (hv : ∀ rest, Delimited rest → Delimited (v ++ rest) ∧ Lexes (v ++ rest) us rest) :
    Writes (w ++ v) (ts ++ us) := by
  intro rest hrest
  obtain ⟨hdelimited, hlexes⟩ := hv rest hrest
  obtain ⟨t, ts, mid, rfl, hnext, hmore, hpoint⟩ := h _ hdelimited
  exact ⟨t, ts ++ us, mid, rfl, by rwa [List.append_assoc], hmore.append hlexes, hpoint⟩

/-- A character that is a token of its own can be written in front of a word. -/
theorem Writes.character {c : Char} {w : List Char} {t : Token} {ts : List Token} (h : Writes w ts)
    (hc : t.symbol? = some [c]) (hplain : c ∉ ['+', '-', '=', '<', '>']) :
    Writes (c :: w) (t :: ts) := by
  intro rest hrest
  refine ⟨t, ts, w ++ rest, rfl, ?_, h.lexes hrest, fun k n ht => by simp [ht, Token.symbol?] at hc⟩
  simp only [List.mem_cons, List.not_mem_nil, or_false, not_or] at hplain
  refine next_character hc (fun hsign => ?_) fun hequals => ?_
  · rcases hsign with rfl | rfl
    · exact absurd rfl hplain.1
    · exact absurd rfl hplain.2.1
  · rcases hequals with rfl | rfl | rfl
    · exact absurd rfl hplain.2.2.1
    · exact absurd rfl hplain.2.2.2.1
    · exact absurd rfl hplain.2.2.2.2

/-- In front of anything but a name a sign is a token of its own. -/
theorem signTokens_of_not_name (s : Sign) {t : Token} {ts : List Token}
    (h : ∀ k n, t ≠ .name k n) : signTokens s (t :: ts) = .ofSign s :: t :: ts := by
  cases t with
  | name k n => exact absurd rfl (h k n)
  | _ => rfl

/-- **A sign directly in front of a word.** It is a token of its own unless the word starts with the
name of an infinity. -/
theorem Writes.sign {w : List Char} {ts : List Token} (s : Sign) (h : Writes w ts) :
    Writes (s.symbol.toList ++ w) (signTokens s ts) := by
  intro rest hrest
  obtain ⟨t, us, mid, rfl, hnext, hmore, hpoint⟩ := h rest hrest
  rw [List.append_assoc]
  have hplain : ¬ OpensInfinity (s.symbol.toList ++ (w ++ rest)) →
      signTokens s (t :: us) = .ofSign s :: t :: us →
      ∃ t' us' mid', signTokens s (t :: us) = t' :: us'
        ∧ Next (s.symbol.toList ++ (w ++ rest)) t' mid' ∧ Lexes mid' us' rest
        ∧ ∀ k n, t' = .name k n → mid'.head? ≠ some '.' :=
    fun hno htokens => ⟨_, _, w ++ rest, htokens, next_ofSign hno, h.lexes hrest,
      fun _ _ ht => by cases s <;> cases ht⟩
  -- only a name can become part of an infinity; of a qualified one the point and the second name
  -- are left
  by_cases hname : ∃ k n, t = .name k n
  · obtain ⟨k, n, rfl⟩ := hname
    cases k with
    | none =>
      by_cases hn : isInfinityName n = true
      · obtain ⟨v, -, rfl, hafter, hend, -⟩ := hnext.name
        rw [signTokens, if_pos hn, hafter]
        exact ⟨_, us, mid, rfl, next_sign_infinity s (isInfinityName_iff.mp hn) hend, hmore,
          fun _ _ => nofun⟩
      · refine hplain (fun hopens => hn ?_) (if_neg hn)
        rcases next_of_opensInfinity hnext hopens with ⟨n', heq, hn'⟩ | ⟨_, _, heq, -⟩
        · exact (Token.name.inj heq).2 ▸ hn'
        · exact nomatch heq
    | some k =>
      by_cases hk : isInfinityName k = true
      · obtain ⟨u, v, -, hv, rfl, rfl, hafter, hend⟩ := hnext.qualified
        rw [signTokens, if_pos hk, hafter]
        have hdot : Next ('.' :: (v ++ mid)) .point (v ++ mid) :=
          next_character rfl (by simp) (by simp)
        have hname : Next (v ++ mid) (.name none (String.ofList v)) mid :=
          next_name hv hend fun d ds hd => absurd (by rw [hd]; rfl) (hpoint _ _ rfl)
        refine ⟨_, _, '.' :: (v ++ mid), rfl, next_sign_infinity s (isInfinityName_iff.mp hk) rfl,
          ?_, fun _ _ => nofun⟩
        exact .token (by rwa [hdot.ahead_eq]) (.token (by rwa [hname.ahead_eq]) hmore)
      · refine hplain (fun hopens => hk ?_) (if_neg hk)
        rcases next_of_opensInfinity hnext hopens with ⟨_, heq, -⟩ | ⟨k', _, heq, hk'⟩
        · exact nomatch heq
        · obtain ⟨heq, -⟩ := Token.name.inj heq
          exact Option.some.inj heq ▸ hk'
  · have hno : ∀ k n, t ≠ .name k n := fun k n ht => hname ⟨k, n, ht⟩
    refine hplain (fun hopens => ?_) (signTokens_of_not_name s hno)
    rcases next_of_opensInfinity hnext hopens with ⟨n, rfl, -⟩ | ⟨k, n, rfl, -⟩
    · exact hno _ _ rfl
    · exact hno _ _ rfl

/-! ## Words in a row -/

/-- There is no space in a symbol. -/
theorem not_mem_symbol {t : Token} {w : List Char} (h : t.symbol? = some w) : ' ' ∉ w := by
  cases t with
  | number _ | infinity _ | name _ _ | quoted _ => simp [Token.symbol?] at h
  | operator o =>
    obtain rfl := Option.some.inj h
    cases o <;> decide
  | _ =>
    obtain rfl := Option.some.inj h
    decide

/-- What starts a text and is longer than a word in front of a space has this space in it. -/
theorem mem_of_longer {v w cs : List Char} (hlen : w.length < v.length)
    (hpre : v <+: w ++ ' ' :: cs) : ' ' ∈ v := by
  obtain ⟨r, hr⟩ := hpre
  obtain ⟨k, hk⟩ : ∃ k, v.length - w.length = k + 1 := ⟨v.length - w.length - 1, by omega⟩
  rw [show v = (w ++ ' ' :: cs).take v.length by rw [← hr, List.take_left], List.take_append, hk,
    List.take_succ_cons]
  simp

/-- A symbol in front of a space is not part of a longer token. -/
theorem next_spaced {t : Token} {w cs : List Char} (h : t.symbol? = some w) :
    Next (w ++ ' ' :: cs) t (' ' :: cs) := by
  refine next_symbol h (fun hopens => ?_) fun t' w' hw' hlen hpre =>
    not_mem_symbol hw' (mem_of_longer hlen hpre)
  obtain ⟨s, rest, v, hspell, htext, -⟩ := hopens
  have hlen : w.length < v.length := by
    have := symbol_length_le h
    rw [infinity_length hspell]
    omega
  have hmem := mem_of_longer hlen ⟨rest, htext.symm⟩
  cases hspell with
  | symbol h => simp [Token.symbol?] at h
  | infinity _ hv =>
    revert hmem
    rcases hv with rfl | rfl <;> cases s <;> decide

/-- An operator with spaces around it. -/
theorem lexes_spaced {t : Token} {w cs rest : List Char} {ts : List Token}
    (hw : t.symbol? = some w) (h : Lexes cs ts rest) :
    Lexes (' ' :: (w ++ ' ' :: cs)) (t :: ts) rest := by
  have hspace : ahead (' ' :: cs) = ahead cs := ahead_cons_of_isSpacing (by decide) cs
  have hnext : Next (w ++ ' ' :: cs) t (' ' :: cs) := next_spaced hw
  refine .token ?_ (h.of_ahead hspace.symm)
  rwa [ahead_cons_of_isSpacing (by decide), hnext.ahead_eq]

/-- Two words with an operator and spaces between them. -/
theorem Writes.spaced {t : Token} {o w v : List Char} {ts us : List Token} (hw : Writes w ts)
    (ho : t.symbol? = some o) (hv : Writes v us) :
    Writes (w ++ ' ' :: (o ++ ' ' :: v)) (ts ++ t :: us) := by
  refine hw.append fun rest hrest => ⟨.inr ⟨' ', _, rfl, by decide⟩, ?_⟩
  rw [List.cons_append, List.append_assoc, List.cons_append]
  exact lexes_spaced ho (hv.lexes hrest)

/-- A word in parentheses. -/
theorem Writes.group {w : List Char} {ts : List Token} (h : Writes w ts) :
    Writes ('(' :: (w ++ [')'])) (.openParen :: (ts ++ [.closeParen])) := by
  refine (h.append fun rest _ => ⟨.inr ⟨')', rest, rfl, by decide⟩, ?_⟩).character rfl (by decide)
  exact .single (next_character rfl (by simp) (by simp))

/-- Spacing in front of a text does not change what comes next. -/
theorem ahead_append_of_isSpacing {w : List Char} (h : ∀ c ∈ w, isSpacing c = true)
    (cs : List Char) : ahead (w ++ cs) = ahead cs :=
  List.dropWhile_append_of_pos h

/-- Two words with a comma and spacing between them. -/
theorem Writes.comma {w v blanks : List Char} {ts us : List Token} (hw : Writes w ts)
    (hblanks : ∀ c ∈ blanks, isSpacing c = true) (hv : Writes v us) :
    Writes (w ++ ',' :: (blanks ++ v)) (ts ++ .comma :: us) := by
  refine hw.append fun rest hrest => ⟨.inr ⟨',', _, rfl, by decide⟩, ?_⟩
  have hnext : Next (',' :: (blanks ++ v) ++ rest) .comma (blanks ++ v ++ rest) :=
    next_character rfl (by simp) (by simp)
  refine .token (by rwa [hnext.ahead_eq]) ((hv.lexes hrest).of_ahead ?_)
  rw [List.append_assoc, ahead_append_of_isSpacing hblanks]

/-- Words with commas and spacing between them. -/
theorem writes_intercalate {α : Type} {f : α → List Char} {g : α → List Token}
    {blanks : List Char} (hblanks : ∀ c ∈ blanks, isSpacing c = true) {as : List α} (hne : as ≠ [])
    (h : ∀ a ∈ as, Writes (f a) (g a)) :
    Writes (List.intercalate (',' :: blanks) (as.map f)) (List.intercalate [.comma] (as.map g)) := by
  induction as with
  | nil => exact absurd rfl hne
  | cons a as ih =>
    cases as with
    | nil => simpa using h a (by simp)
    | cons b as =>
      have hmore := (h a (by simp)).comma hblanks (ih (by simp) fun c hc => h c (by simp [hc]))
      simpa [List.intercalate_cons_cons] using hmore

end DerivedStats.Grammar
