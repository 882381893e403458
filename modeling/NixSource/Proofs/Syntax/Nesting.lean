import NixSource.Proofs.Syntax.Pairing

/-! The brackets among the tokens of a text are in pairs when those of the text are, and commas and
colons outside of them are tokens only if they are so in the text. -/

namespace NixSource

namespace Token

def opensGroup : Token → Bool
  | openParen | openBracket | openBrace => true
  | _ => false

def closesGroup : Token → Bool
  | closeParen | closeBracket | closeBrace => true
  | _ => false

/-- Whether a token separates what is on both its sides. -/
def separates : Token → Bool
  | comma | colon => true
  | _ => false

end Token

/-- Tokens close `depth` groups that are open before them, and those that they open themselves, and
what separates is in groups only. -/
inductive Nested : Nat → List Token → Prop where
  | nil : Nested 0 []
  | plain {depth : Nat} {t : Token} {ts : List Token} : t.opensGroup = false →
      t.closesGroup = false → (t.separates = true → 0 < depth) → Nested depth ts →
      Nested depth (t :: ts)
  | opening {depth : Nat} {t : Token} {ts : List Token} : t.opensGroup = true →
      Nested (depth + 1) ts → Nested depth (t :: ts)
  | closing {depth : Nat} {t : Token} {ts : List Token} : t.closesGroup = true →
      Nested depth ts → Nested (depth + 1) (t :: ts)

/-- Outside of all groups no token is a colon, and so the last one is none. -/
theorem Nested.getLast?_ne_colon {depth : Nat} {ts : List Token} (h : Nested depth ts) :
    ts.getLast? ≠ some .colon := by
  induction h with
  | nil => nofun
  | @plain depth t ts hopen hclose hsep h ih =>
    cases ts with
    | nil =>
      cases h
      rintro ⟨⟩
      exact absurd (hsep rfl) (Nat.lt_irrefl 0)
    | cons u us => rwa [List.getLast?_cons_cons]
  | @opening depth t ts hopen h ih =>
    cases ts with
    | nil => cases h
    | cons u us => rwa [List.getLast?_cons_cons]
  | @closing depth t ts hclose h ih =>
    cases ts with
    | nil =>
      rintro ⟨⟩
      cases hclose
    | cons u us => rwa [List.getLast?_cons_cons]

variable {free : Bool} {depth : Nat} {c : Char} {cs : List Char}

/-- Behind an ordinary character that is no space the same groups are open. -/
theorem Closes.tail (h : Closes free depth (c :: cs)) (hc : isOrdinary c = true) (hne : c ≠ ' ') :
    Closes free depth cs ∧ (separates c = true → free = true ∨ 0 < depth) := by
  generalize htext : c :: cs = text at h
  cases h with
  | nil => cases htext
  | char _ hsep h =>
    cases htext
    exact ⟨h, hsep⟩
  | opening ho h =>
    cases htext
    simp [isOrdinary, ho] at hc
  | closing ho h =>
    cases htext
    simp [isOrdinary, ho] at hc
  | literal s h =>
    cases htext
    cases hc
  | searchPath hp h =>
    obtain ⟨body, rfl, -⟩ := exists_searchPath_eq hp
    cases htext
    cases hc
  | uri hu h =>
    cases htext
    exact absurd rfl hne

theorem Closes.drop {taken : List Char} (h : Closes free depth (taken ++ cs))
    (htaken : ∀ c ∈ taken, isOrdinary c = true ∧ c ≠ ' ') : Closes free depth cs := by
  induction taken with
  | nil => exact h
  | cons c taken ih =>
    obtain ⟨hc, hrest⟩ := List.forall_mem_cons.mp htaken
    exact ih (h.tail hc.1 hc.2).1 hrest

/-- A token that begins with an ordinary character is made of such, and opens and closes nothing. -/
theorem ordinary_of_spells {t : Token} {taken : List Char} (h : t.Spells (c :: taken))
    (hc : isOrdinary c = true) :
    (∀ d ∈ c :: taken, isOrdinary d = true ∧ d ≠ ' ') ∧ t.opensGroup = false ∧
      t.closesGroup = false ∧ (t.separates = true → separates c = true) := by
  have hsign : ∀ {text : List Char}, (text.all fun d => isOrdinary d && d != ' ') = true →
      ∀ d ∈ text, isOrdinary d = true ∧ d ≠ ' ' := by
    simp
  cases t with
  | keyword k => exact ⟨fun d hd => isOrdinary_of_class rfl (h d hd), rfl, rfl, nofun⟩
  | name s => exact ⟨fun d hd => isOrdinary_of_class rfl (h d hd), rfl, rfl, nofun⟩
  | uri s => exact ⟨fun d hd => isOrdinary_of_class rfl (h d hd), rfl, rfl, nofun⟩
  | integer n =>
    exact ⟨fun d hd => isOrdinary_of_class (p := fun c => c.isDigit || c == '.') rfl
      (by simpa using h d hd), rfl, rfl, nofun⟩
  | decimal n =>
    exact ⟨fun d hd => isOrdinary_of_class (p := fun c => c.isDigit || c == '.') rfl
      (by simpa using h d hd), rfl, rfl, nofun⟩
  | string s =>
    obtain ⟨⟨⟩, -⟩ := h
    cases hc
  | path p =>
    rcases h with h | ⟨⟨⟩, -⟩
    · exact ⟨fun d hd => isOrdinary_of_class (p := fun c => isPathChar c || c == '/' || c == '~')
        rfl (by simpa [or_assoc] using h d hd), rfl, rfl, nofun⟩
    · cases hc
  | _ =>
    cases h
    first
      | exact ⟨hsign rfl, rfl, rfl, by decide⟩
      | cases hc

theorem lex_searchPath {p : List Char} (h : isSearchPath p = true) (rest : List Char) :
    lex (p ++ rest) = prepend [.path (String.ofList p)] (lex rest) := by
  have hread := readPath?_searchPath h rest
  obtain ⟨body, rfl, -⟩ := exists_searchPath_eq h
  rw [List.cons_append] at hread ⊢
  refine lex_token rfl ?_
  rw [token?, show readUri? ('<' :: (body ++ ['>'] ++ rest)) = none from rfl, hread]

/-- A text with tokens begins with a blank or with the first of them. -/
theorem lex_cons_cases {ts : List Token} (h : lex (c :: cs) = some ts) :
    isBlank c = true ∧ lex cs = some ts ∨
      ∃ t r us, token? (c :: cs) = some (t, r) ∧ lex r = some us ∧ ts = t :: us := by
  rw [lex] at h
  split at h
  · next hblank => exact .inl ⟨hblank, h⟩
  · split at h
    · next t r htoken =>
      obtain ⟨us, hus, rfl⟩ := Option.map_eq_some_iff.mp h
      exact .inr ⟨t, r, us, htoken, hus, rfl⟩
    · cases h

theorem exists_of_prepend {ts us : List Token} {r : Option (List Token)}
    (h : prepend ts r = some us) : ∃ vs, r = some vs ∧ us = ts ++ vs := by
  obtain ⟨vs, hvs, rfl⟩ := Option.map_eq_some_iff.mp h
  exact ⟨vs, hvs, rfl⟩

theorem exists_sign_of_opensGroup (h : opensGroup c = true) :
    ∃ t, sign? c = some t ∧ t.opensGroup = true ∧ isPathChar c = false := by
  rcases eq_of_opensGroup h with rfl | rfl | rfl <;> exact ⟨_, rfl, rfl, rfl⟩

theorem exists_sign_of_closesGroup (h : closesGroup c = true) :
    ∃ t, sign? c = some t ∧ t.closesGroup = true ∧ isPathChar c = false := by
  rcases eq_of_closesGroup h with rfl | rfl | rfl <;> exact ⟨_, rfl, rfl, rfl⟩

/-- The tokens of a text nest as its characters do. The induction is on the length of the text,
since a token takes several characters at once. -/
theorem nested_of_closes {text : List Char} {ts : List Token} (h : Closes false depth text)
    (hlex : lex text = some ts) : Nested depth ts := by
  induction hn : text.length using Nat.strong_induction_on generalizing text depth ts with
  | _ n ih =>
  cases h with
  | nil =>
    rw [lex_nil] at hlex
    cases hlex
    exact .nil
  | @char depth c cs hc hsep h =>
    rcases lex_cons_cases hlex with ⟨-, hcs⟩ | ⟨t, r, us, htoken, hus, rfl⟩
    · exact ih _ (by simp [← hn]) h hcs rfl
    · have hlt := length_of_token? htoken
      obtain ⟨taken, htext, hspells⟩ := exists_spelling htoken
      cases taken with
      | nil =>
        rw [htext] at hlt
        exact absurd hlt (Nat.lt_irrefl _)
      | cons d taken =>
        obtain ⟨rfl, rfl⟩ := List.cons.inj htext
        obtain ⟨hordinary, hopen, hclose, hmark⟩ := ordinary_of_spells hspells hc
        have hr := h.drop fun d hd => hordinary d (List.mem_cons_of_mem _ hd)
        refine .plain hopen hclose (fun ht => ?_) (ih _ (hn ▸ hlt) hr hus rfl)
        exact (hsep (hmark ht)).resolve_left nofun
  | opening ho h =>
    obtain ⟨t, ht, hopen, hpath⟩ := exists_sign_of_opensGroup ho
    rw [lex_sign ht hpath] at hlex
    obtain ⟨us, hus, rfl⟩ := exists_of_prepend hlex
    exact .opening hopen (ih _ (by simp [← hn]) h hus rfl)
  | closing ho h =>
    obtain ⟨t, ht, hclose, hpath⟩ := exists_sign_of_closesGroup ho
    rw [lex_sign ht hpath] at hlex
    obtain ⟨us, hus, rfl⟩ := exists_of_prepend hlex
    exact .closing hclose (ih _ (by simp [← hn]) h hus rfl)
  | @literal depth s cs h =>
    rw [lex_stringLiteral] at hlex
    obtain ⟨us, hus, rfl⟩ := exists_of_prepend hlex
    have hlt : cs.length < n := by
      have hquote : 0 < (stringLiteral s).length := Nat.succ_pos _
      rw [← hn, List.length_append]
      omega
    exact .plain rfl rfl nofun (ih _ hlt h hus rfl)
  | @searchPath depth p cs hp h =>
    rw [lex_searchPath hp] at hlex
    obtain ⟨us, hus, rfl⟩ := exists_of_prepend hlex
    have hlt : cs.length < n := by
      obtain ⟨body, rfl, -⟩ := exists_searchPath_eq hp
      have hbracket : 0 < ('<' :: (body ++ ['>'])).length := Nat.succ_pos _
      rw [← hn, List.length_append]
      omega
    exact .plain rfl rfl nofun (ih _ hlt h hus rfl)
  | @uri depth u cs hu h =>
    rw [lex_space, lex_uri_append hu] at hlex
    obtain ⟨us, hus, rfl⟩ := exists_of_prepend hlex
    have hlt : (cs.dropWhile isUriChar).length < n := by
      have hle := length_dropWhile_le isUriChar cs
      rw [← hn, List.length_cons, List.length_append]
      omega
    have hdrop : Closes false depth (cs.dropWhile isUriChar) := by
      rw [← List.takeWhile_append_dropWhile (p := isUriChar) (l := cs)] at h
      exact h.drop fun d hd =>
        isOrdinary_of_class rfl (List.all_eq_true.mp List.all_takeWhile d hd)
    exact .plain rfl rfl nofun (ih _ hlt hdrop hus rfl)

end NixSource
