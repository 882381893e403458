import NixSource.Layout
import NixSource.Proofs.Text.StringLiteral
import Mathlib.Data.List.Basic

/-! Words, signs and strings in their surroundings: what each may be followed by to be read for
itself. -/

namespace NixSource

/-- Tokens in front of those of a text, if that has any. -/
def prepend (ts : List Token) (r : Option (List Token)) : Option (List Token) :=
  r.map (ts ++ ·)

@[simp] theorem prepend_nil (r : Option (List Token)) : prepend [] r = r := by
  simp [prepend]

@[simp] theorem prepend_prepend (ts us : List Token) (r : Option (List Token)) :
    prepend ts (prepend us r) = prepend (ts ++ us) r := by
  simp [prepend, Function.comp_def]

@[simp] theorem lex_nil : lex [] = some [] := by
  rw [lex]

theorem lex_blank {c : Char} (h : isBlank c = true) (cs : List Char) : lex (c :: cs) = lex cs := by
  rw [lex, if_pos h]

theorem lex_token {c : Char} {cs rest : List Char} {t : Token} (hc : isBlank c = false)
    (h : token? (c :: cs) = some (t, rest)) : lex (c :: cs) = prepend [t] (lex rest) := by
  rw [lex, if_neg (by simp [hc])]
  split
  · next h' =>
    rw [h] at h'
    cases h'
    rfl
  · next h' =>
    rw [h] at h'
    cases h'

@[simp] theorem lex_space (cs : List Char) : lex (' ' :: cs) = lex cs :=
  lex_blank rfl cs

theorem lex_blanks {bs : List Char} (h : ∀ c ∈ bs, isBlank c = true) (cs : List Char) :
    lex (bs ++ cs) = lex cs := by
  induction bs with
  | nil => rfl
  | cons b bs ih =>
    rw [List.cons_append, lex_blank (h b List.mem_cons_self)]
    exact ih fun c hc => h c (List.mem_cons_of_mem b hc)

theorem isBlank_of_mem_newline {newline : Newline} {c : Char} (h : c ∈ newline.text) :
    isBlank c = true := by
  cases newline <;> simp [Newline.text] at h <;> rcases h with rfl | rfl <;> rfl

theorem isBlank_of_mem_indent {layout : Layout} {level : Nat} {c : Char}
    (h : c ∈ layout.indent level) : isBlank c = true := by
  unfold Layout.indent at h
  split at h <;> rw [List.eq_of_mem_replicate h] <;> rfl

@[simp] theorem lex_newline (newline : Newline) (cs : List Char) :
    lex (newline.text ++ cs) = lex cs :=
  lex_blanks (fun _ h => isBlank_of_mem_newline h) cs

@[simp] theorem lex_indent (layout : Layout) (level : Nat) (cs : List Char) :
    lex (layout.indent level ++ cs) = lex cs :=
  lex_blanks (fun _ h => isBlank_of_mem_indent h) cs

/-- A run of characters ends where the next one is of another kind. -/
theorem takeWhile_dropWhile_append {p : Char → Bool} {cs rest : List Char}
    (h : ∀ c ∈ cs, p c = true) (hr : ∀ c, rest.head? = some c → p c = false) :
    (cs ++ rest).takeWhile p = cs ∧ (cs ++ rest).dropWhile p = rest := by
  rw [List.takeWhile_append_of_pos h, List.dropWhile_append_of_pos h]
  cases rest with
  | nil => simp
  | cons c rest => simp [hr c rfl]

/-- Characters with no slash among them add none to the run that they are part of. -/
theorem slash_not_mem_pathRun (cs : List Char) {rest : List Char} (h : '/' ∉ cs)
    (hr : '/' ∉ (pathRun rest).1) : '/' ∉ (pathRun (cs ++ rest)).1 := by
  induction cs with
  | nil => exact hr
  | cons c cs ih =>
    rw [List.mem_cons, not_or] at h
    rw [List.cons_append, pathRun]
    split
    · exact List.not_mem_cons_of_ne_of_not_mem h.1 (ih h.2)
    · exact List.not_mem_nil

theorem readPath?_eq_none {c : Char} {cs : List Char} (hc : c ≠ '<' ∧ c ≠ '~')
    (h : '/' ∉ (pathRun (c :: cs)).1) : readPath? (c :: cs) = none := by
  unfold readPath?
  split
  · next heq => exact absurd (List.cons.inj heq).1 hc.1
  · next heq => exact absurd (List.cons.inj heq).1 hc.2
  · simp [h]

theorem token?_of_plain {cs : List Char} (hu : readUri? cs = none) (hp : readPath? cs = none) :
    token? cs = plainToken? cs := by
  rw [token?, hu, hp]

/-- A sign that no path goes on from is a token whatever follows it. -/
theorem lex_sign {c : Char} {t : Token} (h : sign? c = some t) (hp : isPathChar c = false)
    (rest : List Char) : lex (c :: rest) = prepend [t] (lex rest) := by
  unfold sign? at h
  split at h <;> first
    | (cases h; exact lex_token rfl rfl)
    | (cases h; exact absurd hp (by decide))
    | cases h

/-- A minus sign could begin a path. -/
theorem lex_minus {rest : List Char} (h : '/' ∉ (pathRun rest).1) :
    lex ('-' :: rest) = prepend [.minus] (lex rest) := by
  have hp : readPath? ('-' :: rest) = none :=
    readPath?_eq_none (by decide) (slash_not_mem_pathRun ['-'] (by decide) h)
  apply lex_token rfl
  rw [token?_of_plain rfl hp]
  rfl

/-- A point could begin a path or an ellipsis. -/
theorem lex_dot {c : Char} {rest : List Char} (hc : c ≠ '.')
    (h : '/' ∉ (pathRun (c :: rest)).1) :
    lex ('.' :: c :: rest) = prepend [.dot] (lex (c :: rest)) := by
  have hp : readPath? ('.' :: c :: rest) = none :=
    readPath?_eq_none (by decide) (slash_not_mem_pathRun ['.'] (by decide) h)
  apply lex_token rfl
  rw [token?_of_plain rfl hp]
  simp [plainToken?, hc, isIdentifierStart, isLetter, sign?]

theorem lex_update (rest : List Char) :
    lex ('/' :: '/' :: rest) = prepend [.update] (lex rest) :=
  lex_token rfl rfl

theorem lex_ellipsis {rest : List Char} (h : '/' ∉ (pathRun rest).1) :
    lex ('.' :: '.' :: '.' :: rest) = prepend [.ellipsis] (lex rest) := by
  have hp : readPath? ('.' :: '.' :: '.' :: rest) = none :=
    readPath?_eq_none (by decide) (slash_not_mem_pathRun ['.', '.', '.'] (by decide) h)
  apply lex_token rfl
  rw [token?_of_plain rfl hp]
  rfl

/-- What may follow a word: nothing that goes on with it, nor with a URI or a path that it would
begin. -/
structure Apart (rest : List Char) : Prop where
  word_ends : ∀ c, rest.head? = some c → isIdentifierRest c = false
  no_uri : ∀ more, rest.dropWhile isSchemeChar = ':' :: more → more.takeWhile isUriChar = []
  no_path : '/' ∉ (pathRun rest).1

theorem apart_nil : Apart [] :=
  ⟨by simp, by simp, by simp [pathRun]⟩

theorem apart_cons {c : Char} (hw : isIdentifierRest c = false) (hs : isSchemeChar c = false)
    (hp : isPathChar c = false) (hc : c ≠ ':') (hc' : c ≠ '/') (rest : List Char) :
    Apart (c :: rest) := by
  refine ⟨by simp [hw], ?_, by simp [pathRun, hp, hc']⟩
  intro more h
  rw [List.dropWhile_cons_of_neg (by simp [hs])] at h
  exact absurd (List.cons.inj h).1 hc

theorem apart_colon (rest : List Char) : Apart (':' :: ' ' :: rest) := by
  refine ⟨by simp [isIdentifierRest]; decide, ?_, ?_⟩
  · intro more h
    rw [List.dropWhile_cons_of_neg (by decide)] at h
    rw [← (List.cons.inj h).2]
    rfl
  · simp [pathRun, show isPathChar ':' = false from rfl]

/-- Characters with no colon among them do not make a scheme of what follows. -/
theorem no_uri_append {cs rest : List Char} (hcs : ':' ∉ cs)
    (hr : ∀ more, rest.dropWhile isSchemeChar = ':' :: more → more.takeWhile isUriChar = [])
    {more : List Char} (h : (cs ++ rest).dropWhile isSchemeChar = ':' :: more) :
    more.takeWhile isUriChar = [] := by
  rw [List.dropWhile_append] at h
  split at h
  · exact hr more h
  · next hne =>
    -- The characters that are left begin in `cs`, where no colon is.
    have hleft : cs.dropWhile isSchemeChar ≠ [] := fun h => hne (by rw [h]; rfl)
    obtain ⟨x, xs, hx⟩ := List.exists_cons_of_ne_nil hleft
    rw [hx] at h
    have hmem : x ∈ cs := (List.dropWhile_suffix _).subset (hx ▸ List.mem_cons_self)
    exact absurd ((List.cons.inj h).1 ▸ hmem) hcs

theorem readUri?_eq_none {c : Char} {cs rest : List Char} (hcs : ':' ∉ cs) (hr : Apart rest) :
    readUri? (c :: (cs ++ rest)) = none := by
  rw [readUri?]
  split
  · split
    · next more h => rw [no_uri_append hcs hr.no_uri h]; rfl
    · rfl
  · rfl

theorem ne_of_class {p : Char → Bool} {c d : Char} (hc : p c = true) (hd : p d = false) :
    c ≠ d := by
  rintro rfl
  rw [hc] at hd
  cases hd

theorem not_isBlank_of_class {p : Char → Bool} {c : Char} (hc : p c = true) (hspace : p ' ' = false)
    (htab : p '\t' = false) (hfeed : p '\n' = false) (hreturn : p '\r' = false) :
    isBlank c = false := by
  simp [isBlank, ne_of_class hc hspace, ne_of_class hc htab, ne_of_class hc hfeed,
    ne_of_class hc hreturn]

theorem token?_word {w rest : List Char} (hw : isIdentifier w = true) (hr : Apart rest) :
    token? (w ++ rest) = some (wordToken (String.ofList w), rest) := by
  cases w with
  | nil => cases hw
  | cons c cs =>
    obtain ⟨hc, hcs⟩ : isIdentifierStart c = true ∧ ∀ d ∈ cs, isIdentifierRest d = true := by
      simpa [isIdentifier] using hw
    have hne : ∀ d, isIdentifierStart d = false → c ≠ d := fun d => ne_of_class hc
    have hmem : ∀ d, isIdentifierRest d = false → d ∉ cs := fun d hd hm =>
      ne_of_class (hcs d hm) hd rfl
    have hslash : '/' ∉ c :: cs := by
      rw [List.mem_cons, not_or]
      exact ⟨(hne '/' rfl).symm, hmem '/' rfl⟩
    have hu := readUri?_eq_none (c := c) (hmem ':' rfl) hr
    have hp : readPath? (c :: (cs ++ rest)) = none :=
      readPath?_eq_none ⟨hne '<' rfl, hne '~' rfl⟩
        (slash_not_mem_pathRun (c :: cs) hslash hr.no_path)
    obtain ⟨htake, hdrop⟩ := takeWhile_dropWhile_append hcs hr.word_ends
    rw [List.cons_append, token?_of_plain hu hp]
    simp [plainToken?, hne '"' rfl, hne '.' rfl, hne '/' rfl, hc, htake, hdrop]

theorem lex_word {w rest : List Char} (hw : isIdentifier w = true) (hr : Apart rest) :
    lex (w ++ rest) = prepend [wordToken (String.ofList w)] (lex rest) := by
  cases w with
  | nil => cases hw
  | cons c cs =>
    obtain ⟨hc, -⟩ : isIdentifierStart c = true ∧ ∀ d ∈ cs, isIdentifierRest d = true := by
      simpa [isIdentifier] using hw
    exact lex_token (not_isBlank_of_class hc rfl rfl rfl rfl) (token?_word hw hr)

theorem wordToken_of_isBareName {s : String} (h : isBareName s = true) :
    wordToken s = .name s := by
  have hnot : s ∉ keywords.map Prod.fst := by
    have hreserved : reservedWords = keywords.map Prod.fst := rfl
    rw [← hreserved]
    simpa [isBareName, isReserved] using (Bool.and_eq_true_iff.mp h).2
  have hnone : keywords.lookup s = none := by
    rw [List.lookup_eq_none_iff]
    intro p hp
    have hne : s ≠ p.1 := fun he => hnot (he ▸ List.mem_map_of_mem hp)
    simpa using hne
  rw [wordToken, hnone]

theorem token?_name {s : String} (h : isBareName s = true) {rest : List Char} (hr : Apart rest) :
    token? (s.toList ++ rest) = some (.name s, rest) := by
  have hid : isIdentifier s.toList = true := (Bool.and_eq_true_iff.mp h).1
  rw [token?_word hid hr, String.ofList_toList, wordToken_of_isBareName h]

theorem lex_name {s : String} (h : isBareName s = true) {rest : List Char} (hr : Apart rest) :
    lex (s.toList ++ rest) = prepend [.name s] (lex rest) := by
  have hid : isIdentifier s.toList = true := (Bool.and_eq_true_iff.mp h).1
  rw [lex_word hid hr, String.ofList_toList, wordToken_of_isBareName h]

theorem lex_stringLiteral (s : String) (rest : List Char) :
    lex (stringLiteral s ++ rest) = prepend [.string s] (lex rest) :=
  lex_token rfl (token?_stringLiteral s rest)

def nameToken (s : String) : Token :=
  if isBareName s then .name s else .string s

theorem nameToken_cases (name : String) :
    nameToken name = .name name ∨ nameToken name = .string name := by
  unfold nameToken
  split
  · exact .inl rfl
  · exact .inr rfl

theorem nameToken_attribute (name : String) : (nameToken name).attribute? = some name := by
  rcases nameToken_cases name with h | h <;> rw [h] <;> rfl

theorem token?_attributeName (s : String) {rest : List Char} (hr : Apart rest) :
    token? (attributeName s ++ rest) = some (nameToken s, rest) := by
  unfold attributeName nameToken
  split
  · next h => exact token?_name h hr
  · exact token?_stringLiteral s rest

theorem lex_attributeName (s : String) {rest : List Char} (hr : Apart rest) :
    lex (attributeName s ++ rest) = prepend [nameToken s] (lex rest) := by
  unfold attributeName nameToken
  split
  · next h => exact lex_name h hr
  · exact lex_stringLiteral s rest

theorem isIdentifierRest_of_isIdentifier {cs : List Char} (h : isIdentifier cs = true) :
    ∀ c ∈ cs, isIdentifierRest c = true := by
  cases cs with
  | nil => cases h
  | cons c cs =>
    obtain ⟨hc, hcs⟩ : isIdentifierStart c = true ∧ ∀ d ∈ cs, isIdentifierRest d = true := by
      simpa [isIdentifier] using h
    exact List.forall_mem_cons.mpr ⟨by simp [isIdentifierRest, hc], hcs⟩

theorem not_mem_of_isBareName {s : String} (h : isBareName s = true) {c : Char}
    (hc : isIdentifierRest c = false) : c ∉ s.toList := fun hmem =>
  have hid : isIdentifier s.toList = true := (Bool.and_eq_true_iff.mp h).1
  ne_of_class (isIdentifierRest_of_isIdentifier hid c hmem) hc rfl

/-- Attribute names neither start with a point nor go on as a path. -/
theorem attributeName_eq_cons (s : String) {rest : List Char} (hr : Apart rest) :
    ∃ c cs, attributeName s ++ rest = c :: cs ∧ c ≠ '.' ∧ '/' ∉ (pathRun (c :: cs)).1 := by
  unfold attributeName
  split
  · next h =>
    have hpoint : '.' ∉ s.toList := not_mem_of_isBareName h rfl
    have hslash : '/' ∉ s.toList := not_mem_of_isBareName h rfl
    have hpath := slash_not_mem_pathRun s.toList hslash hr.no_path
    cases hs : s.toList with
    | nil => simp [isBareName, isIdentifier, hs] at h
    | cons c cs =>
      rw [hs] at hpoint hpath
      exact ⟨c, cs ++ rest, rfl, fun he => hpoint (he ▸ List.mem_cons_self), hpath⟩
  · exact ⟨'"', escape s.toList ++ ['"'] ++ rest, rfl, by decide, List.not_mem_nil⟩

/-- A point and an attribute name behind a word are apart from it when what follows is. -/
theorem apart_dot_attributeName (s : String) {rest : List Char} (hr : Apart rest) :
    Apart ('.' :: (attributeName s ++ rest)) := by
  obtain ⟨c, cs, hcs, -, hpath⟩ := attributeName_eq_cons s hr
  refine ⟨by rintro c ⟨⟩; rfl, fun more h => ?_, ?_⟩
  · unfold attributeName at h
    split at h
    · next hbare =>
      have hcolon : ':' ∉ '.' :: s.toList := by
        simpa using not_mem_of_isBareName hbare (c := ':') rfl
      exact no_uri_append hcolon hr.no_uri h
    · rw [List.dropWhile_cons_of_pos rfl, stringLiteral, List.cons_append,
        List.dropWhile_cons_of_neg (by decide)] at h
      cases h
  · rw [hcs]
    exact slash_not_mem_pathRun ['.'] (by decide) hpath

/-- What a selection follows, in text. -/
def stepsText (names : List String) : List Char :=
  names.flatMap fun n => '.' :: attributeName n

theorem flatMap_attributeName (names : List String) :
    (names.flatMap fun n => '.' :: attributeName n) = stepsText names :=
  rfl

def stepTokens (names : List String) : List Token :=
  names.flatMap fun n => [.dot, nameToken n]

theorem apart_steps (names : List String) {rest : List Char} (hr : Apart rest) :
    Apart (stepsText names ++ rest) := by
  induction names with
  | nil => exact hr
  | cons n ns ih =>
    simp only [stepsText, List.flatMap_cons, List.cons_append, List.append_assoc]
    exact apart_dot_attributeName n ih

theorem lex_steps (names : List String) {rest : List Char} (hr : Apart rest) :
    lex (stepsText names ++ rest) = prepend (stepTokens names) (lex rest) := by
  induction names with
  | nil => simp [stepsText, stepTokens]
  | cons n ns ih =>
    have hsteps := apart_steps ns hr
    obtain ⟨c, cs, hcs, hc, hpath⟩ := attributeName_eq_cons n hsteps
    have hname := lex_attributeName n hsteps
    rw [ih] at hname
    simp only [stepsText, stepTokens, List.flatMap_cons, List.cons_append, List.append_assoc]
      at hcs hname ⊢
    rw [hcs] at hname ⊢
    rw [lex_dot hc hpath, hname, prepend_prepend, prepend_prepend]
    rfl

end NixSource
