import NixSource.Proofs.Syntax.Literal

/-! Where text can be cut. The tokens of a text stay what they are, whatever is put behind it, as
long as that goes on neither with the last of them nor with what might have been one. -/

namespace NixSource

/-- Whether a token at the end of a text is left as it is by what follows. A point would make a
decimal of an integer, and URIs and paths take what they can. The closing bracket of a search path
ends it. -/
def Token.EndsBefore (rest : List Char) : Token → Prop
  | integer _ => ∀ c, rest.head? = some c → c.isDigit = false ∧ c ≠ '.'
  | decimal _ => ∀ c, rest.head? = some c → c.isDigit = false
  | uri _ => ∀ c, rest.head? = some c → isUriChar c = false
  | path p => p.toList.head? = some '<' ∨ pathRun rest = ([], rest)
  | _ => True

/-- Whether a text with the tokens `ts` can be cut off from `rest`. What does not end a token yet
could with more behind it: a colon a scheme, a slash a directory, a point an ellipsis. -/
structure Cut (text : List Char) (ts : List Token) (rest : List Char) : Prop extends Apart rest where
  last : ∀ t, ts.getLast? = some t → t.EndsBefore rest
  colon : text.getLast? = some ':' → ∀ c, rest.head? = some c → isUriChar c = false
  slash : text.getLast? = some '/' → ∀ c, rest.head? = some c → isPathChar c = false
  point : text.getLast? = some '.' → rest.head? ≠ some '.'

/-- What ends every token can be cut off from any text. -/
theorem Delimited.cut {rest : List Char} (h : Delimited true rest) (text : List Char)
    (ts : List Token) : Cut text ts rest := by
  have hne : ∀ c, rest.head? = some c → c.isDigit = false ∧ isPathChar c = false ∧ c ≠ '.' := by
    intro c hc
    rcases eq_of_endsToken (h c hc) with rfl | rfl | rfl | rfl | rfl | rfl | ⟨rfl, -⟩ <;> decide
  refine ⟨h.apart, fun t _ => ?_, fun _ => h.head_not_isUriChar, fun _ c hc => (hne c hc).2.1,
    fun _ hc => (hne _ hc).2.2 rfl⟩
  cases t with
  | integer n => exact fun c hc => ⟨(hne c hc).1, (hne c hc).2.2⟩
  | decimal d => exact h.head_not_isDigit
  | uri u => exact h.head_not_isUriChar
  | path p => exact .inr h.pathRun_eq
  | _ => trivial

/-- A run that does not end before its text does goes on into what follows. -/
theorem takeWhile_dropWhile_append_of_stops (p : Char → Bool) {cs rest : List Char}
    (h : cs.dropWhile p = [] → ∀ c, rest.head? = some c → p c = false) :
    (cs ++ rest).takeWhile p = cs.takeWhile p ∧
      (cs ++ rest).dropWhile p = cs.dropWhile p ++ rest := by
  induction cs with
  | nil => exact takeWhile_dropWhile_append (List.forall_mem_nil _) (h rfl)
  | cons c cs ih =>
    by_cases hc : p c = true
    · rw [List.dropWhile_cons_of_pos hc] at h ⊢
      rw [List.cons_append, List.takeWhile_cons_of_pos hc, List.takeWhile_cons_of_pos hc,
        List.dropWhile_cons_of_pos hc, (ih h).1, (ih h).2]
      exact ⟨rfl, rfl⟩
    · simp [hc]

variable {text r rest : List Char}

/-- What is read as a URI is one, and it ends where it has to. -/
theorem isUriText_of_readUri? {u : List Char} (h : readUri? text = some (u, r)) :
    IsUriText u ∧ text = u ++ r ∧ ∀ c, r.head? = some c → isUriChar c = false := by
  unfold readUri? at h
  split at h
  · cases h
  · next c cs =>
    split at h
    · next hletter =>
      split at h
      · next more hmore =>
        split at h
        · cases h
        · next hne =>
          cases h
          refine ⟨⟨c, cs.takeWhile isSchemeChar, more.takeWhile isUriChar, rfl, hletter,
            List.all_eq_true.mp List.all_takeWhile, by simpa using hne,
            List.all_eq_true.mp List.all_takeWhile⟩, ?_, fun d hd => ?_⟩
          · rw [List.cons_append, List.append_assoc, List.cons_append,
              List.takeWhile_append_dropWhile, ← hmore, List.takeWhile_append_dropWhile]
          · have hstop := List.head?_dropWhile_not isUriChar more
            rw [hd] at hstop
            exact hstop
      · cases h
    · cases h

theorem readUri?_append {u : List Char} (h : readUri? text = some (u, r))
    (hend : r = [] → ∀ c, rest.head? = some c → isUriChar c = false) :
    readUri? (text ++ rest) = some (u, r ++ rest) := by
  obtain ⟨huri, rfl, hstop⟩ := isUriText_of_readUri? h
  have hstops : ∀ c, (r ++ rest).head? = some c → isUriChar c = false := by
    cases r with
    | nil => exact hend rfl
    | cons d r => exact hstop
  obtain ⟨htake, hdrop⟩ := takeWhile_dropWhile_append (List.forall_mem_nil _) hstops
  rw [List.nil_append] at htake hdrop
  rw [List.append_assoc, huri.readUri?_append, htake, hdrop, List.append_nil]

theorem readUri?_append_eq_none (h : readUri? text = none) (hne : text ≠ []) (hr : Apart rest)
    (hcolon : text.getLast? = some ':' → ∀ c, rest.head? = some c → isUriChar c = false) :
    readUri? (text ++ rest) = none := by
  obtain ⟨c, cs, rfl⟩ := List.exists_cons_of_ne_nil hne
  rw [readUri?] at h
  rw [List.cons_append, readUri?]
  split
  · next hletter =>
    rw [if_pos hletter] at h
    -- The scheme ends in `cs`, or all of `cs` is part of it.
    cases hdrop : cs.dropWhile isSchemeChar with
    | nil =>
      rw [List.dropWhile_append, hdrop]
      split
      · next more hmore => rw [hr.no_uri more hmore]; rfl
      · rfl
    | cons d ds =>
      rw [List.dropWhile_append, hdrop]
      rw [hdrop] at h
      by_cases hd : d = ':'
      · subst hd
        have hds : ds.takeWhile isUriChar = [] := by simpa using h
        have hmore : (ds ++ rest).takeWhile isUriChar = [] := by
          cases ds with
          | nil =>
            have hlast : (c :: cs).getLast? = some ':' := by
              obtain ⟨front, hfront⟩ := List.dropWhile_suffix (l := cs) isSchemeChar
              rw [← hfront, hdrop, ← List.cons_append, List.getLast?_concat]
            cases rest with
            | nil => rfl
            | cons e rest =>
              have hstop := hcolon hlast e rfl
              simp [hstop]
          | cons e ds =>
            cases he : isUriChar e with
            | true => simp [he] at hds
            | false => simp [he]
        simp [hmore]
      · simp [hd]
  · rfl

theorem pathRun_cons_of_goes {c : Char} {cs : List Char}
    (h : isPathChar c = true ∨ c = '/' ∧ cs.head?.any isPathChar = true) :
    pathRun (c :: cs) = (c :: (pathRun cs).1, (pathRun cs).2) := by
  rw [pathRun, if_pos (by simpa using h)]

theorem pathRun_cons_of_stops {c : Char} {cs : List Char}
    (h : ¬ (isPathChar c = true ∨ c = '/' ∧ cs.head?.any isPathChar = true)) :
    pathRun (c :: cs) = ([], c :: cs) := by
  rw [pathRun, if_neg (by simpa using h)]

/-- What comes after a character and before a text is the same with more behind that text, unless
there is no text and a slash would go on. -/
theorem goes_append_iff {c : Char} {cs rest : List Char}
    (hslash : (c :: cs).getLast? = some '/' → ∀ d, rest.head? = some d → isPathChar d = false) :
    (isPathChar c = true ∨ c = '/' ∧ (cs ++ rest).head?.any isPathChar = true) ↔
      (isPathChar c = true ∨ c = '/' ∧ cs.head?.any isPathChar = true) := by
  cases cs with
  | cons d cs => rfl
  | nil =>
    have hnext : c = '/' → rest.head?.any isPathChar = false := by
      rintro rfl
      cases rest with
      | nil => rfl
      | cons d rest => exact hslash rfl d rfl
    grind

theorem pathRun_append_of_stops {run : List Char} (h : pathRun text = (run, r))
    (hend : r = [] → pathRun rest = ([], rest))
    (hslash : text.getLast? = some '/' → ∀ c, rest.head? = some c → isPathChar c = false) :
    pathRun (text ++ rest) = (run, r ++ rest) := by
  induction text generalizing run with
  | nil =>
    cases h
    exact hend rfl
  | cons c cs ih =>
    have hiff := goes_append_iff hslash
    by_cases hgo : isPathChar c = true ∨ c = '/' ∧ cs.head?.any isPathChar = true
    · rw [pathRun_cons_of_goes hgo] at h
      obtain ⟨rfl, hrest⟩ := Prod.mk.inj h
      have htail := ih (Prod.ext rfl hrest) fun h => hslash (List.mem_getLast?_cons h)
      rw [List.cons_append, pathRun_cons_of_goes (hiff.mpr hgo), htail]
    · rw [pathRun_cons_of_stops hgo] at h
      cases h
      rw [List.cons_append, pathRun_cons_of_stops (fun h => hgo (hiff.mp h))]

theorem slash_not_mem_pathRun_append (h : '/' ∉ (pathRun text).1) (hr : '/' ∉ (pathRun rest).1)
    (hslash : text.getLast? = some '/' → ∀ c, rest.head? = some c → isPathChar c = false) :
    '/' ∉ (pathRun (text ++ rest)).1 := by
  induction text with
  | nil => exact hr
  | cons c cs ih =>
    have hiff := goes_append_iff hslash
    by_cases hgo : isPathChar c = true ∨ c = '/' ∧ cs.head?.any isPathChar = true
    · rw [pathRun_cons_of_goes hgo, List.mem_cons, not_or] at h
      rw [List.cons_append, pathRun_cons_of_goes (hiff.mpr hgo), List.mem_cons, not_or]
      exact ⟨h.1, ih h.2 fun h => hslash (List.mem_getLast?_cons h)⟩
    · rw [List.cons_append, pathRun_cons_of_stops (fun h => hgo (hiff.mp h))]
      exact List.not_mem_nil

theorem readPath?_of_ne {c : Char} {cs : List Char} (hc : c ≠ '<' ∧ c ≠ '~') :
    readPath? (c :: cs) =
      if (pathRun (c :: cs)).1.contains '/' then some (pathRun (c :: cs)) else none := by
  unfold readPath?
  split
  · next heq => exact absurd (List.cons.inj heq).1 hc.1
  · next heq => exact absurd (List.cons.inj heq).1 hc.2
  · rfl

theorem readPath?_append {p : List Char} (h : readPath? text = some (p, r))
    (hend : r = [] → p.head? = some '<' ∨ pathRun rest = ([], rest))
    (hslash : text.getLast? = some '/' → ∀ c, rest.head? = some c → isPathChar c = false) :
    readPath? (text ++ rest) = some (p, r ++ rest) := by
  unfold readPath? at h
  split at h
  · next cs =>
    split at h
    · next c run more hrun =>
      have hwhole := pathRun_append_of_stops hrun (fun hnil => by cases hnil)
        fun h => hslash (List.mem_getLast?_cons h)
      split at h
      · cases h
      · next hc =>
        cases h
        rw [List.cons_append, readPath?, hwhole]
        simp [hc]
    · cases h
  · next cs =>
    split at h
    · next run more hrun =>
      cases h
      have hwhole := pathRun_append_of_stops hrun
        (fun hnil => (hend hnil).resolve_left (by simp))
        fun h => hslash (List.mem_getLast?_cons h)
      rw [List.cons_append, readPath?, hwhole]
      rfl
    · cases h
  · next hopen hhome =>
    split at h
    · next hmem =>
      cases text with
      | nil => cases hmem
      | cons c cs =>
        have hc : c ≠ '<' ∧ c ≠ '~' :=
          ⟨fun hc => hopen cs (hc ▸ rfl), fun hc => hhome cs (hc ▸ rfl)⟩
        have hrun : pathRun (c :: cs) = (p, r) := Option.some.inj h
        have happend := pathRun_eq_append (c :: cs)
        rw [hrun] at hmem happend
        have hhead : p.head? ≠ some '<' := by
          intro hp
          obtain ⟨tail, rfl⟩ := List.head?_eq_some_iff.mp hp
          exact hc.1 (List.cons.inj happend).1.symm
        have hwhole := pathRun_append_of_stops hrun
          (fun hnil => (hend hnil).resolve_left hhead) hslash
        rw [List.cons_append] at hwhole ⊢
        rw [readPath?_of_ne hc, hwhole, if_pos hmem]
    · cases h

theorem readContent_append {dollar : Bool} {content : List Char}
    (h : readContent dollar text = some (content, r)) :
    readContent dollar (text ++ rest) = some (content, r ++ rest) := by
  fun_induction readContent dollar text generalizing content with
  | case1 | case3 | case7 => cases h
  | case2 => cases h; rfl
  | case4 _ _ _ ih | case5 _ _ ih =>
    obtain ⟨s, hs, heq⟩ := Option.map_eq_some_iff.mp h
    cases heq
    simp [readContent, ih hs]
  | case6 dollar cs hfeed ih =>
    obtain ⟨s, hs, heq⟩ := Option.map_eq_some_iff.mp h
    cases heq
    have hfeed' : ∀ more, cs ++ rest = '\n' :: more → False := by
      intro more heq
      cases cs with
      | nil => cases hs
      | cons d cs => exact hfeed cs ((List.cons.inj heq).1 ▸ rfl)
    rw [List.cons_append, readContent.eq_6 _ _ hfeed', ih hs]
    rfl
  | case8 dollar c cs hquote hbackslash hescape hfeed hreturn hbrace ih =>
    obtain ⟨s, hs, heq⟩ := Option.map_eq_some_iff.mp h
    cases heq
    have hplain : c ≠ '\\' := by
      intro hc
      cases cs with
      | nil => exact hbackslash hc rfl
      | cons d cs => exact hescape d cs hc rfl
    rw [List.cons_append, readContent.eq_7 _ _ _ hquote (fun hc => absurd hc hplain)
      (fun _ _ hc => absurd hc hplain) (fun _ hc => absurd hc hreturn) hreturn, if_neg hbrace, ih hs]
    rfl

theorem readNumber_append {t : Token} (h : readNumber text = (t, r))
    (hend : r = [] → t.EndsBefore rest) : readNumber (text ++ rest) = (t, r ++ rest) := by
  unfold readNumber at h
  split at h
  · next places hplaces =>
    cases h
    have hstops : text.dropWhile Char.isDigit = [] → ∀ c, rest.head? = some c →
        c.isDigit = false := by
      rw [hplaces]
      rintro ⟨⟩
    have hwhole := takeWhile_dropWhile_append_of_stops _ hstops
    have hplaces' := takeWhile_dropWhile_append_of_stops _ hend
    rw [readNumber, hwhole.1, hwhole.2, hplaces]
    simp only [List.cons_append, hplaces'.1, hplaces'.2]
  · next hpoint =>
    cases h
    have hwhole := takeWhile_dropWhile_append_of_stops _ fun hnil c hc => (hend hnil c hc).1
    rw [readNumber, hwhole.1, hwhole.2]
    split
    · next more hmore =>
      -- The point could only be the first character of `rest`.
      cases hdrop : text.dropWhile Char.isDigit with
      | nil =>
        rw [hdrop, List.nil_append] at hmore
        exact absurd rfl (hend hdrop '.' (hmore ▸ rfl)).2
      | cons d ds =>
        rw [hdrop] at hmore hpoint
        exact absurd ((List.cons.inj hmore).1 ▸ rfl) (hpoint ds)
    · rfl

theorem plainToken?_append {t : Token} (h : plainToken? text = some (t, r)) (hr : Apart rest)
    (hend : r = [] → t.EndsBefore rest)
    (hpoint : text.getLast? = some '.' → rest.head? ≠ some '.') :
    plainToken? (text ++ rest) = some (t, r ++ rest) := by
  unfold plainToken? at h
  split at h
  · cases h
  · next cs =>
    obtain ⟨s, hs, heq⟩ := Option.map_eq_some_iff.mp h
    cases heq
    rw [List.cons_append, plainToken?, readContent_append hs]
    rfl
  · cases h
    rfl
  · cases h
    rfl
  · next c cs hquote hdots hslashes =>
    have hdots' : ∀ more, c = '.' → cs ++ rest = '.' :: '.' :: more → False := by
      rintro more rfl heq
      rcases cs with _ | ⟨d, _ | ⟨e, cs⟩⟩
      · exact hpoint rfl (congrArg List.head? heq)
      · obtain ⟨rfl, hrest⟩ := List.cons.inj heq
        exact hpoint rfl (congrArg List.head? hrest)
      · obtain ⟨rfl, hrest⟩ := List.cons.inj heq
        exact hdots cs rfl ((List.cons.inj hrest).1 ▸ rfl)
    have hslashes' : ∀ more, c = '/' → cs ++ rest = '/' :: more → False := by
      rintro more rfl heq
      cases cs with
      | nil => cases h
      | cons d cs => exact hslashes cs rfl ((List.cons.inj heq).1 ▸ rfl)
    rw [List.cons_append, plainToken?.eq_5 _ _ hquote hdots' hslashes']
    split at h
    · next hstart =>
      cases h
      have hstops : cs.dropWhile isIdentifierRest = [] → ∀ c, rest.head? = some c →
          isIdentifierRest c = false := fun _ => hr.word_ends
      obtain ⟨htake, hdrop⟩ := takeWhile_dropWhile_append_of_stops _ hstops
      rw [if_pos hstart, htake, hdrop]
    · next hstart =>
      rw [if_neg hstart]
      split at h
      · next hdigit =>
        rw [if_pos hdigit, ← List.cons_append, readNumber_append (Option.some.inj h) hend]
      · next hdigit =>
        obtain ⟨s, hs, heq⟩ := Option.map_eq_some_iff.mp h
        cases heq
        rw [if_neg hdigit, hs]
        rfl

theorem token?_append {t : Token} (h : token? text = some (t, r)) (hr : Apart rest)
    (hend : r = [] → t.EndsBefore rest)
    (hcolon : text.getLast? = some ':' → ∀ c, rest.head? = some c → isUriChar c = false)
    (hslash : text.getLast? = some '/' → ∀ c, rest.head? = some c → isPathChar c = false)
    (hpoint : text.getLast? = some '.' → rest.head? ≠ some '.') :
    token? (text ++ rest) = some (t, r ++ rest) := by
  unfold token? at h
  split at h
  · next u more hread =>
    cases h
    rw [token?, readUri?_append hread hend]
  · next huri =>
    have hne : text ≠ [] := by
      rintro rfl
      cases h
    have huri' := readUri?_append_eq_none huri hne hr hcolon
    split at h
    · next p more hread =>
      cases h
      have hstops : r = [] → p.head? = some '<' ∨ pathRun rest = ([], rest) := by
        intro hnil
        simpa [Token.EndsBefore] using hend hnil
      rw [token?, huri', readPath?_append hread hstops hslash]
    · next hpath =>
      obtain ⟨c, cs, rfl⟩ := List.exists_cons_of_ne_nil hne
      -- Brackets and tildes stand in paths only.
      have hc : c ≠ '<' ∧ c ≠ '~' := by
        constructor <;>
        · rintro rfl
          cases h
      have hrun : '/' ∉ (pathRun (c :: cs)).1 := by
        rw [readPath?_of_ne hc] at hpath
        simpa using hpath
      have hpath' := readPath?_eq_none hc (slash_not_mem_pathRun_append hrun hr.no_path hslash)
      rw [token?_of_plain huri' hpath', plainToken?_append h hr hend hpoint]

/-- Whether a token can be written with the characters `taken`. Of numbers, words, strings, URIs and
paths this tells only what they are made of, or what they begin and end with. -/
def Token.Spells (taken : List Char) : Token → Prop
  | keyword _ | name _ => ∀ c ∈ taken, isIdentifierRest c = true
  | integer _ | decimal _ => ∀ c ∈ taken, c.isDigit = true ∨ c = '.'
  | string _ => taken.head? = some '"' ∧ taken.getLast? = some '"'
  | uri _ => ∀ c ∈ taken, isUriChar c = true
  | path _ => (∀ c ∈ taken, isPathChar c = true ∨ c = '/' ∨ c = '~') ∨
      taken.head? = some '<' ∧ taken.getLast? = some '>'
  | openParen => taken = ['(']
  | closeParen => taken = [')']
  | openBracket => taken = ['[']
  | closeBracket => taken = [']']
  | openBrace => taken = ['{']
  | closeBrace => taken = ['}']
  | semicolon => taken = [';']
  | colon => taken = [':']
  | comma => taken = [',']
  | dot => taken = ['.']
  | equals => taken = ['=']
  | question => taken = ['?']
  | minus => taken = ['-']
  | update => taken = ['/', '/']
  | ellipsis => taken = ['.', '.', '.']

theorem mem_pathRun {cs : List Char} {c : Char} (h : c ∈ (pathRun cs).1) :
    isPathChar c = true ∨ c = '/' := by
  induction cs with
  | nil => cases h
  | cons d cs ih =>
    by_cases hgo : isPathChar d = true ∨ d = '/' ∧ cs.head?.any isPathChar = true
    · rw [pathRun_cons_of_goes hgo] at h
      rcases List.mem_cons.mp h with rfl | hmem
      · exact hgo.imp_right And.left
      · exact ih hmem
    · rw [pathRun_cons_of_stops hgo] at h
      cases h

theorem spells_of_readPath? {p : List Char} (h : readPath? text = some (p, r)) :
    text = p ++ r ∧ (Token.path (String.ofList p)).Spells p := by
  have hmem : ∀ cs c, c ∈ (pathRun cs).1 → isPathChar c = true ∨ c = '/' ∨ c = '~' :=
    fun _ _ hc => (mem_pathRun hc).imp_right .inl
  unfold readPath? at h
  split at h
  · next cs =>
    split at h
    · next c run more hrun =>
      have happend := pathRun_eq_append cs
      rw [hrun] at happend
      split at h
      · cases h
      · cases h
        exact ⟨by simp [← happend], .inr ⟨rfl, List.getLast?_concat⟩⟩
    · cases h
  · next cs =>
    split at h
    · next run more hrun =>
      have happend := pathRun_eq_append cs
      have hchars := hmem cs
      rw [hrun] at happend hchars
      cases h
      exact ⟨by simp [← happend], .inl (List.forall_mem_cons.mpr ⟨.inr (.inr rfl), hchars⟩)⟩
    · cases h
  · split at h
    · have happend := pathRun_eq_append text
      have hchars := hmem text
      rw [Option.some.inj h] at happend hchars
      exact ⟨happend.symm, .inl hchars⟩
    · cases h

theorem spells_of_readContent {dollar : Bool} {content : List Char}
    (h : readContent dollar text = some (content, r)) :
    ∃ taken, text = taken ++ r ∧ taken.getLast? = some '"' := by
  fun_induction readContent dollar text generalizing content with
  | case1 | case3 | case7 => cases h
  | case2 =>
    cases h
    exact ⟨['"'], rfl, rfl⟩
  | case4 _ c cs ih =>
    obtain ⟨s, hs, heq⟩ := Option.map_eq_some_iff.mp h
    cases heq
    obtain ⟨taken, htext, hlast⟩ := ih hs
    exact ⟨'\\' :: c :: taken, by rw [htext]; rfl,
      List.mem_getLast?_cons (List.mem_getLast?_cons hlast)⟩
  | case5 _ cs ih =>
    obtain ⟨s, hs, heq⟩ := Option.map_eq_some_iff.mp h
    cases heq
    obtain ⟨taken, htext, hlast⟩ := ih hs
    exact ⟨'\r' :: '\n' :: taken, by rw [htext]; rfl,
      List.mem_getLast?_cons (List.mem_getLast?_cons hlast)⟩
  | case6 _ cs _ ih =>
    obtain ⟨s, hs, heq⟩ := Option.map_eq_some_iff.mp h
    cases heq
    obtain ⟨taken, htext, hlast⟩ := ih hs
    exact ⟨'\r' :: taken, by rw [htext]; rfl, List.mem_getLast?_cons hlast⟩
  | case8 _ c cs _ _ _ _ _ _ ih =>
    obtain ⟨s, hs, heq⟩ := Option.map_eq_some_iff.mp h
    cases heq
    obtain ⟨taken, htext, hlast⟩ := ih hs
    exact ⟨c :: taken, by rw [htext]; rfl, List.mem_getLast?_cons hlast⟩

theorem spells_of_sign? {c : Char} {t : Token} (h : sign? c = some t) : t.Spells [c] := by
  unfold sign? at h
  split at h <;> cases h <;> rfl

theorem spells_wordToken {s : String} {taken : List Char}
    (h : ∀ c ∈ taken, isIdentifierRest c = true) : (wordToken s).Spells taken := by
  unfold wordToken
  split <;> exact h

theorem spells_of_readNumber {t : Token} (h : readNumber text = (t, r)) :
    ∃ taken, text = taken ++ r ∧ t.Spells taken := by
  have hdigits : ∀ cs : List Char, ∀ c ∈ cs.takeWhile Char.isDigit, c.isDigit = true :=
    fun _ => List.all_eq_true.mp List.all_takeWhile
  unfold readNumber at h
  split at h
  · next places hplaces =>
    cases h
    refine ⟨text.takeWhile Char.isDigit ++ '.' :: places.takeWhile Char.isDigit, ?_, ?_⟩
    · rw [List.append_assoc, List.cons_append, List.takeWhile_append_dropWhile, ← hplaces,
        List.takeWhile_append_dropWhile]
    · intro c hc
      rcases List.mem_append.mp hc with hc | hc
      · exact .inl (hdigits _ c hc)
      · rcases List.mem_cons.mp hc with rfl | hc
        · exact .inr rfl
        · exact .inl (hdigits _ c hc)
  · cases h
    exact ⟨text.takeWhile Char.isDigit, List.takeWhile_append_dropWhile.symm,
      fun c hc => .inl (hdigits _ c hc)⟩

theorem spells_of_plainToken? {t : Token} (h : plainToken? text = some (t, r)) :
    ∃ taken, text = taken ++ r ∧ t.Spells taken := by
  unfold plainToken? at h
  split at h
  · cases h
  · next cs =>
    obtain ⟨s, hs, heq⟩ := Option.map_eq_some_iff.mp h
    cases heq
    obtain ⟨taken, htext, hlast⟩ := spells_of_readContent hs
    exact ⟨'"' :: taken, by rw [htext]; rfl, rfl, List.mem_getLast?_cons hlast⟩
  · cases h
    exact ⟨['.', '.', '.'], rfl, rfl⟩
  · cases h
    exact ⟨['/', '/'], rfl, rfl⟩
  · next c cs _ _ _ =>
    split at h
    · next hstart =>
      cases h
      refine ⟨c :: cs.takeWhile isIdentifierRest, ?_, spells_wordToken fun d hd => ?_⟩
      · rw [List.cons_append, List.takeWhile_append_dropWhile]
      · rcases List.mem_cons.mp hd with rfl | hd
        · simp [isIdentifierRest, hstart]
        · exact List.all_eq_true.mp List.all_takeWhile d hd
    · split at h
      · exact spells_of_readNumber (Option.some.inj h)
      · obtain ⟨s, hs, heq⟩ := Option.map_eq_some_iff.mp h
        cases heq
        exact ⟨[c], rfl, spells_of_sign? hs⟩

/-- A token takes the characters off the text that spell it. -/
theorem exists_spelling {t : Token} (h : token? text = some (t, r)) :
    ∃ taken, text = taken ++ r ∧ t.Spells taken := by
  unfold token? at h
  split at h
  · next u more hread =>
    cases h
    obtain ⟨huri, htext, -⟩ := isUriText_of_readUri? hread
    exact ⟨u, htext, huri.isUriChar_of_mem⟩
  · split at h
    · next p more hread =>
      cases h
      exact ⟨p, spells_of_readPath? hread⟩
    · exact spells_of_plainToken? h

/-- Where a text can be cut off, its end can. -/
theorem Cut.of_append (front : List Char) {text : List Char} (ts : List Token) {us : List Token}
    {rest : List Char} (h : Cut (front ++ text) (ts ++ us) rest) : Cut text us rest :=
  ⟨h.toApart, fun t ht => h.last t (List.mem_getLast?_append_of_mem_getLast? ht),
    fun hc => h.colon (List.mem_getLast?_append_of_mem_getLast? hc),
    fun hc => h.slash (List.mem_getLast?_append_of_mem_getLast? hc),
    fun hc => h.point (List.mem_getLast?_append_of_mem_getLast? hc)⟩

/-- The tokens of a text that can be cut off come first, and those of the rest after them. -/
theorem lex_append {ts : List Token} (h : lex text = some ts) (hcut : Cut text ts rest) :
    lex (text ++ rest) = prepend ts (lex rest) := by
  fun_induction lex text generalizing ts with
  | case1 =>
    cases h
    simp
  | case2 c cs hblank ih =>
    rw [List.cons_append, lex_blank hblank]
    exact ih h (Cut.of_append [c] [] hcut)
  | case3 c cs hblank t r htoken ih =>
    obtain ⟨us, hus, rfl⟩ := Option.map_eq_some_iff.mp h
    have hend : r = [] → t.EndsBefore rest := by
      rintro rfl
      rw [lex_nil] at hus
      cases hus
      exact hcut.last t rfl
    have hwhole := token?_append htoken hcut.toApart hend hcut.colon hcut.slash hcut.point
    obtain ⟨taken, htext, -⟩ := exists_spelling htoken
    rw [htext] at hcut
    rw [List.cons_append] at hwhole ⊢
    rw [lex_token (by simpa using hblank) hwhole,
      ih hus (Cut.of_append taken [t] hcut), prepend_prepend]
    rfl
  | case4 => cases h

end NixSource
