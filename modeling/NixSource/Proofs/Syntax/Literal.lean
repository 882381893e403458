import NixSource.Proofs.Syntax.Lexer
import NixSource.Proofs.Text.Numeral

/-! Numbers, paths and URIs in their surroundings. What follows may go on with each of them, so they
are read for themselves only before what ends every token. -/

namespace NixSource

/-- What an expression may be followed by, which ends every token. A comma would go on with a URI,
so it ends tokens only where there are no URIs. -/
def endsToken (uris : Bool) (c : Char) : Bool :=
  isBlank c || c == ';' || c == ')' || (c == ',' && !uris)

/-- Nothing follows, or something that ends every token. -/
def Delimited (uris : Bool) (rest : List Char) : Prop :=
  ∀ c, rest.head? = some c → endsToken uris c = true

@[simp] theorem delimited_nil (uris : Bool) : Delimited uris [] := by
  simp [Delimited]

@[simp] theorem delimited_cons (uris : Bool) (c : Char) (cs : List Char) :
    Delimited uris (c :: cs) ↔ endsToken uris c = true := by
  simp [Delimited]

@[simp] theorem delimited_newline (uris : Bool) (newline : Newline) (cs : List Char) :
    Delimited uris (newline.text ++ cs) := by
  cases newline <;> simp [Newline.text, endsToken, isBlank]

theorem eq_of_endsToken {uris : Bool} {c : Char} (h : endsToken uris c = true) :
    c = ' ' ∨ c = '\t' ∨ c = '\n' ∨ c = '\r' ∨ c = ';' ∨ c = ')' ∨ (c = ',' ∧ uris = false) := by
  simpa [endsToken, isBlank, or_assoc] using h

theorem Delimited.apart {uris : Bool} {rest : List Char} (h : Delimited uris rest) :
    Apart rest := by
  cases rest with
  | nil => exact apart_nil
  | cons c rest =>
    rw [delimited_cons] at h
    rcases eq_of_endsToken h with rfl | rfl | rfl | rfl | rfl | rfl | ⟨rfl, -⟩ <;>
      exact apart_cons (by decide) (by decide) (by decide) (by decide) (by decide) rest

theorem Delimited.pathRun_eq {uris : Bool} {rest : List Char} (h : Delimited uris rest) :
    pathRun rest = ([], rest) := by
  cases rest with
  | nil => rfl
  | cons c rest =>
    rw [delimited_cons] at h
    rcases eq_of_endsToken h with rfl | rfl | rfl | rfl | rfl | rfl | ⟨rfl, -⟩ <;> rfl

theorem Delimited.head_not_isDigit {uris : Bool} {rest : List Char} (h : Delimited uris rest) :
    ∀ c, rest.head? = some c → c.isDigit = false := by
  intro c hc
  rcases eq_of_endsToken (h c hc) with rfl | rfl | rfl | rfl | rfl | rfl | ⟨rfl, -⟩ <;> rfl

theorem not_isIdentifierStart_of_isDigit {c : Char} (h : c.isDigit = true) :
    isIdentifierStart c = false := by
  have hne : c ≠ '_' := by
    rintro rfl
    cases h
  have hletter : isLetter c = false := by
    unfold isLetter Char.isAlpha Char.isUpper Char.isLower
    unfold Char.isDigit at h
    grind
  simp [isIdentifierStart, hletter, hne]

theorem Delimited.slash_not_mem {uris : Bool} {rest : List Char} (h : Delimited uris rest) :
    '/' ∉ (pathRun rest).1 := by
  rw [h.pathRun_eq]
  exact List.not_mem_nil

theorem lex_readNumber {cs : List Char} {c : Char} (hcs : cs.head? = some c)
    (hc : c.isDigit = true) (h : '/' ∉ (pathRun cs).1) :
    lex cs = prepend [(readNumber cs).1] (lex (readNumber cs).2) := by
  obtain ⟨cs, rfl⟩ := List.head?_eq_some_iff.mp hcs
  have hne : ∀ d, d.isDigit = false → c ≠ d := fun d => ne_of_class hc
  have hstart := not_isIdentifierStart_of_isDigit hc
  have hletter : isLetter c = false := by
    rw [isIdentifierStart, Bool.or_eq_false_iff] at hstart
    exact hstart.1
  have hu : readUri? (c :: cs) = none := by simp [readUri?, hletter]
  have hp := readPath?_eq_none ⟨hne '<' rfl, hne '~' rfl⟩ h
  refine lex_token (not_isBlank_of_class hc rfl rfl rfl rfl) ?_
  rw [token?_of_plain hu hp]
  simp [plainToken?, hne '"' rfl, hne '.' rfl, hne '/' rfl, hstart, hc]

theorem slash_not_mem_digits {ds : List Char} (h : ∀ c ∈ ds, c.isDigit = true) : '/' ∉ ds :=
  fun hs => absurd (h _ hs) (by decide)

theorem lex_decimalText (n : Nat) {uris : Bool} {rest : List Char} (hr : Delimited uris rest) :
    lex (decimalText n ++ rest) = prepend [.integer n] (lex rest) := by
  have hdigits : ∀ d ∈ decimalText n, d.isDigit = true := fun d hd => isDigit_of_mem_decimalText hd
  have hrun := slash_not_mem_pathRun _ (slash_not_mem_digits hdigits) hr.slash_not_mem
  obtain ⟨htake, hdrop⟩ := takeWhile_dropWhile_append hdigits hr.head_not_isDigit
  have hread : readNumber (decimalText n ++ rest) = (.integer n, rest) := by
    unfold readNumber
    rw [htake, hdrop]
    split
    · exact absurd (hr '.' rfl) (by simp [endsToken, isBlank])
    · rw [digitsValue_decimalText]
  obtain ⟨c, cs, hcs⟩ := List.exists_cons_of_ne_nil (decimalText_ne_nil n)
  rw [lex_readNumber (by rw [hcs]; rfl) (hdigits c (by simp [hcs])) hrun, hread]

theorem slash_not_mem_digits_point {whole places : List Char}
    (hwhole : ∀ c ∈ whole, c.isDigit = true) (hplaces : ∀ c ∈ places, c.isDigit = true) :
    '/' ∉ whole ++ '.' :: places := by
  simp [slash_not_mem_digits hwhole, slash_not_mem_digits hplaces]

theorem lex_digits_point {whole places : List Char} (hw : whole ≠ [])
    (hwhole : ∀ c ∈ whole, c.isDigit = true) (hplaces : ∀ c ∈ places, c.isDigit = true)
    {uris : Bool} {rest : List Char} (hr : Delimited uris rest) :
    lex (whole ++ '.' :: places ++ rest) =
      prepend [.decimal ⟨digitsValue (whole ++ places), -(places.length : Int)⟩] (lex rest) := by
  have hslash := slash_not_mem_digits_point hwhole hplaces
  have hrun := slash_not_mem_pathRun _ hslash hr.slash_not_mem
  have hread : readNumber (whole ++ '.' :: places ++ rest) =
      (.decimal ⟨digitsValue (whole ++ places), -(places.length : Int)⟩, rest) := by
    have hpoint : ∀ c, ('.' :: (places ++ rest)).head? = some c → c.isDigit = false := by
      rintro c ⟨⟩
      rfl
    obtain ⟨htake, hdrop⟩ := takeWhile_dropWhile_append hwhole hpoint
    obtain ⟨htake', hdrop'⟩ := takeWhile_dropWhile_append hplaces hr.head_not_isDigit
    unfold readNumber
    rw [List.append_assoc, List.cons_append, htake, hdrop]
    simp only [htake', hdrop']
  obtain ⟨c, cs, hcs⟩ := List.exists_cons_of_ne_nil hw
  rw [lex_readNumber (by rw [hcs]; rfl) (hwhole c (by simp [hcs])) hrun, hread]

/-- Segments with path characters only, none of them empty but perhaps the first, make one run. -/
theorem pathRun_append {cs rest : List Char} (hr : pathRun rest = ([], rest))
    (hne : ∀ seg ∈ (cs.splitOn '/').tail, seg ≠ [])
    (hchars : ∀ seg ∈ cs.splitOn '/', ∀ c ∈ seg, isPathChar c = true) :
    pathRun (cs ++ rest) = (cs, rest) := by
  induction cs with
  | nil => exact hr
  | cons c cs ih =>
    rw [List.splitOn_cons_eq_if_modifyHead] at hne hchars
    obtain ⟨seg, segs, hsegs⟩ := List.exists_cons_of_ne_nil (List.splitOn_ne_nil '/' cs)
    by_cases hc : c = '/'
    · subst hc
      simp only [beq_self_eq_true, if_true, List.tail_cons] at hne hchars
      have htail := ih (fun s hs => hne s (List.mem_of_mem_tail hs))
        (fun s hs => hchars s (List.mem_cons_of_mem _ hs))
      -- The segment after the slash is not empty, so a path character comes next.
      have hnext : (cs ++ rest).head?.any isPathChar = true := by
        cases cs with
        | nil => exact absurd rfl (hne [] (by simp))
        | cons d cs =>
          rw [List.splitOn_cons_eq_if_modifyHead] at hsegs hne hchars
          by_cases hd : d = '/'
          · exact absurd rfl (hne [] (by simp [hd]))
          · rw [if_neg (by simpa using hd)] at hchars
            obtain ⟨s, ss, hs⟩ := List.exists_cons_of_ne_nil (List.splitOn_ne_nil '/' cs)
            have := hchars (d :: s) (by simp [hs]) d List.mem_cons_self
            simpa using this
      rw [List.cons_append, pathRun, if_pos (by rw [hnext]; rfl), htail]
    · rw [if_neg (by simpa using hc), hsegs, List.modifyHead_cons] at hne hchars
      have hpath : isPathChar c = true := hchars _ List.mem_cons_self c List.mem_cons_self
      have htail := ih (by simpa [hsegs] using hne) (by
        intro s hs d hd
        rw [hsegs] at hs
        rcases List.mem_cons.mp hs with rfl | hs
        · exact hchars _ List.mem_cons_self d (List.mem_cons_of_mem c hd)
        · exact hchars s (List.mem_cons_of_mem _ hs) d hd)
      rw [List.cons_append, pathRun, if_pos (by simp [hpath]), htail]

theorem isSegment_iff (seg : List Char) :
    isSegment seg = true ↔ seg ≠ [] ∧ ∀ c ∈ seg, isPathChar c = true := by
  simp [isSegment]

/-- A search path has segments between angle brackets. -/
theorem exists_searchPath_eq {cs : List Char} (h : isSearchPath cs = true) :
    ∃ body, cs = '<' :: (body ++ ['>']) ∧
      ∀ seg ∈ body.splitOn '/', seg ≠ [] ∧ ∀ c ∈ seg, isPathChar c = true := by
  unfold isSearchPath at h
  split at h
  · next inner =>
    rw [Bool.and_eq_true, beq_iff_eq, List.all_eq_true] at h
    obtain ⟨hlast, hsegs⟩ := h
    obtain ⟨body, rfl⟩ := List.getLast?_eq_some_iff.mp hlast
    rw [List.dropLast_concat] at hsegs
    exact ⟨body, rfl, fun seg hseg => (isSegment_iff seg).mp (hsegs seg hseg)⟩
  · cases h

theorem readPath?_searchPath {cs : List Char} (h : isSearchPath cs = true) (rest : List Char) :
    readPath? (cs ++ rest) = some (cs, rest) := by
  obtain ⟨body, rfl, hsegs⟩ := exists_searchPath_eq h
  have hrun : pathRun (body ++ '>' :: rest) = (body, '>' :: rest) :=
    pathRun_append rfl (fun s hs => (hsegs s (List.mem_of_mem_tail hs)).1)
      (fun s hs => (hsegs s hs).2)
  cases body with
  | nil => exact absurd rfl (hsegs [] (by simp)).1
  | cons c body =>
    have hc : c ≠ '/' := by
      rintro rfl
      exact absurd rfl (hsegs [] (by simp [List.splitOn_cons_eq_if_modifyHead])).1
    rw [List.cons_append, List.append_assoc, List.singleton_append, readPath?, hrun]
    simp [hc]

theorem head?_of_splitOn_eq {c : Char} {cs first : List Char} {parts : List (List Char)}
    (h : (c :: cs).splitOn '/' = first :: parts) : c = '/' ∧ first = [] ∨ first.head? = some c := by
  rw [List.splitOn_cons_eq_if_modifyHead] at h
  split at h
  · next hc => exact .inl ⟨by simpa using hc, (List.cons.inj h).1.symm⟩
  · obtain ⟨s, ss, hs⟩ := List.exists_cons_of_ne_nil (List.splitOn_ne_nil '/' cs)
    rw [hs, List.modifyHead_cons] at h
    exact .inr (by rw [← (List.cons.inj h).1]; rfl)

/-- An anchored path starts with an anchor, and all other parts between slashes are segments. -/
theorem isAnchoredPath_cases {cs : List Char} (h : isAnchoredPath cs = true) :
    ∃ anchor seg segs, cs.splitOn '/' = anchor :: seg :: segs ∧
      (anchor = [] ∨ anchor = ['.'] ∨ anchor = ['.', '.'] ∨ anchor = ['~']) ∧
      ∀ s ∈ seg :: segs, s ≠ [] ∧ ∀ c ∈ s, isPathChar c = true := by
  unfold isAnchoredPath isAnchored at h
  rw [Bool.and_eq_true, List.all_eq_true] at h
  obtain ⟨hanchor, htail⟩ := h
  split at hanchor
  · next anchor seg segs hsplit =>
    rw [hsplit, List.tail_cons] at htail
    exact ⟨anchor, seg, segs, hsplit, by simpa [pathAnchors] using hanchor,
      fun s hs => (isSegment_iff s).mp (htail s hs)⟩
  · cases hanchor

theorem head?_of_isAnchoredPath {cs : List Char} (h : isAnchoredPath cs = true) :
    ∃ c tail, cs = c :: tail ∧ (c = '/' ∨ c = '.' ∨ c = '~') := by
  obtain ⟨anchor, seg, segs, hsplit, hanchor, -⟩ := isAnchoredPath_cases h
  cases cs with
  | nil => simp at hsplit
  | cons c tail =>
    refine ⟨c, tail, rfl, ?_⟩
    rcases head?_of_splitOn_eq hsplit with ⟨hc, -⟩ | hc
    · exact .inl hc
    · rcases hanchor with rfl | rfl | rfl | rfl <;> cases hc <;> simp

theorem pathRun_of_splitOn {cs rest first : List Char} {parts : List (List Char)}
    (hr : pathRun rest = ([], rest)) (h : cs.splitOn '/' = first :: parts)
    (hfirst : ∀ c ∈ first, isPathChar c = true)
    (hparts : ∀ s ∈ parts, s ≠ [] ∧ ∀ c ∈ s, isPathChar c = true) :
    pathRun (cs ++ rest) = (cs, rest) := by
  apply pathRun_append hr
  · rw [h]
    exact fun s hs => (hparts s hs).1
  · rw [h]
    exact List.forall_mem_cons.mpr ⟨hfirst, fun s hs => (hparts s hs).2⟩

/-- A path that starts at home. What is behind the tilde is the run that is read. -/
theorem readPath?_homePath {tail rest : List Char} (h : isAnchoredPath ('~' :: tail) = true)
    (hr : pathRun rest = ([], rest)) :
    readPath? ('~' :: tail ++ rest) = some ('~' :: tail, rest) := by
  obtain ⟨anchor, seg, segs, hsplit, hanchor, hsegs⟩ := isAnchoredPath_cases h
  obtain ⟨first, parts, hparts⟩ := List.exists_cons_of_ne_nil (List.splitOn_ne_nil '/' tail)
  rw [List.splitOn_cons_eq_if_modifyHead, if_neg (by decide), hparts,
    List.modifyHead_cons] at hsplit
  obtain ⟨rfl, rfl⟩ := List.cons.inj hsplit
  have hfirst : first = [] := by simpa using hanchor
  subst hfirst
  have hrun := pathRun_of_splitOn hr hparts (List.forall_mem_nil _) hsegs
  cases tail with
  | nil => simp at hparts
  | cons d tail =>
    rcases head?_of_splitOn_eq hparts with ⟨rfl, -⟩ | hd
    · rw [List.cons_append, readPath?, hrun]
      rfl
    · cases hd

theorem readPath?_anchoredPath {cs rest : List Char} (h : isAnchoredPath cs = true)
    (hr : pathRun rest = ([], rest)) : readPath? (cs ++ rest) = some (cs, rest) := by
  obtain ⟨c, tail, rfl, hc⟩ := head?_of_isAnchoredPath h
  by_cases hhome : c = '~'
  · subst hhome
    exact readPath?_homePath h hr
  · obtain ⟨anchor, seg, segs, hsplit, hanchor, hsegs⟩ := isAnchoredPath_cases h
    have hslash : '/' ∈ c :: tail := by
      by_contra hn
      rw [List.splitOn_eq_singleton hn] at hsplit
      cases hsplit
    have hpath : ∀ d ∈ anchor, isPathChar d = true := by
      rcases hanchor with rfl | rfl | rfl | rfl
      · exact List.forall_mem_nil _
      · exact List.forall_mem_singleton.mpr rfl
      · exact List.forall_mem_cons.mpr ⟨rfl, List.forall_mem_singleton.mpr rfl⟩
      · rcases head?_of_splitOn_eq hsplit with ⟨-, hnil⟩ | hc'
        · cases hnil
        · exact absurd (Option.some.inj hc').symm hhome
    have hrun := pathRun_of_splitOn hr hsplit hpath hsegs
    have hcontains : (pathRun (c :: tail ++ rest)).1.contains '/' = true := by
      rw [hrun]
      simpa using hslash
    rcases hc with rfl | rfl | rfl
    · exact (if_pos hcontains).trans (congrArg some hrun)
    · exact (if_pos hcontains).trans (congrArg some hrun)
    · exact absurd rfl hhome

theorem head?_of_pathLiteral (p : PathLiteral) :
    ∃ c tail, p.text.toList = c :: tail ∧ (c = '<' ∨ c = '/' ∨ c = '.' ∨ c = '~') := by
  have hvalid := p.valid
  rw [isPathLiteral, Bool.or_eq_true] at hvalid
  rcases hvalid with h | h
  · obtain ⟨body, hcs, -⟩ := exists_searchPath_eq h
    exact ⟨'<', _, hcs, .inl rfl⟩
  · obtain ⟨c, tail, hcs, hc⟩ := head?_of_isAnchoredPath h
    exact ⟨c, tail, hcs, .inr hc⟩

theorem token?_path (p : PathLiteral) {uris : Bool} {rest : List Char} (hr : Delimited uris rest) :
    token? (p.text.toList ++ rest) = some (.path p.text, rest) := by
  have hvalid := p.valid
  rw [isPathLiteral, Bool.or_eq_true] at hvalid
  have hread : readPath? (p.text.toList ++ rest) = some (p.text.toList, rest) :=
    hvalid.elim (readPath?_searchPath · rest) (readPath?_anchoredPath · hr.pathRun_eq)
  have hu : readUri? (p.text.toList ++ rest) = none := by
    obtain ⟨c, tail, hcs, hc⟩ := head?_of_pathLiteral p
    rw [hcs]
    rcases hc with rfl | rfl | rfl | rfl <;> rfl
  rw [token?, hu, hread]
  simp

theorem lex_path (p : PathLiteral) {uris : Bool} {rest : List Char} (hr : Delimited uris rest) :
    lex (p.text.toList ++ rest) = prepend [.path p.text] (lex rest) := by
  have htoken := token?_path p hr
  obtain ⟨c, tail, hcs, hc⟩ := head?_of_pathLiteral p
  rw [hcs] at htoken ⊢
  refine lex_token ?_ htoken
  rcases hc with rfl | rfl | rfl | rfl <;> rfl

theorem Delimited.head_not_isUriChar {rest : List Char} (h : Delimited true rest) :
    ∀ c, rest.head? = some c → isUriChar c = false := by
  intro c hc
  rcases eq_of_endsToken (h c hc) with rfl | rfl | rfl | rfl | rfl | rfl | ⟨-, hfalse⟩
  · rfl
  · rfl
  · rfl
  · rfl
  · rfl
  · rfl
  · cases hfalse

theorem Delimited.uriRun_eq {rest : List Char} (h : Delimited true rest) :
    rest.takeWhile isUriChar = [] ∧ rest.dropWhile isUriChar = rest :=
  takeWhile_dropWhile_append (List.forall_mem_nil _) h.head_not_isUriChar

/-- Whether a text is a scheme, a colon and some characters of a URI. -/
def IsUriText (text : List Char) : Prop :=
  ∃ c scheme body, text = c :: (scheme ++ ':' :: body) ∧ isLetter c = true ∧
    (∀ d ∈ scheme, isSchemeChar d = true) ∧ body ≠ [] ∧ ∀ d ∈ body, isUriChar d = true

/-- No scheme character is a colon, so a text starts with one scheme at most. -/
theorem afterScheme?_eq_some_iff {cs rest : List Char} :
    afterScheme? cs = some rest ↔ ∃ c scheme, cs = c :: (scheme ++ ':' :: rest) ∧
      isLetter c = true ∧ ∀ d ∈ scheme, isSchemeChar d = true := by
  constructor
  · intro h
    unfold afterScheme? at h
    split at h
    · cases h
    · next c cs =>
      split at h
      · next hletter =>
        split at h
        · next more hdrop =>
          cases h
          refine ⟨c, cs.takeWhile isSchemeChar, ?_, hletter, ?_⟩
          · rw [← hdrop, List.takeWhile_append_dropWhile]
          · exact List.all_eq_true.mp List.all_takeWhile
        · cases h
      · cases h
  · rintro ⟨c, scheme, rfl, hletter, hscheme⟩
    have hcolon : ∀ d, (':' :: rest).head? = some d → isSchemeChar d = false := by
      rintro d ⟨⟩
      rfl
    rw [afterScheme?, if_pos hletter, (takeWhile_dropWhile_append hscheme hcolon).2]
    rfl

theorem Uri.isBare_iff (u : Uri) : u.isBare = true ↔ IsUriText u.text.toList := by
  unfold isBare
  constructor
  · intro h
    split at h
    · next body hbody =>
      obtain ⟨hne, hall⟩ : body ≠ [] ∧ ∀ d ∈ body, isUriChar d = true := by simpa using h
      obtain ⟨c, scheme, htext, hletter, hscheme⟩ := afterScheme?_eq_some_iff.mp hbody
      exact ⟨c, scheme, body, htext, hletter, hscheme, hne, hall⟩
    · cases h
  · rintro ⟨c, scheme, body, htext, hletter, hscheme, hne, hall⟩
    rw [afterScheme?_eq_some_iff.mpr ⟨c, scheme, htext, hletter, hscheme⟩]
    simpa [hne] using hall

theorem isUriChar_of_isSchemeChar {c : Char} (h : isSchemeChar c = true) : isUriChar c = true := by
  simp only [isSchemeChar, Bool.or_eq_true, beq_iff_eq] at h
  rcases h with (((h | h) | rfl) | rfl) | rfl
  · simp [isUriChar, h]
  · simp [isUriChar, h]
  · rfl
  · rfl
  · rfl

theorem IsUriText.isUriChar_of_mem {text : List Char} (h : IsUriText text) :
    ∀ c ∈ text, isUriChar c = true := by
  obtain ⟨c, scheme, body, rfl, hletter, hscheme, -, hbody⟩ := h
  refine List.forall_mem_cons.mpr ⟨by simp [isUriChar, hletter], List.forall_mem_append.mpr
    ⟨fun d hd => isUriChar_of_isSchemeChar (hscheme d hd), ?_⟩⟩
  exact List.forall_mem_cons.mpr ⟨rfl, hbody⟩

/-- A URI takes what can go on with it. -/
theorem IsUriText.readUri?_append {text : List Char} (h : IsUriText text) (rest : List Char) :
    readUri? (text ++ rest) =
      some (text ++ rest.takeWhile isUriChar, rest.dropWhile isUriChar) := by
  obtain ⟨c, scheme, body, rfl, hletter, hscheme, hne, hbody⟩ := h
  have hcolon : ∀ d, (':' :: (body ++ rest)).head? = some d → isSchemeChar d = false := by
    rintro d ⟨⟩
    rfl
  obtain ⟨htake, hdrop⟩ := takeWhile_dropWhile_append hscheme hcolon
  rw [List.cons_append, List.append_assoc, List.cons_append, readUri?, if_pos hletter, hdrop]
  simp only [List.takeWhile_append_of_pos hbody, List.dropWhile_append_of_pos hbody, htake]
  simp [hne]

theorem lex_uri_append {u : Uri} (h : u.isBare = true) (rest : List Char) :
    lex (u.text.toList ++ rest) =
      prepend [.uri (String.ofList (u.text.toList ++ rest.takeWhile isUriChar))]
        (lex (rest.dropWhile isUriChar)) := by
  have huri := u.isBare_iff.mp h
  have htoken : token? (u.text.toList ++ rest) =
      some (.uri (String.ofList (u.text.toList ++ rest.takeWhile isUriChar)),
        rest.dropWhile isUriChar) := by rw [token?, huri.readUri?_append]
  obtain ⟨c, scheme, body, htext, hletter, -⟩ := huri
  have hblank : isBlank c = false := by
    have hstart : isIdentifierStart c = true := by simp [isIdentifierStart, hletter]
    exact not_isBlank_of_class hstart rfl rfl rfl rfl
  rw [htext] at htoken ⊢
  exact lex_token hblank htoken

theorem lex_uri {u : Uri} (h : u.isBare = true) {rest : List Char} (hr : Delimited true rest) :
    lex (u.text.toList ++ rest) = prepend [.uri u.text] (lex rest) := by
  obtain ⟨htake, hdrop⟩ := hr.uriRun_eq
  rw [lex_uri_append h, htake, hdrop, List.append_nil, String.ofList_toList]

theorem Uri.ofString?_text (u : Uri) : ofString? u.text = some u :=
  dif_pos u.scheme

/-- A path literal is anchored already. -/
theorem PathLiteral.anchorPath_text (p : PathLiteral) : anchorPath p.text = p.text := by
  have hvalid := p.valid
  unfold isPathLiteral isAnchoredPath at hvalid
  refine if_pos ?_
  cases hs : isSearchPath p.text.toList <;> simp_all

theorem PathLiteral.ofString?_text (p : PathLiteral) : ofString? p.text = some p := by
  unfold ofString?
  simp [p.anchorPath_text, p.valid]

/-! ### The longest text of a kind -/

/-- `text` is the longest text of a kind that `cs` starts with. -/
def LongestPrefix (kind : List Char → Prop) (cs text : List Char) : Prop :=
  kind text ∧ text <+: cs ∧ ∀ longer, longer <+: cs → kind longer → longer.length ≤ text.length

/-- A text of a kind is the longest one before a character that no text of the kind holds. -/
theorem longestPrefix_append {kind : List Char → Prop} {ok : Char → Bool}
    (hkind : ∀ text, kind text → ∀ c ∈ text, ok c = true) {text rest : List Char}
    (htext : kind text) (hrest : ∀ c, rest.head? = some c → ok c = false) :
    LongestPrefix kind (text ++ rest) text := by
  refine ⟨htext, List.prefix_append text rest, fun longer hlonger hk => ?_⟩
  by_contra hlength
  have hprefix : text <+: longer :=
    List.prefix_of_prefix_length_le (List.prefix_append text rest) hlonger (by omega)
  obtain ⟨more, rfl⟩ := hprefix
  have hmore : more <+: rest := (List.prefix_append_right_inj text).mp hlonger
  cases more with
  | nil => simp at hlength
  | cons c more =>
    obtain ⟨rest', rfl⟩ := hmore
    have hok := hkind _ hk c (List.mem_append_right text List.mem_cons_self)
    rw [hrest c rfl] at hok
    cases hok

end NixSource
