import NixSource.Expr.Checked
import NixSource.Proofs.Syntax.Literal

/-! The normal form of path literals. A text is accepted exactly if it is a path of the language,
once it is anchored; what is accepted stays as it is when it is anchored again, and the lexer takes
all of it for one path. -/

namespace NixSource

/-! ### Paths by the grammar of the language -/

/-- Segments with a slash before each. -/
def slashed (segs : List (List Char)) : List Char :=
  segs.flatMap ('/' :: ·)

/-- One or more segments behind `start`, with a slash before each. -/
def StartsPath (start cs : List Char) : Prop :=
  ∃ segs, segs ≠ [] ∧ (∀ seg ∈ segs, isSegment seg = true) ∧ cs = start ++ slashed segs

/-- One or more segments in angle brackets, with slashes between them. -/
def IsSearchText (cs : List Char) : Prop :=
  ∃ seg segs, (∀ s ∈ seg :: segs, isSegment s = true) ∧ cs = '<' :: seg ++ slashed segs ++ ['>']

/-- What the language takes for a path: a search path, or segments behind a tilde or behind any path
characters. -/
def IsPathToken (cs : List Char) : Prop :=
  IsSearchText cs ∨
    ∃ start, (start = ['~'] ∨ ∀ c ∈ start, isPathChar c = true) ∧ StartsPath start cs

/-- What a path that is not searched for has at its start. -/
def pathStarts : List (List Char) :=
  [['/'], ['.', '/'], ['.', '.', '/'], ['~', '/']]

def startsAnchored (cs : List Char) : Bool :=
  pathStarts.any (·.isPrefixOf cs)

/-- A text that starts like a path, or else is taken from the current directory. -/
def anchoredText (cs : List Char) : List Char :=
  if startsAnchored cs then cs else '.' :: '/' :: cs

@[simp] theorem slashed_nil : slashed [] = [] := rfl

@[simp] theorem slashed_cons (seg : List Char) (segs : List (List Char)) :
    slashed (seg :: segs) = '/' :: (seg ++ slashed segs) := rfl

theorem slash_not_mem_of_isSegment {seg : List Char} (h : isSegment seg = true) : '/' ∉ seg :=
  fun hmem => absurd (((isSegment_iff seg).mp h).2 '/' hmem) (by decide)

theorem splitOn_append_slashed {first : List Char} {segs : List (List Char)} (hfirst : '/' ∉ first)
    (hsegs : ∀ seg ∈ segs, isSegment seg = true) :
    (first ++ slashed segs).splitOn '/' = first :: segs := by
  induction segs generalizing first with
  | nil => rw [slashed_nil, List.append_nil, List.splitOn_eq_singleton hfirst]
  | cons seg segs ih =>
    obtain ⟨hseg, hsegs⟩ := List.forall_mem_cons.mp hsegs
    rw [slashed_cons, List.splitOn_append_cons_self_of_not_mem hfirst,
      ih (slash_not_mem_of_isSegment hseg) hsegs]

theorem intercalate_eq_slashed (first : List Char) (segs : List (List Char)) :
    ['/'].intercalate (first :: segs) = first ++ slashed segs := by
  induction segs generalizing first with
  | nil => simp
  | cons seg segs ih => rw [List.intercalate_cons_cons, ih, slashed_cons]; simp

theorem eq_append_slashed {cs first : List Char} {segs : List (List Char)}
    (h : cs.splitOn '/' = first :: segs) : cs = first ++ slashed segs := by
  rw [← intercalate_eq_slashed, ← h, List.intercalate_splitOn]

theorem slash_not_mem_of_mem_pathAnchors {anchor : List Char} (h : anchor ∈ pathAnchors) :
    '/' ∉ anchor := by
  have hall : ∀ anchor ∈ pathAnchors, '/' ∉ anchor := by decide
  exact hall anchor h

/-- The checks that divide a text at its slashes are those of the grammar. -/
theorem isAnchoredPath_iff (cs : List Char) :
    isAnchoredPath cs = true ↔ ∃ anchor ∈ pathAnchors, StartsPath anchor cs := by
  constructor
  · intro h
    obtain ⟨anchor, seg, segs, hsplit, hanchor, hsegs⟩ := isAnchoredPath_cases h
    refine ⟨anchor, by simpa [pathAnchors] using hanchor, seg :: segs, by simp, ?_,
      eq_append_slashed hsplit⟩
    exact fun s hs => (isSegment_iff s).mpr (hsegs s hs)
  · rintro ⟨anchor, hanchor, segs, hne, hsegs, rfl⟩
    have hsplit := splitOn_append_slashed (slash_not_mem_of_mem_pathAnchors hanchor) hsegs
    obtain ⟨seg, segs, rfl⟩ := List.exists_cons_of_ne_nil hne
    unfold isAnchoredPath isAnchored
    rw [hsplit, Bool.and_eq_true, List.all_eq_true]
    exact ⟨by simpa using hanchor, hsegs⟩

theorem isSearchPath_iff (cs : List Char) : isSearchPath cs = true ↔ IsSearchText cs := by
  constructor
  · intro h
    obtain ⟨body, rfl, hsegs⟩ := exists_searchPath_eq h
    obtain ⟨seg, segs, hsplit⟩ := List.exists_cons_of_ne_nil (List.splitOn_ne_nil '/' body)
    refine ⟨seg, segs, fun s hs => (isSegment_iff s).mpr (hsegs s (hsplit ▸ hs)), ?_⟩
    rw [eq_append_slashed hsplit, List.cons_append, List.cons_append]
  · rintro ⟨seg, segs, hsegs, rfl⟩
    have hseg := slash_not_mem_of_isSegment (hsegs seg List.mem_cons_self)
    have hsplit := splitOn_append_slashed hseg fun s hs => hsegs s (List.mem_cons_of_mem seg hs)
    rw [List.cons_append, List.cons_append, isSearchPath, List.dropLast_concat, hsplit,
      List.getLast?_concat, Bool.and_eq_true, List.all_eq_true]
    exact ⟨rfl, hsegs⟩

theorem isAnchored_eq (cs : List Char) : isAnchored cs = startsAnchored cs := by
  have hstarts : pathStarts = pathAnchors.map (· ++ ['/']) := rfl
  rw [Bool.eq_iff_iff, startsAnchored, hstarts, List.any_map, List.any_eq_true]
  simp only [Function.comp_apply, List.isPrefixOf_iff_prefix]
  constructor
  · intro h
    unfold isAnchored at h
    split at h
    · next anchor seg segs hsplit =>
      refine ⟨anchor, by simpa using h, seg ++ slashed segs, ?_⟩
      rw [eq_append_slashed hsplit, slashed_cons, List.append_assoc, List.singleton_append]
    · cases h
  · rintro ⟨anchor, hanchor, more, rfl⟩
    obtain ⟨seg, segs, hsplit⟩ := List.exists_cons_of_ne_nil (List.splitOn_ne_nil '/' more)
    rw [List.append_assoc, List.singleton_append, isAnchored,
      List.splitOn_append_cons_self_of_not_mem (slash_not_mem_of_mem_pathAnchors hanchor), hsplit]
    simpa using hanchor

/-! ### What is accepted -/

theorem anchorPath_eq_self {s : String}
    (h : IsSearchText s.toList ∨ startsAnchored s.toList = true) : anchorPath s = s := by
  rw [← isSearchPath_iff, ← isAnchored_eq, ← Bool.or_eq_true] at h
  exact if_pos h

theorem anchorPath_of_not_isSearchText {s : String} (h : ¬IsSearchText s.toList) :
    anchorPath s = String.ofList (anchoredText s.toList) := by
  rw [← isSearchPath_iff, Bool.not_eq_true] at h
  rw [anchorPath, anchoredText, h, Bool.false_or, isAnchored_eq]
  split
  · rw [String.ofList_toList]
  · rfl

theorem not_isSearchText_anchoredText {cs : List Char} (h : ¬IsSearchText cs) :
    ¬IsSearchText (anchoredText cs) := by
  unfold anchoredText
  split
  · exact h
  · rintro ⟨seg, segs, -, heq⟩
    cases heq

/-- A text is accepted if it is a search path, or a path of the other kind once it is anchored. -/
theorem isPathLiteral_anchorPath_iff (s : String) :
    isPathLiteral (anchorPath s) = true ↔ IsSearchText s.toList ∨
      ∃ anchor ∈ pathAnchors, StartsPath anchor (anchoredText s.toList) := by
  by_cases h : IsSearchText s.toList
  · rw [anchorPath_eq_self (.inl h), isPathLiteral, (isSearchPath_iff _).mpr h, Bool.true_or]
    exact iff_of_true rfl (.inl h)
  · rw [anchorPath_of_not_isSearchText h, isPathLiteral, String.toList_ofList, Bool.or_eq_true,
      isSearchPath_iff, isAnchoredPath_iff, or_iff_right (not_isSearchText_anchoredText h),
      or_iff_right h]

theorem anchorPath_cases (s : String) : anchorPath s = s ∨ anchorPath s = "./" ++ s := by
  unfold anchorPath
  split
  · exact .inl rfl
  · refine .inr (String.toList_injective ?_)
    rw [String.toList_ofList, String.toList_append]
    rfl

theorem PathLiteral.checked_eq_ok_iff (s : String) (p : PathLiteral) :
    PathLiteral.checked s = .ok p ↔ anchorPath s = p.text := by
  unfold PathLiteral.checked PathLiteral.ofString?
  by_cases h : isPathLiteral (anchorPath s) = true
  · rw [dif_pos h]
    exact ⟨fun heq => by cases heq; rfl, fun heq => by cases p; cases heq; rfl⟩
  · rw [dif_neg h]
    exact ⟨nofun, fun heq => absurd (heq ▸ p.valid) h⟩

theorem PathLiteral.exists_checked_eq_error_iff (s : String) :
    (∃ m, PathLiteral.checked s = .error m) ↔ ¬isPathLiteral (anchorPath s) = true := by
  unfold PathLiteral.checked PathLiteral.ofString?
  by_cases h : isPathLiteral (anchorPath s) = true
  · rw [dif_pos h]
    exact iff_of_false nofun (not_not.mpr h)
  · rw [dif_neg h]
    exact iff_of_true ⟨_, rfl⟩ h

/-! ### No empty segment -/

/-- Behind each slash between segments there is a path character. -/
theorem exists_of_slashed_eq {segs : List (List Char)} (hsegs : ∀ seg ∈ segs, isSegment seg = true)
    {start tail a b : List Char} (hstart : '/' ∉ start) (htail : '/' ∉ tail)
    (h : start ++ slashed segs ++ tail = a ++ '/' :: b) :
    ∃ c rest, b = c :: rest ∧ isPathChar c = true := by
  induction segs generalizing start a with
  | nil =>
    have hmem : '/' ∈ start ++ slashed [] ++ tail := h ▸ by simp
    simp [hstart, htail] at hmem
  | cons seg segs ih =>
    obtain ⟨hseg, hsegs⟩ := List.forall_mem_cons.mp hsegs
    have hfirst : ∃ c rest, seg ++ slashed segs ++ tail = c :: rest ∧ isPathChar c = true := by
      obtain ⟨hne, hchars⟩ := (isSegment_iff seg).mp hseg
      obtain ⟨c, seg, rfl⟩ := List.exists_cons_of_ne_nil hne
      exact ⟨c, seg ++ slashed segs ++ tail, rfl, hchars c List.mem_cons_self⟩
    rw [slashed_cons, List.append_assoc, List.cons_append, List.append_eq_append_iff] at h
    rcases h with ⟨_ | ⟨d, a⟩, rfl, h⟩ | ⟨_ | ⟨d, more⟩, rfl, h⟩
    · exact (List.cons.inj h).2 ▸ hfirst
    · exact ih hsegs (slash_not_mem_of_isSegment hseg) (List.cons.inj h).2
    · exact (List.cons.inj h).2 ▸ hfirst
    · -- The slash would be in the start, which has none.
      obtain rfl := (List.cons.inj h).1
      simp at hstart

theorem exists_anchoredText_eq {cs a b : List Char} (h : cs = a ++ '/' :: b) :
    ∃ a', anchoredText cs = a' ++ '/' :: b := by
  unfold anchoredText
  split
  · exact ⟨a, h⟩
  · exact ⟨'.' :: '/' :: a, by rw [h]; rfl⟩

theorem not_isPathLiteral_of_gap {s : String} {a b : List Char} (h : s.toList = a ++ '/' :: b)
    (hb : b = [] ∨ b.head? = some '/') : ¬isPathLiteral (anchorPath s) = true := by
  have hgap : ¬∃ c rest, b = c :: rest ∧ isPathChar c = true := by
    rintro ⟨c, rest, rfl, hc⟩
    obtain rfl : c = '/' := by simpa using hb
    cases hc
  rw [isPathLiteral_anchorPath_iff]
  rintro (⟨seg, segs, hsegs, heq⟩ | ⟨anchor, hanchor, segs, -, hsegs, heq⟩)
  · obtain ⟨hseg, hsegs⟩ := List.forall_mem_cons.mp hsegs
    have hstart : '/' ∉ '<' :: seg := by
      rw [List.mem_cons, not_or]
      exact ⟨by decide, slash_not_mem_of_isSegment hseg⟩
    exact hgap (exists_of_slashed_eq hsegs hstart (by decide) (heq.symm.trans h))
  · obtain ⟨a', ha'⟩ := exists_anchoredText_eq h
    rw [heq, ← List.append_nil (anchor ++ slashed segs)] at ha'
    have hanchor := slash_not_mem_of_mem_pathAnchors hanchor
    exact hgap (exists_of_slashed_eq hsegs hanchor List.not_mem_nil ha')

/-! ### The token -/

/-- The characters of paths. -/
def isPathTokenChar (c : Char) : Bool :=
  isPathChar c || ['/', '~', '<', '>'].contains c

theorem isPathTokenChar_of_mem_slashed {segs : List (List Char)}
    (hsegs : ∀ seg ∈ segs, isSegment seg = true) :
    ∀ c ∈ slashed segs, isPathTokenChar c = true := by
  intro c hc
  obtain ⟨seg, hseg, hc⟩ := List.mem_flatMap.mp hc
  rcases List.mem_cons.mp hc with rfl | hc
  · rfl
  · rw [isPathTokenChar, ((isSegment_iff seg).mp (hsegs seg hseg)).2 c hc, Bool.true_or]

theorem IsPathToken.isPathTokenChar_of_mem {cs : List Char} (h : IsPathToken cs) :
    ∀ c ∈ cs, isPathTokenChar c = true := by
  rcases h with ⟨seg, segs, hsegs, rfl⟩ | ⟨start, hstart, segs, -, hsegs, rfl⟩
  · obtain ⟨hseg, hsegs⟩ := List.forall_mem_cons.mp hsegs
    have hchars := ((isSegment_iff seg).mp hseg).2
    intro c hc
    simp only [List.cons_append, List.mem_cons, List.mem_append, List.not_mem_nil, or_false] at hc
    rcases hc with rfl | (hc | hc) | rfl
    · rfl
    · rw [isPathTokenChar, hchars c hc, Bool.true_or]
    · exact isPathTokenChar_of_mem_slashed hsegs c hc
    · rfl
  · refine List.forall_mem_append.mpr ⟨?_, isPathTokenChar_of_mem_slashed hsegs⟩
    rcases hstart with rfl | hchars
    · exact List.forall_mem_singleton.mpr rfl
    · intro c hc
      rw [isPathTokenChar, hchars c hc, Bool.true_or]

theorem eq_tilde_or_of_mem_pathAnchors {anchor : List Char} (h : anchor ∈ pathAnchors) :
    anchor = ['~'] ∨ ∀ c ∈ anchor, isPathChar c = true := by
  simp only [pathAnchors, List.mem_cons, List.not_mem_nil, or_false] at h
  rcases h with rfl | rfl | rfl | rfl
  · exact .inr (List.forall_mem_nil _)
  · exact .inr (List.forall_mem_singleton.mpr rfl)
  · exact .inr (List.forall_mem_cons.mpr ⟨rfl, List.forall_mem_singleton.mpr rfl⟩)
  · exact .inl rfl

theorem PathLiteral.isPathToken (p : PathLiteral) : IsPathToken p.text.toList := by
  have hvalid := p.valid
  rw [isPathLiteral, Bool.or_eq_true, isSearchPath_iff, isAnchoredPath_iff] at hvalid
  refine hvalid.imp_right ?_
  rintro ⟨anchor, hanchor, h⟩
  exact ⟨anchor, eq_tilde_or_of_mem_pathAnchors hanchor, h⟩

theorem longestPrefix_path (p : PathLiteral) {uris : Bool} {rest : List Char}
    (hr : Delimited uris rest) :
    LongestPrefix IsPathToken (p.text.toList ++ rest) p.text.toList := by
  refine longestPrefix_append (fun _ h => h.isPathTokenChar_of_mem) p.isPathToken ?_
  intro c hc
  rcases eq_of_endsToken (hr c hc) with rfl | rfl | rfl | rfl | rfl | rfl | ⟨rfl, -⟩ <;> rfl

/-- What is accepted is the text, or the text taken from the current directory; the former if the
text is a search path or starts like a path. It is accepted again as it is, and before anything that
ends a token it is the longest path there, and the token that is read. A text is refused exactly if
it is no search path and, anchored, no segments behind an anchor; so it is refused if nothing or
another slash follows a slash in it. -/
theorem checked_normal_form (s : String) :
    (∀ p, PathLiteral.checked s = .ok p →
      (p.text = s ∨ p.text = "./" ++ s) ∧
      (IsSearchText s.toList ∨ startsAnchored s.toList = true → p.text = s) ∧
      PathLiteral.checked p.text = .ok p ∧
      ∀ rest, Delimited false rest →
        LongestPrefix IsPathToken (p.text.toList ++ rest) p.text.toList ∧
          token? (p.text.toList ++ rest) = some (.path p.text, rest)) ∧
    ((∃ m, PathLiteral.checked s = .error m) ↔
      ¬IsSearchText s.toList ∧
        ¬∃ anchor ∈ pathAnchors, StartsPath anchor (anchoredText s.toList)) ∧
    ∀ a b, s.toList = a ++ '/' :: b → b = [] ∨ b.head? = some '/' →
      ∃ m, PathLiteral.checked s = .error m := by
  refine ⟨fun p hp => ⟨?_, ?_, ?_, ?_⟩, ?_, ?_⟩
  · rw [← (PathLiteral.checked_eq_ok_iff s p).mp hp]
    exact anchorPath_cases s
  · rw [← (PathLiteral.checked_eq_ok_iff s p).mp hp]
    exact anchorPath_eq_self
  · exact (PathLiteral.checked_eq_ok_iff p.text p).mpr p.anchorPath_text
  · exact fun rest hr => ⟨longestPrefix_path p hr, token?_path p hr⟩
  · rw [PathLiteral.exists_checked_eq_error_iff, isPathLiteral_anchorPath_iff, not_or]
  · exact fun a b h hb =>
      (PathLiteral.exists_checked_eq_error_iff s).mpr (not_isPathLiteral_of_gap h hb)

/-- A name that starts with a point is no anchor. Before a comma its path ends. -/
theorem checked_normal_form_hidden :
    PathLiteral.checked ".a/b" = .ok ⟨"./.a/b", by decide⟩ ∧ Delimited false [','] ∧
      PathLiteral.checked "./.a/b" = .ok ⟨"./.a/b", by decide⟩ ∧
      LongestPrefix IsPathToken ("./.a/b".toList ++ [',']) "./.a/b".toList ∧
      startsAnchored "~/a".toList = true ∧
      (∀ p, PathLiteral.checked "~/a" = .ok p → p.text = "~/a") ∧
      "<a//b>".toList = ['<', 'a'] ++ '/' :: ['/', 'b', '>'] ∧
      ∃ m, PathLiteral.checked "<a//b>" = .error m := by
  have hok : PathLiteral.checked ".a/b" = .ok ⟨"./.a/b", by decide⟩ := by decide
  have hends : Delimited false [','] := by simp [endsToken]
  have hgap : "<a//b>".toList = ['<', 'a'] ++ '/' :: ['/', 'b', '>'] := by decide
  obtain ⟨-, -, hagain, htoken⟩ := (checked_normal_form ".a/b").1 _ hok
  exact ⟨hok, hends, hagain, (htoken [','] hends).1, rfl,
    fun p hp => ((checked_normal_form "~/a").1 p hp).2.1 (.inr rfl), hgap,
    (checked_normal_form "<a//b>").2.2 _ _ hgap (.inr rfl)⟩

end NixSource
