import NixSource.Proofs.Syntax.AsRead
import NixSource.Proofs.Syntax.Pairing
import NixSource.Proofs.Syntax.Selection

/-! What the text of a selection with a fallback tells: where the chain of selections starts, which
attributes it follows, and the fallback. Selections without a fallback in the chain leave no trace,
so a fallback guards their attributes along with its own. -/

namespace NixSource

/-- The part of a text from the first point on that is outside of brackets, strings and numbers. -/
def fromPoint (depth : Nat) : List Char → List Char
  | [] => []
  | c :: cs =>
    if c = '"' then
      match _h : readContent false cs with
      | some r => fromPoint depth r.2
      | none => []
    else if c = '<' then fromPoint depth (cs.dropWhile (· != '>'))
    else if opensGroup c then fromPoint (depth + 1) cs
    else if closesGroup c then fromPoint (depth - 1) cs
    else if depth = 0 ∧ c = '.' ∧ cs.head?.any Char.isDigit = false then c :: cs
    else fromPoint depth cs
termination_by cs => cs.length
decreasing_by
  · exact Nat.lt_succ_of_lt (length_of_readContent ‹_›)
  · exact Nat.lt_succ_of_le (length_dropWhile_le _ _)
  all_goals exact Nat.lt_succ_self _

section Scan

variable {depth : Nat} {c : Char} {cs : List Char}

theorem ne_of_isOrdinary (h : isOrdinary c = true) :
    c ≠ '"' ∧ c ≠ '<' ∧ opensGroup c = false ∧ closesGroup c = false := by
  have h : ((opensGroup c = false ∧ closesGroup c = false) ∧ c ≠ '"') ∧ c ≠ '<' := by
    simpa [isOrdinary] using h
  exact ⟨h.1.2, h.2, h.1.1.1, h.1.1.2⟩

theorem fromPoint_opening (h : opensGroup c = true) (cs : List Char) :
    fromPoint depth (c :: cs) = fromPoint (depth + 1) cs := by
  rcases eq_of_opensGroup h with rfl | rfl | rfl <;> rw [fromPoint] <;> rfl

theorem fromPoint_closing (h : closesGroup c = true) (cs : List Char) :
    fromPoint (depth + 1) (c :: cs) = fromPoint depth cs := by
  rcases eq_of_closesGroup h with rfl | rfl | rfl <;> rw [fromPoint] <;> rfl

theorem fromPoint_ordinary (hc : isOrdinary c = true)
    (h : 0 < depth ∨ c ≠ '.' ∨ cs.head?.any Char.isDigit = true) :
    fromPoint depth (c :: cs) = fromPoint depth cs := by
  obtain ⟨hquote, hangle, hopen, hclose⟩ := ne_of_isOrdinary hc
  have hpoint : ¬ (depth = 0 ∧ c = '.' ∧ cs.head?.any Char.isDigit = false) := by
    rintro ⟨rfl, rfl, hdigit⟩
    rcases h with h | h | h
    · exact absurd h (Nat.lt_irrefl 0)
    · exact h rfl
    · rw [hdigit] at h
      cases h
  rw [fromPoint, if_neg hquote, if_neg hangle, if_neg (by simp [hopen]), if_neg (by simp [hclose]),
    if_neg hpoint]

theorem fromPoint_point (h : cs.head?.any Char.isDigit = false) :
    fromPoint 0 ('.' :: cs) = '.' :: cs := by
  rw [fromPoint, if_neg (by decide), if_neg (by decide), if_neg (by decide), if_neg (by decide),
    if_pos ⟨rfl, rfl, h⟩]

theorem fromPoint_run (hcs : ∀ c ∈ cs, isOrdinary c = true) (h : 0 < depth ∨ '.' ∉ cs)
    (rest : List Char) : fromPoint depth (cs ++ rest) = fromPoint depth rest := by
  induction cs with
  | nil => rfl
  | cons c cs ih =>
    obtain ⟨hc, hrun⟩ := List.forall_mem_cons.mp hcs
    have hpoint : 0 < depth ∨ c ≠ '.' ∧ '.' ∉ cs := by
      simpa [not_or, ne_comm] using h
    rw [List.cons_append, fromPoint_ordinary hc (hpoint.imp_right fun h => .inl h.1)]
    exact ih hrun (hpoint.imp_right And.right)

theorem fromPoint_stringLiteral (s : String) (rest : List Char) :
    fromPoint depth (stringLiteral s ++ rest) = fromPoint depth rest := by
  have hread : readContent false (escape s.toList ++ '"' :: rest) = some (s.toList, rest) :=
    readContent_escape s.toList rest
  rw [stringLiteral, List.cons_append, List.append_assoc, List.singleton_append, fromPoint,
    if_pos rfl]
  split
  · next r h =>
    rw [hread] at h
    cases h
    rfl
  · next h =>
    rw [hread] at h
    cases h

theorem fromPoint_searchPath {p : List Char} (h : isSearchPath p = true) (rest : List Char) :
    fromPoint depth (p ++ rest) = fromPoint depth rest := by
  obtain ⟨body, rfl, hsegs⟩ := exists_searchPath_eq h
  have hbody : ∀ c ∈ body, (c != '>') = true := by
    have hcs : List.intercalate ['/'] (body.splitOn '/') = body := List.intercalate_splitOn '/'
    rw [← hcs]
    refine forall_mem_intercalate (List.all_eq_true.mp rfl) fun seg hseg c hc => ?_
    exact bne_iff_ne.mpr (ne_of_class ((hsegs seg hseg).2 c hc) rfl)
  have hdrop : (body ++ '>' :: rest).dropWhile (· != '>') = '>' :: rest :=
    (takeWhile_dropWhile_append hbody (by simp)).2
  rw [List.cons_append, List.append_assoc, List.singleton_append, fromPoint, if_neg (by decide),
    if_pos rfl, hdrop]
  exact fromPoint_ordinary rfl (.inr (.inl (by decide)))

/-- Inside of a group no point counts: the scan comes to where as many groups are open as at the
start, less those that the text closes. -/
theorem fromPoint_append {free : Bool} {depth : Nat} {text : List Char} (h : Closes free depth text)
    (outside : Nat) (rest : List Char) :
    fromPoint (depth + (outside + 1)) (text ++ rest) = fromPoint (outside + 1) rest := by
  induction h with
  | nil => rw [Nat.zero_add, List.nil_append]
  | char hc _ _ ih => exact (fromPoint_ordinary hc (.inl (by omega))).trans ih
  | opening hc _ ih =>
    rw [Nat.add_right_comm] at ih
    exact (fromPoint_opening hc _).trans ih
  | closing hc _ ih =>
    rw [Nat.add_right_comm]
    exact (fromPoint_closing hc _).trans ih
  | literal s _ ih =>
    rw [List.append_assoc, fromPoint_stringLiteral]
    exact ih
  | searchPath hp _ ih =>
    rw [List.append_assoc, fromPoint_searchPath hp]
    exact ih
  | @uri depth u cs hu _ ih =>
    have hrun : ∀ c ∈ ' ' :: u.text.toList, isOrdinary c = true :=
      List.forall_mem_cons.mpr ⟨rfl, fun c hc =>
        (isOrdinary_of_class rfl ((u.isBare_iff.mp hu).isUriChar_of_mem c hc)).1⟩
    rw [← List.cons_append, List.append_assoc, fromPoint_run hrun (.inl (by omega))]
    exact ih

end Scan

/-- Whether a text has no point outside of brackets, strings and numbers. -/
def Solid (text : List Char) : Prop :=
  ∀ rest, fromPoint 0 (text ++ rest) = fromPoint 0 rest

theorem Solid.append {text more : List Char} (h : Solid text) (hmore : Solid more) :
    Solid (text ++ more) := fun rest => by
  rw [List.append_assoc, h, hmore]

theorem solid_of_class {p : Char → Bool} {text : List Char}
    (hp : ('.' :: groupingMarks).any p = false) (h : ∀ c ∈ text, p c = true) : Solid text := by
  have hmem : ∀ c ∈ text, c ∉ '.' :: groupingMarks := fun c hc => not_mem_of_class hp (h c hc)
  refine fromPoint_run (fun c hc => ?_) (.inr fun hpoint => hmem '.' hpoint List.mem_cons_self)
  exact isOrdinary_of_not_mem fun hm => hmem c hc (List.mem_cons_of_mem _ hm)

theorem solid_words {text : List Char} (h : (text.all fun c => isLetter c || c == ' ') = true) :
    Solid text :=
  solid_of_class (p := fun c => isLetter c || c == ' ') rfl (List.all_eq_true.mp h)

theorem solid_group {o c : Char} {inside : List Char} (ho : opensGroup o = true)
    (hc : closesGroup c = true) (h : Closes true 0 inside) : Solid (o :: (inside ++ [c])) := by
  intro rest
  have hinside : fromPoint 1 (inside ++ c :: rest) = fromPoint 1 (c :: rest) := by
    simpa using fromPoint_append h 0 (c :: rest)
  calc fromPoint 0 (o :: (inside ++ [c]) ++ rest)
      = fromPoint 0 (o :: (inside ++ c :: rest)) := by simp
    _ = fromPoint 1 (inside ++ c :: rest) := fromPoint_opening ho _
    _ = fromPoint 1 (c :: rest) := hinside
    _ = fromPoint 0 rest := fromPoint_closing hc rest

theorem solid_stringLiteral (s : String) : Solid (stringLiteral s) :=
  fromPoint_stringLiteral s

theorem solid_searchPath {p : List Char} (h : isSearchPath p = true) : Solid p :=
  fromPoint_searchPath h

theorem solid_identifier {cs : List Char} (h : isIdentifier cs = true) : Solid cs :=
  solid_of_class rfl (isIdentifierRest_of_isIdentifier h)

theorem solid_integerLiteral (i : Int64) : Solid (integerLiteral i) := by
  rcases integerLiteral_cases i with ⟨inside, htext, hinside⟩ | htext
  · rw [htext]
    exact solid_group rfl rfl hinside
  · rw [htext]
    exact solid_of_class rfl fun _ hc => isDigit_of_mem_decimalText hc

theorem solid_floatLiteral (x : FiniteFloat) : Solid x.literal := by
  rcases floatLiteral_cases x with ⟨inside, htext, hinside⟩ | ⟨whole, places, hspells, htext⟩
  · rw [htext]
    exact solid_group rfl rfl hinside
  · intro rest
    have hwhole : Solid whole := solid_of_class rfl hspells.isDigit_whole
    have hplaces : Solid places := solid_of_class rfl hspells.isDigit_places
    -- The point of the number itself has a digit behind it, so the scan passes it.
    have hdigit : (places ++ rest).head?.any Char.isDigit = true := by
      obtain ⟨d, ds, rfl⟩ := List.exists_cons_of_ne_nil (FiniteFloat.places_ne_nil hspells)
      exact hspells.isDigit_places d List.mem_cons_self
    rw [htext, List.append_assoc, hwhole, List.cons_append,
      fromPoint_ordinary rfl (.inr (.inr hdigit)), hplaces]

theorem solid_setText (layout : Layout) (level : Nat) {bindings : List Char}
    (h : Closes true 0 bindings) : Solid (setText layout level bindings) := by
  obtain ⟨inside, htext, hinside⟩ := exists_setText_eq layout level h
  rw [htext]
  exact solid_group rfl rfl hinside

theorem solid_listText (layout : Layout) (level : Nat) {elements : List (List Char)}
    (h : ∀ e ∈ elements, Closes true 0 e) : Solid (listText layout level elements) := by
  obtain ⟨inside, htext, hinside⟩ := exists_listText_eq layout level h
  rw [htext]
  exact solid_group rfl rfl hinside

theorem attributeName_append_inj {n m : String} {rest more : List Char} (hr : Apart rest)
    (hm : Apart more) (h : attributeName n ++ rest = attributeName m ++ more) :
    n = m ∧ rest = more := by
  have htoken : some (nameToken n, rest) = some (nameToken m, more) := by
    rw [← token?_attributeName n hr, h, token?_attributeName m hm]
  obtain ⟨hname, hrest⟩ := Prod.mk.inj (Option.some.inj htoken)
  have hattribute := congrArg Token.attribute? hname
  rw [nameToken_attribute, nameToken_attribute] at hattribute
  exact ⟨Option.some.inj hattribute, hrest⟩

/-- The text tells which attributes are followed, up to the space behind them. -/
theorem stepsText_append_inj {names others : List String} {rest more : List Char}
    (h : stepsText names ++ ' ' :: rest = stepsText others ++ ' ' :: more) :
    names = others ∧ rest = more := by
  induction names generalizing others with
  | nil =>
    cases others with
    | nil => exact ⟨rfl, List.tail_eq_of_cons_eq h⟩
    | cons m others => cases h
  | cons n names ih =>
    cases others with
    | nil => cases h
    | cons m others =>
      have hsteps : attributeName n ++ (stepsText names ++ ' ' :: rest) =
          attributeName m ++ (stepsText others ++ ' ' :: more) := by
        simpa [stepsText] using h
      obtain ⟨rfl, htail⟩ := attributeName_append_inj (apart_steps names (apart_space rest))
        (apart_steps others (apart_space more)) hsteps
      obtain ⟨rfl, hrest⟩ := ih htail
      exact ⟨rfl, hrest⟩

theorem attributeName_head (s : String) (rest : List Char) :
    (attributeName s ++ rest).head?.any Char.isDigit = false := by
  unfold attributeName
  split
  · next h =>
    have hid : isIdentifier s.toList = true := (Bool.and_eq_true_iff.mp h).1
    cases hs : s.toList with
    | nil => simp [hs, isIdentifier] at hid
    | cons c cs =>
      rw [hs, isIdentifier, Bool.and_eq_true] at hid
      have hdigit : c.isDigit = false := by
        cases hc : c.isDigit with
        | false => rfl
        | true => exact absurd hid.1 (by simp [not_isIdentifierStart_of_isDigit hc])
      simpa using hdigit
  · rfl

theorem fromPoint_steps {names : List String} (h : names ≠ []) (rest : List Char) :
    fromPoint 0 (stepsText names ++ rest) = stepsText names ++ rest := by
  obtain ⟨n, names, rfl⟩ := List.exists_cons_of_ne_nil h
  have hhead := attributeName_head n (stepsText names ++ rest)
  simp only [stepsText, List.flatMap_cons, List.cons_append, List.append_assoc] at hhead ⊢
  exact fromPoint_point hhead

theorem AttributePath.toList_injective : Function.Injective AttributePath.toList := by
  rintro ⟨first, rest⟩ ⟨first', rest'⟩ h
  cases h
  rfl

namespace Expr

/-- What a chain of selections without a fallback starts from. -/
def root : Expr → Expr
  | select s _ none => s.root
  | e => e

/-- The attributes that the chain follows. -/
def followed : Expr → List String
  | select s p none => s.followed ++ p.toList
  | _ => []

theorem root_of_isRoot {e : Expr} (h : e.IsRoot) : e.root = e ∧ e.followed = [] := by
  cases e with
  | select s p fallback =>
    cases fallback with
    | none => exact absurd rfl (h s p)
    | some d => exact ⟨rfl, rfl⟩
  | _ => exact ⟨rfl, rfl⟩

/-- In front of a point the text of an expression is that of its root and of the attributes. -/
theorem enclose_root (e : Expr) (layout : Layout) (level : Nat) :
    enclose .atom e (e.print layout level) =
      enclose .atom e.root (e.root.print layout level) ++ stepsText e.followed := by
  fun_induction root e with
  | case1 s p ih =>
    have htext : enclose .atom (select s p none) ((select s p none).print layout level) =
        enclose .atom s (s.print layout level) ++ stepsText p.toList := by
      show (select s p none).print layout level = _
      rw [print_select, fallbackText, List.append_nil]
    rw [htext, ih, followed]
    simp [stepsText]
  | case2 e h => simp [(root_of_isRoot h).2, stepsText]

/-- Whether the point of a selection can be told from the text in front of it. -/
def EndsItself : Expr → Prop
  | uri u => u.isBare = false
  | path p => isSearchPath p.text.toList = true
  | verbatim s => isBareName s = true
  | _ => True

theorem solid_enclose {e : Expr} (hroot : e.IsRoot) (hend : e.EndsItself) (hw : e.WellFormed)
    (hg : e.GivenInPairs) (layout : Layout) (level : Nat) :
    Solid (enclose .atom e (e.print layout level)) := by
  have hparens : Solid ('(' :: (e.print layout level ++ [')'])) :=
    solid_group rfl rfl (paired_print layout e hw hg level).whole
  have hparts : ∀ part ∈ e.parts, ∀ level, Closes true 0 (part.print layout level) :=
    fun part hp level =>
      (paired_print layout part (wellFormed_of_mem_parts hw hp) (hg.of_mem_parts hp) level).whole
  cases e with
  | null => exact solid_identifier rfl
  | bool b => cases b <;> exact solid_identifier rfl
  | int i => exact solid_integerLiteral i
  | float x => exact solid_floatLiteral x
  | string s => exact solid_stringLiteral s
  | uri u =>
    have hbare : ¬ u.isBare = true := Bool.eq_false_iff.mp hend
    have htext : enclose .atom (uri u) ((uri u).print layout level) = stringLiteral u.text :=
      if_neg hbare
    rw [htext]
    exact solid_stringLiteral u.text
  | path p => exact solid_searchPath hend
  | verbatim s => exact solid_identifier (Bool.and_eq_true_iff.mp hend).1
  | inherit scope =>
    cases scope with
    | none => exact solid_identifier rfl
    | some s =>
      have hword : Solid ['i', 'n', 'h', 'e', 'r', 'i', 't', ' '] := solid_words rfl
      have hscope := solid_group (o := '(') (c := ')') rfl rfl (hg.scope s (.self _))
      have htext := hword.append hscope
      simpa [enclose, precedence, print, inheritText] using htext
  | attrs b => exact solid_setText layout level (closes_printBindings hparts _)
  | recAttrs b =>
    have hword : Solid ['r', 'e', 'c', ' '] := solid_words rfl
    exact hword.append (solid_setText layout level (closes_printBindings hparts _))
  | list items => exact solid_listText layout level (closes_printElements hparts _)
  | select s p fallback =>
    cases fallback with
    | none => exact absurd rfl (hroot s p)
    | some d => exact hparens
  | _ => exact hparens

/-- What can be selected from so that the text tells it: an expression that is put together as
checked construction does it, with a root that ends itself. -/
structure Delimits (e : Expr) : Prop where
  wellFormed : e.WellFormed
  given : e.GivenInPairs
  root_ends : e.root.EndsItself

theorem Delimits.solid_root {e : Expr} (h : e.Delimits) (layout : Layout) (level : Nat) :
    Solid (enclose .atom e.root (e.root.print layout level)) := by
  fun_induction root e with
  | case1 s p ih =>
    exact ih ⟨h.wellFormed, h.given.of_mem_parts List.mem_cons_self, h.root_ends⟩
  | case2 e hroot =>
    have hend : e.EndsItself := (root_of_isRoot hroot).1 ▸ h.root_ends
    exact solid_enclose hroot hend h.wellFormed h.given layout level

/-- The text of a reference with a fallback in its three parts. -/
theorem print_fallback (layout : Layout) (level : Nat) (s : Expr) (p : AttributePath) (d : Expr) :
    (select s p (some d)).print layout level =
      enclose .atom s.root (s.root.print layout level) ++
        (stepsText (s.followed ++ p.toList) ++ ' ' ::
          (['o', 'r', ' '] ++ enclose .atom d (d.print layout level))) := by
  rw [print_select, enclose_root]
  simp [fallbackText, stepsText]

theorem fromPoint_print {s : Expr} (hs : s.Delimits) (layout : Layout) (level : Nat)
    (p : AttributePath) (d : Expr) :
    fromPoint 0 ((select s p (some d)).print layout level) =
      stepsText (s.followed ++ p.toList) ++ ' ' ::
        (['o', 'r', ' '] ++ enclose .atom d (d.print layout level)) := by
  have hnames : s.followed ++ p.toList ≠ [] :=
    List.append_ne_nil_of_right_ne_nil _ (List.cons_ne_nil _ _)
  rw [print_fallback, hs.solid_root, fromPoint_steps hnames]

/-- Two references with fallbacks have one text just when they start from the same text, follow the
same attributes on the whole, and have the same text for a fallback. So the text tells their own
paths, and what those select from, if that is no selection without a fallback. -/
theorem print_fallback_eq_iff {s t : Expr} (hs : s.Delimits) (ht : t.Delimits)
    (p q : AttributePath) (d e : Expr) (layout : Layout) (level : Nat) :
    ((select s p (some d)).print layout level = (select t q (some e)).print layout level ↔
      enclose .atom s.root (s.root.print layout level) =
          enclose .atom t.root (t.root.print layout level) ∧
        s.followed ++ p.toList = t.followed ++ q.toList ∧
        enclose .atom d (d.print layout level) = enclose .atom e (e.print layout level)) ∧
      (s.IsRoot → t.IsRoot →
        (select s p (some d)).print layout level = (select t q (some e)).print layout level →
        p = q ∧ enclose .atom s (s.print layout level) = enclose .atom t (t.print layout level)) := by
  have hiff : (select s p (some d)).print layout level = (select t q (some e)).print layout level ↔
      enclose .atom s.root (s.root.print layout level) =
          enclose .atom t.root (t.root.print layout level) ∧
        s.followed ++ p.toList = t.followed ++ q.toList ∧
        enclose .atom d (d.print layout level) = enclose .atom e (e.print layout level) := by
    constructor
    · intro h
      have hbehind := congrArg (fromPoint 0) h
      rw [fromPoint_print hs, fromPoint_print ht] at hbehind
      rw [print_fallback, print_fallback, hbehind] at h
      obtain ⟨hnames, hfallback⟩ := stepsText_append_inj hbehind
      exact ⟨List.append_cancel_right h, hnames, List.append_cancel_left hfallback⟩
    · rintro ⟨hroot, hnames, hfallback⟩
      rw [print_fallback, print_fallback, hroot, hnames, hfallback]
  refine ⟨hiff, fun hs' ht' h => ?_⟩
  obtain ⟨hroot, hnames, -⟩ := hiff.mp h
  obtain ⟨hsroot, hsnames⟩ := root_of_isRoot hs'
  obtain ⟨htroot, htnames⟩ := root_of_isRoot ht'
  rw [hsnames, htnames, List.nil_append, List.nil_append] at hnames
  rw [hsroot, htroot] at hroot
  exact ⟨AttributePath.toList_injective hnames, hroot⟩

/-- A quoted point is part of a name, and one in a path in a list is no selection. -/
theorem print_fallback_eq_iff_list :
    (list [path ⟨"./a.b", rfl⟩]).Delimits ∧
      (select (select (list [path ⟨"./a.b", rfl⟩]) ⟨"b", []⟩ none) ⟨"c", []⟩ (some null)).print {} 0 =
        (select (list [path ⟨"./a.b", rfl⟩]) ⟨"b", ["c"]⟩ (some null)).print {} 0 ∧
      (select (list [path ⟨"./a.b", rfl⟩]) ⟨"b.c", []⟩ (some null)).print {} 0 ≠
        (select (list [path ⟨"./a.b", rfl⟩]) ⟨"b", ["c"]⟩ (some null)).print {} 0 := by
  have hpath : (path ⟨"./a.b", rfl⟩).Built := built_of_parts (by simp) (by simp) (by simp [parts])
  have hlist : (list [path ⟨"./a.b", rfl⟩]).Built :=
    built_of_parts (by simp) (by simp) (by simpa [parts] using hpath)
  have hbase : (select (list [path ⟨"./a.b", rfl⟩]) ⟨"b", []⟩ none).Built :=
    built_of_parts (by simp) (by simp) (by simpa [parts] using hlist)
  have hs : (list [path ⟨"./a.b", rfl⟩]).Delimits := ⟨⟨trivial, trivial⟩, hlist.givenInPairs, trivial⟩
  have ht : (select (list [path ⟨"./a.b", rfl⟩]) ⟨"b", []⟩ none).Delimits :=
    ⟨⟨trivial, trivial⟩, hbase.givenInPairs, trivial⟩
  refine ⟨hs, ?_, fun h => ?_⟩
  · exact (print_fallback_eq_iff ht hs ⟨"c", []⟩ ⟨"b", ["c"]⟩ null null {} 0).1.mpr ⟨rfl, rfl, rfl⟩
  · have hroot : (list [path ⟨"./a.b", rfl⟩]).IsRoot := by
      intro s p heq
      cases heq
    have hnames := (print_fallback_eq_iff hs hs ⟨"b.c", []⟩ ⟨"b", ["c"]⟩ null null {} 0).2 hroot
      hroot h
    exact absurd hnames.1 (by decide)

/-- A selection without a fallback and a path with a point in it take part in the attributes that
the text guards, though the references guard their own only. -/
theorem print_fallback_joined :
    (select (select (verbatim "a") ⟨"b", []⟩ none) ⟨"c", []⟩ (some (verbatim "d"))).print {} 0 =
        (select (verbatim "a") ⟨"b", ["c"]⟩ (some (verbatim "d"))).print {} 0 ∧
      (select (path ⟨"./a", rfl⟩) ⟨"b", ["c"]⟩ (some (verbatim "d"))).print {} 0 =
        (select (path ⟨"./a.b", rfl⟩) ⟨"c", []⟩ (some (verbatim "d"))).print {} 0 ∧
      (⟨"c", []⟩ : AttributePath) ≠ ⟨"b", ["c"]⟩ := by
  decide

end Expr

end NixSource
