import NixSource.Proofs.Printer.Lines
import NixSource.Proofs.Syntax.Boundary

/-! Brackets and quotes in the text of an expression are in pairs. In an operand commas and colons
stand inside brackets, strings and URIs only, so that those outside of it keep their meaning. -/

namespace NixSource

def opensGroup (c : Char) : Bool :=
  c == '(' || c == '[' || c == '{'

def closesGroup (c : Char) : Bool :=
  c == ')' || c == ']' || c == '}'

/-- Whether a character outside of literals begins and ends nothing that has an inside. -/
def isOrdinary (c : Char) : Bool :=
  !(opensGroup c || closesGroup c || c == '"' || c == '<')

/-- Whether a character separates what is on both its sides. -/
def separates (c : Char) : Bool :=
  c == ',' || c == ':'

theorem eq_of_opensGroup {c : Char} (h : opensGroup c = true) : c = '(' ∨ c = '[' ∨ c = '{' := by
  simpa [opensGroup, or_assoc] using h

theorem eq_of_closesGroup {c : Char} (h : closesGroup c = true) : c = ')' ∨ c = ']' ∨ c = '}' := by
  simpa [closesGroup, or_assoc] using h

/-- A text closes `depth` groups that are open before it, and those that it opens itself. Unless it
is `free`, what separates stands in groups, in literals and in URIs after a space only. -/
inductive Closes (free : Bool) : Nat → List Char → Prop where
  | nil : Closes free 0 []
  | char {depth : Nat} {c : Char} {cs : List Char} : isOrdinary c = true →
      (separates c = true → free = true ∨ 0 < depth) → Closes free depth cs →
      Closes free depth (c :: cs)
  | opening {depth : Nat} {c : Char} {cs : List Char} : opensGroup c = true →
      Closes free (depth + 1) cs → Closes free depth (c :: cs)
  | closing {depth : Nat} {c : Char} {cs : List Char} : closesGroup c = true →
      Closes free depth cs → Closes free (depth + 1) (c :: cs)
  | literal {depth : Nat} (s : String) {cs : List Char} : Closes free depth cs →
      Closes free depth (stringLiteral s ++ cs)
  | searchPath {depth : Nat} {p cs : List Char} : isSearchPath p = true → Closes free depth cs →
      Closes free depth (p ++ cs)
  | uri {depth : Nat} {u : Uri} {cs : List Char} : u.isBare = true → Closes free depth cs →
      Closes free depth (' ' :: (u.text.toList ++ cs))

variable {free : Bool} {depth : Nat} {c : Char} {cs ds : List Char}

theorem Closes.plain (hc : isOrdinary c = true) (hsep : separates c = false)
    (h : Closes free depth cs) : Closes free depth (c :: cs) := by
  refine .char hc (fun hs => ?_) h
  rw [hsep] at hs
  cases hs

theorem Closes.space (h : Closes free depth cs) : Closes free depth (' ' :: cs) :=
  .plain rfl rfl h

theorem Closes.semicolon (h : Closes free depth cs) : Closes free depth (';' :: cs) :=
  .plain rfl rfl h

/-- What a text closes is closed with another before it, and more if that closes more. Only between
groups does it matter whether the first text is free. -/
theorem Closes.append {first : Bool} {m : Nat} (hs : Closes first m cs) (ht : Closes free depth ds)
    (hfree : first = true → free = true ∨ 0 < depth) : Closes free (m + depth) (cs ++ ds) := by
  induction hs with
  | nil => simpa using ht
  | @char m c cs hc hsep _ ih =>
    refine .char hc (fun h => ?_) ih
    rcases hsep h with hfirst | hm
    · exact (hfree hfirst).imp_right fun hd => by omega
    · exact .inr (by omega)
  | opening hc _ ih =>
    rw [Nat.add_right_comm] at ih
    exact .opening hc ih
  | closing hc _ ih =>
    rw [Nat.add_right_comm]
    exact .closing hc ih
  | literal s _ ih =>
    rw [List.append_assoc]
    exact .literal s ih
  | searchPath hp _ ih =>
    rw [List.append_assoc]
    exact .searchPath hp ih
  | uri hu _ ih =>
    rw [List.cons_append, List.append_assoc]
    exact .uri hu ih

theorem Closes.concat (hs : Closes free 0 cs) (ht : Closes free depth ds) :
    Closes free depth (cs ++ ds) := by
  simpa using hs.append ht .inl

/-- A group may hold anything that is in pairs. -/
theorem Closes.group {o : Char} (ho : opensGroup o = true) (hc : closesGroup c = true)
    (hs : Closes true 0 cs) (ht : Closes free depth ds) :
    Closes free depth (o :: (cs ++ c :: ds)) := by
  have hinside := hs.append (Closes.closing hc ht) fun _ => .inr (Nat.succ_pos depth)
  rw [Nat.zero_add] at hinside
  exact .opening ho hinside

theorem Closes.weaken (h : Closes free depth cs) : Closes true depth cs := by
  simpa using h.append (.nil : Closes true 0 []) fun _ => .inl rfl

section Ordinary

/-- The characters that are not ordinary. -/
def groupingMarks : List Char :=
  ['(', '[', '{', ')', ']', '}', '"', '<']

theorem isOrdinary_of_not_mem (h : c ∉ groupingMarks) : isOrdinary c = true := by
  simp [groupingMarks, isOrdinary, opensGroup, closesGroup] at h ⊢
  simp [h]

theorem not_mem_of_class {p : Char → Bool} {marks : List Char} (hp : marks.any p = false)
    (hc : p c = true) : c ∉ marks := fun hm =>
  List.any_eq_false.mp hp c hm hc

theorem isOrdinary_of_class {p : Char → Bool} (hp : (' ' :: groupingMarks).any p = false)
    (hc : p c = true) : isOrdinary c = true ∧ c ≠ ' ' := by
  have hmem := not_mem_of_class hp hc
  rw [List.mem_cons, not_or] at hmem
  exact ⟨isOrdinary_of_not_mem hmem.2, hmem.1⟩

theorem closes_of_class {p : Char → Bool} (hp : groupingMarks.any p = false)
    (hsep : [',', ':'].any p = false) (h : ∀ c ∈ cs, p c = true) : Closes free 0 cs := by
  induction cs with
  | nil => exact .nil
  | cons c cs ih =>
    obtain ⟨hc, hcs⟩ := List.forall_mem_cons.mp h
    refine .char (isOrdinary_of_not_mem (not_mem_of_class hp hc)) (fun hs => ?_) (ih hcs)
    have hm : c ∈ [',', ':'] := by simpa [separates] using hs
    exact absurd hm (not_mem_of_class hsep hc)

theorem closes_free_of_class {p : Char → Bool} (hp : groupingMarks.any p = false)
    (h : ∀ c ∈ cs, p c = true) : Closes true 0 cs := by
  induction cs with
  | nil => exact .nil
  | cons c cs ih =>
    obtain ⟨hc, hcs⟩ := List.forall_mem_cons.mp h
    exact .char (isOrdinary_of_not_mem (not_mem_of_class hp hc)) (fun _ => .inl rfl) (ih hcs)

end Ordinary

section Literals

theorem closes_digits (h : ∀ c ∈ cs, c.isDigit = true) : Closes free 0 cs :=
  closes_of_class rfl rfl h

theorem closes_identifier (h : isIdentifier cs = true) : Closes free 0 cs :=
  closes_of_class rfl rfl (isIdentifierRest_of_isIdentifier h)

theorem closes_words (h : (cs.all fun c => isLetter c || c == ' ') = true) : Closes free 0 cs :=
  closes_of_class (p := fun c => isLetter c || c == ' ') rfl rfl (List.all_eq_true.mp h)

theorem closes_bareName {s : String} (h : isBareName s = true) : Closes free 0 s.toList :=
  closes_identifier (Bool.and_eq_true_iff.mp h).1

theorem closes_stringLiteral (s : String) : Closes free 0 (stringLiteral s) := by
  simpa using Closes.literal s (.nil : Closes free 0 [])

theorem closes_attributeName (s : String) : Closes free 0 (attributeName s) := by
  unfold attributeName
  split
  · next h => exact closes_bareName h
  · exact closes_stringLiteral s

theorem closes_steps (names : List String) : Closes free 0 (stepsText names) := by
  induction names with
  | nil => exact .nil
  | cons n names ih =>
    exact .plain rfl rfl ((closes_attributeName n).concat ih)

theorem closes_integerText (i : Int) : Closes free 0 (integerText i) := by
  have hdigits : Closes free 0 (decimalText i.natAbs) :=
    closes_digits fun _ hc => isDigit_of_mem_decimalText hc
  unfold integerText
  split
  · exact .plain rfl rfl hdigits
  · exact hdigits

/-- A negative integer is a group, the others are digits. -/
theorem integerLiteral_cases (i : Int64) :
    (∃ inside, integerLiteral i = '(' :: (inside ++ [')']) ∧ Closes true 0 inside) ∨
      integerLiteral i = decimalText i.toInt.natAbs := by
  unfold integerLiteral
  split
  · have hone : Closes true 0 [' ', '-', ' ', '1'] :=
      closes_free_of_class (p := isOrdinary) rfl (List.all_eq_true.mp rfl)
    exact .inl ⟨_, by simp, (closes_integerText (i.toInt + 1)).concat hone⟩
  · split
    · exact .inl ⟨_, rfl, closes_integerText i.toInt⟩
    · next h =>
      have hpos : ¬ i.toInt < 0 := fun hn => h (Int64.lt_iff_toInt_lt.mpr hn)
      exact .inr (if_neg hpos)

theorem closes_integerLiteral (i : Int64) : Closes free 0 (integerLiteral i) := by
  rcases integerLiteral_cases i with ⟨inside, htext, hinside⟩ | htext
  · rw [htext]
    exact .group rfl rfl hinside .nil
  · rw [htext]
    exact closes_digits fun _ hc => isDigit_of_mem_decimalText hc

/-- A negative number with a point is a group, the others are digits around the point. -/
theorem floatLiteral_cases (x : FiniteFloat) :
    (∃ inside, x.literal = '(' :: (inside ++ [')']) ∧ Closes true 0 inside) ∨
      ∃ whole places, x.decimal.Spells whole places ∧ x.literal = whole ++ '.' :: places := by
  obtain ⟨whole, places, hspells, hliteral⟩ := x.exists_literal_eq
  rw [hliteral]
  split
  · have hinside : Closes true 0 ('-' :: (whole ++ '.' :: places)) :=
      .plain rfl rfl ((closes_digits hspells.isDigit_whole).concat
        (.plain rfl rfl (closes_digits hspells.isDigit_places)))
    exact .inl ⟨_, by simp, hinside⟩
  · exact .inr ⟨whole, places, hspells, rfl⟩

theorem closes_floatLiteral (x : FiniteFloat) : Closes free 0 x.literal := by
  rcases floatLiteral_cases x with ⟨inside, htext, hinside⟩ | ⟨whole, places, hspells, htext⟩
  · rw [htext]
    exact .group rfl rfl hinside .nil
  · rw [htext]
    exact (closes_digits hspells.isDigit_whole).concat
      (.plain rfl rfl (closes_digits hspells.isDigit_places))

theorem closes_path (p : PathLiteral) : Closes free 0 p.text.toList := by
  have hvalid := p.valid
  rw [isPathLiteral, Bool.or_eq_true] at hvalid
  rcases hvalid with hsearch | hanchored
  · simpa using Closes.searchPath hsearch (.nil : Closes free 0 [])
  · obtain ⟨anchor, seg, segs, hsplit, hanchor, hsegs⟩ := isAnchoredPath_cases hanchored
    refine closes_of_class (p := fun c => isPathChar c || c == '/' || c == '~') rfl rfl ?_
    have hcs : List.intercalate ['/'] (p.text.toList.splitOn '/') = p.text.toList :=
      List.intercalate_splitOn '/'
    rw [← hcs, hsplit]
    refine forall_mem_intercalate (by simp) (List.forall_mem_cons.mpr ⟨?_, fun s hs c hc => ?_⟩)
    · rcases hanchor with rfl | rfl | rfl | rfl <;> exact List.all_eq_true.mp rfl
    · simp [(hsegs s hs).2 c hc]

/-- The text of a URI, where its commas and colons may stand for themselves. -/
theorem closes_uriText {u : Uri} (h : u.isBare = true) : Closes true 0 u.text.toList :=
  closes_free_of_class rfl (u.isBare_iff.mp h).isUriChar_of_mem

end Literals

/-- What is in pairs behind a space is so without it, if URIs need no space before them. -/
theorem Closes.of_space (h : Closes free depth (' ' :: cs)) : Closes true depth cs := by
  generalize htext : ' ' :: cs = text at h
  cases h with
  | nil => cases htext
  | char _ _ h =>
    cases htext
    exact h.weaken
  | opening hc h =>
    cases htext
    cases hc
  | closing hc h =>
    cases htext
    cases hc
  | literal s h => cases htext
  | searchPath hp h =>
    obtain ⟨body, rfl, -⟩ := exists_searchPath_eq hp
    cases htext
  | uri hu h =>
    cases htext
    exact (closes_uriText hu).concat h.weaken

section Layout

theorem closes_newline (newline : Newline) : Closes free 0 newline.text :=
  closes_of_class (p := isBlank) rfl rfl fun _ => isBlank_of_mem_newline

theorem closes_indent (layout : Layout) (level : Nat) : Closes free 0 (layout.indent level) :=
  closes_of_class (p := isBlank) rfl rfl fun _ => isBlank_of_mem_indent

/-- A set is a group. -/
theorem exists_setText_eq (layout : Layout) (level : Nat) {bindings : List Char}
    (h : Closes true 0 bindings) :
    ∃ inside, setText layout level bindings = '{' :: (inside ++ ['}']) ∧ Closes true 0 inside := by
  unfold setText
  split
  · exact ⟨[], rfl, .nil⟩
  · exact ⟨_, by simp, ((closes_newline layout.newline).concat h).concat (closes_indent layout level)⟩

theorem closes_setText (layout : Layout) (level : Nat) {bindings : List Char}
    (h : Closes true 0 bindings) : Closes free 0 (setText layout level bindings) := by
  obtain ⟨inside, htext, hinside⟩ := exists_setText_eq layout level h
  rw [htext]
  exact .group rfl rfl hinside .nil

theorem closes_intercalate {sep : List Char} {texts : List (List Char)} (hsep : Closes free 0 sep)
    (h : ∀ text ∈ texts, Closes free 0 text) : Closes free 0 (sep.intercalate texts) := by
  induction texts with
  | nil => exact .nil
  | cons text texts ih =>
    obtain ⟨htext, htexts⟩ := List.forall_mem_cons.mp h
    cases texts with
    | nil => simpa using htext
    | cons next texts =>
      rw [List.intercalate_cons_cons]
      exact (htext.concat hsep).concat (ih htexts)

/-- A list is a group. -/
theorem exists_listText_eq (layout : Layout) (level : Nat) {elements : List (List Char)}
    (h : ∀ e ∈ elements, Closes true 0 e) :
    ∃ inside, listText layout level elements = '[' :: (inside ++ [']']) ∧ Closes true 0 inside := by
  have hspace : Closes true 0 [' '] := .plain rfl rfl .nil
  have hlines : Closes true 0
      (elements.flatMap fun e => layout.indent (level + 1) ++ e ++ layout.newline.text) := by
    clear hspace
    induction elements with
    | nil => exact .nil
    | cons e elements ih =>
      obtain ⟨he, hes⟩ := List.forall_mem_cons.mp h
      exact (((closes_indent layout _).concat he).concat (closes_newline _)).concat (ih hes)
  unfold listText
  split
  · exact ⟨[], rfl, .nil⟩
  · split
    · exact ⟨_, by simp, (hspace.concat (closes_intercalate hspace h)).concat hspace⟩
    · exact ⟨_, by simp, ((closes_newline layout.newline).concat hlines).concat
        (closes_indent layout level)⟩

theorem closes_listText (layout : Layout) (level : Nat) {elements : List (List Char)}
    (h : ∀ e ∈ elements, Closes true 0 e) : Closes free 0 (listText layout level elements) := by
  obtain ⟨inside, htext, hinside⟩ := exists_listText_eq layout level h
  rw [htext]
  exact .group rfl rfl hinside .nil

theorem closes_formalsText {items : List (List Char)} (h : ∀ item ∈ items, Closes true 0 item)
    (ellipsis : Bool) : Closes true 0 (formalsText items ellipsis) := by
  have hspace : Closes true 0 [' '] := .plain rfl rfl .nil
  have hcomma : Closes true 0 [',', ' '] := .char rfl (fun _ => .inl rfl) hspace
  have hcolon : Closes true 0 [':'] := .char rfl (fun _ => .inl rfl) .nil
  have hdots : Closes true 0 ['.', '.', '.'] := .plain rfl rfl (.plain rfl rfl (.plain rfl rfl .nil))
  have hitems : ∀ item ∈ if ellipsis then items ++ [['.', '.', '.']] else items,
      Closes true 0 item := by
    split
    · exact List.forall_mem_append.mpr ⟨h, List.forall_mem_singleton.mpr hdots⟩
    · exact h
  unfold formalsText
  generalize (if ellipsis then items ++ [['.', '.', '.']] else items) = all at hitems
  dsimp only
  split
  · exact .group rfl rfl .nil hcolon
  · have hinside := (hspace.concat (closes_intercalate hcomma hitems)).concat hspace
    simpa using Closes.group (o := '{') (c := '}') rfl rfl hinside hcolon

end Layout

namespace Expr

/-- In the texts that are printed as they are given, brackets and quotes are in pairs, and what
separates stands inside of brackets. The scope of an inherited binding is put in parentheses. -/
structure GivenInPairs (e : Expr) : Prop where
  verbatim : ∀ s, e.Contains (.verbatim s) → Closes false 0 s.toList
  scope : ∀ s, e.Contains (.inherit (some s)) → Closes true 0 s.toList

theorem GivenInPairs.of_mem_parts {e part : Expr} (h : e.GivenInPairs) (hp : part ∈ e.parts) :
    part.GivenInPairs :=
  ⟨fun s hs => h.verbatim s (.inside hp hs), fun s hs => h.scope s (.inside hp hs)⟩

theorem Built.givenInPairs {e : Expr} (h : e.Built) : e.GivenInPairs :=
  ⟨fun s hs => absurd hs (h.no_verbatim s), fun _ hs => absurd hs (h.no_inherit _)⟩

theorem closes_enclose {loosest : Precedence} {e : Expr} {text : List Char}
    (h : Closes true 0 text) : Closes true 0 (enclose loosest e text) := by
  unfold enclose
  split
  · exact .group rfl rfl h .nil
  · exact h

/-- The text of an expression, and of an operand behind a space. -/
structure Paired (e : Expr) (text : List Char) : Prop where
  whole : Closes true 0 text
  operand : e.precedence.rank ≤ Precedence.operator.rank → Closes false 0 (' ' :: text)

theorem Paired.of_operand {e : Expr} {text : List Char} (h : Closes false 0 (' ' :: text)) :
    e.Paired text :=
  ⟨h.of_space, fun _ => h⟩

theorem Paired.of_closes {e : Expr} {text : List Char} (h : ∀ {free}, Closes free 0 text) :
    e.Paired text :=
  ⟨h, fun _ => .plain rfl rfl h⟩

/-- An operand behind a space, in parentheses if it binds too loosely. -/
theorem Paired.enclose {e : Expr} {text : List Char} (h : e.Paired text) (loosest : Precedence)
    (hl : loosest.rank ≤ Precedence.operator.rank) :
    Closes false 0 (' ' :: Expr.enclose loosest e text) := by
  unfold Expr.enclose
  split
  · exact .plain rfl rfl (.group rfl rfl h.whole .nil)
  · exact h.operand (by omega)

theorem Paired.of_lowest {e : Expr} {text : List Char} (he : e.precedence = .lowest)
    (h : Closes true 0 text) : e.Paired text :=
  ⟨h, fun hp => by rw [he] at hp; exact absurd hp (by decide)⟩

theorem closes_printBindings {layout : Layout} {b : List (String × Expr)}
    (h : ∀ part ∈ b.map Prod.snd, ∀ level, Closes true 0 (part.print layout level)) (level : Nat) :
    Closes true 0 (printBindings layout level b) := by
  induction b with
  | nil => exact .nil
  | cons p b ih =>
    obtain ⟨name, value⟩ := p
    obtain ⟨hvalue, hb⟩ := List.forall_mem_cons.mp h
    have hname : Closes true 0 (attributeName name) := closes_attributeName name
    have hequals : Closes true 0 [' ', '=', ' '] :=
      .plain rfl rfl (.plain rfl rfl (.plain rfl rfl .nil))
    have hbinding : Closes true 0 (bindingText name value (value.print layout level)) := by
      unfold bindingText
      split
      · exact (hvalue level).concat (.plain rfl rfl hname)
      · exact (hname.concat hequals).concat (hvalue level)
    exact (((closes_indent layout level).concat hbinding).concat
      (closes_newline layout.newline).semicolon).concat (ih hb)

theorem closes_printElements {layout : Layout} {items : List Expr}
    (h : ∀ part ∈ items, ∀ level, Closes true 0 (part.print layout level)) (level : Nat) :
    ∀ text ∈ printElements layout level items, Closes true 0 text := by
  induction items with
  | nil => nofun
  | cons e items ih =>
    obtain ⟨he, hitems⟩ := List.forall_mem_cons.mp h
    exact List.forall_mem_cons.mpr ⟨closes_enclose (he level), ih hitems⟩

theorem closes_printFormals {layout : Layout} {level : Nat} {items : List (Formal Expr)}
    (hname : ∀ f ∈ items, isBareName f.name = true)
    (h : ∀ part ∈ items.filterMap Formal.default, Closes true 0 (part.print layout level)) :
    ∀ text ∈ printFormals layout level items, Closes true 0 text := by
  induction items with
  | nil => nofun
  | cons f items ih =>
    obtain ⟨hf, hitems⟩ := List.forall_mem_cons.mp hname
    obtain ⟨name, d | d⟩ := f
    · exact List.forall_mem_cons.mpr ⟨closes_bareName hf, ih hitems h⟩
    · obtain ⟨hd, hrest⟩ := List.forall_mem_cons.mp h
      have hquestion : Closes true 0 [' ', '?', ' '] :=
        .plain rfl rfl (.plain rfl rfl (.plain rfl rfl .nil))
      exact List.forall_mem_cons.mpr
        ⟨((closes_bareName hf).concat hquestion).concat (closes_enclose hd), ih hitems hrest⟩

theorem closes_paragraph (layout : Layout) (level : Nat) :
    Closes free 0 (paragraph layout level) :=
  ((closes_newline _).concat (closes_newline _)).concat (closes_indent layout level)

theorem paired_print (layout : Layout) (e : Expr) (hw : e.WellFormed) (hg : e.GivenInPairs)
    (level : Nat) : e.Paired (e.print layout level) := by
  induction e using induction_parts generalizing level with
  | step e ih =>
    have ih : ∀ part ∈ e.parts, ∀ level, part.Paired (part.print layout level) :=
      fun part hp level => ih part hp (wellFormed_of_mem_parts hw hp) (hg.of_mem_parts hp) level
    have hwhole : ∀ part ∈ e.parts, ∀ level, Closes true 0 (part.print layout level) :=
      fun part hp level => (ih part hp level).whole
    cases e with
    | null => exact .of_closes (closes_identifier rfl)
    | bool b => cases b <;> exact .of_closes (closes_identifier rfl)
    | int i => exact .of_closes (closes_integerLiteral i)
    | float x => exact .of_closes (closes_floatLiteral x)
    | string s => exact .of_closes (closes_stringLiteral s)
    | uri u =>
      refine .of_operand ?_
      rw [print, Uri.literal]
      split
      · next hbare => simpa using Closes.uri hbare (.nil : Closes false 0 [])
      · exact .plain rfl rfl (closes_stringLiteral u.text)
    | path p => exact .of_closes (closes_path p)
    | verbatim source => exact .of_operand (.plain rfl rfl (hg.verbatim source (.self _)))
    | inherit scope =>
      cases scope with
      | none => exact .of_closes (closes_identifier rfl)
      | some s =>
        have hword : ∀ {free}, Closes free 0 ['i', 'n', 'h', 'e', 'r', 'i', 't', ' '] := fun {_} =>
          closes_words rfl
        have hscope := hg.scope s (.self _)
        refine .of_closes fun {free} => ?_
        have := hword.concat (Closes.group (o := '(') (c := ')') rfl rfl hscope
          (.nil : Closes free 0 []))
        simpa [print, inheritText] using this
    | attrs b => exact .of_closes (closes_setText layout level (closes_printBindings hwhole _))
    | recAttrs b =>
      have hset : ∀ {free}, Closes free 0
          (setText layout level (printBindings layout (level + 1) b)) := fun {_} =>
        closes_setText layout level (closes_printBindings hwhole _)
      exact .of_closes ((closes_words rfl).concat hset)
    | list items => exact .of_closes (closes_listText layout level (closes_printElements hwhole _))
    | update l r =>
      obtain ⟨hl, hr⟩ : (∀ level, l.Paired (l.print layout level)) ∧
        ∀ level, r.Paired (r.print layout level) := by simpa [parts] using ih
      have hslashes : Closes false 0 [' ', '/', '/'] :=
        .plain rfl rfl (.plain rfl rfl (.plain rfl rfl .nil))
      have htext := (((hl level).enclose .operator (by decide)).concat hslashes).concat
        ((hr level).enclose .operator (by decide))
      exact .of_operand (by simpa [print] using htext)
    | apply f a =>
      obtain ⟨hf, ha⟩ : (∀ level, f.Paired (f.print layout level)) ∧
        ∀ level, a.Paired (a.print layout level) := by simpa [parts] using ih
      have htext := ((hf level).enclose .application (by decide)).concat
        ((ha level).enclose .atom (by decide))
      exact .of_operand (by simpa [print] using htext)
    | letIn b body =>
      obtain ⟨hb, hbody⟩ := List.forall_mem_append.mp hwhole
      have hlet : Closes true 0 ['l', 'e', 't'] := closes_words rfl
      have hin : Closes true 0 ['i', 'n'] := closes_words rfl
      have hnewline : Closes true 0 layout.newline.text := closes_newline _
      have hindent : Closes true 0 (layout.indent level) := closes_indent _ _
      have hbody : Closes true 0 (body.print layout level) := hbody body (by simp) level
      exact .of_lowest rfl (((((((hlet.concat hnewline).concat (closes_printBindings hb _)).concat
        hindent).concat hin).concat hnewline).concat hindent).concat hbody)
    | lambda params body =>
      obtain ⟨hp, hbody⟩ := List.forall_mem_append.mp hwhole
      have hbody : Closes true 0 (body.print layout level) := hbody body (by simp) level
      refine .of_lowest rfl ?_
      cases params with
      | name x =>
        have hname : Closes true 0 x.toList :=
          closes_bareName ((checkArgumentName_eq_ok_iff x).mp hw.1)
        have hcolon : Closes true 0 [':', ' '] := .char rfl (fun _ => .inl rfl) (.space .nil)
        exact (hname.concat hcolon).concat hbody
      | formals items ellipsis =>
        have hitems := closes_printFormals (isBareName_of_checkFormals hw.1)
          fun part hpart => hp part hpart level
        exact ((closes_formalsText hitems ellipsis).concat (closes_paragraph layout level)).concat
          hbody
    | ifThenElse c y n =>
      obtain ⟨hc, hy, hn⟩ : (∀ level, Closes true 0 (c.print layout level)) ∧
          (∀ level, Closes true 0 (y.print layout level)) ∧
          ∀ level, Closes true 0 (n.print layout level) := by simpa [parts] using hwhole
      have hif : Closes true 0 ['i', 'f', ' '] := closes_words rfl
      have hthen : Closes true 0 [' ', 't', 'h', 'e', 'n', ' '] := closes_words rfl
      have helse : Closes true 0 [' ', 'e', 'l', 's', 'e', ' '] := closes_words rfl
      exact .of_lowest rfl (((((hif.concat (closes_enclose (hc level))).concat hthen).concat
        (closes_enclose (hy level))).concat helse).concat (hn level))
    | withScope s body =>
      obtain ⟨hs, hbody⟩ : (∀ level, Closes true 0 (s.print layout level)) ∧
          ∀ level, Closes true 0 (body.print layout level) := by simpa [parts] using hwhole
      have hwith : Closes true 0 ['w', 'i', 't', 'h', ' '] := closes_words rfl
      exact .of_lowest rfl (((hwith.concat (closes_enclose (hs level))).concat
        (closes_paragraph layout level).semicolon).concat (hbody level))
    | assertThen c body =>
      obtain ⟨hc, hbody⟩ : (∀ level, Closes true 0 (c.print layout level)) ∧
          ∀ level, Closes true 0 (body.print layout level) := by simpa [parts] using hwhole
      have hassert : Closes true 0 ['a', 's', 's', 'e', 'r', 't', ' '] := closes_words rfl
      exact .of_lowest rfl (((hassert.concat (closes_enclose (hc level))).concat
        (closes_paragraph layout level).semicolon).concat (hbody level))
    | importOf p =>
      have hp : ∀ level, p.Paired (p.print layout level) := by simpa [parts] using ih
      have himport : Closes false 0 [' ', 'i', 'm', 'p', 'o', 'r', 't'] := closes_words rfl
      have htext := himport.concat ((hp level).enclose .atom (by decide))
      exact .of_operand (by simpa [print] using htext)
    | select s p fallback =>
      have hs := (ih s List.mem_cons_self level).enclose .atom (by decide)
      have hbase := hs.concat (closes_steps p.toList)
      refine .of_operand ?_
      cases fallback with
      | none => exact hbase
      | some d =>
        have hd := (ih d (by simp [parts]) level).enclose .atom (by decide)
        have hor : Closes false 0 [' ', 'o', 'r'] := closes_words rfl
        have htext := (hbase.concat hor).concat hd
        simpa [print, flatMap_attributeName] using htext

end Expr

end NixSource
