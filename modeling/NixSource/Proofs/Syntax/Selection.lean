import NixSource.Proofs.Expr.Parts
import NixSource.Proofs.Syntax.Boundary
import NixSource.Proofs.Syntax.PrintedTokens

/-! The tokens of a selection: those of what is selected from, then a point and a name for each
attribute, unless the point goes on with the last token before it. It does so with integers, URIs
and paths, which are printed without parentheses. -/

namespace NixSource

/-- Whether a token at the end of a text takes a point behind it, and what comes after, for its own.
Search paths end in a bracket. -/
def Token.TakesPoint : Token → Prop
  | integer _ | uri _ => True
  | path p => p.toList.head? ≠ some '<'
  | _ => False

/-- The last character of a text is none that a point behind it could make a scheme, a directory or
an ellipsis of. -/
def EndsFirm (text : List Char) : Prop :=
  ∀ c ∈ text.getLast?, c ≠ ':' ∧ c ≠ '/' ∧ c ≠ '.'

theorem endsFirm_concat (text : List Char) {c : Char} (h : c ≠ ':' ∧ c ≠ '/' ∧ c ≠ '.') :
    EndsFirm (text ++ [c]) := by
  intro d hd
  rw [List.getLast?_concat] at hd
  cases hd
  exact h

theorem endsFirm_of_class {p : Char → Bool} {text : List Char} (h : ∀ c ∈ text, p c = true)
    (hcolon : p ':' = false) (hslash : p '/' = false) (hpoint : p '.' = false) :
    EndsFirm text := fun c hc =>
  have hp := h c (List.mem_of_getLast? hc)
  ⟨ne_of_class hp hcolon, ne_of_class hp hslash, ne_of_class hp hpoint⟩

theorem EndsFirm.append {text : List Char} (h : EndsFirm text) (hne : text ≠ [])
    (front : List Char) : EndsFirm (front ++ text) := by
  intro c hc
  rw [List.getLast?_append_of_ne_nil front hne] at hc
  exact h c hc

theorem endsFirm_stringLiteral (s : String) : EndsFirm (stringLiteral s) :=
  endsFirm_concat ('"' :: escape s.toList) (by decide)

theorem endsFirm_attributeName (s : String) : EndsFirm (attributeName s) := by
  unfold attributeName
  split
  · next h =>
    have hmem : ∀ d, isIdentifierRest d = false → d ∉ s.toList := fun _ => not_mem_of_isBareName h
    intro c hc
    have hc := List.mem_of_getLast? hc
    exact ⟨fun he => hmem ':' rfl (he ▸ hc), fun he => hmem '/' rfl (he ▸ hc),
      fun he => hmem '.' rfl (he ▸ hc)⟩
  · exact endsFirm_stringLiteral s

theorem attributeName_ne_nil (s : String) : attributeName s ≠ [] := by
  obtain ⟨c, cs, hcs, -⟩ := attributeName_eq_cons s apart_nil
  rw [List.append_nil] at hcs
  simp [hcs]

theorem AttributePath.exists_toList_eq_concat (p : AttributePath) :
    ∃ names last, p.toList = names ++ [last] :=
  ⟨_, _, (List.dropLast_append_getLast (List.cons_ne_nil p.first p.rest)).symm⟩

theorem endsFirm_steps (front : List Char) (p : AttributePath) :
    EndsFirm (front ++ stepsText p.toList) := by
  obtain ⟨names, last, hlast⟩ := p.exists_toList_eq_concat
  have htext : stepsText p.toList = stepsText names ++ '.' :: attributeName last := by
    simp [hlast, stepsText]
  rw [htext]
  have hname := (endsFirm_attributeName last).append (attributeName_ne_nil last)
    (front ++ stepsText names ++ ['.'])
  simpa using hname

theorem endsFirm_decimalText (n : Nat) : EndsFirm (decimalText n) :=
  endsFirm_of_class (fun _ hc => isDigit_of_mem_decimalText hc) rfl rfl rfl

theorem endsFirm_integerLiteral (i : Int64) : EndsFirm (integerLiteral i) := by
  unfold integerLiteral
  split
  · have hend : EndsFirm [' ', '-', ' ', '1', ')'] := by simp [EndsFirm]
    exact hend.append (List.cons_ne_nil _ _) ('(' :: integerText (i.toInt + 1))
  · split
    · exact endsFirm_concat ('(' :: integerText i.toInt) (by decide)
    · next h =>
      have hpos : ¬ i.toInt < 0 := fun hn => h (Int64.lt_iff_toInt_lt.mpr hn)
      rw [integerText, if_neg hpos]
      exact endsFirm_decimalText _

theorem Decimal.exponent_pointed_neg (d : Decimal) : d.pointed.exponent < 0 := by
  unfold pointed
  split
  · exact Int.negSucc_lt_zero 0
  · omega

/-- The literal of a number with a point has digits behind it. -/
theorem FiniteFloat.places_ne_nil {x : FiniteFloat} {whole places : List Char}
    (h : x.decimal.Spells whole places) : places ≠ [] := by
  rintro rfl
  have hneg : x.decimal.exponent < 0 := Decimal.exponent_pointed_neg _
  rw [h.exponent_eq] at hneg
  exact absurd hneg (lt_irrefl 0)

theorem endsFirm_floatLiteral (x : FiniteFloat) : EndsFirm x.literal := by
  obtain ⟨whole, places, hspells, htext⟩ := x.exists_literal_eq
  have hfirm : EndsFirm places := endsFirm_of_class hspells.isDigit_places rfl rfl rfl
  rw [htext]
  split
  · exact endsFirm_concat ('(' :: '-' :: (whole ++ '.' :: places)) (by decide)
  · have := hfirm.append (FiniteFloat.places_ne_nil hspells) (whole ++ ['.'])
    simpa using this

theorem endsFirm_listText (layout : Layout) (level : Nat) (elements : List (List Char)) :
    EndsFirm (listText layout level elements) := by
  unfold listText
  split
  · exact endsFirm_concat ['['] (by decide)
  · split
    · have hend : EndsFirm [' ', ']'] := by simp [EndsFirm]
      exact hend.append (List.cons_ne_nil _ _) _
    · exact endsFirm_concat _ (by decide)

theorem endsFirm_setText (layout : Layout) (level : Nat) (bindings : List Char) :
    EndsFirm (setText layout level bindings) := by
  unfold setText
  split
  · exact endsFirm_concat ['{'] (by decide)
  · exact endsFirm_concat _ (by decide)

theorem setText_ne_nil (layout : Layout) (level : Nat) (bindings : List Char) :
    setText layout level bindings ≠ [] := by
  unfold setText
  split <;> simp

theorem endsFirm_searchPath {cs : List Char} (h : isSearchPath cs = true) : EndsFirm cs := by
  obtain ⟨body, rfl, -⟩ := exists_searchPath_eq h
  exact endsFirm_concat ('<' :: body) (by decide)

namespace Expr

/-- What a selection is made from ends firmly, if it has no open end as a whole. -/
theorem endsFirm_base {e : Expr} (hb : e.Built) (layout : Layout) (level : Nat) {ts : List Token}
    (hlex : lex (enclose .atom e (e.print layout level)) = some ts)
    (hlast : ∀ t ∈ ts.getLast?, ¬ t.TakesPoint) :
    EndsFirm (enclose .atom e (e.print layout level)) := by
  have hparens : ∀ text, EndsFirm ('(' :: (text ++ [')'])) := fun text =>
    endsFirm_concat ('(' :: text) (by decide)
  cases e with
  | null => exact endsFirm_concat ['n', 'u', 'l'] (by decide)
  | bool b =>
    cases b
    · exact endsFirm_concat ['f', 'a', 'l', 's'] (by decide)
    · exact endsFirm_concat ['t', 'r', 'u'] (by decide)
  | int i => exact endsFirm_integerLiteral i
  | float x => exact endsFirm_floatLiteral x
  | string s => exact endsFirm_stringLiteral s
  | uri u =>
    by_cases hbare : u.isBare = true
    · have htext : enclose .atom (uri u) ((uri u).print layout level) = u.text.toList :=
        if_pos hbare
      have hu := lex_uri hbare (delimited_nil true)
      rw [List.append_nil, ← htext, hlex, lex_nil] at hu
      obtain rfl : ts = [.uri u.text] := Option.some.inj hu
      exact absurd trivial (hlast _ rfl)
    · have htext : enclose .atom (uri u) ((uri u).print layout level) = stringLiteral u.text :=
        if_neg hbare
      rw [htext]
      exact endsFirm_stringLiteral u.text
  | path p =>
    have hp := lex_path p (delimited_nil true)
    have htext : enclose .atom (path p) ((path p).print layout level) = p.text.toList := rfl
    rw [List.append_nil, ← htext, hlex, lex_nil] at hp
    obtain rfl : ts = [.path p.text] := Option.some.inj hp
    have hhead : p.text.toList.head? = some '<' := Classical.not_not.mp (hlast _ rfl)
    have hvalid := p.valid
    rw [isPathLiteral, Bool.or_eq_true] at hvalid
    rcases hvalid with hsearch | hanchored
    · exact endsFirm_searchPath hsearch
    · obtain ⟨c, tail, hcs, hc⟩ := head?_of_isAnchoredPath hanchored
      rw [hcs] at hhead
      cases hhead
      simp at hc
  | verbatim s => exact absurd (.self _) (hb.no_verbatim s)
  | inherit scope => exact absurd (.self _) (hb.no_inherit scope)
  | attrs b => exact endsFirm_setText layout level _
  | recAttrs b =>
    have hset := endsFirm_setText layout level (printBindings layout (level + 1) b)
    exact hset.append (setText_ne_nil _ _ _) ['r', 'e', 'c', ' ']
  | list items => exact endsFirm_listText layout level _
  | select s p fallback =>
    cases fallback with
    | none => exact endsFirm_steps _ p
    | some d => exact hparens _
  | _ => exact hparens _

/-- The text of a readable expression has the tokens of the expression, in every place. -/
theorem lex_enclose_print {uris : Bool} {e : Expr} (hr : e.Readable uris) (loosest : Precedence)
    (layout : Layout) (level : Nat) :
    lex (enclose loosest e (e.print layout level)) = some (encloseTokens loosest e e.tokens) := by
  have h : lex (enclose loosest e (e.print layout level) ++ []) =
      prepend (encloseTokens loosest e e.tokens) (lex []) :=
    lex_enclose_delimited (e.lex_print layout level hr) (delimited_nil uris)
  simpa [prepend] using h

/-- What stands behind the attributes of a selection. -/
def fallbackText (layout : Layout) (level : Nat) : Option Expr → List Char
  | none => []
  | some d => [' ', 'o', 'r', ' '] ++ enclose .atom d (d.print layout level)

theorem print_select (layout : Layout) (level : Nat) (s : Expr) (p : AttributePath)
    (fallback : Option Expr) :
    (select s p fallback).print layout level =
      enclose .atom s (s.print layout level) ++
        (stepsText p.toList ++ fallbackText layout level fallback) := by
  cases fallback <;> simp [print, fallbackText, flatMap_attributeName]

theorem apart_fallbackText (layout : Layout) (level : Nat) (fallback : Option Expr) :
    Apart (fallbackText layout level fallback) := by
  cases fallback with
  | none => exact apart_nil
  | some d => exact apart_space _

/-- A base that a point does not go on with can be cut off from what is selected from it. -/
theorem cut_base {s : Expr} (hs : s.Built) {layout : Layout} {level : Nat} {ts : List Token}
    (hbase : lex (enclose .atom s (s.print layout level)) = some ts)
    (hlast : ∀ t ∈ ts.getLast?, ¬ t.TakesPoint) (p : AttributePath) {rest : List Char}
    (hr : Apart rest) :
    Cut (enclose .atom s (s.print layout level)) ts (stepsText p.toList ++ rest) := by
  have hfirm := endsFirm_base hs layout level hbase hlast
  have hhead : (stepsText p.toList ++ rest).head? = some '.' := rfl
  refine ⟨apart_steps p.toList hr, fun t ht => ?_, fun hc => absurd rfl (hfirm _ hc).1,
    fun hc => absurd rfl (hfirm _ hc).2.1, fun hc => absurd rfl (hfirm _ hc).2.2⟩
  have hopen := hlast t ht
  cases t with
  | integer n => exact absurd trivial hopen
  | decimal d =>
    intro c hc
    rw [hhead] at hc
    cases hc
    rfl
  | uri u => exact absurd trivial hopen
  | path p => exact .inl (Classical.not_not.mp hopen)
  | _ => trivial

theorem lex_print_select_of_cut {s : Expr} (p : AttributePath) (fallback : Option Expr)
    {layout : Layout} {level : Nat} {ts : List Token}
    (hbase : lex (enclose .atom s (s.print layout level)) = some ts)
    (hcut : Cut (enclose .atom s (s.print layout level)) ts
      (stepsText p.toList ++ fallbackText layout level fallback)) :
    lex ((select s p fallback).print layout level) =
      prepend (ts ++ .dot :: nameToken p.first :: stepTokens p.rest)
        (lex (fallbackText layout level fallback)) := by
  rw [print_select, lex_append hbase hcut, lex_steps p.toList (apart_fallbackText ..),
    prepend_prepend]
  rfl

/-- The last token of what is selected from takes no point, unless that is a literal with an open
end. -/
theorem not_takesPoint_of_not_endsOpen {e : Expr} (hopen : ¬ e.EndsOpen) :
    ∀ t ∈ (encloseTokens .atom e e.tokens).getLast?, ¬ t.TakesPoint := by
  have hsingle : ∀ {u : Token}, ¬ u.TakesPoint → ∀ ts : List Token,
      ∀ t ∈ (ts ++ [u]).getLast?, ¬ t.TakesPoint := by
    intro u hu ts t ht
    rw [List.getLast?_concat] at ht
    cases ht
    exact hu
  have hparens : ∀ ts, ∀ t ∈ (Token.openParen :: (ts ++ [.closeParen])).getLast?, ¬ t.TakesPoint :=
    fun ts => hsingle (u := .closeParen) id (.openParen :: ts)
  cases e with
  | int i => exact absurd trivial hopen
  | float x => exact absurd trivial hopen
  | uri u => exact absurd trivial hopen
  | path p => exact absurd trivial hopen
  | bool b => cases b <;> exact hsingle (u := .name _) id []
  | inherit scope =>
    cases scope with
    | none => exact hsingle (u := .keyword _) id []
    | some s => exact hsingle (u := .closeParen) id [_, _, _]
  | attrs b => exact hsingle (u := .closeBrace) id (.openBrace :: bindingsTokens b)
  | recAttrs b =>
    exact hsingle (u := .closeBrace) id (.keyword .recWord :: .openBrace :: bindingsTokens b)
  | list items =>
    exact hsingle (u := .closeBracket) id (.openBracket :: (elementsTokens items).flatten)
  | null => exact hsingle (u := .name _) id []
  | verbatim s => exact hsingle (u := .name _) id []
  | string s => exact hsingle (u := .string _) id []
  | select s p fallback =>
    cases fallback with
    | none =>
      obtain ⟨names, last, hlast⟩ := p.exists_toList_eq_concat
      have htokens : encloseTokens .atom (select s p none) (select s p none).tokens =
          encloseTokens .atom s s.tokens ++ stepTokens names ++ [.dot] ++ [nameToken last] := by
        simp [encloseTokens, precedence, tokens, hlast, stepTokens]
      rw [htokens]
      refine hsingle ?_ _
      rcases nameToken_cases last with h | h <;> rw [h] <;> exact id
    | some d => exact hparens _
  | _ => exact hparens _

/-- The base of a selection keeps its tokens: they come first, then a point and a name for each
attribute, then what follows the attributes. Only an integer, a URI or a path at its end would take
the point along. A readable base has tokens, and they end otherwise if it is no such literal. -/
theorem lex_print_select {s : Expr} (hs : s.Built) (p : AttributePath) (fallback : Option Expr)
    (layout : Layout) (level : Nat) :
    (∀ ts, lex (enclose .atom s (s.print layout level)) = some ts →
        (∀ t ∈ ts.getLast?, ¬ t.TakesPoint) →
        lex ((select s p fallback).print layout level) =
          prepend (ts ++ .dot :: nameToken p.first :: stepTokens p.rest)
            (lex (fallbackText layout level fallback))) ∧
      (s.Readable true → ∃ ts, lex (enclose .atom s (s.print layout level)) = some ts ∧
        (¬ s.EndsOpen → ∀ t ∈ ts.getLast?, ¬ t.TakesPoint)) := by
  refine ⟨fun ts hbase hlast => ?_, fun hr => ?_⟩
  · have hapart := apart_fallbackText layout level fallback
    exact lex_print_select_of_cut p fallback hbase (cut_base hs hbase hlast p hapart)
  · exact ⟨_, lex_enclose_print hr .atom layout level, not_takesPoint_of_not_endsOpen⟩

/-- A bracket ends what is in it, and a point behind the bracket is a token of its own. -/
theorem lex_print_select_list :
    (list [int 1, uri ⟨"x:a", rfl⟩]).Built ∧
      lex ((select (list [int 1, uri ⟨"x:a", rfl⟩]) ⟨"b", []⟩ none).print {} 0) =
        some [.openBracket, .integer 1, .uri "x:a", .closeBracket, .dot, .name "b"] := by
  have hint : (int 1).Built := built_of_parts (by simp) (by simp) (by simp [parts])
  have huri : (uri ⟨"x:a", rfl⟩).Built := built_of_parts (by simp) (by simp) (by simp [parts])
  have hs : (list [int 1, uri ⟨"x:a", rfl⟩]).Built :=
    built_of_parts (by simp) (by simp) (by simpa [parts] using ⟨hint, huri⟩)
  have hr : (list [int 1, uri ⟨"x:a", rfl⟩]).Readable true := ⟨trivial, rfl, trivial⟩
  have hbase : lex (enclose .atom (list [int 1, uri ⟨"x:a", rfl⟩])
      ((list [int 1, uri ⟨"x:a", rfl⟩]).print {} 0)) =
        some [.openBracket, .integer 1, .uri "x:a", .closeBracket] :=
    (lex_enclose_print hr .atom {} 0).trans (by decide)
  have hselect := (lex_print_select hs ⟨"b", []⟩ none {} 0).1 _ hbase (by rintro _ ⟨⟩; exact id)
  rw [hselect, fallbackText, lex_nil]
  exact ⟨hs, by decide⟩

/-- The point goes on with an integer, a path and a URI: a reader finds a decimal before the name,
and one token that takes the name as well. -/
theorem lex_print_select_open :
    (lex ((int 1).print {} 0) = some [.integer 1] ∧
      lex ((select (int 1) ⟨"a", []⟩ none).print {} 0) = some [.decimal ⟨1, 0⟩, .name "a"]) ∧
    (lex ((path ⟨"./a", rfl⟩).print {} 0) = some [.path "./a"] ∧
      lex ((select (path ⟨"./a", rfl⟩) ⟨"b", []⟩ none).print {} 0) = some [.path "./a.b"]) ∧
    (lex ((uri ⟨"x:a", rfl⟩).print {} 0) = some [.uri "x:a"] ∧
      lex ((select (uri ⟨"x:a", rfl⟩) ⟨"b", []⟩ none).print {} 0) = some [.uri "x:a.b"]) := by
  have hlex : ∀ {c : Char} {cs : List Char} {t : Token}, isBlank c = false →
      token? (c :: cs) = some (t, []) → lex (c :: cs) = some [t] := by
    intro c cs t hc h
    rw [lex_token hc h, lex_nil]
    rfl
  have hdecimal : token? ['1', '.', 'a'] = some (.decimal ⟨1, 0⟩, ['a']) := by decide
  have hselect : lex ((select (int 1) ⟨"a", []⟩ none).print {} 0) =
      prepend [.decimal ⟨1, 0⟩] (lex ['a']) := lex_token rfl hdecimal
  refine ⟨⟨hlex rfl rfl, ?_⟩, ⟨hlex rfl rfl, hlex rfl rfl⟩, hlex rfl rfl, hlex rfl rfl⟩
  have hname : lex ['a'] = some [.name "a"] := hlex rfl rfl
  rw [hselect, hname]
  rfl

end Expr

end NixSource
