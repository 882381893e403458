import NixSource.Proofs.Expr.Arguments
import NixSource.Proofs.Syntax.Spelling

/-! The text of an expression divides into the tokens of the expression, whatever the layout. -/

namespace NixSource

@[simp] theorem apart_space (rest : List Char) : Apart (' ' :: rest) :=
  apart_cons rfl rfl rfl (by decide) (by decide) rest

@[simp] theorem apart_closeParen (rest : List Char) : Apart (')' :: rest) :=
  apart_cons rfl rfl rfl (by decide) (by decide) rest

@[simp] theorem delimited_closeParen (uris : Bool) (rest : List Char) :
    Delimited uris (')' :: rest) := by
  simp [endsToken]

@[simp] theorem delimited_space (uris : Bool) (rest : List Char) :
    Delimited uris (' ' :: rest) := by
  simp [endsToken, isBlank]

@[simp] theorem delimited_semicolon (uris : Bool) (rest : List Char) :
    Delimited uris (';' :: rest) := by
  simp [endsToken]

theorem lex_keyword {w : List Char} {k : Keyword} (hw : isIdentifier w = true)
    (hk : keywords.lookup (String.ofList w) = some k) {rest : List Char} (hr : Apart rest) :
    lex (w ++ rest) = prepend [.keyword k] (lex rest) := by
  rw [lex_word hw hr, wordToken, hk]

theorem lex_keyword_space {w : List Char} {k : Keyword} (hw : isIdentifier w = true)
    (hk : keywords.lookup (String.ofList w) = some k) (rest : List Char) :
    lex (w ++ ' ' :: rest) = prepend [.keyword k] (lex rest) := by
  rw [lex_keyword hw hk (apart_space rest), lex_space]

theorem lex_assert (rest : List Char) :
    lex ('a' :: 's' :: 's' :: 'e' :: 'r' :: 't' :: ' ' :: rest) =
      prepend [.keyword .assertWord] (lex rest) :=
  lex_keyword_space (w := ['a', 's', 's', 'e', 'r', 't']) rfl rfl rest

theorem lex_else (rest : List Char) : lex ('e' :: 'l' :: 's' :: 'e' :: ' ' :: rest) =
    prepend [.keyword .elseWord] (lex rest) :=
  lex_keyword_space (w := ['e', 'l', 's', 'e']) rfl rfl rest

theorem lex_if (rest : List Char) : lex ('i' :: 'f' :: ' ' :: rest) =
    prepend [.keyword .ifWord] (lex rest) :=
  lex_keyword_space (w := ['i', 'f']) rfl rfl rest

theorem lex_import (rest : List Char) :
    lex ('i' :: 'm' :: 'p' :: 'o' :: 'r' :: 't' :: ' ' :: rest) =
      prepend [.keyword .importWord] (lex rest) :=
  lex_keyword_space (w := ['i', 'm', 'p', 'o', 'r', 't']) rfl rfl rest

theorem lex_inherit (rest : List Char) :
    lex ('i' :: 'n' :: 'h' :: 'e' :: 'r' :: 'i' :: 't' :: ' ' :: rest) =
      prepend [.keyword .inheritWord] (lex rest) :=
  lex_keyword_space (w := ['i', 'n', 'h', 'e', 'r', 'i', 't']) rfl rfl rest

theorem lex_or (rest : List Char) : lex ('o' :: 'r' :: ' ' :: rest) =
    prepend [.keyword .orWord] (lex rest) :=
  lex_keyword_space (w := ['o', 'r']) rfl rfl rest

theorem lex_rec (rest : List Char) : lex ('r' :: 'e' :: 'c' :: ' ' :: rest) =
    prepend [.keyword .recWord] (lex rest) :=
  lex_keyword_space (w := ['r', 'e', 'c']) rfl rfl rest

theorem lex_then (rest : List Char) : lex ('t' :: 'h' :: 'e' :: 'n' :: ' ' :: rest) =
    prepend [.keyword .thenWord] (lex rest) :=
  lex_keyword_space (w := ['t', 'h', 'e', 'n']) rfl rfl rest

theorem lex_with (rest : List Char) : lex ('w' :: 'i' :: 't' :: 'h' :: ' ' :: rest) =
    prepend [.keyword .withWord] (lex rest) :=
  lex_keyword_space (w := ['w', 'i', 't', 'h']) rfl rfl rest

theorem lex_integerText {i : Int} (hi : i < 0) {uris : Bool} {rest : List Char}
    (hr : Delimited uris rest) :
    lex (integerText i ++ rest) = prepend [.minus, .integer i.natAbs] (lex rest) := by
  have hslash : '/' ∉ decimalText i.natAbs :=
    slash_not_mem_digits fun _ hc => isDigit_of_mem_decimalText hc
  rw [integerText, if_pos hi, List.cons_append,
    lex_minus (slash_not_mem_pathRun _ hslash hr.slash_not_mem), lex_decimalText _ hr,
    prepend_prepend, List.singleton_append]

theorem lex_integerLiteral (i : Int64) {uris : Bool} {rest : List Char} (hr : Delimited uris rest) :
    lex (integerLiteral i ++ rest) = prepend (integerTokens i) (lex rest) := by
  unfold integerLiteral integerTokens
  split
  · next h =>
    subst h
    have hone : lex ('1' :: ')' :: rest) = prepend [.integer 1] (lex (')' :: rest)) :=
      lex_decimalText 1 (delimited_closeParen uris rest)
    have hslash : '/' ∉ (pathRun (' ' :: '1' :: ')' :: rest)).1 := (apart_space _).no_path
    simp only [List.cons_append, List.append_assoc, List.nil_append]
    rw [lex_sign (t := .openParen) rfl rfl,
      lex_integerText (by decide) (delimited_space uris _), lex_space, lex_minus hslash, lex_space,
      hone, lex_sign (t := .closeParen) rfl rfl]
    simp only [prepend_prepend]
    rfl
  · split
    · next h =>
      have hneg : i.toInt < 0 := Int64.lt_iff_toInt_lt.mp h
      simp only [List.cons_append, List.append_assoc, List.nil_append]
      rw [lex_sign (t := .openParen) rfl rfl, lex_integerText hneg (delimited_closeParen uris _),
        lex_sign (t := .closeParen) rfl rfl]
      simp only [prepend_prepend]
      rfl
    · next h =>
      have hpos : ¬ i.toInt < 0 := fun hn => h (Int64.lt_iff_toInt_lt.mpr hn)
      rw [integerText, if_neg hpos, lex_decimalText _ hr]

theorem lex_floatLiteral (x : FiniteFloat) {uris : Bool} {rest : List Char}
    (hr : Delimited uris rest) : lex (x.literal ++ rest) = prepend x.tokens (lex rest) := by
  obtain ⟨whole, places, hspells, htext⟩ := x.exists_literal_eq
  have hdecimal :
      (⟨digitsValue (whole ++ places), -(places.length : ℤ)⟩ : Decimal) = x.decimal := by
    rw [hspells.digitsValue_eq, ← hspells.exponent_eq]
  have hpoint : ∀ {rest : List Char}, Delimited uris rest →
      lex (whole ++ '.' :: places ++ rest) = prepend [.decimal x.decimal] (lex rest) := fun h =>
    hdecimal ▸ lex_digits_point hspells.whole_ne_nil hspells.isDigit_whole hspells.isDigit_places h
  rw [htext, FiniteFloat.tokens]
  split
  · have hparen : Delimited uris (')' :: rest) := delimited_closeParen uris rest
    have hslash : '/' ∉ (pathRun (whole ++ '.' :: places ++ ')' :: rest)).1 :=
      slash_not_mem_pathRun _
        (slash_not_mem_digits_point hspells.isDigit_whole hspells.isDigit_places)
        hparen.slash_not_mem
    simp only [List.cons_append, List.append_assoc, List.nil_append] at hslash hpoint ⊢
    rw [lex_sign (t := .openParen) rfl rfl, lex_minus hslash, hpoint hparen,
      lex_sign (t := .closeParen) rfl rfl]
    simp only [prepend_prepend]
    rfl
  · exact hpoint hr

theorem lex_uriLiteral (u : Uri) {rest : List Char} (hr : Delimited true rest) :
    lex (u.literal ++ rest) = prepend [u.token] (lex rest) := by
  unfold Uri.literal Uri.token
  split
  · next h => exact lex_uri h hr
  · exact lex_stringLiteral _ rest

/-- The texts divide into the tokens, one text after the other, before what ends every token. -/
abbrev AllLexed (uris : Bool) : List (List Char) → List (List Token) → Prop :=
  List.Forall₂ fun text ts =>
    ∀ rest, Delimited uris rest → lex (text ++ rest) = prepend ts (lex rest)

theorem lex_intercalate_space {uris : Bool} {texts : List (List Char)} {tss : List (List Token)}
    (h : AllLexed uris texts tss) (rest : List Char) :
    lex ([' '].intercalate texts ++ ' ' :: rest) = prepend tss.flatten (lex rest) := by
  induction h with
  | nil => simp
  | @cons text ts texts tss hhead htail ih =>
    cases htail with
    | nil => simpa using hhead (' ' :: rest) (delimited_space _ rest)
    | cons h2 htail =>
      rw [List.intercalate_cons_cons, List.append_assoc, List.append_assoc, List.singleton_append,
        hhead _ (delimited_space uris _), lex_space, ih, prepend_prepend]
      rfl

theorem lex_lines {uris : Bool} (layout : Layout) (level : Nat) {texts : List (List Char)}
    {tss : List (List Token)} (h : AllLexed uris texts tss) (rest : List Char) :
    lex (texts.flatMap (fun e => layout.indent level ++ (e ++ layout.newline.text)) ++ rest) =
      prepend tss.flatten (lex rest) := by
  induction h with
  | nil => simp
  | cons hhead _ ih =>
    rw [List.flatMap_cons, List.append_assoc, List.append_assoc, List.append_assoc, lex_indent,
      hhead _ (delimited_newline uris _ _), lex_newline, ih, prepend_prepend]
    rfl

theorem lex_listText {uris : Bool} (layout : Layout) (level : Nat) {texts : List (List Char)}
    {tss : List (List Token)} (h : AllLexed uris texts tss) (rest : List Char) :
    lex (listText layout level texts ++ rest) =
      prepend (.openBracket :: (tss.flatten ++ [.closeBracket])) (lex rest) := by
  unfold listText
  split
  · next hnil =>
    rw [List.isEmpty_iff] at hnil
    subst hnil
    cases h
    rw [List.cons_append, lex_sign (t := .openBracket) rfl rfl, List.cons_append,
      lex_sign (t := .closeBracket) rfl rfl, prepend_prepend]
    rfl
  · split
    · simp only [List.cons_append, List.append_assoc, List.nil_append]
      rw [lex_sign (t := .openBracket) rfl rfl, lex_space, lex_intercalate_space h,
        lex_sign (t := .closeBracket) rfl rfl]
      simp
    · simp only [List.cons_append, List.append_assoc, List.nil_append]
      rw [lex_sign (t := .openBracket) rfl rfl, lex_newline, lex_lines layout _ h, lex_indent,
        lex_sign (t := .closeBracket) rfl rfl]
      simp

theorem lex_intercalate_comma {texts : List (List Char)} {tss : List (List Token)}
    (h : AllLexed false texts tss) (rest : List Char) :
    lex ([',', ' '].intercalate texts ++ ' ' :: rest) =
      prepend ([.comma].intercalate tss) (lex rest) := by
  induction h with
  | nil => simp
  | @cons text ts texts tss hhead htail ih =>
    cases htail with
    | nil => simpa using hhead (' ' :: rest) (delimited_space _ rest)
    | cons h2 htail =>
      rw [List.intercalate_cons_cons, List.intercalate_cons_cons]
      simp only [List.cons_append, List.append_assoc, List.nil_append]
      rw [hhead _ (by simp [endsToken]), lex_sign (t := .comma) rfl rfl, lex_space, ih]
      simp

/-- The header of a function from its items, the ellipsis among them. -/
theorem lex_formalsText_of_items {texts : List (List Char)} {tss : List (List Token)}
    {ellipsis : Bool}
    (hnil : (if ellipsis then texts ++ [['.', '.', '.']] else texts) = [] →
      (if ellipsis then tss ++ [[.ellipsis]] else tss) = [])
    (h : ∀ rest, lex ([',', ' '].intercalate
        (if ellipsis then texts ++ [['.', '.', '.']] else texts) ++ ' ' :: rest) =
      prepend ([.comma].intercalate (if ellipsis then tss ++ [[.ellipsis]] else tss)) (lex rest))
    (rest : List Char) :
    lex (formalsText texts ellipsis ++ rest) =
      prepend (formalsTokens tss ellipsis) (lex rest) := by
  unfold formalsText formalsTokens
  generalize (if ellipsis then texts ++ [['.', '.', '.']] else texts) = items at hnil h
  generalize (if ellipsis then tss ++ [[.ellipsis]] else tss) = itemTokens at hnil h
  dsimp only
  split
  · next hempty =>
    rw [hnil (List.isEmpty_iff.mp hempty)]
    simp only [List.cons_append, List.nil_append]
    rw [lex_sign (t := .openBrace) rfl rfl, lex_sign (t := .closeBrace) rfl rfl,
      lex_sign (t := .colon) rfl rfl]
    simp
  · simp only [List.cons_append, List.append_assoc, List.nil_append]
    rw [lex_sign (t := .openBrace) rfl rfl, lex_space, h,
      lex_sign (t := .closeBrace) rfl rfl, lex_sign (t := .colon) rfl rfl]
    simp

theorem lex_formalsText {texts : List (List Char)} {tss : List (List Token)}
    (h : AllLexed false texts tss) (ellipsis : Bool) (rest : List Char) :
    lex (formalsText texts ellipsis ++ rest) =
      prepend (formalsTokens tss ellipsis) (lex rest) := by
  have hdots : AllLexed false [['.', '.', '.']] [[.ellipsis]] :=
    .cons (fun rest hr => lex_ellipsis hr.slash_not_mem) .nil
  have hitems : AllLexed false (if ellipsis then texts ++ [['.', '.', '.']] else texts)
      (if ellipsis then tss ++ [[.ellipsis]] else tss) := by
    cases ellipsis
    · exact h
    · exact List.rel_append h hdots
  refine lex_formalsText_of_items (fun hnil => ?_) (lex_intercalate_comma hitems) rest
  rw [hnil] at hitems
  generalize (if ellipsis then tss ++ [[.ellipsis]] else tss) = itemTokens at hitems ⊢
  cases hitems
  rfl

namespace Expr

/-- What may follow the text of an expression. An expression with an end of its own need only be
apart from it. -/
def Ends (uris : Bool) : Expr → List Char → Prop
  | null, rest | bool _, rest | string _, rest | verbatim _, rest | inherit _, rest | attrs _, rest
  | recAttrs _, rest | list _, rest | select _ _ none, rest => Apart rest
  | int _, rest | float _, rest | uri _, rest | path _, rest | update _ _, rest | apply _ _, rest
  | letIn _ _, rest | lambda _ _, rest | ifThenElse _ _ _, rest | withScope _ _, rest
  | assertThen _ _, rest | importOf _, rest | select _ _ (some _), rest => Delimited uris rest

theorem ends_of_delimited {uris : Bool} (e : Expr) {rest : List Char} (h : Delimited uris rest) :
    e.Ends uris rest := by
  cases e with
  | select s p d => cases d <;> simp [Ends, h, h.apart]
  | _ => simp [Ends, h, h.apart]

theorem ends_of_apart {uris : Bool} {e : Expr} (hopen : ¬ e.EndsOpen)
    (hatom : e.precedence.rank ≤ Precedence.atom.rank) {rest : List Char} (h : Apart rest) :
    e.Ends uris rest := by
  cases e with
  | select s p d => cases d <;> simp_all [Ends, precedence, Precedence.rank]
  | _ => simp_all [Ends, EndsOpen, precedence, Precedence.rank]

/-- Parentheses end an expression, whatever follows them. -/
theorem lex_enclose {uris : Bool} {loosest : Precedence} {e : Expr} {text : List Char}
    (hlex : ∀ rest, e.Ends uris rest → lex (text ++ rest) = prepend e.tokens (lex rest))
    {rest : List Char} (h : e.precedence.rank ≤ loosest.rank → e.Ends uris rest) :
    lex (enclose loosest e text ++ rest) =
      prepend (encloseTokens loosest e e.tokens) (lex rest) := by
  unfold enclose encloseTokens
  split
  · simp only [List.cons_append, List.append_assoc, List.nil_append]
    rw [lex_sign (t := .openParen) rfl rfl, hlex _ (e.ends_of_delimited (delimited_closeParen _ _)),
      lex_sign (t := .closeParen) rfl rfl]
    simp
  · next hle => exact hlex rest (h (by omega))

theorem lex_enclose_delimited {uris : Bool} {loosest : Precedence} {e : Expr} {text : List Char}
    (hlex : ∀ rest, e.Ends uris rest → lex (text ++ rest) = prepend e.tokens (lex rest))
    {rest : List Char} (h : Delimited uris rest) :
    lex (enclose loosest e text ++ rest) = prepend (encloseTokens loosest e e.tokens) (lex rest) :=
  lex_enclose hlex fun _ => e.ends_of_delimited h

theorem lex_base {uris : Bool} {e : Expr} {text : List Char} (hopen : ¬ e.EndsOpen)
    (hlex : ∀ rest, e.Ends uris rest → lex (text ++ rest) = prepend e.tokens (lex rest))
    {rest : List Char} (h : Apart rest) :
    lex (enclose .atom e text ++ rest) = prepend (encloseTokens .atom e e.tokens) (lex rest) :=
  lex_enclose hlex fun hatom => ends_of_apart hopen hatom h

theorem lex_setText (layout : Layout) (level : Nat) {bindings : List Char} {ts : List Token}
    (h : ∀ rest, lex (bindings ++ rest) = prepend ts (lex rest)) (rest : List Char) :
    lex (setText layout level bindings ++ rest) =
      prepend (.openBrace :: (ts ++ [.closeBrace])) (lex rest) := by
  unfold setText
  split
  · next hnil =>
    rw [List.isEmpty_iff] at hnil
    subst hnil
    have hts : ts = [] := by
      have := h []
      simpa [prepend] using this
    simp only [List.cons_append, List.nil_append]
    rw [lex_sign (t := .openBrace) rfl rfl, lex_sign (t := .closeBrace) rfl rfl, hts]
    simp
  · simp only [List.cons_append, List.append_assoc, List.nil_append]
    rw [lex_sign (t := .openBrace) rfl rfl, lex_newline, h, lex_indent,
      lex_sign (t := .closeBrace) rfl rfl]
    simp

theorem lex_assignment {uris : Bool} {name : String} {value : Expr} {text : List Char}
    (hinherit : ∀ scope, value ≠ inherit scope)
    (hlex : ∀ rest, value.Ends uris rest → lex (text ++ rest) = prepend value.tokens (lex rest))
    (rest : List Char) :
    lex (bindingText name value text ++ ';' :: rest) =
      prepend (bindingTokens name value value.tokens ++ [.semicolon]) (lex rest) := by
  have htext : bindingText name value text = attributeName name ++ [' ', '=', ' '] ++ text := by
    cases value <;> first | rfl | exact absurd rfl (hinherit _)
  rw [htext, bindingTokens_of_ne_inherit name hinherit]
  simp only [List.append_assoc, List.cons_append, List.nil_append]
  rw [lex_attributeName name (apart_space _), lex_space, lex_sign (t := .equals) rfl rfl, lex_space,
    hlex _ (value.ends_of_delimited (delimited_semicolon _ _)),
    lex_sign (t := .semicolon) rfl rfl]
  simp

theorem lex_inherited {name : String} {scope : Option String}
    (hscope : ∀ s, scope = some s → IsVariable s) (rest : List Char) :
    lex (bindingText name (inherit scope) (inheritText scope) ++ ';' :: rest) =
      prepend (bindingTokens name (inherit scope) (inheritTokens scope) ++ [.semicolon])
        (lex rest) := by
  have hname := lex_attributeName name (delimited_semicolon false rest).apart
  cases scope with
  | none =>
    simp only [bindingText, bindingTokens, inheritText, inheritTokens, List.cons_append,
      List.nil_append]
    rw [lex_inherit, hname, lex_sign (t := .semicolon) rfl rfl]
    simp
  | some s =>
    simp only [bindingText, bindingTokens, inheritText, inheritTokens, List.append_assoc,
      List.cons_append, List.nil_append]
    rw [lex_inherit, lex_sign (t := .openParen) rfl rfl, lex_name (hscope s rfl).1
        (apart_closeParen _), lex_sign (t := .closeParen) rfl rfl, lex_space, hname,
      lex_sign (t := .semicolon) rfl rfl]
    simp

mutual

/-- The text of an expression divides into its tokens. -/
theorem lex_print (layout : Layout) (level : Nat) {uris : Bool} :
    ∀ (e : Expr), e.Readable uris → ∀ rest, e.Ends uris rest →
      lex (e.print layout level ++ rest) = prepend e.tokens (lex rest)
  | null, _, rest, h => lex_word (w := ['n', 'u', 'l', 'l']) rfl h
  | bool true, _, rest, h => lex_word (w := ['t', 'r', 'u', 'e']) rfl h
  | bool false, _, rest, h => lex_word (w := ['f', 'a', 'l', 's', 'e']) rfl h
  | int i, _, rest, h => lex_integerLiteral i h
  | float x, _, rest, h => lex_floatLiteral x h
  | string s, _, rest, _ => lex_stringLiteral s rest
  | uri u, hr, rest, h => lex_uriLiteral u (hr ▸ h)
  | path p, _, rest, h => lex_path p h
  | verbatim source, hr, rest, h => lex_name hr.1 h
  | inherit scope, hr, rest, h => hr.elim
  | attrs b, hr, rest, _ => by
    rw [print, tokens]
    exact lex_setText layout level (lex_printBindings layout (level + 1) b hr) rest
  | recAttrs b, hr, rest, _ => by
    have hset := lex_setText layout level (lex_printBindings layout (level + 1) b hr) rest
    simp only [print, tokens, List.cons_append, List.nil_append]
    rw [lex_rec, hset]
    simp
  | list items, hr, rest, _ => by
    rw [print, tokens]
    exact lex_listText layout level (lexed_printElements layout (level + 1) items hr) rest
  | update l r, hr, rest, h => by
    have hl := lex_print layout level l hr.1
    have hr := lex_print layout level r hr.2
    simp only [print, tokens, List.cons_append, List.append_assoc, List.nil_append]
    rw [lex_enclose_delimited hl (delimited_space _ _), lex_space, lex_update, lex_space,
      lex_enclose_delimited hr h]
    simp
  | apply f a, hr, rest, h => by
    have hf := lex_print layout level f hr.1
    have ha := lex_print layout level a hr.2
    simp only [print, tokens, List.cons_append, List.append_assoc]
    rw [lex_enclose_delimited hf (delimited_space _ _), lex_space, lex_enclose_delimited ha h]
    simp
  | letIn b body, hr, rest, h => by
    have hb := lex_printBindings layout (level + 1) b hr.1
    have hbody := lex_print layout level body hr.2 rest (body.ends_of_delimited h)
    simp only [print, tokens, List.append_assoc]
    rw [lex_keyword (w := ['l', 'e', 't']) (k := .letWord) rfl rfl
        (delimited_newline uris _ _).apart,
      lex_newline, hb, lex_indent,
      lex_keyword (w := ['i', 'n']) (k := .inWord) rfl rfl (delimited_newline uris _ _).apart,
      lex_newline, lex_indent, hbody]
    simp
  | lambda (.name x) body, hr, rest, h => by
    have hname : isBareName x = true := (checkArgumentName_eq_ok_iff x).mp hr.1
    have hbody := lex_print layout level body hr.2 rest (body.ends_of_delimited h)
    simp only [print, tokens, List.cons_append, List.append_assoc, List.nil_append]
    rw [lex_name hname (apart_colon _), lex_sign (t := .colon) rfl rfl, lex_space, hbody]
    simp
  | lambda (.formals items ellipsis) body, hr, rest, h => by
    have hitems := lexed_printFormals layout level items (isBareName_of_checkFormals hr.1) hr.2.1
    have hbody := lex_print layout level body hr.2.2 rest (body.ends_of_delimited h)
    simp only [print, tokens, paragraph, List.append_assoc]
    rw [lex_formalsText hitems, lex_newline, lex_newline, lex_indent, hbody]
    simp
  | ifThenElse c y n, hr, rest, h => by
    have hc := lex_print layout level c hr.1
    have hy := lex_print layout level y hr.2.1
    have hn := lex_print layout level n hr.2.2 rest (n.ends_of_delimited h)
    simp only [print, tokens, List.cons_append, List.append_assoc, List.nil_append]
    rw [lex_if, lex_enclose_delimited hc (delimited_space _ _), lex_space, lex_then,
      lex_enclose_delimited hy (delimited_space _ _), lex_space, lex_else, hn]
    simp
  | withScope s body, hr, rest, h => by
    have hs := lex_print layout level s hr.1
    have hbody := lex_print layout level body hr.2 rest (body.ends_of_delimited h)
    simp only [print, tokens, paragraph, List.cons_append, List.append_assoc, List.nil_append]
    rw [lex_with, lex_enclose_delimited hs (delimited_semicolon _ _),
      lex_sign (t := .semicolon) rfl rfl, lex_newline, lex_newline, lex_indent, hbody]
    simp
  | assertThen c body, hr, rest, h => by
    have hc := lex_print layout level c hr.1
    have hbody := lex_print layout level body hr.2 rest (body.ends_of_delimited h)
    simp only [print, tokens, paragraph, List.cons_append, List.append_assoc, List.nil_append]
    rw [lex_assert, lex_enclose_delimited hc (delimited_semicolon _ _),
      lex_sign (t := .semicolon) rfl rfl, lex_newline, lex_newline, lex_indent, hbody]
    simp
  | importOf p, hr, rest, h => by
    have hp := lex_print layout level p hr
    simp only [print, tokens, List.cons_append, List.nil_append]
    rw [lex_import, lex_enclose_delimited hp h]
    simp
  | select s p none, hr, rest, h => by
    have hs := lex_print layout level s hr.2
    simp only [print, tokens, List.append_assoc, flatMap_attributeName]
    rw [lex_base hr.1 hs (apart_steps p.toList h), lex_steps p.toList h]
    simp
  | select s p (some d), hr, rest, h => by
    have hs := lex_print layout level s hr.2.1
    have hd := lex_print layout level d hr.2.2
    simp only [print, tokens, List.append_assoc, List.cons_append, List.nil_append,
      flatMap_attributeName]
    rw [lex_base hr.1 hs (apart_steps p.toList (apart_space _)),
      lex_steps p.toList (apart_space _), lex_space, lex_or, lex_enclose_delimited hd h]
    simp

theorem lex_printBindings (layout : Layout) (level : Nat) {uris : Bool} :
    ∀ (b : List (String × Expr)), ReadableBindings uris b →
      ∀ rest, lex (printBindings layout level b ++ rest) = prepend (bindingsTokens b) (lex rest)
  | [], _, rest => by simp [printBindings, bindingsTokens]
  | (name, value) :: b, hr, rest => by
    have hvalue := @lex_print layout level uris value
    have hrest := @lex_printBindings layout level uris b
    simp only [printBindings, bindingsTokens, List.append_assoc, List.cons_append]
    rw [lex_indent]
    cases value with
    | inherit scope =>
      cases scope with
      | none =>
        rw [print, tokens, lex_inherited (by simp), lex_newline, hrest hr]
        simp
      | some s =>
        rw [print, tokens, lex_inherited (by rintro _ ⟨⟩; exact hr.1), lex_newline, hrest hr.2]
        simp
    | _ =>
      rw [lex_assignment (by simp) (hvalue hr.1), lex_newline, hrest hr.2]
      simp

theorem lexed_printElements (layout : Layout) (level : Nat) {uris : Bool} :
    ∀ (items : List Expr), ReadableElements uris items →
      AllLexed uris (printElements layout level items) (elementsTokens items)
  | [], _ => .nil
  | e :: items, hr =>
    .cons (fun _ h => lex_enclose_delimited (lex_print layout level e hr.1) h)
      (lexed_printElements layout level items hr.2)

theorem lexed_printFormals (layout : Layout) (level : Nat) :
    ∀ (items : List (Formal Expr)), (∀ f ∈ items, isBareName f.name = true) →
      ReadableFormals items →
      AllLexed false (printFormals layout level items) (formalTokens items)
  | [], _, _ => .nil
  | ⟨name, none⟩ :: items, hnames, hr =>
    have h := List.forall_mem_cons.mp hnames
    .cons (fun _ hrest => lex_name h.1 hrest.apart) (lexed_printFormals layout level items h.2 hr)
  | ⟨name, some d⟩ :: items, hnames, hr =>
    have h := List.forall_mem_cons.mp hnames
    .cons (fun rest hrest => by
        have hd := lex_print layout level d hr.1
        simp only [List.append_assoc, List.cons_append, List.nil_append]
        rw [lex_name h.1 (apart_space _), lex_space, lex_sign (t := .question) rfl rfl, lex_space,
          lex_enclose_delimited hd hrest]
        simp)
      (lexed_printFormals layout level items h.2 hr.2)

end

end Expr

end NixSource
