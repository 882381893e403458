import NixSource.Proofs.Syntax.Heads
import NixSource.Proofs.Syntax.PrintedTokens

/-! Printing keeps the grouping of expressions: the parser reads from the text of an expression what
the expression was, in every layout, up to the order of merges, selections from selections and URIs
that are written as strings. The first means the same in any order. A selection with a fallback from
a selection without one does not mean what it is read as, where the fallback serves both. -/

namespace NixSource

namespace Expr

/-- What the parser makes of an expression, in each place that the printer puts it in. -/
structure Parsed (e : Expr) : Prop where
  /-- In the place of an operand or of what is selected from, the parser comes to the attributes
  that are selected with those of the expression itself read. -/
  atom : ∃ x names, x.IsRoot ∧ e.asRead = x.selecting names none ∧ ∀ ts,
    parseSelect (e.encloseTokens .atom e.tokens ++ ts) = parseSteps x names ts
  application : ∀ ts, Stops .fallback ts →
    parseApply (e.encloseTokens .application e.tokens ++ ts) = parseArguments e.asRead ts
  operator : ∀ ts, Stops .application ts →
    parseUpdate (e.encloseTokens .operator e.tokens ++ ts) = mergeRest e.asRead ts
  whole : ∀ ts, Stops .lowest ts → parseExpr (e.tokens ++ ts) = some (e.asRead, ts)

variable {e : Expr} {uris : Bool}

theorem Parsed.select (h : e.Parsed) (ts : List Token) (hts : Stops .atom ts) :
    parseSelect (e.encloseTokens .atom e.tokens ++ ts) = some (e.asRead, ts) := by
  obtain ⟨x, names, -, hasRead, hselect⟩ := h.atom
  rw [hselect, parseSteps_stop x names hts, hasRead]

theorem parsePrimary_parens (hr : e.Readable uris)
    (h : ∀ ts, Stops .lowest ts → parseExpr (e.tokens ++ ts) = some (e.asRead, ts))
    (ts : List Token) :
    parsePrimary (.openParen :: (e.tokens ++ .closeParen :: ts)) = some (e.asRead, ts) := by
  have hstart := startsExpr_append (startsExpr_tokens e hr) (.closeParen :: ts)
  have hnumeral : readNumeral? (.openParen :: (e.tokens ++ .closeParen :: ts)) = none := by
    generalize e.tokens ++ .closeParen :: ts = us at hstart
    unfold readNumeral?
    split <;> first | rfl | simp_all [startsExpr]
  rw [parsePrimary.eq_def, hnumeral]
  simp [h (.closeParen :: ts) (by simp [Token.grip, Precedence.rank])]

/-- An expression in parentheses is selected from as a whole. -/
theorem atom_of_whole (hr : e.Readable uris) (hp : Precedence.atom.rank < e.precedence.rank)
    (h : ∀ ts, Stops .lowest ts → parseExpr (e.tokens ++ ts) = some (e.asRead, ts)) :
    ∃ x names, x.IsRoot ∧ e.asRead = x.selecting names none ∧ ∀ ts,
      parseSelect (e.encloseTokens .atom e.tokens ++ ts) = parseSteps x names ts := by
  have hroot : e.IsRoot := by
    rintro s p rfl
    exact absurd hp (Nat.lt_irrefl 0)
  refine ⟨e.asRead, [], isRoot_asRead hroot, rfl, fun ts => ?_⟩
  rw [encloseTokens_of_lt hp]
  refine parseSelect_of_parsePrimary rfl ?_
  rw [List.cons_append, List.append_assoc, List.singleton_append]
  exact parsePrimary_parens hr h ts

/-- An operand is a function that is applied to nothing. -/
theorem application_of_select {ts us : List Token} (hs : startsOperand us = true)
    (h : Stops .atom ts → parseSelect (us ++ ts) = some (e.asRead, ts)) (hts : Stops .fallback ts) :
    parseApply (us ++ ts) = parseArguments e.asRead ts :=
  parseApply_of_parseSelect hs (h (hts.mono (by decide)))

/-- An application is a merge with nothing. -/
theorem operator_of_application (hr : e.Readable uris) (hp : e.precedence ≠ .operator)
    (h : ∀ ts, Stops .fallback ts →
      parseApply (e.encloseTokens .application e.tokens ++ ts) = parseArguments e.asRead ts)
    (ts : List Token) (hts : Stops .application ts) :
    parseUpdate (e.encloseTokens .operator e.tokens ++ ts) = mergeRest e.asRead ts := by
  have hsame : e.encloseTokens .operator e.tokens = e.encloseTokens .application e.tokens := by
    unfold encloseTokens
    cases hprec : e.precedence <;> first | rfl | exact absurd hprec hp
  have hstart : startsExpr (e.encloseTokens .application e.tokens) = true :=
    startsExpr_encloseTokens (startsExpr_tokens e hr)
  rw [hsame]
  refine parseUpdate_of_parseApply (by rwa [precedence_asRead])
    (length_lt_append (ne_nil_of_startsExpr hstart) ts) ?_
  rw [h ts (hts.mono (by decide)), parseArguments_stop _ hts]

/-- A merge is a whole expression, unless the loosest expressions start alike. -/
theorem whole_of_operator (hr : e.Readable uris) (hp : e.precedence ≠ .lowest)
    (h : ∀ ts, Stops .application ts →
      parseUpdate (e.encloseTokens .operator e.tokens ++ ts) = mergeRest e.asRead ts)
    (ts : List Token) (hts : Stops .lowest ts) :
    parseExpr (e.tokens ++ ts) = some (e.asRead, ts) := by
  have hsame : e.encloseTokens .operator e.tokens = e.tokens := by
    apply encloseTokens_of_le
    cases hprec : e.precedence <;> first | decide | exact absurd hprec hp
  have hcolon : ts.head? ≠ some .colon := fun hc => absurd (hts _ hc) (by decide)
  have hmerge := h ts (hts.mono (by decide))
  rw [hsame, mergeRest_stop _ (hts.mono (by decide))] at hmerge
  rw [parseExpr_of_not_startsLoosest (startsLoosest_tokens e hr hp ts hcolon), hmerge]

theorem parsed_of_atom (hr : e.Readable uris) (hp : e.precedence = .atom)
    (h : ∃ x names, x.IsRoot ∧ e.asRead = x.selecting names none ∧ ∀ ts,
      parseSelect (e.encloseTokens .atom e.tokens ++ ts) = parseSteps x names ts) : e.Parsed := by
  have hatom : e.encloseTokens .application e.tokens = e.encloseTokens .atom e.tokens := by
    unfold encloseTokens
    rw [hp]
    rfl
  have happlication : ∀ ts, Stops .fallback ts →
      parseApply (e.encloseTokens .application e.tokens ++ ts) = parseArguments e.asRead ts := by
    intro ts hts
    rw [hatom]
    refine application_of_select (startsOperand_atom e hr) (fun hstop => ?_) hts
    obtain ⟨x, names, -, hasRead, hselect⟩ := h
    rw [hselect, parseSteps_stop x names hstop, hasRead]
  have hoperator := operator_of_application hr (by simp [hp]) happlication
  exact ⟨h, happlication, hoperator, whole_of_operator hr (by simp [hp]) hoperator⟩

theorem parsed_of_primary (hr : e.Readable uris) (hp : e.precedence = .atom) (hroot : e.IsRoot)
    (h : ∀ ts, parsePrimary (e.tokens ++ ts) = some (e.asRead, ts)) : e.Parsed := by
  refine parsed_of_atom hr hp ⟨e.asRead, [], isRoot_asRead hroot, rfl, fun ts => ?_⟩
  have hstart := startsOperand_atom e hr
  rw [encloseTokens_of_le (by rw [hp])] at hstart ⊢
  exact parseSelect_of_parsePrimary hstart (h ts)

theorem parsed_of_fallback (hr : e.Readable uris) (hp : e.precedence = .fallback)
    (hs : startsOperand e.tokens = true)
    (h : ∀ ts, Stops .atom ts → parseSelect (e.tokens ++ ts) = some (e.asRead, ts)) : e.Parsed := by
  have happlication : ∀ ts, Stops .fallback ts →
      parseApply (e.encloseTokens .application e.tokens ++ ts) = parseArguments e.asRead ts := by
    intro ts hts
    rw [encloseTokens_of_le (by rw [hp]; decide)]
    exact application_of_select hs (h ts) hts
  have hoperator := operator_of_application hr (by simp [hp]) happlication
  have hwhole := whole_of_operator hr (by simp [hp]) hoperator
  exact ⟨atom_of_whole hr (by rw [hp]; decide) hwhole, happlication, hoperator, hwhole⟩

theorem parsed_of_application (hr : e.Readable uris) (hp : e.precedence = .application)
    (h : ∀ ts, Stops .fallback ts → parseApply (e.tokens ++ ts) = parseArguments e.asRead ts) :
    e.Parsed := by
  have happlication : ∀ ts, Stops .fallback ts →
      parseApply (e.encloseTokens .application e.tokens ++ ts) = parseArguments e.asRead ts := by
    rw [encloseTokens_of_le (by rw [hp])]
    exact h
  have hoperator := operator_of_application hr (by simp [hp]) happlication
  have hwhole := whole_of_operator hr (by simp [hp]) hoperator
  exact ⟨atom_of_whole hr (by rw [hp]; decide) hwhole, happlication, hoperator, hwhole⟩

theorem application_of_whole (hr : e.Readable uris)
    (hp : Precedence.application.rank < e.precedence.rank)
    (h : ∀ ts, Stops .lowest ts → parseExpr (e.tokens ++ ts) = some (e.asRead, ts))
    (ts : List Token) (hts : Stops .fallback ts) :
    parseApply (e.encloseTokens .application e.tokens ++ ts) = parseArguments e.asRead ts := by
  have hp' : Precedence.atom.rank < e.precedence.rank := Nat.lt_trans (by decide) hp
  obtain ⟨x, names, -, hasRead, hselect⟩ := atom_of_whole hr hp' h
  rw [encloseTokens_of_lt hp, ← encloseTokens_of_lt hp']
  refine application_of_select (startsOperand_atom e hr) (fun hstop => ?_) hts
  rw [hselect, parseSteps_stop x names hstop, hasRead]

theorem parsed_of_operator (hr : e.Readable uris) (hp : e.precedence = .operator)
    (h : ∀ ts, Stops .application ts → parseUpdate (e.tokens ++ ts) = mergeRest e.asRead ts) :
    e.Parsed := by
  have hoperator : ∀ ts, Stops .application ts →
      parseUpdate (e.encloseTokens .operator e.tokens ++ ts) = mergeRest e.asRead ts := by
    rw [encloseTokens_of_le (by rw [hp])]
    exact h
  have hwhole := whole_of_operator hr (by simp [hp]) hoperator
  exact ⟨atom_of_whole hr (by rw [hp]; decide) hwhole,
    application_of_whole hr (by rw [hp]; decide) hwhole, hoperator, hwhole⟩

theorem parsed_of_lowest (hr : e.Readable uris) (hp : e.precedence = .lowest)
    (h : ∀ ts, Stops .lowest ts → parseExpr (e.tokens ++ ts) = some (e.asRead, ts)) :
    e.Parsed := by
  have happlication := application_of_whole hr (by rw [hp]; decide) h
  exact ⟨atom_of_whole hr (by rw [hp]; decide) h, happlication,
    operator_of_application hr (by simp [hp]) happlication, h⟩

/-- An operand of a merge is also read where a whole expression can stand. -/
theorem Parsed.operand (h : e.Parsed) (ts : List Token) (hts : Stops .lowest ts) :
    parseExpr (e.encloseTokens .operator e.tokens ++ ts) = some (e.asRead, ts) := by
  by_cases hp : Precedence.operator.rank < e.precedence.rank
  · have hmerge := h.operator ts (hts.mono (by decide))
    rw [encloseTokens_of_lt hp, mergeRest_stop _ (hts.mono (by decide))] at hmerge
    rw [encloseTokens_of_lt hp, List.cons_append, parseExpr_of_not_startsLoosest rfl,
      ← List.cons_append, hmerge]
  · rw [encloseTokens_of_le (Nat.le_of_not_lt hp)]
    exact h.whole ts hts

theorem nameExpr_of_isVariable {s : String} (h : IsVariable s) : nameExpr s = verbatim s := by
  have hnot := h.2
  simp only [literalNames, List.mem_cons, List.not_mem_nil, or_false, not_or] at hnot
  simp [nameExpr, hnot]

/-- What may follow bindings: the end of a set, or the body of a `let`. -/
def EndsBindings (ts : List Token) : Prop :=
  ∃ us, ts = .closeBrace :: us ∨ ts = .keyword .inWord :: us

theorem parseBindings_assignment (name : String) {value : Expr}
    (hinherit : ∀ scope, value ≠ inherit scope) (h : value.Parsed) (ts : List Token) :
    parseBindings (bindingTokens name value value.tokens ++ .semicolon :: ts) =
      (parseBindings ts).map fun r => ((name, value.asRead) :: r.1, r.2) := by
  have hvalue := h.whole (.semicolon :: ts) (by simp [Token.grip])
  rw [bindingTokens_of_ne_inherit name hinherit, List.cons_append, List.cons_append]
  rcases nameToken_cases name with hname | hname <;> rw [hname, parseBindings.eq_def] <;>
    cases hb : parseBindings ts <;> simp [Token.attribute?, hvalue, hb]

theorem parseBindings_inherited (name : String) (scope : Option String) (ts : List Token) :
    parseBindings (bindingTokens name (inherit scope) (inheritTokens scope) ++ .semicolon :: ts) =
      (parseBindings ts).map fun r => ((name, inherit scope) :: r.1, r.2) := by
  rw [bindingTokens]
  cases scope <;> rw [inheritTokens] <;> rcases nameToken_cases name with hname | hname <;>
    rw [hname, parseBindings.eq_def] <;> cases hb : parseBindings ts <;>
    simp [Token.attribute?, hb]

theorem stops_elementsTokens {uris : Bool} {items : List Expr} (hr : ReadableElements uris items)
    (ts : List Token) :
    Stops .atom ((elementsTokens items).flatten ++ .closeBracket :: ts) := by
  cases items with
  | nil => simp [elementsTokens, Token.grip, Precedence.rank]
  | cons e items =>
    rw [elementsTokens, List.flatten_cons, List.append_assoc]
    exact (stops_of_startsOperand (startsOperand_append (startsOperand_atom e hr.1) _)).mono
      (by decide)

theorem startsFormals_formalTokens (items : List (Formal Expr)) (ellipsis : Bool)
    (ts : List Token) :
    startsFormals (formalsTokens (formalTokens items) ellipsis ++ ts) = true := by
  rw [formalsTokens_eq]
  rcases items with _ | ⟨⟨name, _ | d⟩, items⟩
  · cases ellipsis <;> rfl
  · rw [formalTokens, formalsBody_cons]
    rcases moreFormals_cases (formalTokens items) ellipsis with h | h <;> rw [h] <;> rfl
  · rw [formalTokens, formalsBody_cons]
    rfl

theorem parseMoreFormals_moreFormals {items : List (Formal Expr)} {ellipsis : Bool}
    {ts : List Token}
    (h : parseFormals (formalsBody (formalTokens items) ellipsis ++ .closeBrace :: ts) =
      some ((asReadFormals items, ellipsis), ts)) :
    parseMoreFormals (moreFormals (formalTokens items) ellipsis ++ .closeBrace :: ts) =
      some ((asReadFormals items, ellipsis), ts) := by
  unfold moreFormals
  split
  · next hnone =>
    have hitems : items = [] := by
      match items, hnone.1 with
      | [], _ => rfl
      | ⟨_, none⟩ :: _, hnil => cases hnil
      | ⟨_, some _⟩ :: _, hnil => cases hnil
    rw [hitems, hnone.2, parseMoreFormals.eq_def]
    rfl
  · rw [parseMoreFormals.eq_def]
    exact h

theorem stops_moreFormals (items : List (List Token)) (ellipsis : Bool) (ts : List Token) :
    Stops .lowest (moreFormals items ellipsis ++ .closeBrace :: ts) := by
  rcases moreFormals_cases items ellipsis with h | h <;> simp [h, Token.grip]

mutual

/-- The parser reads every expression in every place, whatever follows. -/
theorem parsed {uris : Bool} : ∀ (e : Expr), e.Readable uris → e.Parsed
  | null, hr => parsed_of_primary hr rfl (by rintro _ _ ⟨⟩) fun ts => by
    simp [tokens, asRead, parsePrimary, readNumeral?, nameExpr]
  | bool b, hr => parsed_of_primary hr rfl (by rintro _ _ ⟨⟩) fun ts => by
    cases b <;> simp [tokens, asRead, parsePrimary, readNumeral?, nameExpr]
  | int i, hr => parsed_of_primary hr rfl (by rintro _ _ ⟨⟩) fun ts => by
    rw [tokens, parsePrimary.eq_def, readNumeral?_integerTokens]
    rfl
  | float x, hr => parsed_of_primary hr rfl (by rintro _ _ ⟨⟩) fun ts => by
    rw [tokens, parsePrimary.eq_def, readNumeral?_floatTokens]
    rfl
  | string s, hr => parsed_of_primary hr rfl (by rintro _ _ ⟨⟩) fun ts => by
    simp [tokens, asRead, parsePrimary, readNumeral?]
  | uri u, hr => parsed_of_primary hr rfl (by rintro _ _ ⟨⟩) fun ts => by
    rw [tokens, Uri.token, asRead]
    split <;> simp [parsePrimary, readNumeral?, Uri.ofString?_text]
  | path p, hr => parsed_of_primary hr rfl (by rintro _ _ ⟨⟩) fun ts => by
    simp [tokens, asRead, parsePrimary, readNumeral?, PathLiteral.ofString?_text]
  | verbatim source, hr => parsed_of_primary hr rfl (by rintro _ _ ⟨⟩) fun ts => by
    simp [tokens, asRead, parsePrimary, readNumeral?, nameExpr_of_isVariable hr]
  | inherit _, hr => hr.elim
  | attrs b, hr => parsed_of_primary hr rfl (by rintro _ _ ⟨⟩) fun ts => by
    have hb := parseBindings_bindingsTokens b hr (.closeBrace :: ts) ⟨ts, .inl rfl⟩
    simp [tokens, asRead, parsePrimary.eq_def, readNumeral?, hb]
  | recAttrs b, hr => parsed_of_primary hr rfl (by rintro _ _ ⟨⟩) fun ts => by
    have hb := parseBindings_bindingsTokens b hr (.closeBrace :: ts) ⟨ts, .inl rfl⟩
    simp [tokens, asRead, parsePrimary.eq_def, readNumeral?, hb]
  | list items, hr => parsed_of_primary hr rfl (by rintro _ _ ⟨⟩) fun ts => by
    have hitems := parseElements_elementsTokens items hr ts
    simp [tokens, asRead, parsePrimary.eq_def, readNumeral?, hitems]
  | update l r, hr => parsed_of_operator hr rfl fun ts hts => by
    have hl := (parsed l hr.1).operator
      (.update :: (r.encloseTokens .operator r.tokens ++ ts)) (by simp [Token.grip]; decide)
    have hr := (parsed r hr.2).operator ts hts
    rw [tokens, List.append_assoc, List.cons_append, hl, mergeRest, hr, map_mergeRest, asRead]
  | apply f a, hr => parsed_of_application hr rfl fun ts hts => by
    have hstart := startsOperand_atom a hr.2
    have hf := (parsed f hr.1).application _
      (stops_of_startsOperand (startsOperand_append hstart ts))
    have ha := (parsed a hr.2).select ts (hts.mono (by decide))
    rw [tokens, List.append_assoc, hf, parseArguments_of_parseSelect hstart _ ha, asRead]
  | letIn b body, hr => parsed_of_lowest hr rfl fun ts hts => by
    have hb := parseBindings_bindingsTokens b hr.1 (.keyword .inWord :: (body.tokens ++ ts))
      ⟨_, .inr rfl⟩
    have hbody := (parsed body hr.2).whole ts hts
    simp only [tokens, List.cons_append, List.append_assoc]
    rw [parseExpr.eq_def]
    simp [hb, hbody, asRead]
  | lambda (.name x) body, hr => parsed_of_lowest hr rfl fun ts hts => by
    have hbody := (parsed body hr.2).whole ts hts
    simp only [tokens, List.cons_append]
    rw [parseExpr.eq_def]
    simp [hbody, asRead]
  | lambda (.formals items ellipsis) body, hr => parsed_of_lowest hr rfl fun ts hts => by
    have hitems := parseFormals_formalTokens items hr.2.1 ellipsis (.colon :: (body.tokens ++ ts))
    have hbody := (parsed body hr.2.2).whole ts hts
    have hstart := startsFormals_formalTokens items ellipsis (body.tokens ++ ts)
    rw [tokens, List.append_assoc]
    rw [formalsTokens_eq, List.cons_append, List.append_assoc] at hstart ⊢
    have hlt : (Token.colon :: (body.tokens ++ ts)).length <
        (Token.openBrace :: (formalsBody (formalTokens items) ellipsis ++
          ([.closeBrace, .colon] ++ (body.tokens ++ ts)))).length := by
      simp only [List.length_cons, List.length_append]
      omega
    rw [parseExpr_of_startsFormals hstart hlt hitems, hbody, asRead]
    rfl
  | ifThenElse c y n, hr => parsed_of_lowest hr rfl fun ts hts => by
    have hn := (parsed n hr.2.2).whole ts hts
    have hy := (parsed y hr.2.1).operand (.keyword .elseWord :: (n.tokens ++ ts))
      (by simp [Token.grip])
    have hc := (parsed c hr.1).operand
      (.keyword .thenWord :: (y.encloseTokens .operator y.tokens ++
        .keyword .elseWord :: (n.tokens ++ ts))) (by simp [Token.grip])
    simp only [tokens, List.cons_append, List.append_assoc]
    rw [parseExpr.eq_def]
    simp [hc, hy, hn, asRead]
  | withScope s body, hr => parsed_of_lowest hr rfl fun ts hts => by
    have hbody := (parsed body hr.2).whole ts hts
    have hs := (parsed s hr.1).operand (.semicolon :: (body.tokens ++ ts))
      (by simp [Token.grip])
    simp only [tokens, List.cons_append, List.append_assoc]
    rw [parseExpr.eq_def]
    simp [hs, hbody, asRead]
  | assertThen c body, hr => parsed_of_lowest hr rfl fun ts hts => by
    have hbody := (parsed body hr.2).whole ts hts
    have hc := (parsed c hr.1).operand (.semicolon :: (body.tokens ++ ts))
      (by simp [Token.grip])
    simp only [tokens, List.cons_append, List.append_assoc]
    rw [parseExpr.eq_def]
    simp [hc, hbody, asRead]
  | importOf p, hr => parsed_of_application hr rfl fun ts hts => by
    have hp := (parsed p hr).select ts (hts.mono (by decide))
    rw [tokens, List.cons_append, parseApply.eq_def]
    simp [hp, asRead]
  | select s p none, hr => by
    obtain ⟨x, names, hroot, hasRead, hselect⟩ := (parsed s hr.2).atom
    refine parsed_of_atom hr rfl ⟨x, names ++ p.toList, hroot, ?_, fun ts => ?_⟩
    · rw [asRead, hasRead, joinSelect_selecting hroot]
    · have hatom : (s.select p none).precedence.rank ≤ Precedence.atom.rank := Nat.le_refl 0
      rw [encloseTokens_of_le hatom, tokens, List.append_assoc, hselect, parseSteps_stepTokens]
  | select s p (some d), hr => by
    obtain ⟨x, names, hroot, hasRead, hselect⟩ := (parsed s hr.2.1).atom
    refine parsed_of_fallback hr rfl
      (startsOperand_append (startsOperand_atom s hr.2.1) _) fun ts hts => ?_
    have hd := (parsed d hr.2.2).select ts hts
    have hnames : names ++ p.toList ≠ [] := by simp [AttributePath.toList]
    rw [tokens, List.append_assoc, hselect, List.append_assoc, parseSteps_stepTokens,
      List.cons_append, parseSteps_or x hnames, hd, asRead, hasRead,
      joinSelect_selecting hroot]
    rfl

theorem parseBindings_bindingsTokens {uris : Bool} : ∀ (b : List (String × Expr)),
    ReadableBindings uris b → ∀ ts, EndsBindings ts →
    parseBindings (bindingsTokens b ++ ts) = some (asReadBindings b, ts)
  | [], _, ts, hts => by
    obtain ⟨us, rfl | rfl⟩ := hts <;>
      (rw [bindingsTokens, List.nil_append, parseBindings.eq_def]; rfl)
  | (name, value) :: b, hr, ts, hts => by
    have hvalue := @parsed uris value
    have hrest := @parseBindings_bindingsTokens uris b
    rw [bindingsTokens, List.append_assoc, List.cons_append, asReadBindings]
    by_cases hinherit : ∃ scope, value = inherit scope
    · obtain ⟨scope, rfl⟩ := hinherit
      have hb : ReadableBindings uris b := by
        cases scope
        · exact hr
        · exact hr.2
      rw [tokens, parseBindings_inherited, hrest hb ts hts]
      rfl
    · have hne := not_exists.mp hinherit
      have hr := (readableBindings_cons_iff name hne b).mp hr
      rw [parseBindings_assignment name hne (hvalue hr.1), hrest hr.2 ts hts]
      rfl

theorem parseElements_elementsTokens {uris : Bool} : ∀ (items : List Expr),
    ReadableElements uris items → ∀ ts,
    parseElements ((elementsTokens items).flatten ++ .closeBracket :: ts) =
      some (asReadElements items, .closeBracket :: ts)
  | [], _, ts => by
    rw [elementsTokens, List.flatten_nil, List.nil_append, parseElements.eq_def]
    rfl
  | e :: items, hr, ts => by
    have hitems := parseElements_elementsTokens items hr.2 ts
    have hstart := startsOperand_atom e hr.1
    have he := (parsed e hr.1).select _ (stops_elementsTokens hr.2 ts)
    rw [elementsTokens, List.flatten_cons, List.append_assoc, parseElements.eq_def,
      startsOperand_append hstart, he, leaving_append_of_ne_nil _ (ne_nil_of_startsOperand hstart)]
    simp [hitems, asReadElements]

theorem parseFormals_formalTokens : ∀ (items : List (Formal Expr)), ReadableFormals items →
    ∀ (ellipsis : Bool) (ts : List Token),
    parseFormals (formalsBody (formalTokens items) ellipsis ++ .closeBrace :: ts) =
      some ((asReadFormals items, ellipsis), ts)
  | [], _, ellipsis, ts => by
    cases ellipsis <;> rw [parseFormals.eq_def] <;> rfl
  | ⟨name, none⟩ :: items, hr, ellipsis, ts => by
    have hmore := parseMoreFormals_moreFormals (parseFormals_formalTokens items hr ellipsis ts)
    rw [formalTokens, formalsBody_cons, List.append_assoc, List.singleton_append,
      parseFormals.eq_def]
    -- No question mark comes next, whether the arguments end here or go on.
    rcases moreFormals_cases (formalTokens items) ellipsis with h | h <;> rw [h] at hmore ⊢ <;>
      simp only [List.nil_append, List.cons_append] at hmore ⊢ <;> simp [hmore, asReadFormals]
  | ⟨name, some d⟩ :: items, hr, ellipsis, ts => by
    have hmore := parseMoreFormals_moreFormals (parseFormals_formalTokens items hr.2 ellipsis ts)
    have hd := (parsed d hr.1).operand _ (stops_moreFormals (formalTokens items) ellipsis ts)
    rw [formalTokens, formalsBody_cons, List.append_assoc, List.cons_append, List.cons_append,
      parseFormals.eq_def]
    simp [hd, hmore, asReadFormals]

end

theorem ofText?_source {e : Expr} (hr : e.Readable true) (level : Nat) (layout : Layout) :
    ofText? (e.source level layout) = some e.asRead := by
  have hlex := e.lex_print layout level hr [] (e.ends_of_delimited (delimited_nil _))
  have hparse := (parsed e hr).whole [] (stops_nil _)
  rw [List.append_nil] at hlex hparse
  simp [ofText?, source, hlex, prepend, hparse]

/-- The text of a readable expression is read as that expression, in every layout and at every
level, up to three things. Merges are read in one order, whichever they were put together in, and
URIs that are written as strings are read as strings. Attributes selected one after the other are
read as one path: without a fallback that means the same, but under one it changes the meaning, as
the fallback then also stands in for attributes missing from the path inside. Where nothing of that
is in the expression, it is read exactly. -/
theorem ofText?_source_eq_asRead {e : Expr} (hr : e.Readable true) (level : Nat)
    (layout : Layout) :
    ofText? (e.source level layout) = some e.asRead ∧ (e.Unambiguous → e.asRead = e) :=
  ⟨ofText?_source hr level layout, asRead_of_unambiguous e⟩

theorem ofText?_source_nested :
    ofText? ((update (apply (verbatim "f") (select (apply (verbatim "g") (int 1)) ⟨"a", []⟩ none))
        (attrs [("f", inherit none)])).source 1 {}) =
      some (update (apply (verbatim "f") (select (apply (verbatim "g") (int 1)) ⟨"a", []⟩ none))
        (attrs [("f", inherit none)])) := by
  have hf : IsVariable "f" := ⟨by decide, by decide⟩
  have hg : IsVariable "g" := ⟨by decide, by decide⟩
  have hr : Readable true (update (apply (verbatim "f") (select (apply (verbatim "g") (int 1))
      ⟨"a", []⟩ none)) (attrs [("f", inherit none)])) :=
    ⟨⟨hf, id, hg, trivial⟩, trivial⟩
  exact (ofText?_source_eq_asRead hr 1 {}).1

/-- Text does not tell in which order merges were put together, nor whether attributes were selected
one after the other or as one path, nor that a string is a URI. The paths here have no fallback, so
that joining them keeps the meaning; under a fallback it would not. -/
theorem ofText?_source_ne :
    ofText? ((update (update (verbatim "a") (verbatim "b")) (verbatim "c")).source 0 {}) ≠
        some (update (update (verbatim "a") (verbatim "b")) (verbatim "c")) ∧
      ofText? ((select (select (verbatim "a") ⟨"b", []⟩ none) ⟨"c", []⟩ none).source 0 {}) ≠
        some (select (select (verbatim "a") ⟨"b", []⟩ none) ⟨"c", []⟩ none) ∧
      ofText? ((uri ⟨"a:", rfl⟩).source 0 {}) ≠ some (uri ⟨"a:", rfl⟩) := by
  have ha : IsVariable "a" := ⟨by decide, by decide⟩
  have hb : IsVariable "b" := ⟨by decide, by decide⟩
  have hc : IsVariable "c" := ⟨by decide, by decide⟩
  have hmerge : Readable true (update (update (verbatim "a") (verbatim "b")) (verbatim "c")) :=
    ⟨⟨ha, hb⟩, hc⟩
  have hselect : Readable true (select (select (verbatim "a") ⟨"b", []⟩ none) ⟨"c", []⟩ none) :=
    ⟨id, id, ha⟩
  have huri : Readable true (uri ⟨"a:", rfl⟩) := rfl
  rw [ofText?_source hmerge, ofText?_source hselect, ofText?_source huri]
  refine ⟨fun h => ?_, fun h => ?_, fun h => ?_⟩
  · cases Option.some.inj h
  · cases Option.some.inj h
  · cases Option.some.inj h

end Expr

end NixSource
