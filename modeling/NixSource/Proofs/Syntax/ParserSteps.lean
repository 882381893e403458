import NixSource.Proofs.Syntax.AsRead

/-! The parser step by step: what each of its functions does with tokens that it goes on with and
with those that it stops at. -/

namespace NixSource

/-- Whether nothing follows an expression of the given tightness that goes on with it. -/
def Stops (loosest : Precedence) (ts : List Token) : Prop :=
  ∀ t, ts.head? = some t → loosest.rank < t.grip

@[simp] theorem stops_nil (loosest : Precedence) : Stops loosest [] := by
  simp [Stops]

@[simp] theorem stops_cons (loosest : Precedence) (t : Token) (ts : List Token) :
    Stops loosest (t :: ts) ↔ loosest.rank < t.grip := by
  simp [Stops]

theorem Stops.mono {p q : Precedence} {ts : List Token} (h : Stops p ts) (hq : q.rank ≤ p.rank) :
    Stops q ts :=
  fun t ht => hq.trans_lt (h t ht)

theorem stops_of_startsOperand {ts : List Token} (h : startsOperand ts = true) :
    Stops .fallback ts := by
  cases ts with
  | nil => exact stops_nil _
  | cons t ts =>
    rw [stops_cons, show t.grip = _ from by simpa [startsOperand] using h]
    decide

theorem startsOperand_of_stops {ts : List Token} (h : Stops .application ts) :
    startsOperand ts = false := by
  cases ts with
  | nil => rfl
  | cons t ts =>
    rw [stops_cons] at h
    simpa [startsOperand] using h.ne'

theorem startsOperand_append {ts : List Token} (h : startsOperand ts = true) (us : List Token) :
    startsOperand (ts ++ us) = true := by
  cases ts with
  | nil => cases h
  | cons t ts => exact h

theorem ne_nil_of_startsOperand {ts : List Token} (h : startsOperand ts = true) : ts ≠ [] := by
  rintro rfl
  cases h

theorem parseSteps_stop (s : Expr) (names : List String) {ts : List Token} (h : Stops .atom ts) :
    parseSteps s names ts = some (s.selecting names none, ts) := by
  rw [parseSteps.eq_def]
  split
  · exact absurd (h _ rfl) (by decide)
  · exact absurd (h _ rfl) (by decide)
  · rfl

theorem parseSteps_stepTokens (s : Expr) (names more : List String) (ts : List Token) :
    parseSteps s names (stepTokens more ++ ts) = parseSteps s (names ++ more) ts := by
  induction more generalizing names with
  | nil => simp [stepTokens]
  | cons n ns ih =>
    have ih := ih (names ++ [n])
    rw [List.append_assoc, List.singleton_append] at ih
    rw [← ih, parseSteps.eq_def]
    simp [stepTokens, nameToken_attribute]

theorem parseSteps_or (s : Expr) {names : List String} (h : names ≠ []) (ts : List Token) :
    parseSteps s names (.keyword .orWord :: ts) =
      (parseSelect ts).map fun r => (s.selecting names (some r.1), r.2) := by
  rw [parseSteps.eq_def]
  cases hs : parseSelect ts <;> simp [h, hs]

section

variable {us ts : List Token} (hs : startsOperand us = true)

include hs

theorem parseSelect_of_parsePrimary {s : Expr} (h : parsePrimary (us ++ ts) = some (s, ts)) :
    parseSelect (us ++ ts) = parseSteps s [] ts := by
  rw [parseSelect.eq_def, h, leaving_append_of_ne_nil s (ne_nil_of_startsOperand hs)]
  rfl

theorem parseArguments_of_parseSelect (f : Expr) {a : Expr}
    (h : parseSelect (us ++ ts) = some (a, ts)) :
    parseArguments f (us ++ ts) = parseArguments (.apply f a) ts := by
  rw [parseArguments.eq_def, startsOperand_append hs, h,
    leaving_append_of_ne_nil a (ne_nil_of_startsOperand hs)]
  rfl

theorem parseApply_of_parseSelect {f : Expr} (h : parseSelect (us ++ ts) = some (f, ts)) :
    parseApply (us ++ ts) = parseArguments f ts := by
  have hstart := startsOperand_append hs ts
  have hlt := length_lt_append (ne_nil_of_startsOperand hs) ts
  rw [parseApply.eq_def]
  generalize us ++ ts = all at hstart hlt h
  split
  · cases hstart
  · rw [h, leaving_some f hlt]
    rfl

end

theorem parseArguments_stop (f : Expr) {ts : List Token} (h : Stops .application ts) :
    parseArguments f ts = some (f, ts) := by
  rw [parseArguments.eq_def, startsOperand_of_stops h]
  rfl

/-- What follows the merge `l`, or what a merge is made of: a further merge takes part of it. -/
def mergeRest (l : Expr) (ts : List Token) : Option (Expr × List Token) :=
  match ts with
  | .update :: ts => (parseUpdate ts).map fun r => (l.joinUpdate r.1, r.2)
  | ts => some (l, ts)

theorem mergeRest_stop (l : Expr) {ts : List Token} (h : Stops .operator ts) :
    mergeRest l ts = some (l, ts) := by
  unfold mergeRest
  split
  · exact absurd (h _ rfl) (by decide)
  · rfl

/-- A merge with what begins a merge is a merge with all of it. -/
theorem map_mergeRest (l r : Expr) (ts : List Token) :
    (mergeRest r ts).map (fun m => (l.joinUpdate m.1, m.2)) = mergeRest (l.joinUpdate r) ts := by
  unfold mergeRest
  split
  · simp [Function.comp_def, Expr.joinUpdate_assoc]
  · rfl

theorem parseUpdate_of_parseApply {ts ts' : List Token} {l : Expr}
    (hl : l.precedence ≠ .operator) (hlt : ts'.length < ts.length)
    (h : parseApply ts = some (l, ts')) : parseUpdate ts = mergeRest l ts' := by
  rw [parseUpdate.eq_def, h, leaving_some l hlt]
  cases ts' with
  | nil => rfl
  | cons t ts =>
    by_cases ht : t = .update
    · subst ht
      simp only [mergeRest, Expr.joinUpdate_of_precedence_ne hl]
      show (parseUpdate ts).bind _ = _
      cases parseUpdate ts <;> rfl
    · have hexpect : expect .update (t :: ts) = none := if_neg ht
      simp only [Option.bind_eq_bind, Option.bind_some, hexpect]
      unfold mergeRest
      split
      · next heq => exact absurd (List.cons.inj heq).1 ht
      · rfl

/-- Whether tokens start with what begins one of the loosest expressions. -/
def startsLoosest : List Token → Bool
  | .keyword .letWord :: _ | .keyword .ifWord :: _ | .keyword .withWord :: _
  | .keyword .assertWord :: _ | .name _ :: .colon :: _ => true
  | ts => startsFormals ts

theorem parseExpr_of_not_startsLoosest {ts : List Token} (h : startsLoosest ts = false) :
    parseExpr ts = parseUpdate ts := by
  rw [parseExpr.eq_def]
  split
  · cases h
  · cases h
  · cases h
  · cases h
  · cases h
  · have hformals : startsFormals ts = false := by
      unfold startsLoosest at h
      split at h
      · cases h
      · cases h
      · cases h
      · cases h
      · cases h
      · exact h
    rw [hformals]
    rfl

theorem parseExpr_of_startsFormals {ts us : List Token} {formals : List (Formal Expr) × Bool}
    (hs : startsFormals ts = true) (hlt : (Token.colon :: us).length < ts.length)
    (h : parseFormals ts.tail = some (formals, .colon :: us)) :
    parseExpr ts =
      (parseExpr us).map fun b => (.lambda (.formals formals.1 formals.2) b.1, b.2) := by
  rw [parseExpr.eq_def]
  split
  · cases hs
  · cases hs
  · cases hs
  · cases hs
  · cases hs
  · rw [if_pos hs, h, leaving_some formals hlt]
    simp only [Option.bind_eq_bind, Option.bind_some, expect_cons]
    cases parseExpr us <;> rfl

/-- What stands between the braces of a function with named arguments. -/
def formalsBody (items : List (List Token)) (ellipsis : Bool) : List Token :=
  [.comma].intercalate (if ellipsis then items ++ [[.ellipsis]] else items)

/-- What follows a named argument, up to the closing brace. -/
def moreFormals (items : List (List Token)) (ellipsis : Bool) : List Token :=
  if items = [] ∧ ellipsis = false then [] else .comma :: formalsBody items ellipsis

theorem formalsTokens_eq (items : List (List Token)) (ellipsis : Bool) :
    formalsTokens items ellipsis =
      .openBrace :: (formalsBody items ellipsis ++ [.closeBrace, .colon]) :=
  rfl

theorem formalsBody_cons (item : List Token) (items : List (List Token)) (ellipsis : Bool) :
    formalsBody (item :: items) ellipsis = item ++ moreFormals items ellipsis := by
  unfold formalsBody moreFormals
  cases items <;> cases ellipsis <;> simp [formalsBody, List.intercalate_cons_cons]

theorem moreFormals_cases (items : List (List Token)) (ellipsis : Bool) :
    moreFormals items ellipsis = [] ∨
      moreFormals items ellipsis = .comma :: formalsBody items ellipsis := by
  unfold moreFormals
  split
  · exact .inl rfl
  · exact .inr rfl

end NixSource
