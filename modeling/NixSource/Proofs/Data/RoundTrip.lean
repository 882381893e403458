import NixSource.Proofs.Conversion.FirstFault
import NixSource.Proofs.Data.Reader
import NixSource.Proofs.Syntax.PrintedTokens

/-! Data read back from the source text that it is converted to: the value itself, without what is
undefined in it and with its unsigned integers as integers. -/

namespace NixSource

namespace Value

mutual

/-- Whether a value is plain data, with no expression inside it. -/
def IsPlain : Value → Prop
  | undefined | null | bool _ | int _ | uint _ | float _ | string _ => True
  | array items => PlainItems items
  | object members => PlainMembers members
  | expr _ => False

def PlainItems : List Value → Prop
  | [] => True
  | v :: rest => v.IsPlain ∧ PlainItems rest

def PlainMembers : List (String × Value) → Prop
  | [] => True
  | (_, v) :: rest => v.IsPlain ∧ PlainMembers rest

end

mutual

/-- A value without the undefined elements and members of its containers, and with every unsigned
integer as an integer. -/
def pruned : Value → Value
  | undefined => undefined
  | null => null
  | bool b => bool b
  | int i => int i
  | uint n => int (Int64.ofInt n.toNat)
  | float x => float x
  | string s => string s
  | array items => array (prunedItems items)
  | object members => object (prunedMembers members)
  | expr e => expr e

def prunedItems : List Value → List Value
  | [] => []
  | v :: rest => if v.isUndefined then prunedItems rest else v.pruned :: prunedItems rest

def prunedMembers : List (String × Value) → List (String × Value)
  | [] => []
  | (name, v) :: rest =>
    if v.isUndefined then prunedMembers rest else (name, v.pruned) :: prunedMembers rest

end

def AllFinite (v : Value) : Prop :=
  ∀ steps x, Reaches v steps (float x) → x.isFinite = true

theorem allFinite_of_toExpr {v : Value} {limit : Nat} {e : Expr} (h : v.toExpr limit = .ok e) :
    v.AllFinite := by
  intro steps x hx
  have hnone := List.findSome?_eq_none_iff.mp (fault_and_image_of_toExpr h).1 _
    ((mem_positions_iff v steps _).mpr hx)
  by_contra hfinite
  simp [fault?, hfinite] at hnone

theorem isUndefined_eq_isNone_image {v : Value} (h : v.AllFinite) :
    v.isUndefined = v.image.isNone := by
  cases v with
  | float x =>
    have hx : x.isFinite = true := h [] x (.here _)
    simp [isUndefined, image, FiniteFloat.ofBinary64?, hx]
  | _ => rfl

end Value

/-- An expression whose tokens read as a value, in a list as well as on their own. -/
structure ReadsAs (e : Expr) (v : Value) : Prop where
  readable : e.Readable true
  atom : e.precedence = .atom
  reads : ∀ ts, readValue? (e.tokens ++ ts) = some (v, ts)

namespace ReadsAs

variable {e : Expr} {v : Value}

theorem ne_inherit (h : ReadsAs e v) (scope : Option String) : e ≠ .inherit scope := by
  rintro rfl
  exact h.readable

theorem encloseTokens_eq (h : ReadsAs e v) : e.encloseTokens .atom e.tokens = e.tokens := by
  simp [Expr.encloseTokens, h.atom, Precedence.rank]

theorem tokens_ne_nil (h : ReadsAs e v) : e.tokens ≠ [] := by
  intro hnil
  have hreads := h.reads []
  rw [hnil] at hreads
  simp [readValue?, readNumeral?] at hreads

end ReadsAs

theorem readValue?_numeral {ts ts' : List Token} {n : Numeral}
    (h : readNumeral? ts = some (n, ts')) : readValue? ts = some (n.value, ts') := by
  unfold readValue?
  rw [h]

theorem readItems?_cons {us ts : List Token} {v : Value} (hus : us ≠ [])
    (h : readValue? (us ++ ts) = some (v, ts)) :
    readItems? (us ++ ts) = (readItems? ts).map fun r => (v :: r.1, r.2) := by
  have hlt := length_lt_append hus ts
  rw [readItems?.eq_def]
  generalize us ++ ts = all at h hlt
  split
  · simp [readValue?, readNumeral?] at h
  · rw [h, leaving_some v hlt]
    cases hr : readItems? ts <;> simp [hr]

theorem readMembers?_cons {name : String} {us ts : List Token} {v : Value}
    (h : readValue? (us ++ .semicolon :: ts) = some (v, .semicolon :: ts)) :
    readMembers? (nameToken name :: .equals :: (us ++ .semicolon :: ts)) =
      (readMembers? ts).map fun r => ((name, v) :: r.1, r.2) := by
  have hbrace : nameToken name ≠ .closeBrace := by
    unfold nameToken
    split <;> simp
  rw [readMembers?.eq_def]
  split
  · next heq => exact absurd (List.cons.inj heq).1 hbrace
  · next heq =>
    cases heq
    rw [nameToken_attribute, h, leaving_append]
    simp only [Option.bind_eq_bind, Option.bind_some, expect_cons]
    cases readMembers? ts <;> simp
  · next hno => exact absurd rfl (hno _ _)

mutual

/-- The image of plain data reads as that data. -/
theorem readsAs_image : ∀ (v : Value), v.IsPlain → v.AllFinite → ∀ e, v.image = some e →
    ReadsAs e v.pruned
  | .undefined, _, _, _, h => nomatch h
  | .null, _, _, _, h => by
    cases h
    refine ⟨trivial, rfl, fun ts => ?_⟩
    simp [Expr.tokens, readValue?, readNumeral?, namedValue?]
    rfl
  | .bool true, _, _, _, h => by
    cases h
    refine ⟨trivial, rfl, fun ts => ?_⟩
    simp [Expr.tokens, readValue?, readNumeral?, namedValue?]
    rfl
  | .bool false, _, _, _, h => by
    cases h
    refine ⟨trivial, rfl, fun ts => ?_⟩
    simp [Expr.tokens, readValue?, readNumeral?, namedValue?]
    rfl
  | .int i, _, _, _, h => by
    cases h
    exact ⟨trivial, rfl, fun ts => readValue?_numeral (readNumeral?_integerTokens i ts)⟩
  | .uint n, _, _, _, h => by
    cases h
    exact ⟨trivial, rfl, fun ts => readValue?_numeral (readNumeral?_integerTokens _ ts)⟩
  | .float x, _, hfinite, _, h => by
    have hx : x.isFinite = true := hfinite [] x (.here _)
    simp only [Value.image, FiniteFloat.ofBinary64?, hx, dite_true, Option.map_some,
      Option.some.injEq] at h
    subst h
    exact ⟨trivial, rfl, fun ts => readValue?_numeral (readNumeral?_floatTokens _ ts)⟩
  | .string s, _, _, _, h => by
    cases h
    exact ⟨trivial, rfl, fun ts => by simp [Expr.tokens, readValue?, readNumeral?]; rfl⟩
  | .array items, hplain, hfinite, _, h => by
    cases h
    obtain ⟨hreadable, hreads⟩ := readItems?_image items hplain (by
      intro v hv steps x hx
      obtain ⟨i, hi⟩ := List.mem_iff_getElem?.mp hv
      exact hfinite _ x (.index hi hx))
    refine ⟨hreadable, rfl, fun ts => ?_⟩
    rw [Expr.tokens, List.cons_append, List.append_assoc, List.singleton_append, readValue?.eq_def]
    simp [readNumeral?, hreads, Value.pruned]
  | .object members, hplain, hfinite, _, h => by
    cases h
    obtain ⟨hreadable, hreads⟩ := readMembers?_image members hplain
      fun m hm steps x hx => hfinite _ x (.key hm hx)
    refine ⟨hreadable, rfl, fun ts => ?_⟩
    rw [Expr.tokens, List.cons_append, List.append_assoc, List.singleton_append, readValue?.eq_def]
    simp [readNumeral?, hreads, Value.pruned]
  | .expr e, hplain, _, _, _ => hplain.elim

theorem readItems?_image : ∀ (items : List Value), Value.PlainItems items →
    (∀ v ∈ items, v.AllFinite) →
    Expr.ReadableElements true (Value.imageItems items) ∧
      ∀ ts, readItems? ((Expr.elementsTokens (Value.imageItems items)).flatten ++
        .closeBracket :: ts) = some (Value.prunedItems items, ts)
  | [], _, _ => by
    refine ⟨trivial, fun ts => ?_⟩
    simp [Value.imageItems, Expr.elementsTokens, Value.prunedItems, readItems?]
  | v :: items, hplain, hfinite => by
    obtain ⟨hv, hitems⟩ := List.forall_mem_cons.mp hfinite
    obtain ⟨hreadable, hreads⟩ := readItems?_image items hplain.2 hitems
    have himage := readsAs_image v hplain.1 hv
    have hundefined := v.isUndefined_eq_isNone_image hv
    cases hi : v.image with
    | none =>
      rw [hi] at hundefined
      simpa [Value.imageItems, Value.prunedItems, hi, hundefined] using ⟨hreadable, hreads⟩
    | some e =>
      rw [hi] at hundefined
      have he := himage e hi
      refine ⟨by simpa [Value.imageItems, hi] using ⟨he.readable, hreadable⟩, fun ts => ?_⟩
      simp only [Value.imageItems, Value.prunedItems, hi, hundefined, Option.toList_some,
        List.singleton_append, Expr.elementsTokens, he.encloseTokens_eq, List.flatten_cons,
        List.append_assoc]
      rw [readItems?_cons he.tokens_ne_nil (he.reads _), hreads]
      rfl

theorem readMembers?_image : ∀ (members : List (String × Value)), Value.PlainMembers members →
    (∀ m ∈ members, m.2.AllFinite) →
    Expr.ReadableBindings true (Value.imageMembers members) ∧
      ∀ ts, readMembers? (Expr.bindingsTokens (Value.imageMembers members) ++
        .closeBrace :: ts) = some (Value.prunedMembers members, ts)
  | [], _, _ => by
    refine ⟨trivial, fun ts => ?_⟩
    simp [Value.imageMembers, Expr.bindingsTokens, Value.prunedMembers, readMembers?]
  | (name, v) :: members, hplain, hfinite => by
    obtain ⟨hv, hmembers⟩ := List.forall_mem_cons.mp hfinite
    obtain ⟨hreadable, hreads⟩ := readMembers?_image members hplain.2 hmembers
    have himage := readsAs_image v hplain.1 hv
    have hundefined := v.isUndefined_eq_isNone_image hv
    cases hi : v.image with
    | none =>
      rw [hi] at hundefined
      simpa [Value.imageMembers, Value.prunedMembers, hi, hundefined] using ⟨hreadable, hreads⟩
    | some e =>
      rw [hi] at hundefined
      have he := himage e hi
      refine ⟨?_, fun ts => ?_⟩
      · simpa [Value.imageMembers, hi] using
          (Expr.readableBindings_cons_iff name he.ne_inherit _).mpr ⟨he.readable, hreadable⟩
      · simp only [Value.imageMembers, Value.prunedMembers, hi, hundefined, Option.toList_some,
          List.map_cons, List.map_nil, List.nil_append, Expr.bindingsTokens,
          Expr.bindingTokens_of_ne_inherit name he.ne_inherit, List.cons_append, List.append_assoc]
        rw [readMembers?_cons (he.reads _), hreads]
        rfl

end

namespace Value

theorem ofText?_source {v : Value} {limit : Nat} {e : Expr} (hplain : v.IsPlain)
    (h : v.toExpr limit = .ok e) (level : Nat) (layout : Layout) :
    ofText? (e.source level layout) = some v.pruned := by
  have he := readsAs_image v hplain (allFinite_of_toExpr h) e (fault_and_image_of_toExpr h).2
  have hlex := e.lex_print layout level he.readable [] (e.ends_of_delimited (delimited_nil _))
  have hread := he.reads []
  rw [List.append_nil] at hlex hread
  simp [ofText?, Expr.source, hlex, prepend, hread]

/-- Data is read back from its source text exactly, whatever the depth limit, the layout and the
level, except for what is undefined in it. So data with the same source text is the same. -/
theorem ofText?_source_eq_pruned {v : Value} {limit : Nat} {e : Expr} (hplain : v.IsPlain)
    (h : v.toExpr limit = .ok e) (level : Nat) (layout : Layout) :
    ofText? (e.source level layout) = some v.pruned ∧
      ∀ (w : Value) (limit' : Nat) (e' : Expr) (level' : Nat) (layout' : Layout), w.IsPlain →
        w.toExpr limit' = .ok e' → e'.source level' layout' = e.source level layout →
        w.pruned = v.pruned := by
  have hv := ofText?_source hplain h level layout
  refine ⟨hv, fun w limit' e' level' layout' hw h' htext => ?_⟩
  have hw := ofText?_source hw h' level' layout'
  rw [htext, hv] at hw
  exact (Option.some.inj hw).symm

theorem ofText?_source_object :
    ∃ e, (object [("a b", array [undefined, uint 7]), ("c", undefined)]).toExpr 2 = .ok e ∧
      ofText? (e.source 1 {}) = some (object [("a b", array [int 7])]) := by
  have hplain : (object [("a b", array [undefined, uint 7]), ("c", undefined)]).IsPlain :=
    ⟨⟨trivial, trivial, trivial⟩, trivial, trivial⟩
  obtain ⟨e, he⟩ : ∃ e, (object [("a b", array [undefined, uint 7]), ("c", undefined)]).toExpr 2 =
      .ok e := ⟨_, rfl⟩
  exact ⟨e, he, (ofText?_source_eq_pruned hplain he 1 {}).1⟩

end Value

end NixSource
