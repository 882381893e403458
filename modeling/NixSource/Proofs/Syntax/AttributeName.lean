import NixSource.Proofs.Bindings.Insertion
import NixSource.Proofs.Syntax.Grouping
import NixSource.Proofs.Text.StringLiteral

/-! Attribute names, read back in either notation. What is written for a name is read as that name,
so no two names are written alike, and the text of a set binds the names of the set, each of them
once. -/

namespace NixSource

/-! ### One name -/

/-- The attribute name that a text starts with, and the text behind it: a word as long as possible,
unless it is reserved, or a string literal without interpolations. -/
def readAttributeName : List Char → Reading String
  | [] => none
  | c :: cs =>
    if isIdentifierStart c then
      let word := String.ofList (c :: cs.takeWhile isIdentifierRest)
      if isReserved word then none else some (word, cs.dropWhile isIdentifierRest)
    else
      match readLiteral (c :: cs) with
      | .literal content rest => some (String.ofList content, rest)
      | _ => none

/-- What may come behind a name: a space, a semicolon, a point, a line end, or nothing more. -/
def EndsName (rest : List Char) : Prop :=
  ∀ c, rest.head? = some c → c ∈ [' ', ';', '.', '\n', '\r']

theorem EndsName.not_isIdentifierRest {rest : List Char} (h : EndsName rest) :
    ∀ c, rest.head? = some c → isIdentifierRest c = false := by
  intro c hc
  have hmem := h c hc
  simp only [List.mem_cons, List.not_mem_nil, or_false] at hmem
  obtain rfl | rfl | rfl | rfl | rfl := hmem <;> rfl

theorem readAttributeName_bare {name : String} (h : isBareName name = true) {rest : List Char}
    (hr : EndsName rest) : readAttributeName (name.toList ++ rest) = some (name, rest) := by
  obtain ⟨hid, hreserved⟩ := Bool.and_eq_true_iff.mp h
  cases hname : name.toList with
  | nil =>
    rw [hname] at hid
    cases hid
  | cons c cs =>
    obtain ⟨hc, hcs⟩ : isIdentifierStart c = true ∧ ∀ d ∈ cs, isIdentifierRest d = true := by
      simpa [isIdentifier, hname] using hid
    obtain ⟨htake, hdrop⟩ := takeWhile_dropWhile_append hcs hr.not_isIdentifierRest
    have hword : String.ofList (c :: cs) = name := by rw [← hname, String.ofList_toList]
    have hreserved : isReserved name = false := by simpa using hreserved
    simp [readAttributeName, hc, htake, hdrop, hword, hreserved]

theorem readAttributeName_quoted (name : String) (rest : List Char) :
    readAttributeName (stringLiteral name ++ rest) = some (name, rest) := by
  have hliteral := readLiteral_append name rest
  rw [stringLiteral, List.cons_append] at hliteral ⊢
  rw [readAttributeName, if_neg (by decide), hliteral]
  simp

theorem readAttributeName_append (name : String) {rest : List Char} (hr : EndsName rest) :
    readAttributeName (attributeName name ++ rest) = some (name, rest) := by
  unfold attributeName
  split
  · next h => exact readAttributeName_bare h hr
  · exact readAttributeName_quoted name rest

/-- A reader gives back the name, so no two names have the same text. -/
theorem attributeName_injective : Function.Injective attributeName := by
  intro name name' h
  have hends : EndsName [] := nofun
  have hread := readAttributeName_append name hends
  rw [h, readAttributeName_append name' hends] at hread
  exact (congrArg Prod.fst (Option.some.inj hread)).symm

theorem length_le_length_escape (cs : List Char) : cs.length ≤ (escape cs).length := by
  induction cs with
  | nil => exact Nat.le_refl 0
  | cons c cs ih =>
    obtain ⟨d, hc, -⟩ | ⟨hc, -⟩ := escape_cons_cases c cs <;> rw [hc] <;>
      simp only [List.length_cons] <;> omega

/-- A literal is longer than the text it stands for. -/
theorem attributeName_eq_self_iff (name : String) :
    attributeName name = name.toList ↔ isBareName name = true := by
  constructor
  · intro h
    by_contra hbare
    rw [attributeName, if_neg hbare, stringLiteral] at h
    have hlength := congrArg List.length h
    have hescape := length_le_length_escape name.toList
    rw [List.length_cons, List.length_append] at hlength
    omega
  · intro h
    rw [attributeName, if_pos h]

/-! ### The names of a set -/

/-- A text of bindings at `level`, read one after the other: each name is read where the language
has it, in front of an equals sign and the text of the value, or behind what an inherited binding
starts with. -/
inductive ReadsBindings (layout : Layout) (level : Nat) :
    List (String × Expr) → List Char → Prop where
  | nil : ReadsBindings layout level [] []
  | assigned {name : String} {value : Expr} {b : List (String × Expr)} {text more : List Char} :
      (∀ scope, value ≠ .inherit scope) →
      readAttributeName text = some (name,
        [' ', '=', ' '] ++ value.print layout level ++ ';' :: layout.newline.text ++ more) →
      ReadsBindings layout level b more →
      ReadsBindings layout level ((name, value) :: b) (layout.indent level ++ text)
  | inherited {name : String} {scope : Option String} {b : List (String × Expr)}
      {text more : List Char} :
      readAttributeName text = some (name, ';' :: layout.newline.text ++ more) →
      ReadsBindings layout level b more →
      ReadsBindings layout level ((name, .inherit scope) :: b)
        (layout.indent level ++ inheritText scope ++ ' ' :: text)

theorem readsBindings_printBindings (layout : Layout) (level : Nat) (b : List (String × Expr)) :
    ReadsBindings layout level b (Expr.printBindings layout level b) := by
  induction b with
  | nil => exact .nil
  | cons p b ih =>
    obtain ⟨name, value⟩ := p
    rw [Expr.printBindings]
    by_cases hinherit : ∃ scope, value = .inherit scope
    · obtain ⟨scope, rfl⟩ := hinherit
      have hends : EndsName (';' :: layout.newline.text ++ Expr.printBindings layout level b) := by
        rintro c ⟨⟩
        decide
      have hread : ReadsBindings layout level ((name, .inherit scope) :: b) _ :=
        .inherited (readAttributeName_append name hends) ih
      simpa [Expr.bindingText, Expr.print] using hread
    · have hne := not_exists.mp hinherit
      have hends : EndsName ([' ', '=', ' '] ++ value.print layout level ++
          ';' :: layout.newline.text ++ Expr.printBindings layout level b) := by
        rintro c ⟨⟩
        decide
      have hread := ReadsBindings.assigned hne (readAttributeName_append name hends) ih
      have htext : Expr.bindingText name value (value.print layout level) =
          attributeName name ++ [' ', '=', ' '] ++ value.print layout level := by
        cases value with
        | inherit scope => exact absurd rfl (hne scope)
        | _ => rfl
      rw [htext]
      simpa using hread

namespace Expr

theorem names_asReadBindings (b : List (String × Expr)) :
    Bindings.names (asReadBindings b) = Bindings.names b := by
  induction b with
  | nil => rfl
  | cons p b ih => rw [asReadBindings, Bindings.names_cons, Bindings.names_cons, ih]

/-- The parser, which knows nothing of the set, finds its names in the text. -/
theorem exists_ofText?_source_attrs {b : Bindings Expr} (hr : (attrs b).Readable true) (level : Nat)
    (layout : Layout) :
    ∃ c, ofText? ((attrs b).source level layout) = some (attrs c) ∧ Bindings.names c = b.names :=
  ⟨asReadBindings b, by rw [ofText?_source hr, asRead], names_asReadBindings b⟩

end Expr

/-- What is written for a name is read as that name, whatever ends it, and is the name itself
exactly if it is an identifier that is not reserved; so no two names are written alike. The text of
a set that was made of `entries` binds each of their names once, in the order in which they come
first, and the parser reads these names from it where it can read the values. -/
theorem readAttributeName_attributeName (name : String) {rest : List Char} (hr : EndsName rest)
    (entries : List (String × Expr)) (layout : Layout) (level : Nat) :
    readAttributeName (attributeName name ++ rest) = some (name, rest) ∧
      (attributeName name = name.toList ↔ isBareName name = true) ∧
      Function.Injective attributeName ∧
      ReadsBindings layout level (Bindings.ofList entries)
        (Expr.printBindings layout level (Bindings.ofList entries)) ∧
      (Bindings.ofList entries).names = (entries.map Prod.fst).eraseDups ∧
      (Bindings.ofList entries).names.Nodup ∧
      ((Expr.attrs (Bindings.ofList entries)).Readable true →
        ∃ c, Expr.ofText? ((Expr.attrs (Bindings.ofList entries)).source level layout) =
            some (.attrs c) ∧
          Bindings.names c = (Bindings.ofList entries).names) :=
  ⟨readAttributeName_append name hr, attributeName_eq_self_iff name, attributeName_injective,
    readsBindings_printBindings layout level _, Bindings.names_ofList entries,
    Bindings.nodup_names_ofList entries,
    fun hreadable => Expr.exists_ofText?_source_attrs hreadable level layout⟩

/-- A reserved word is bound again and keeps its place, in front of a name with a line end. -/
theorem readAttributeName_attributeName_reserved :
    EndsName [';'] ∧
      readAttributeName (attributeName "if" ++ [';']) = some ("if", [';']) ∧
      (Expr.attrs (Bindings.ofList
        [("if", .int 1), ("a\n", .int 2), ("if", .null)])).Readable true ∧
      ∃ c, Expr.ofText? ((Expr.attrs (Bindings.ofList
          [("if", .int 1), ("a\n", .int 2), ("if", .null)])).source 0 {}) = some (.attrs c) ∧
        Bindings.names c = ["if", "a\n"] := by
  have hends : EndsName [';'] := by
    rintro c ⟨⟩
    decide
  have hreadable : (Expr.attrs (Bindings.ofList
      [("if", .int 1), ("a\n", .int 2), ("if", .null)])).Readable true :=
    ⟨trivial, trivial, trivial⟩
  obtain ⟨hread, -, -, -, -, -, hparse⟩ := readAttributeName_attributeName "if" hends
    [("if", .int 1), ("a\n", .int 2), ("if", .null)] {} 0
  exact ⟨hends, hread, hreadable, hparse hreadable⟩

end NixSource
