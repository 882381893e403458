import NixSource.Value
import NixSource.Proofs.Syntax.Numeral

/-! A reader of data: the values that literals, sets and lists of source text write. Names are bound
to nothing, nothing is computed, and a string with an interpolation is no literal. -/

namespace NixSource

def Numeral.value : Numeral → Value
  | int i => .int i
  | float x => .float x.value

def namedValue? (name : String) : Option Value :=
  if name = "null" then some .null
  else if name = "true" then some (.bool true)
  else if name = "false" then some (.bool false)
  else none

mutual

/-- The value that tokens start with, and the tokens behind it. -/
def readValue? (ts : List Token) : Option (Value × List Token) :=
  match readNumeral? ts with
  | some (n, ts) => some (n.value, ts)
  | none =>
    match ts with
    | .name s :: ts => (namedValue? s).map (·, ts)
    | .string s :: ts => some (.string s, ts)
    | .openBracket :: ts => do
      let (items, ts) ← readItems? ts
      return (.array items, ts)
    | .openBrace :: ts => do
      let (members, ts) ← readMembers? ts
      return (.object members, ts)
    | _ => none
termination_by 2 * ts.length

def readItems? (ts : List Token) : Option (List Value × List Token) :=
  match ts with
  | .closeBracket :: ts => some ([], ts)
  | ts => do
    let (v, ⟨ts, _⟩) ← leaving ts.length (readValue? ts)
    let (items, ts) ← readItems? ts
    return (v :: items, ts)
termination_by 2 * ts.length + 1

/-- The members of a set up to its closing brace, each with an equals sign before its value and a
semicolon behind it. -/
def readMembers? (ts : List Token) : Option (List (String × Value) × List Token) :=
  match ts with
  | .closeBrace :: ts => some ([], ts)
  | t :: .equals :: ts => do
    let name ← t.attribute?
    let (v, ⟨ts, _⟩) ← leaving (ts.length + 1) (readValue? ts)
    let ⟨ts, _⟩ ← expect .semicolon ts
    let (members, ts) ← readMembers? ts
    return ((name, v) :: members, ts)
  | _ => none
termination_by 2 * ts.length + 1

end

/-- The value that a whole text writes. -/
def Value.ofText? (text : String) : Option Value := do
  let ts ← lex text.toList
  match ← readValue? ts with
  | (v, []) => some v
  | _ => none

end NixSource
