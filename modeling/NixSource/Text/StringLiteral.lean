import NixSource.Text.Identifier

/-! Double-quoted string literals, and attribute names, which are identifiers or such literals. -/

namespace NixSource

/-- The text of `c` inside a literal when `next` follows it. A dollar sign is escaped only before an
opening brace, where it would start an interpolation. -/
def escapeChar (c : Char) (next : Option Char) : List Char :=
  match c with
  | '"' => ['\\', '"']
  | '\\' => ['\\', '\\']
  | '\n' => ['\\', 'n']
  | '\r' => ['\\', 'r']
  | '\t' => ['\\', 't']
  | '$' => if next = some '{' then ['\\', '$'] else ['$']
  | c => [c]

/-- The content of a literal, with every character escaped that would end it, break its line or
start an interpolation. -/
def escape : List Char → List Char
  | [] => []
  | c :: cs => escapeChar c cs.head? ++ escape cs

/-- An escaped character is on one line, as no carriage return or line feed is left as it is. -/
theorem line_end_not_mem_escapeChar (c : Char) (next : Option Char) :
    '\n' ∉ escapeChar c next ∧ '\r' ∉ escapeChar c next := by
  unfold escapeChar
  split
  · decide
  · decide
  · decide
  · decide
  · decide
  · split <;> decide
  · next hn hr _ _ =>
    constructor
    · simpa using fun h => hn h.symm
    · simpa using fun h => hr h.symm

theorem line_end_not_mem_escape (cs : List Char) : '\n' ∉ escape cs ∧ '\r' ∉ escape cs := by
  induction cs with
  | nil => simp [escape]
  | cons c cs ih =>
    have h := line_end_not_mem_escapeChar c cs.head?
    simp [escape, h, ih]

/-- The literal that stands for `s`. -/
def stringLiteral (s : String) : List Char :=
  '"' :: (escape s.toList ++ ['"'])

/-- An attribute name: bare where that is possible, otherwise a string literal. -/
def attributeName (s : String) : List Char :=
  if isBareName s then s.toList else stringLiteral s

end NixSource
