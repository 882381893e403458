/-! Identifiers: the ASCII words that stand unquoted as attribute and argument names, and the
reserved words that look like one but may not. -/

namespace NixSource

/-- The words that are always quoted as attribute names, in ascending order. `import` is no keyword
of the language, but a set that binds it bare would shadow the builtin. -/
def reservedWords : List String :=
  ["assert", "else", "if", "import", "in", "inherit", "let", "or", "rec", "then", "with"]

/-- The table is in strictly ascending order, so a search that halves it finds a word exactly if the
word is a member. -/
theorem pairwise_lt_reservedWords : reservedWords.Pairwise (· < ·) := by
  decide

def isReserved (s : String) : Bool :=
  reservedWords.contains s

def isLetter (c : Char) : Bool :=
  c.isAlpha

/-- An identifier starts with an ASCII letter or an underscore. -/
def isIdentifierStart (c : Char) : Bool :=
  isLetter c || c == '_'

/-- After its first character an identifier also holds digits, apostrophes and hyphens. -/
def isIdentifierRest (c : Char) : Bool :=
  isIdentifierStart c || c.isDigit || c == '\'' || c == '-'

/-- Whether the characters form an identifier, reserved or not. -/
def isIdentifier : List Char → Bool
  | [] => false
  | c :: cs => isIdentifierStart c && cs.all isIdentifierRest

/-- Whether `s` may stand as a name without quotes: an identifier that is not reserved. -/
def isBareName (s : String) : Bool :=
  isIdentifier s.toList && !isReserved s

end NixSource
