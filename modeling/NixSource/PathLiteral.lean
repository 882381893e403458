import NixSource.Text.Identifier

/-! Path literals: search paths such as `<nixpkgs/lib>`, and segments below the root, the home
directory, or the current or the enclosing directory. -/

namespace NixSource

def isPathChar (c : Char) : Bool :=
  isLetter c || c.isDigit || c == '.' || c == '_' || c == '+' || c == '-'

/-- A segment is not empty and holds path characters only. -/
def isSegment (cs : List Char) : Bool :=
  !cs.isEmpty && cs.all isPathChar

/-- Where a path may start: at the root, here, in the enclosing directory, or at home. -/
def pathAnchors : List (List Char) :=
  [[], ['.'], ['.', '.'], ['~']]

/-- Whether the text up to its first slash is an anchor. -/
def isAnchored (cs : List Char) : Bool :=
  match cs.splitOn '/' with
  | anchor :: _ :: _ => pathAnchors.contains anchor
  | _ => false

/-- An anchor and then one or more segments, a slash before each. -/
def isAnchoredPath (cs : List Char) : Bool :=
  isAnchored cs && (cs.splitOn '/').tail.all isSegment

/-- One or more segments between angle brackets, with slashes between them. -/
def isSearchPath : List Char → Bool
  | '<' :: cs => cs.getLast? == some '>' && (cs.dropLast.splitOn '/').all isSegment
  | _ => false

def isPathLiteral (s : String) : Bool :=
  isSearchPath s.toList || isAnchoredPath s.toList

/-- A text with nothing that anchors it is taken from the current directory. -/
def anchorPath (s : String) : String :=
  if isSearchPath s.toList || isAnchored s.toList then s
  else String.ofList ('.' :: '/' :: s.toList)

structure PathLiteral where
  text : String
  valid : isPathLiteral text = true
deriving DecidableEq

/-- The path that `s` names, after anchoring, if that is a path literal. -/
def PathLiteral.ofString? (s : String) : Option PathLiteral :=
  if h : isPathLiteral (anchorPath s) = true then some ⟨anchorPath s, h⟩ else none

end NixSource
