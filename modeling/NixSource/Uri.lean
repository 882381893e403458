import NixSource.Text.Identifier
import NixSource.Text.StringLiteral

/-! URIs: texts that start with a scheme. Some of them can stand in source text without quotes. -/

namespace NixSource

/-- After its first letter a scheme holds letters, digits, plus signs, hyphens and points. -/
def isSchemeChar (c : Char) : Bool :=
  isLetter c || c.isDigit || c == '+' || c == '-' || c == '.'

/-- The marks, beside letters and digits, that a URI without quotes may hold. -/
def uriMarks : List Char :=
  ['%', '/', '?', ':', '@', '&', '=', '+', '$', ',', '-', '_', '.', '!', '~', '*', '\'']

def isUriChar (c : Char) : Bool :=
  isLetter c || c.isDigit || uriMarks.contains c

/-- What follows the scheme and its colon, if the text starts with those. -/
def afterScheme? : List Char → Option (List Char)
  | [] => none
  | c :: cs =>
    if isLetter c then
      match cs.dropWhile isSchemeChar with
      | ':' :: rest => some rest
      | _ => none
    else none

def startsWithScheme (s : String) : Bool :=
  (afterScheme? s.toList).isSome

structure Uri where
  text : String
  scheme : startsWithScheme text = true
deriving DecidableEq

namespace Uri

def ofString? (s : String) : Option Uri :=
  if h : startsWithScheme s = true then some ⟨s, h⟩ else none

/-- Whether the URI is one token of source text: something follows the scheme, and nothing that
would end the token. -/
def isBare (u : Uri) : Bool :=
  match afterScheme? u.text.toList with
  | some rest => !rest.isEmpty && rest.all isUriChar
  | none => false

/-- The URI in source text: bare where it can be, otherwise a string literal. -/
def literal (u : Uri) : List Char :=
  if u.isBare then u.text.toList else stringLiteral u.text

end Uri

end NixSource
