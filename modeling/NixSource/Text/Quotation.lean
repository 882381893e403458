import NixSource.Text.Numeral
import NixSource.Text.Printable

/-! Quotation of a text in a message: between double quotes, with everything a reader could not see
or could mistake written as an escape. -/

namespace NixSource

/-- A character as a quoted text shows it. Characters that are not printable appear as their code
point in hexadecimal. -/
def quotedChar (c : Char) : List Char :=
  match c with
  | '"' => ['\\', '"']
  | '\\' => ['\\', '\\']
  | '\n' => ['\\', 'n']
  | '\r' => ['\\', 'r']
  | '\t' => ['\\', 't']
  | '\x00' => ['\\', '0']
  | c => if isPrintable c then [c] else ['\\', 'u', '{'] ++ hexText c.toNat ++ ['}']

/-- `s` as a message quotes it. -/
def quotation (s : String) : String :=
  String.ofList ('"' :: (s.toList.flatMap quotedChar ++ ['"']))

end NixSource
