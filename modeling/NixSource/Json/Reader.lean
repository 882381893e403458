import NixSource.Json.Basic
import NixSource.Binary.Scaled

/-! Reading JSON text. Every refusal says what was wrong and at which byte the reader stood. -/

namespace NixSource

/-- What is wrong with a text that is no JSON document. -/
inductive JsonFault where
  | endInValue
  | endInList
  | endInObject
  | endInString
  | expectedValue
  | expectedWord
  | expectedColon
  | expectedListEnd
  | expectedObjectEnd
  | keyNotString
  | trailingComma
  | trailingCharacters
  | invalidNumber
  | numberOutOfRange
  | invalidEscape
  | controlCharacter
  | loneSurrogate
  | unfinishedPair
  | tooDeep
deriving DecidableEq

def JsonFault.message : JsonFault → String
  | endInValue => "EOF while parsing a value"
  | endInList => "EOF while parsing a list"
  | endInObject => "EOF while parsing an object"
  | endInString => "EOF while parsing a string"
  | expectedValue => "expected value"
  | expectedWord => "expected ident"
  | expectedColon => "expected `:`"
  | expectedListEnd => "expected `,` or `]`"
  | expectedObjectEnd => "expected `,` or `\x7d`"
  | keyNotString => "key must be a string"
  | trailingComma => "trailing comma"
  | trailingCharacters => "trailing characters"
  | invalidNumber => "invalid number"
  | numberOutOfRange => "number out of range"
  | invalidEscape => "invalid escape"
  | controlCharacter => "control character (\\u0000-\\u001F) found while parsing a string"
  | loneSurrogate => "lone leading surrogate in hex escape"
  | unfinishedPair => "unexpected end of hex escape"
  | tooDeep => "recursion limit exceeded"

/-- A refusal: the fault, the text not yet read, and how many of its bytes were looked at. -/
structure Refusal where
  fault : JsonFault
  unread : List Char
  ahead : Nat

/-- A refusal, with the position up to which the text was looked at: the line, and the bytes of it
that were. -/
structure JsonError where
  fault : JsonFault
  line : Nat
  column : Nat
deriving DecidableEq

def JsonError.message (e : JsonError) : String :=
  e.fault.message ++ " at line " ++ String.ofList (decimalText e.line) ++ " column " ++
    String.ofList (decimalText e.column)

def utf8 (cs : List Char) : List UInt8 :=
  cs.flatMap String.utf8EncodeChar

/-- The position of a refusal in the whole text. No more bytes are looked at than there are. -/
def Refusal.locate (text : List Char) (r : Refusal) : JsonError :=
  let all := utf8 text
  let seen := all.take (all.length - (utf8 r.unread).length + r.ahead)
  ⟨r.fault, 1 + seen.count 10, (seen.reverse.takeWhile (· != 10)).length⟩

namespace Json

def refuse {α : Type} (fault : JsonFault) (unread : List Char) (ahead : Nat) : Except Refusal α :=
  .error ⟨fault, unread, ahead⟩

def isSpace (c : Char) : Bool :=
  c == ' ' || c == '\n' || c == '\t' || c == '\r'

def skipSpace (cs : List Char) : List Char :=
  cs.dropWhile isSpace

/-- The text after `word`, which has to come next. -/
def readWord : List Char → List Char → Except Refusal (List Char)
  | [], cs => .ok cs
  | _ :: _, [] => refuse .endInValue [] 0
  | w :: word, c :: cs => if w = c then readWord word cs else refuse .expectedWord (c :: cs) 1

/-! Numbers -/

/-- One more than the largest number that the digits of a float are gathered to. -/
def gatherBound : Nat := 18446744073709551616

/-- The number that `n` and the digits after it write, and how many of them it takes in: the digits
up to the first with which it would reach the bound. -/
def gather (n : Nat) : List Char → Nat × Nat
  | [] => (n, 0)
  | d :: ds =>
    let next := 10 * n + digitValue d
    if next < gatherBound then
      let (value, taken) := gather next ds
      (value, taken + 1)
    else (n, 0)

/-- The decimal that is made of the digits before and after the point. Digits before it that are not
taken in count as places, and so the digits after it may move up; those after it that are not taken
in are dropped. -/
def gatherDecimal (whole places : List Char) : Decimal :=
  let (n, taken) := gather 0 whole
  let (n, more) := gather n places
  ⟨n, ((whole.length - taken : Nat) : Int) - (more : Int)⟩

/-- The float that a decimal is scaled to. Past the largest one there is none. -/
def readFloat (negative : Bool) (d : Decimal) (rest : List Char) :
    Except Refusal (JsonNumber × List Char) :=
  match FiniteFloat.ofBinary64? (.scaled negative d) with
  | some x => .ok (.float x, rest)
  | none => refuse .numberOutOfRange rest 0

/-- The largest exponent that is read to its end. -/
def exponentBound : Nat := 2147483647

/-- The digits of an exponent up to the one with which it passes the bound. -/
def overlongExponent (value : Nat) : List Char → List Char
  | [] => []
  | d :: ds =>
    let value := 10 * value + digitValue d
    if exponentBound < value then ds else overlongExponent value ds

/-- What follows the mark of an exponent. An exponent past the bound makes zero, or is refused at
once if it would make a large number. -/
def readExponent (negative : Bool) (d : Decimal) (cs : List Char) :
    Except Refusal (JsonNumber × List Char) :=
  let signed : Bool × List Char :=
    match cs with
    | '+' :: rest => (false, rest)
    | '-' :: rest => (true, rest)
    | _ => (false, cs)
  let ds := signed.2.takeWhile Char.isDigit
  let rest := signed.2.dropWhile Char.isDigit
  if ds.isEmpty then
    match rest with
    | [] => refuse .endInValue [] 0
    | _ => refuse .invalidNumber rest 1
  else
    let e := digitsValue ds
    if exponentBound < e then
      if d.digits ≠ 0 && !signed.1 then
        refuse .numberOutOfRange (overlongExponent 0 ds ++ rest) 0
      else readFloat negative ⟨0, 0⟩ rest
    else readFloat negative ⟨d.digits, if signed.1 then d.exponent - e else d.exponent + e⟩ rest

/-- A number without point and exponent. A negative zero is a float, for an integer has no such
sign, and so is what no integer of 64 bits can hold. -/
def readInteger (negative : Bool) (whole : List Char) (rest : List Char) :
    Except Refusal (JsonNumber × List Char) :=
  let n := digitsValue whole
  if negative then
    if 0 < n && n ≤ 9223372036854775808 then .ok (.negative (Int64.ofInt (-(n : Int))), rest)
    else readFloat true (gatherDecimal whole []) rest
  else if n < 18446744073709551616 then .ok (.natural (UInt64.ofNat n), rest)
  else readFloat false (gatherDecimal whole []) rest

/-- What follows the integer part of a number, whose digits are `whole`. -/
def readTail (negative : Bool) (whole : List Char) (cs : List Char) :
    Except Refusal (JsonNumber × List Char) :=
  match cs with
  | '.' :: rest =>
    let places := rest.takeWhile Char.isDigit
    let rest := rest.dropWhile Char.isDigit
    if places.isEmpty then
      refuse (if rest.isEmpty then .endInValue else .invalidNumber) rest 1
    else
      let d := gatherDecimal whole places
      match rest with
      | 'e' :: rest => readExponent negative d rest
      | 'E' :: rest => readExponent negative d rest
      | _ => readFloat negative d rest
  | 'e' :: rest => readExponent negative (gatherDecimal whole []) rest
  | 'E' :: rest => readExponent negative (gatherDecimal whole []) rest
  | _ => readInteger negative whole cs

/-- A number after its sign. A zero in front of other digits is refused. -/
def readNumber (negative : Bool) (cs : List Char) : Except Refusal (JsonNumber × List Char) :=
  match cs with
  | [] => refuse .endInValue [] 0
  | '0' :: rest =>
    if (rest.takeWhile Char.isDigit).isEmpty then readTail negative ['0'] rest
    else refuse .invalidNumber rest 1
  | c :: rest =>
    if c.isDigit then
      readTail negative (c :: rest.takeWhile Char.isDigit) (rest.dropWhile Char.isDigit)
    else refuse .invalidNumber cs 1

/-! Strings -/

def hexValue? (c : Char) : Option Nat :=
  if '0' ≤ c && c ≤ '9' then some (c.toNat - 48)
  else if 'a' ≤ c && c ≤ 'f' then some (c.toNat - 87)
  else if 'A' ≤ c && c ≤ 'F' then some (c.toNat - 55)
  else none

/-- The number that four hexadecimal digits write. Four bytes are taken whatever they are, or all if
there are fewer. -/
def readUnit (cs : List Char) : Except Refusal (Nat × List Char) :=
  match cs with
  | a :: b :: c :: d :: rest =>
    match hexValue? a, hexValue? b, hexValue? c, hexValue? d with
    | some a, some b, some c, some d => .ok (((a * 16 + b) * 16 + c) * 16 + d, rest)
    | _, _, _, _ => refuse .invalidEscape cs 4
  | _ => if (utf8 cs).length < 4 then refuse .endInString [] 0 else refuse .invalidEscape cs 4

/-- The first units of characters that are written as a pair of units. -/
def isLeading (n : Nat) : Bool :=
  0xD800 ≤ n && n ≤ 0xDBFF

def isTrailing (n : Nat) : Bool :=
  0xDC00 ≤ n && n ≤ 0xDFFF

/-- The second unit of a pair, in an escape of its own. -/
def readTrailing (leading : Nat) (cs : List Char) : Except Refusal (Char × List Char) :=
  match cs with
  | [] => refuse .endInString [] 0
  | '\\' :: [] => refuse .endInString [] 0
  | '\\' :: 'u' :: rest => do
    let (n, rest) ← readUnit rest
    if isTrailing n then
      .ok (Char.ofNat (0x10000 + (leading - 0xD800) * 1024 + (n - 0xDC00)), rest)
    else refuse .loneSurrogate rest 0
  | '\\' :: rest => refuse .unfinishedPair rest 1
  | _ => refuse .unfinishedPair cs 1

/-- The character that an escape writes, after its backslash. -/
def readEscape (cs : List Char) : Except Refusal (Char × List Char) :=
  match cs with
  | [] => refuse .endInString [] 0
  | '"' :: rest => .ok ('"', rest)
  | '\\' :: rest => .ok ('\\', rest)
  | '/' :: rest => .ok ('/', rest)
  | 'b' :: rest => .ok ('\x08', rest)
  | 'f' :: rest => .ok ('\x0c', rest)
  | 'n' :: rest => .ok ('\n', rest)
  | 'r' :: rest => .ok ('\r', rest)
  | 't' :: rest => .ok ('\t', rest)
  | 'u' :: rest => do
    let (n, rest) ← readUnit rest
    if isTrailing n then refuse .loneSurrogate rest 0
    else if isLeading n then readTrailing n rest
    else .ok (Char.ofNat n, rest)
  | _ => refuse .invalidEscape cs 1

/-- The rest of a string up to its closing quote. Every step takes a character, so the length of the
text is fuel enough. -/
def readChars : Nat → List Char → Except Refusal (List Char × List Char)
  | 0, _ => refuse .endInString [] 0
  | fuel + 1, cs =>
    match cs with
    | [] => refuse .endInString [] 0
    | '"' :: rest => .ok ([], rest)
    | '\\' :: rest => do
      let (c, rest) ← readEscape rest
      let (s, rest) ← readChars fuel rest
      .ok (c :: s, rest)
    | c :: rest =>
      if c.toNat < 32 then refuse .controlCharacter cs 1
      else do
        let (s, rest) ← readChars fuel rest
        .ok (c :: s, rest)

def readString (cs : List Char) : Except Refusal (String × List Char) := do
  let (s, rest) ← readChars (cs.length + 1) cs
  .ok (String.ofList s, rest)

/-! Arrays and objects -/

/-- What comes next in an array or object: its end, or another part, with the text after the one and
from the other on. -/
inductive Next where
  | done (rest : List Char)
  | more (cs : List Char)

/-- What comes next in an array. Elements after the first have a comma before them. -/
def nextElement (first : Bool) (cs : List Char) : Except Refusal Next :=
  match skipSpace cs with
  | [] => refuse .endInList [] 0
  | ']' :: rest => .ok (.done rest)
  | c :: rest =>
    if first then .ok (.more (c :: rest))
    else if c = ',' then
      match skipSpace rest with
      | [] => refuse .endInValue [] 0
      | ']' :: rest => refuse .trailingComma (']' :: rest) 1
      | rest => .ok (.more rest)
    else refuse .expectedListEnd (c :: rest) 1

/-- The text of a key, which has to come next, after its opening quote. -/
def keyStart (cs : List Char) : Except Refusal Next :=
  match cs with
  | '"' :: rest => .ok (.more rest)
  | _ => refuse .keyNotString cs 1

/-- What comes next in an object. Members after the first have a comma before them. -/
def nextMember (first : Bool) (cs : List Char) : Except Refusal Next :=
  match skipSpace cs with
  | [] => refuse .endInObject [] 0
  | '}' :: rest => .ok (.done rest)
  | c :: rest =>
    if first then keyStart (c :: rest)
    else if c = ',' then
      match skipSpace rest with
      | [] => refuse .endInValue [] 0
      | '}' :: rest => refuse .trailingComma ('}' :: rest) 1
      | rest => keyStart rest
    else refuse .expectedObjectEnd (c :: rest) 1

def readColon (cs : List Char) : Except Refusal (List Char) :=
  match skipSpace cs with
  | [] => refuse .endInObject [] 0
  | ':' :: rest => .ok rest
  | rest => refuse .expectedColon rest 1

mutual

/-- A document, inside which arrays and objects may be nested in fewer than `depth` others. -/
def readValue : Nat → Nat → List Char → Except Refusal (Json × List Char)
  | 0, _, _ => refuse .endInValue [] 0
  | fuel + 1, depth, cs =>
    match skipSpace cs with
    | [] => refuse .endInValue [] 0
    | 'n' :: rest => do .ok (.null, ← readWord ['u', 'l', 'l'] rest)
    | 't' :: rest => do .ok (.bool true, ← readWord ['r', 'u', 'e'] rest)
    | 'f' :: rest => do .ok (.bool false, ← readWord ['a', 'l', 's', 'e'] rest)
    | '"' :: rest => do
      let (s, rest) ← readString rest
      .ok (.string s, rest)
    | '-' :: rest => do
      let (n, rest) ← readNumber true rest
      .ok (.number n, rest)
    | '[' :: rest =>
      match depth with
      | 0 => refuse .tooDeep ('[' :: rest) 1
      | depth + 1 => do
        let (items, rest) ← readElements fuel depth true rest
        .ok (.array items, rest)
    | '{' :: rest =>
      match depth with
      | 0 => refuse .tooDeep ('{' :: rest) 1
      | depth + 1 => do
        let (members, rest) ← readMembers fuel depth true rest
        .ok (.object (Bindings.ofList members), rest)
    | c :: rest =>
      if c.isDigit then do
        let (n, rest) ← readNumber false (c :: rest)
        .ok (.number n, rest)
      else refuse .expectedValue (c :: rest) 1

def readElements : Nat → Nat → Bool → List Char → Except Refusal (List Json × List Char)
  | 0, _, _, _ => refuse .endInList [] 0
  | fuel + 1, depth, first, cs => do
    match ← nextElement first cs with
    | .done rest => .ok ([], rest)
    | .more cs =>
      let (j, rest) ← readValue fuel depth cs
      let (items, rest) ← readElements fuel depth false rest
      .ok (j :: items, rest)

def readMembers :
    Nat → Nat → Bool → List Char → Except Refusal (List (String × Json) × List Char)
  | 0, _, _, _ => refuse .endInObject [] 0
  | fuel + 1, depth, first, cs => do
    match ← nextMember first cs with
    | .done rest => .ok ([], rest)
    | .more cs =>
      let (key, rest) ← readString cs
      let rest ← readColon rest
      let (j, rest) ← readValue fuel depth rest
      let (members, rest) ← readMembers fuel depth false rest
      .ok ((key, j) :: members, rest)

end

/-- Arrays and objects nest to this depth. -/
def nestingLimit : Nat := 127

/-- The document that is the whole of a text. Each character is passed in two steps at most, which
bounds the fuel. -/
def readAll (cs : List Char) : Except Refusal Json := do
  let (j, rest) ← readValue (2 * cs.length + 2) nestingLimit cs
  match skipSpace rest with
  | [] => .ok j
  | rest => refuse .trailingCharacters rest 1

/-- The document that `text` is. A key that is repeated in an object keeps its first place and its
last value. -/
def read (text : String) : Except JsonError Json :=
  (readAll text.toList).mapError (Refusal.locate text.toList)

end Json

end NixSource
