import NixSource.PathLiteral
import NixSource.Uri
import NixSource.Binary.Decimal

/-! The lexical rules of the language: how source text divides into tokens. A token is the longest
that the text starts with. URIs are tried first, then paths, then the others, and so the first that
is found is the longest: a URI goes on past the end of every other token, a path past the end of a
word, a number or a sign. -/

namespace NixSource

/-- The words with a meaning of their own. -/
inductive Keyword where
  | assertWord
  | elseWord
  | ifWord
  | importWord
  | inWord
  | inheritWord
  | letWord
  | orWord
  | recWord
  | thenWord
  | withWord
deriving DecidableEq, Repr

def keywords : List (String × Keyword) :=
  [("assert", .assertWord), ("else", .elseWord), ("if", .ifWord), ("import", .importWord),
    ("in", .inWord), ("inherit", .inheritWord), ("let", .letWord), ("or", .orWord),
    ("rec", .recWord), ("then", .thenWord), ("with", .withWord)]

/-- A smallest part of source text that means something. Strings are read, names, URIs and paths
stand as they are. -/
inductive Token where
  | keyword (k : Keyword)
  | name (s : String)
  | integer (n : Nat)
  | decimal (d : Decimal)
  | string (s : String)
  | uri (s : String)
  | path (s : String)
  | openParen
  | closeParen
  | openBracket
  | closeBracket
  | openBrace
  | closeBrace
  | semicolon
  | colon
  | comma
  | dot
  | equals
  | question
  | minus
  | update
  | ellipsis
deriving DecidableEq, Repr

/-- The name that a token can give an attribute. -/
def Token.attribute? : Token → Option String
  | name s => some s
  | string s => some s
  | _ => none

def isBlank (c : Char) : Bool :=
  c == ' ' || c == '\t' || c == '\n' || c == '\r'

/-- A text read from the start of another, and what is left of that. -/
abbrev Reading (α : Type) := Option (α × List Char)

/-- A scheme, a colon and at least one character of a URI. -/
def readUri? : List Char → Reading (List Char)
  | [] => none
  | c :: cs =>
    if isLetter c then
      match cs.dropWhile isSchemeChar with
      | ':' :: rest =>
        if (rest.takeWhile isUriChar).isEmpty then none
        else some (c :: (cs.takeWhile isSchemeChar ++ ':' :: rest.takeWhile isUriChar),
          rest.dropWhile isUriChar)
      | _ => none
    else none

/-- The longest run of path characters and of slashes with a path character behind them. -/
def pathRun : List Char → List Char × List Char
  | [] => ([], [])
  | c :: cs =>
    if isPathChar c || (c == '/' && cs.head?.any isPathChar) then
      (c :: (pathRun cs).1, (pathRun cs).2)
    else ([], c :: cs)

/-- A path: a search path in angle brackets, one that starts at home, or any other run with a slash
in it. -/
def readPath? : List Char → Reading (List Char)
  | '<' :: cs =>
    match pathRun cs with
    | (c :: run, '>' :: rest) => if c = '/' then none else some ('<' :: c :: run ++ ['>'], rest)
    | _ => none
  | '~' :: cs =>
    match pathRun cs with
    | ('/' :: run, rest) => some ('~' :: '/' :: run, rest)
    | _ => none
  | cs => if (pathRun cs).1.contains '/' then some (pathRun cs) else none

def unescape : Char → Char
  | 'n' => '\n'
  | 'r' => '\r'
  | 't' => '\t'
  | c => c

/-- The content of a string literal after its opening quote, up to the closing one. A dollar sign
takes the character behind it along, unless that is a quote or a backslash; `dollar` tells that one
is waiting for the character that comes next. An opening brace there would start an interpolation.
Line ends in the source are line feeds in the content. -/
def readContent (dollar : Bool) : List Char → Reading (List Char)
  | [] => none
  | '"' :: cs => some ([], cs)
  | ['\\'] => none
  | '\\' :: c :: cs => (readContent false cs).map fun r => (unescape c :: r.1, r.2)
  | '\r' :: '\n' :: cs => (readContent false cs).map fun r => ('\n' :: r.1, r.2)
  | '\r' :: cs => (readContent false cs).map fun r => ('\n' :: r.1, r.2)
  | c :: cs =>
    if dollar && c == '{' then none
    else (readContent (c == '$' && !dollar) cs).map fun r => (c :: r.1, r.2)

/-- A number from its first digit on. It is an integer unless a point follows its digits. -/
def readNumber (cs : List Char) : Token × List Char :=
  match cs.dropWhile Char.isDigit with
  | '.' :: rest =>
    (.decimal ⟨digitsValue (cs.takeWhile Char.isDigit ++ rest.takeWhile Char.isDigit),
      -((rest.takeWhile Char.isDigit).length : Int)⟩, rest.dropWhile Char.isDigit)
  | rest => (.integer (digitsValue (cs.takeWhile Char.isDigit)), rest)

/-- A word is a keyword or a name. -/
def wordToken (s : String) : Token :=
  match keywords.lookup s with
  | some k => .keyword k
  | none => .name s

/-- A token of one character. -/
def sign? : Char → Option Token
  | '(' => some .openParen
  | ')' => some .closeParen
  | '[' => some .openBracket
  | ']' => some .closeBracket
  | '{' => some .openBrace
  | '}' => some .closeBrace
  | ';' => some .semicolon
  | ':' => some .colon
  | ',' => some .comma
  | '.' => some .dot
  | '=' => some .equals
  | '?' => some .question
  | '-' => some .minus
  | _ => none

/-- A token that is neither a URI nor a path. -/
def plainToken? : List Char → Reading Token
  | [] => none
  | '"' :: cs => (readContent false cs).map fun r => (.string (String.ofList r.1), r.2)
  | '.' :: '.' :: '.' :: cs => some (.ellipsis, cs)
  | '/' :: '/' :: cs => some (.update, cs)
  | c :: cs =>
    if isIdentifierStart c then
      some (wordToken (String.ofList (c :: cs.takeWhile isIdentifierRest)),
        cs.dropWhile isIdentifierRest)
    else if c.isDigit then some (readNumber (c :: cs))
    else (sign? c).map fun t => (t, cs)

/-- The token that a text starts with. -/
def token? (cs : List Char) : Reading Token :=
  match readUri? cs with
  | some (u, rest) => some (.uri (String.ofList u), rest)
  | none =>
    match readPath? cs with
    | some (p, rest) => some (.path (String.ofList p), rest)
    | none => plainToken? cs

theorem length_dropWhile_le (p : Char → Bool) (cs : List Char) :
    (cs.dropWhile p).length ≤ cs.length :=
  (List.dropWhile_suffix p).length_le

theorem length_of_readUri? {cs u rest : List Char} (h : readUri? cs = some (u, rest)) :
    rest.length < cs.length := by
  unfold readUri? at h
  split at h
  · cases h
  · next c cs =>
    split at h
    · split at h
      · next more hmore =>
        split at h
        · cases h
        · have hscheme := length_dropWhile_le isSchemeChar cs
          have hrest := length_dropWhile_le isUriChar more
          rw [hmore, List.length_cons] at hscheme
          cases h
          rw [List.length_cons]
          omega
      · cases h
    · cases h

theorem pathRun_eq_append (cs : List Char) : (pathRun cs).1 ++ (pathRun cs).2 = cs := by
  induction cs with
  | nil => rfl
  | cons c cs ih =>
    unfold pathRun
    split
    · rw [List.cons_append, ih]
    · rfl

theorem length_of_pathRun {cs rest run : List Char} (h : pathRun cs = (run, rest)) :
    run.length + rest.length = cs.length := by
  have happend := pathRun_eq_append cs
  rw [h] at happend
  rw [← happend, List.length_append]

theorem length_of_readPath? {cs p rest : List Char} (h : readPath? cs = some (p, rest)) :
    rest.length < cs.length := by
  unfold readPath? at h
  split at h
  · split at h
    · next c run rest hrun =>
      have hlen := length_of_pathRun hrun
      split at h
      · cases h
      · cases h
        simp only [List.length_cons] at hlen ⊢
        omega
    · cases h
  · split at h
    · next run rest hrun =>
      have hlen := length_of_pathRun hrun
      cases h
      simp only [List.length_cons] at hlen ⊢
      omega
    · cases h
  · split at h
    · next hslash =>
      have hlen := length_of_pathRun (Option.some.inj h)
      rw [Option.some.inj h] at hslash
      cases p with
      | nil => cases hslash
      | cons c p =>
        rw [List.length_cons] at hlen
        omega
    · cases h

theorem length_of_readContent {dollar : Bool} {cs : List Char} {r : List Char × List Char}
    (h : readContent dollar cs = some r) : r.2.length < cs.length := by
  fun_induction readContent dollar cs generalizing r with
  | case1 | case3 | case7 => cases h
  | case2 => cases h; simp
  | case4 _ _ _ ih | case5 _ _ ih | case6 _ _ _ ih | case8 _ _ _ _ _ _ _ _ _ ih =>
    obtain ⟨s, hs, rfl⟩ := Option.map_eq_some_iff.mp h
    have := ih hs
    simp only [List.length_cons]
    omega

theorem length_readNumber {c : Char} (h : c.isDigit = true) (cs : List Char) :
    (readNumber (c :: cs)).2.length < (c :: cs).length := by
  have hwhole := length_dropWhile_le Char.isDigit cs
  unfold readNumber
  rw [List.dropWhile_cons_of_pos h]
  split
  · next rest hrest =>
    have hplaces := length_dropWhile_le Char.isDigit rest
    rw [hrest] at hwhole
    simp only [List.length_cons] at hwhole ⊢
    omega
  · exact Nat.lt_succ_of_le hwhole

theorem length_of_plainToken? {cs rest : List Char} {t : Token}
    (h : plainToken? cs = some (t, rest)) : rest.length < cs.length := by
  unfold plainToken? at h
  split at h
  · cases h
  · obtain ⟨r, hr, hrest⟩ := Option.map_eq_some_iff.mp h
    have := length_of_readContent hr
    cases hrest
    rw [List.length_cons]
    omega
  · cases h
    simp only [List.length_cons]
    omega
  · cases h
    simp only [List.length_cons]
    omega
  · next c cs _ _ _ =>
    split at h
    · have hword := length_dropWhile_le isIdentifierRest cs
      cases h
      rw [List.length_cons]
      omega
    · split at h
      · next hdigit =>
        have hnumber := length_readNumber hdigit cs
        rw [Option.some.inj h] at hnumber
        exact hnumber
      · obtain ⟨t, -, hrest⟩ := Option.map_eq_some_iff.mp h
        cases hrest
        exact Nat.lt_succ_self _

/-- Every token takes some of the text. -/
theorem length_of_token? {cs rest : List Char} {t : Token} (h : token? cs = some (t, rest)) :
    rest.length < cs.length := by
  unfold token? at h
  split at h
  · next hread =>
    cases h
    exact length_of_readUri? hread
  · split at h
    · next hread =>
      cases h
      exact length_of_readPath? hread
    · exact length_of_plainToken? h

/-- The tokens of a whole text, if it is made of tokens and blanks. -/
def lex : List Char → Option (List Token)
  | [] => some []
  | c :: cs =>
    if isBlank c then lex cs
    else
      match _h : token? (c :: cs) with
      | some (t, rest) => (lex rest).map (t :: ·)
      | none => none
termination_by cs => cs.length
decreasing_by
  · exact Nat.lt_succ_self _
  · exact length_of_token? ‹_›

end NixSource
