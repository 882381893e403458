import NixSource.Proofs.Syntax.Numeral

/-! The grammar of the language as a parser, which shows how source text groups. Selections bind
tightest, then applications, which group to the left, then merges, which group to the right; all
else goes on as far as it can. -/

namespace NixSource

def nameExpr (s : String) : Expr :=
  if s = "null" then .null
  else if s = "true" then .bool true
  else if s = "false" then .bool false
  else .verbatim s

def Numeral.expr : Numeral → Expr
  | int i => .int i
  | float x => .float x

/-- The attributes `names` of `s`, with a fallback or without. -/
def Expr.selecting (s : Expr) (names : List String) (fallback : Option Expr) : Expr :=
  match names with
  | [] => s
  | n :: ns => .select s ⟨n, ns⟩ fallback

/-- How loose an expression has to be for the token to go on with it from behind: any expression
goes on with the point of a selection, only an application with one more operand. -/
def Token.grip : Token → Nat
  | dot | keyword .orWord => Precedence.atom.rank
  | name _ | integer _ | decimal _ | string _ | uri _ | path _ | openParen | openBracket | openBrace
  | keyword .recWord => Precedence.application.rank
  | update => Precedence.operator.rank
  | colon => Precedence.lowest.rank
  | _ => Precedence.lowest.rank + 1

def startsOperand : List Token → Bool
  | t :: _ => t.grip == Precedence.application.rank
  | [] => false

/-- Whether tokens start with the header of a function with named arguments. A set that looks alike
has no colon behind it, or an equals sign behind its first name. -/
def startsFormals : List Token → Bool
  | .openBrace :: .closeBrace :: .colon :: _ => true
  | .openBrace :: .ellipsis :: _ => true
  | .openBrace :: .name _ :: t :: _ => t == .comma || t == .question || t == .closeBrace
  | _ => false

mutual

/-- An expression of any kind. -/
def parseExpr (ts : List Token) : Option (Expr × List Token) :=
  match ts with
  | .keyword .letWord :: ts => do
    let (b, ⟨ts, _⟩) ← leaving (ts.length + 1) (parseBindings ts)
    let ⟨ts, _⟩ ← expect (.keyword .inWord) ts
    let (body, ts) ← parseExpr ts
    return (.letIn b body, ts)
  | .keyword .ifWord :: ts => do
    let (c, ⟨ts, _⟩) ← leaving (ts.length + 1) (parseExpr ts)
    let ⟨ts, _⟩ ← expect (.keyword .thenWord) ts
    let (y, ⟨ts, _⟩) ← leaving (ts.length + 1) (parseExpr ts)
    let ⟨ts, _⟩ ← expect (.keyword .elseWord) ts
    let (n, ts) ← parseExpr ts
    return (.ifThenElse c y n, ts)
  | .keyword .withWord :: ts => do
    let (s, ⟨ts, _⟩) ← leaving (ts.length + 1) (parseExpr ts)
    let ⟨ts, _⟩ ← expect .semicolon ts
    let (body, ts) ← parseExpr ts
    return (.withScope s body, ts)
  | .keyword .assertWord :: ts => do
    let (c, ⟨ts, _⟩) ← leaving (ts.length + 1) (parseExpr ts)
    let ⟨ts, _⟩ ← expect .semicolon ts
    let (body, ts) ← parseExpr ts
    return (.assertThen c body, ts)
  | .name x :: .colon :: ts => do
    let (body, ts) ← parseExpr ts
    return (.lambda (.name x) body, ts)
  | ts =>
    if startsFormals ts then do
      let (formals, ⟨ts, _⟩) ← leaving ts.length (parseFormals ts.tail)
      let ⟨ts, _⟩ ← expect .colon ts
      let (body, ts) ← parseExpr ts
      return (.lambda (.formals formals.1 formals.2) body, ts)
    else parseUpdate ts
termination_by 8 * ts.length + 7

/-- A merge, which groups to the right, or what a merge is made of. -/
def parseUpdate (ts : List Token) : Option (Expr × List Token) := do
  let (l, ⟨ts, _⟩) ← leaving ts.length (parseApply ts)
  match expect .update ts with
  | some ⟨ts, _⟩ =>
    let (r, ts) ← parseUpdate ts
    return (.update l r, ts)
  | none => return (l, ts)
termination_by 8 * ts.length + 6

/-- An application, or what an application is made of. An import is one, with one operand. -/
def parseApply (ts : List Token) : Option (Expr × List Token) :=
  match ts with
  | .keyword .importWord :: ts => do
    let (p, ⟨ts, _⟩) ← leaving (ts.length + 1) (parseSelect ts)
    parseArguments (.importOf p) ts
  | ts => do
    let (f, ⟨ts, _⟩) ← leaving ts.length (parseSelect ts)
    parseArguments f ts
termination_by 8 * ts.length + 5

/-- The operands that `f` is applied to, one after the other. -/
def parseArguments (f : Expr) (ts : List Token) : Option (Expr × List Token) :=
  if startsOperand ts then do
    let (a, ⟨ts, _⟩) ← leaving ts.length (parseSelect ts)
    parseArguments (.apply f a) ts
  else some (f, ts)
termination_by 8 * ts.length + 4

/-- The elements of a list. -/
def parseElements (ts : List Token) : Option (List Expr × List Token) :=
  if startsOperand ts then do
    let (e, ⟨ts, _⟩) ← leaving ts.length (parseSelect ts)
    let (items, ts) ← parseElements ts
    return (e :: items, ts)
  else some ([], ts)
termination_by 8 * ts.length + 4

def parseSelect (ts : List Token) : Option (Expr × List Token) := do
  let (s, ⟨ts, _⟩) ← leaving ts.length (parsePrimary ts)
  parseSteps s [] ts
termination_by 8 * ts.length + 3

/-- The attributes selected from `s` after `names`, and the fallback. -/
def parseSteps (s : Expr) (names : List String) (ts : List Token) : Option (Expr × List Token) :=
  match ts with
  | .dot :: t :: ts => do
    let name ← t.attribute?
    parseSteps s (names ++ [name]) ts
  | .keyword .orWord :: ts =>
    if names.isEmpty then none
    else do
      let (d, ts) ← parseSelect ts
      return (s.selecting names (some d), ts)
  | ts => some (s.selecting names none, ts)
termination_by 8 * ts.length

/-- A literal, a name, a set, a list, or an expression in parentheses. -/
def parsePrimary (ts : List Token) : Option (Expr × List Token) :=
  match readNumeral? ts with
  | some (n, ts) => some (n.expr, ts)
  | none =>
    match ts with
    | .name s :: ts => some (nameExpr s, ts)
    | .string s :: ts => some (.string s, ts)
    | .uri s :: ts => (Uri.ofString? s).map fun u => (.uri u, ts)
    | .path s :: ts => (PathLiteral.ofString? s).map fun p => (.path p, ts)
    | .openParen :: ts => do
      let (e, ts) ← parseExpr ts
      let ⟨ts, _⟩ ← expect .closeParen ts
      return (e, ts)
    | .openBracket :: ts => do
      let (items, ts) ← parseElements ts
      let ⟨ts, _⟩ ← expect .closeBracket ts
      return (.list items, ts)
    | .openBrace :: ts => do
      let (b, ts) ← parseBindings ts
      let ⟨ts, _⟩ ← expect .closeBrace ts
      return (.attrs b, ts)
    | .keyword .recWord :: .openBrace :: ts => do
      let (b, ts) ← parseBindings ts
      let ⟨ts, _⟩ ← expect .closeBrace ts
      return (.recAttrs b, ts)
    | _ => none
termination_by 8 * ts.length + 2

/-- Bindings, each with its semicolon, up to what ends them: the closing brace of a set, or the word
before the body of a `let`. -/
def parseBindings (ts : List Token) : Option (List (String × Expr) × List Token) :=
  match ts with
  | .closeBrace :: ts => some ([], .closeBrace :: ts)
  | .keyword .inWord :: ts => some ([], .keyword .inWord :: ts)
  | .keyword .inheritWord :: .openParen :: .name scope :: .closeParen :: t :: .semicolon :: ts => do
    let name ← t.attribute?
    let (b, ts) ← parseBindings ts
    return ((name, .inherit (some scope)) :: b, ts)
  | .keyword .inheritWord :: t :: .semicolon :: ts => do
    let name ← t.attribute?
    let (b, ts) ← parseBindings ts
    return ((name, .inherit none) :: b, ts)
  | t :: .equals :: ts => do
    let name ← t.attribute?
    let (value, ⟨ts, _⟩) ← leaving (ts.length + 1) (parseExpr ts)
    let ⟨ts, _⟩ ← expect .semicolon ts
    let (b, ts) ← parseBindings ts
    return ((name, value) :: b, ts)
  | _ => none
termination_by 8 * ts.length

/-- Named arguments up to the closing brace, and whether others are allowed. -/
def parseFormals (ts : List Token) : Option ((List (Formal Expr) × Bool) × List Token) :=
  match ts with
  | .closeBrace :: ts => some (([], false), ts)
  | .ellipsis :: .closeBrace :: ts => some (([], true), ts)
  | .name x :: .question :: ts => do
    let (d, ⟨ts, _⟩) ← leaving (ts.length + 1) (parseExpr ts)
    let (formals, ts) ← parseMoreFormals ts
    return ((⟨x, some d⟩ :: formals.1, formals.2), ts)
  | .name x :: ts => do
    let (formals, ts) ← parseMoreFormals ts
    return ((⟨x, none⟩ :: formals.1, formals.2), ts)
  | _ => none
termination_by 8 * ts.length

/-- The named arguments behind another one, up to the closing brace. -/
def parseMoreFormals (ts : List Token) : Option ((List (Formal Expr) × Bool) × List Token) :=
  match ts with
  | .closeBrace :: ts => some (([], false), ts)
  | .comma :: ts => parseFormals ts
  | _ => none
termination_by 8 * ts.length

end

/-- The expression that a whole text stands for. -/
def Expr.ofText? (text : String) : Option Expr := do
  let ts ← lex text.toList
  match ← parseExpr ts with
  | (e, []) => some e
  | _ => none

end NixSource
