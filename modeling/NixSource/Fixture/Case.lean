import NixSource.Conversion
import NixSource.Fixture.FileTree
import NixSource.Fixture.LineDiff
import NixSource.Json.Reader

/-! Test cases: a directory with a JSON document and either the source text it converts to or the
message of the error it ends with. -/

namespace NixSource

/-- What the conversion of a document must come to. -/
inductive Expectation where
  | output (text : String)
  | error (message : String)
deriving DecidableEq

/-- A test case as it was loaded from the directory that `path` names. -/
structure TestCase where
  name : String
  path : String
  input : Json
  expectation : Expectation

def inputFile : String := "input.json"

def outputFile : String := "output.nix"

def errorFile : String := "error.txt"

/-- Why a directory holds no test case. -/
inductive LoadError where
  | unreadable (path : String) (cause : PathFault)
  | unparsable (path : String) (cause : JsonError)
  | twoExpectations (name : String)
  | noExpectation (name : String)
deriving DecidableEq

def LoadError.message : LoadError → String
  | unreadable path cause => "Failed to read " ++ path ++ ": " ++ cause.message
  | unparsable path cause => "Failed to parse " ++ path ++ ": " ++ cause.message
  | twoExpectations name =>
    name ++ ": both " ++ outputFile ++ " and " ++ errorFile ++ " are present"
  | noExpectation name =>
    name ++ ": neither " ++ outputFile ++ " nor " ++ errorFile ++ " is present"

/-- An expected text without the line end that editors put at the end of a file. -/
def dropLineEnd (s : String) : String :=
  let cs := s.toList
  let cs := if cs.getLast? = some '\n' then cs.dropLast else cs
  String.ofList (if cs.getLast? = some '\r' then cs.dropLast else cs)

namespace TestCase

/-- The text of the file `name` in a directory, whose own path is for messages. -/
def readFile (directory : Except PathFault FileTree) (path name : String) :
    Except LoadError String :=
  match (directory.bind fun d => d.entry name).bind FileTree.text with
  | .ok text => .ok text
  | .error cause => .error (.unreadable (joinPath path name) cause)

def present (directory : Except PathFault FileTree) (name : String) : Bool :=
  match directory.bind fun d => d.entry name with
  | .ok _ => true
  | .error _ => false

/-- The document that the input of a test case is. -/
def parseInput (path text : String) : Except LoadError Json :=
  match Json.read text with
  | .ok j => .ok j
  | .error cause => .error (.unparsable (joinPath path inputFile) cause)

/-- What is expected, from the one of the two files that is there. -/
def readExpectation (directory : Except PathFault FileTree) (path : String) :
    Except LoadError Expectation :=
  match present directory outputFile, present directory errorFile with
  | true, true => .error (.twoExpectations (lastName path))
  | false, false => .error (.noExpectation (lastName path))
  | true, false => do .ok (.output (dropLineEnd (← readFile directory path outputFile)))
  | false, true => do .ok (.error (dropLineEnd (← readFile directory path errorFile)))

/-- The test case in a directory that was looked up under `path`. The document is read before the
expectation is looked for. -/
def loadFrom (directory : Except PathFault FileTree) (path : String) :
    Except LoadError TestCase := do
  let text ← readFile directory path inputFile
  let input ← parseInput path text
  let expectation ← readExpectation directory path
  .ok ⟨lastName path, path, input, expectation⟩

/-- The test case that `path` names below a tree. The empty path is the tree itself. -/
def load (tree : FileTree) (path : String) : Except LoadError TestCase :=
  loadFrom (if path.isEmpty then .ok tree else tree.find path) path

/-- What the conversion of the document really comes to. -/
def outcome (c : TestCase) : Except ConversionError String :=
  c.input.toValue.toSource {}

end TestCase

inductive Mismatch where
  | output (expected actual : String)
  | unexpectedError (error : ConversionError)
  | error (expected actual : String)
  | unexpectedOutput (expected actual : String)
deriving DecidableEq

def Mismatch.message : Mismatch → String
  | output expected actual => "Output mismatch:\n" ++ unifiedDiff expected actual
  | unexpectedError e => "Conversion failed: " ++ e.message
  | error expected actual => "Error mismatch:\n" ++ unifiedDiff expected actual
  | unexpectedOutput expected actual =>
    "Expected error `" ++ expected ++ "`, but conversion produced:\n" ++ actual

/-- A test case passes when its document comes to exactly what is expected. -/
def TestCase.run (c : TestCase) : Except Mismatch Unit :=
  match c.expectation, c.outcome with
  | .output expected, .ok actual =>
    if expected = actual then .ok () else .error (.output expected actual)
  | .output _, .error e => .error (.unexpectedError e)
  | .error expected, .error e =>
    if expected = e.message then .ok () else .error (.error expected e.message)
  | .error expected, .ok actual => .error (.unexpectedOutput expected actual)

end NixSource
