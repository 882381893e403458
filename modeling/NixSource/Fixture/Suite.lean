import NixSource.Fixture.Case

/-! Suites: all the test cases at and below a directory, and the tally of running them. -/

namespace NixSource

/-- A test case that did not pass, or could not be loaded. -/
structure TestFailure where
  testName : String
  error : String
deriving DecidableEq

structure Tally where
  total : Nat := 0
  passed : Nat := 0
  failed : Nat := 0
  failures : List TestFailure := []
deriving DecidableEq

namespace Tally

def addPass (t : Tally) : Tally :=
  { t with total := t.total + 1, passed := t.passed + 1 }

def addFailure (t : Tally) (f : TestFailure) : Tally :=
  { t with total := t.total + 1, failed := t.failed + 1, failures := t.failures ++ [f] }

/-- Nothing failed; so it is also when nothing was run. -/
def isSuccess (t : Tally) : Bool :=
  t.failed == 0

end Tally

/-- Names by their code points. -/
def nameLE : List Char → List Char → Bool
  | [], _ => true
  | _ :: _, [] => false
  | a :: as, b :: bs =>
    if a.toNat < b.toNat then true else if b.toNat < a.toNat then false else nameLE as bs

/-- Paths part by part, each before those below it. -/
def partsLE : List String → List String → Bool
  | [], _ => true
  | _ :: _, [] => false
  | a :: as, b :: bs => if a = b then partsLE as bs else nameLE a.toList b.toList

namespace FileTree

/-- Whether a directory with these entries is a test case: it has an input, which is a file. -/
def hasInput (entries : Bindings FileTree) : Bool :=
  match entries.get? inputFile with
  | some (file _) => true
  | _ => false

mutual

/-- The directories at and below a tree that are test cases, each with the names that lead to it. -/
def cases : FileTree → List (List String × FileTree)
  | file _ => []
  | directory entries =>
    if hasInput entries then ([], directory entries) :: casesIn entries else casesIn entries

def casesIn : List (String × FileTree) → List (List String × FileTree)
  | [] => []
  | (name, tree) :: rest =>
    (tree.cases.map fun c => (name :: c.1, c.2)) ++ casesIn rest

end

def sortedCases (tree : FileTree) : List (List String × FileTree) :=
  tree.cases.mergeSort fun a b => partsLE a.1 b.1

end FileTree

/-- How one test case went: nothing, or a failure with the path of its directory in it. A case that
does not load is known by its path, any other by its name. -/
def runCase (path : String) (directory : FileTree) : Option TestFailure :=
  match TestCase.loadFrom (.ok directory) path with
  | .error e => some ⟨path, "Failed to load test case: " ++ e.message⟩
  | .ok c =>
    match c.run with
    | .ok () => none
    | .error m => some ⟨c.name, c.path ++ ": " ++ m.message⟩

def Tally.addCase (path : String) (t : Tally) (c : List String × FileTree) : Tally :=
  match runCase (c.1.foldl joinPath path) c.2 with
  | none => t.addPass
  | some f => t.addFailure f

/-- The tally of the test cases at and below the directory that `path` names. Where there is nothing
there are no cases; a file is no place to look for any. -/
def runSuite (tree : FileTree) (path : String) : Except PathFault Tally :=
  match tree.find path with
  | .error _ => .ok {}
  | .ok (.file _) => .error .notDirectory
  | .ok directory => .ok (directory.sortedCases.foldl (Tally.addCase path) {})

end NixSource
