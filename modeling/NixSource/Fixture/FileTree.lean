import NixSource.Bindings

/-! Directory trees, and finding what a path names in one. -/

namespace NixSource

/-- A file with its bytes, or a directory with its entries. -/
inductive FileTree where
  | file (content : ByteArray)
  | directory (entries : List (String × FileTree))

instance : Inhabited FileTree := ⟨.directory []⟩

/-- Why a path could not be read. -/
inductive PathFault where
  | missing
  /-- Something that is no directory was used as one. -/
  | notDirectory
  | isDirectory
  | notText
deriving DecidableEq

def PathFault.message : PathFault → String
  | missing => "No such file or directory (os error 2)"
  | notDirectory => "Not a directory (os error 20)"
  | isDirectory => "Is a directory (os error 21)"
  | notText => "stream did not contain valid UTF-8"

def pathParts (path : String) : List String :=
  (path.toList.splitOn '/').map String.ofList

/-- `path` with `name` below it. Nothing is below the empty path but the name itself. -/
def joinPath (path name : String) : String :=
  if path.isEmpty || path.toList.getLast? == some '/' then path ++ name
  else path ++ "/" ++ name

/-- The last part of a path that names something, unless it leads back up. -/
def lastName (path : String) : String :=
  match ((pathParts path).filter fun part => part != "" && part != ".").getLast? with
  | some name => if name == ".." then "" else name
  | none => ""

namespace FileTree

/-- What the parts of a path lead to from a tree, inside the directories `above` it, the nearest
first. An empty part and a point stay in a directory, two points leave it. -/
def follow (above : List FileTree) (tree : FileTree) : List String → Except PathFault FileTree
  | [] => .ok tree
  | part :: rest =>
    match tree with
    | file _ => .error .notDirectory
    | directory entries =>
      if part == "" || part == "." then follow above tree rest
      else if part == ".." then
        match above with
        | [] => .error .missing
        | parent :: above => follow above parent rest
      else
        match Bindings.get? part entries with
        | some child => follow (tree :: above) child rest
        | none => .error .missing

/-- What a path names below a tree. The empty path names nothing, nor does one that starts at the
root of all. -/
def find (tree : FileTree) (path : String) : Except PathFault FileTree :=
  if path.isEmpty || path.toList.head? == some '/' then .error .missing
  else tree.follow [] (pathParts path)

def entry (tree : FileTree) (name : String) : Except PathFault FileTree :=
  tree.follow [] [name]

def text : FileTree → Except PathFault String
  | directory _ => .error .isDirectory
  | file content =>
    match String.fromUTF8? content with
    | some s => .ok s
    | none => .error .notText

/-- The tree with `leaf` where the parts of a path lead, in directories made for it as needed. An
empty directory leaves one that is there as it is. -/
def place (leaf : FileTree) : List String → FileTree → FileTree
  | [], tree =>
    match leaf with
    | directory [] => tree
    | _ => leaf
  | part :: rest, tree =>
    let entries : Bindings FileTree :=
      match tree with
      | directory entries => entries
      | file _ => []
    if part == "" || part == "." then place leaf rest tree
    else
      let child := (entries.get? part).getD (directory [])
      directory (entries.insert part (place leaf rest child))

end FileTree

end NixSource
