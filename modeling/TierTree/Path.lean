/-!
Paths of the tree. A path is absolute, its components are separated by single
slashes, and slashes at its end do not count. The component `.snapshot` is
reserved: it leads to the snapshots of the directory before it.
-/

namespace TierTree

/-- Why a text is no path, or no name for a new entry. -/
inductive PathError where
  | empty
  | notAbsolute (path : String)
  | emptyComponent (path : String)
  | relativeComponent (path : String)
  | nul (path : String)
  | badName (name : String)
  deriving DecidableEq, Repr

namespace PathError

def message : PathError → String
  | empty => "Invalid path: Empty path"
  | notAbsolute path => "Invalid path: " ++ path ++ ": path is not absolute"
  | emptyComponent path => "Invalid path: " ++ path ++ ": path contains empty component"
  | relativeComponent path =>
      "Invalid path: " ++ path ++ ": relative path components (. or ..) are not supported"
  | nul path => "Invalid path: " ++ path ++ ": contains NUL"
  | badName name => "Invalid name: " ++ name

end PathError

namespace Path

/-- The component that enters the snapshots of a directory. -/
def snapshotDir : String := ".snapshot"

/-- A list without the slashes at its front. -/
def trimFront (cs : List Char) : List Char := cs.dropWhile (· = '/')

/-- A list without the slashes at its end. -/
def trimBack (cs : List Char) : List Char := (trimFront cs.reverse).reverse

/-- The parts of a list between its slashes. -/
def segments : List Char → List (List Char)
  | [] => [[]]
  | c :: rest =>
      if c = '/' then [] :: segments rest
      else
        match segments rest with
        | [] => [[c]]
        | s :: ss => (c :: s) :: ss

/-- Whether a text names the root directory. -/
def isRoot (path : String) : Bool :=
  path.toList ≠ [] ∧ trimFront path.toList = []

/-- What is wrong with a component, if anything. -/
def componentFault? (path : String) (component : List Char) : Option PathError :=
  if component = [] then some (.emptyComponent path)
  else if component = ['.'] ∨ component = ['.', '.'] then some (.relativeComponent path)
  else if '\x00' ∈ component then some (.nul path)
  else none

/-- The components of a path. The root has none. -/
def split (path : String) : Except PathError (List String) :=
  let cs := path.toList
  if cs = [] then .error .empty
  else if cs.head? ≠ some '/' then .error (.notAbsolute path)
  else
    match trimBack (trimFront cs) with
    | [] => .ok []
    | trimmed =>
        match (segments trimmed).findSome? (componentFault? path) with
        | some f => .error f
        | none => .ok ((segments trimmed).map String.ofList)

/-- Whether a path leads into the snapshots of a directory. -/
def entersSnapshots (components : List String) : Bool := components.any (· = snapshotDir)

/-- Whether a new entry or a snapshot may have this name. -/
def isValidName (name : String) : Bool :=
  name ≠ "" ∧ name ≠ "." ∧ name ≠ ".." ∧ name ≠ snapshotDir ∧
    '/' ∉ name.toList ∧ '\x00' ∉ name.toList

/-- A name under a path, with one slash between. -/
def join (parent name : String) : String :=
  String.ofList (trimBack parent.toList) ++ "/" ++ name

end Path

end TierTree
