/-
  CommentQuota.Store.Path — paths of files and directories.

  A path is the names that lead to a file, from the root of all files or from the working directory.
  Empty names and names of one dot lead nowhere and are left out; a name of two dots stays, because
  where it leads depends on the files.

  - `Path.ofString` / `Path.text`: a path from text and back.
  - `Path.name`, `Path.parent`, `Path.child`: the last name, the path without it, one more name.
-/

namespace CommentQuota

/-- A path. `root` holds the slashes it starts with: none, one or two. -/
structure Path where
  root : String
  names : List String
  deriving DecidableEq

namespace Path

/-- The pieces between slashes. -/
def pieces : List Char → List (List Char)
  | [] => [[]]
  | c :: cs =>
    if c = '/' then [] :: pieces cs
    else match pieces cs with
      | [] => [[c]]
      | p :: ps => (c :: p) :: ps

/-- The slashes a path starts with; more than two count as one. -/
def rootOf (cs : List Char) : String :=
  match (cs.takeWhile (· = '/')).length with
  | 0 => ""
  | 2 => "//"
  | _ => "/"

def ofString (s : String) : Path where
  root := rootOf s.toList
  names := ((pieces s.toList).filter fun p => !p.isEmpty && p != ['.']).map String.ofList

/-- A path as text; the working directory is a dot. -/
def text (p : Path) : String :=
  if p.root = "" ∧ p.names = [] then "." else p.root ++ "/".intercalate p.names

/-- The last name, empty if there is none. -/
def name (p : Path) : String := p.names.getLast?.getD ""

def parent (p : Path) : Path := { p with names := p.names.dropLast }

/-- A path with one more name. -/
def child (p : Path) (name : String) : Path :=
  if name = "" then p else { p with names := p.names ++ [name] }

/-- The path beside `p` under which a new version is prepared. -/
def temporary (p : Path) : Path := { p with names := p.names.dropLast ++ [p.name ++ ".tmp"] }

/-- The locations a path leads through, from a working directory or from the root. -/
def way (home : List String) (p : Path) : List (List String) :=
  let start := if p.root = "" then home else []
  (p.names.foldl
    (fun (way : List (List String) × List String) name =>
      let next := if name = ".." then way.2.dropLast else way.2 ++ [name]
      (way.1 ++ [next], next))
    ([start], start)).1

/-- A zero character stands in the path, which no file system allows. -/
def hasZero (p : Path) : Bool := p.names.any fun n => n.toList.contains (Char.ofNat 0)

end Path

end CommentQuota
