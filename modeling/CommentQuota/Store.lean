/-
  CommentQuota.Store — files and directories.

  A store holds an entry for each location, a location being the names that lead from the root to
  it. Paths are followed from the root or from the working directory, through directories that
  exist.

  - `lookup_put_self` / `lookup_put_of_ne` / `lookup_erase_of_ne`: a change at one location changes
    nothing at another.
  - `Store.follow`: where a path leads.
  - `Store.read` / `Store.write` / `Store.makeDirectory`: the basic operations and their failures.
  - `Attempt`: the store and the result after an operation that may leave traces when it fails.
-/

import CommentQuota.Fault
import CommentQuota.Store.Path

namespace CommentQuota

abbrev Bytes := List UInt8

/-- What stands at a location. -/
inductive Entry where
  | file (bytes : Bytes)
  | directory
  deriving DecidableEq

/-- The names that lead from the root to a file or directory. -/
abbrev Location := List String

/-- Files and directories, and the working directory. -/
structure Store where
  home : Location
  entries : List (Location × Entry)

namespace Store

/-! ## Entries -/

/-- What stands at a location; the root is a directory. -/
def lookup (s : Store) (l : Location) : Option Entry :=
  if l = [] then some .directory else (s.entries.find? (·.1 = l)).map (·.2)

/-- Leaves nothing at a location. -/
def erase (s : Store) (l : Location) : Store :=
  { s with entries := s.entries.filter (·.1 ≠ l) }

/-- Puts an entry at a location. -/
def put (s : Store) (l : Location) (e : Entry) : Store :=
  { s with entries := (l, e) :: (s.erase l).entries }

theorem lookup_erase_of_ne (s : Store) {l m : Location} (h : m ≠ l) :
    (s.erase l).lookup m = s.lookup m := by
  unfold lookup erase
  split
  · rfl
  · rw [List.find?_filter]
    congr 2
    funext x
    by_cases hx : x.1 = m
    · simp [hx, h]
    · simp [hx]

theorem lookup_put_self (s : Store) {l : Location} (e : Entry) (h : l ≠ []) :
    (s.put l e).lookup l = some e := by
  simp [lookup, put, h]

theorem lookup_put_of_ne (s : Store) {l m : Location} (e : Entry) (h : m ≠ l) :
    (s.put l e).lookup m = s.lookup m := by
  rw [← lookup_erase_of_ne s h]
  unfold lookup put
  split
  · rfl
  · have hl : ¬ l = m := fun heq => h heq.symm
    simp [hl]

/-- Puts directories at the locations on the way to one that are empty. -/
def putParents (s : Store) (l : Location) : Store :=
  (List.range l.length).foldl
    (fun s n => if (s.lookup (l.take n)).isNone then s.put (l.take n) .directory else s) s

/-- A store with a working directory and nothing else. -/
def empty (home : Location) : Store :=
  if home = [] then ⟨[], []⟩ else (putParents ⟨home, []⟩ home).put home .directory

/-- Adds a file below the working directory, with the directories on the way to it. -/
def addFile (s : Store) (path : String) (bytes : Bytes) : Store :=
  let l := s.home ++ (Path.ofString path).names
  (s.putParents l).put l (.file bytes)

/-- The files below the working directory, by their paths from it. -/
def files (s : Store) : List (String × Bytes) :=
  s.entries.filterMap fun
    | (l, .file bytes) =>
      if s.home.isPrefixOf l then some ("/".intercalate (l.drop s.home.length), bytes) else none
    | (_, .directory) => none

/-! ## Paths -/

/-- Where names lead from a location: every name but the last must lead to a directory. -/
def followFrom (s : Store) (l : Location) : List String → Except StoreReason Location
  | [] => .ok l
  | name :: names =>
    match s.lookup l with
    | some .directory => s.followFrom (if name = ".." then l.dropLast else l ++ [name]) names
    | some (.file _) => .error .notDirectory
    | none => .error .missing

/-- Where a path leads; there need not be anything. -/
def follow (s : Store) (p : Path) : Except Fault Location :=
  if p.hasZero then .error .zeroInPath
  else match s.followFrom (if p.root = "" then s.home else []) p.names with
    | .ok l => .ok l
    | .error reason => .error (.store ⟨reason, p.text, none⟩)

/-- What a path leads to, if to anything. -/
def at? (s : Store) (p : Path) : Option Entry :=
  match s.follow p with
  | .ok l => s.lookup l
  | .error _ => none

/-! ## Operations -/

/-- The bytes of a file. -/
def read (s : Store) (p : Path) : Except Fault Bytes := do
  match s.lookup (← s.follow p) with
  | some (.file bytes) => .ok bytes
  | some .directory => .error (.store ⟨.isDirectory, p.text, none⟩)
  | none => .error (.store ⟨.missing, p.text, none⟩)

/-- Makes a file or replaces the bytes of one. -/
def write (s : Store) (p : Path) (bytes : Bytes) : Except Fault Store := do
  let l ← s.follow p
  match s.lookup l with
  | some .directory => .error (.store ⟨.isDirectory, p.text, none⟩)
  | _ => .ok (s.put l (.file bytes))

/-- Makes a directory. -/
def makeDirectory (s : Store) (p : Path) : Except Fault Store := do
  let l ← s.follow p
  match s.lookup l with
  | some _ => .error (.store ⟨.alreadyThere, p.text, none⟩)
  | none => .ok (s.put l .directory)

/-- Moves a file over another one, which must be there. -/
def moveOver (s : Store) (p target : Path) : Except Fault Store := do
  let source ← s.follow p
  let goal ← s.follow target
  match s.lookup goal with
  | none => .error (.store ⟨.missing, target.text, none⟩)
  | some .directory =>
    let reason := if target.name = ".." then StoreReason.busy else .isDirectory
    .error (.store ⟨reason, p.text, some target.text⟩)
  | some (.file _) =>
    match s.lookup source with
    | some e => .ok ((s.put goal e).erase source)
    | none => .error (.store ⟨.missing, p.text, some target.text⟩)

/-- Takes a file away if it is there. -/
def remove (s : Store) (p : Path) : Store :=
  match s.follow p with
  | .ok l => s.erase l
  | .error _ => s

end Store

/-- The store and the result after an operation. -/
structure Attempt (α : Type) where
  store : Store
  result : Except Fault α

namespace Store

/-- Keeps a failure unless a directory stands where one was wanted. -/
def settleDirectory (s : Store) (p : Path) (failure : Fault) : Attempt Unit :=
  match failure with
  | .store _ => if s.at? p = some .directory then ⟨s, .ok ()⟩ else ⟨s, .error failure⟩
  | _ => ⟨s, .error failure⟩

/-- Makes a directory and the directories on the way to it; the names come last one first. -/
def makeDirectoriesFrom (s : Store) (root : String) : List String → Attempt Unit
  | [] =>
    let p : Path := ⟨root, []⟩
    match s.makeDirectory p with
    | .ok s => ⟨s, .ok ()⟩
    | .error e => s.settleDirectory p e
  | name :: up =>
    let p : Path := ⟨root, (name :: up).reverse⟩
    match s.makeDirectory p with
    | .ok s => ⟨s, .ok ()⟩
    | .error (.store ⟨.missing, _, _⟩) =>
      match s.makeDirectoriesFrom root up with
      | ⟨s, .error e⟩ => ⟨s, .error e⟩
      | ⟨s, .ok _⟩ =>
        match s.makeDirectory p with
        | .ok s => ⟨s, .ok ()⟩
        | .error e => s.settleDirectory p e
    | .error e => s.settleDirectory p e

/-- Makes a directory and the directories on the way to it, if they are not there. -/
def makeDirectories (s : Store) (p : Path) : Attempt Unit :=
  s.makeDirectoriesFrom p.root p.names.reverse

end Store

end CommentQuota
