/-
Trees of files.

A tree is what a run can see of a file system: the directory that it starts in,
what is below it, and the directories above.

* `Place` — where something stands;
* `FileTree.read` — the bytes at a path, or why there are none;
* `FileTree.write` — the tree with other bytes at a path, or why they cannot be
  written: the directory of a file has to be there.

Design notes: a path is a list of steps between slashes.  A single dot and
nothing at all stay where one is, two dots go up, and every step needs a
directory.  A path that starts with a slash starts at the top.  The directories
above the start and the top itself are always there, and hold only what is
entered for them.
-/
import Asdl.Error

namespace Asdl

namespace CommandLine

/-! ### Places -/

/-- Where one can start from. -/
inductive Base where
  /-- So many levels above the directory that a run starts in. -/
  | above (levels : Nat)
  /-- The top of the file system. -/
  | top
  deriving DecidableEq, Repr

/-- Where something stands: names to follow from a base. -/
structure Place where
  base : Base
  names : List String
  deriving DecidableEq, Repr

namespace Place

/-- The directory that a run starts in. -/
def start : Place := ⟨.above 0, []⟩

/-- The top of the file system. -/
def top : Place := ⟨.top, []⟩

/-- The place of a name in a directory. -/
def child (p : Place) (name : String) : Place := ⟨p.base, p.names ++ [name]⟩

/-- The directory above; the top is above itself. -/
def parent (p : Place) : Place :=
  match p.names, p.base with
  | [], .above levels => ⟨.above (levels + 1), []⟩
  | [], .top => top
  | names, base => ⟨base, names.dropLast⟩

end Place

/-- What stands at a place of a tree. -/
inductive Entry where
  | file (contents : ByteArray)
  | directory

/-- A tree of files, by place. -/
structure FileTree where
  entries : List (Place × Entry) := []

namespace FileTree

/-- What stands at a place; bases are directories. -/
def entry? (t : FileTree) (p : Place) : Option Entry :=
  if p.names.isEmpty then some .directory else t.entries.lookup p

/-- Puts an entry at a place, instead of what is there. -/
def put (t : FileTree) (p : Place) (e : Entry) : FileTree :=
  ⟨(p, e) :: t.entries.filter (·.1 != p)⟩

/-! ### Paths -/

/-- The longest name, in bytes. -/
def nameLimit : Nat := 255

/-- The longest path, in bytes. -/
def pathLimit : Nat := 4095

/-- The stretches between slashes. -/
def splitPath : List Char → List (List Char)
  | [] => [[]]
  | c :: rest =>
    if c = '/' then [] :: splitPath rest
    else match splitPath rest with
      | [] => [[c]]
      | step :: steps => (c :: step) :: steps

/-- The steps of a path. -/
def steps (path : String) : List String := (splitPath path.toList).map String.ofList

/-- Where the steps of a path start. -/
def startOf (path : String) : Place :=
  if path.toList.head? = some '/' then .top else .start

/-- The place of a name in a directory, and what is there. -/
def enter (t : FileTree) (p : Place) (name : String) : Except FileFault (Place × Option Entry) :=
  if nameLimit < name.utf8ByteSize then .error .nameTooLong
  else .ok (p.child name, t.entry? (p.child name))

/-- Where steps lead from a directory, and what is there. -/
def walk (t : FileTree) (p : Place) : List String → Except FileFault (Place × Option Entry)
  | [] => .ok (p, some .directory)
  | step :: rest =>
    if step = "" ∨ step = "." then t.walk p rest
    else if step = ".." then t.walk p.parent rest
    else match t.enter p step, rest with
      | .error fault, _ => .error fault
      | .ok (next, some .directory), _ => t.walk next rest
      | .ok found, [] => .ok found
      | .ok (_, some (.file _)), _ :: _ => .error .notDirectory
      | .ok (_, none), _ :: _ => .error .missing

/-- The directory that steps lead to. -/
def walkDirectory (t : FileTree) (p : Place) (steps : List String) : Except FileFault Place := do
  match ← t.walk p steps with
  | (next, some .directory) => return next
  | (_, some (.file _)) => throw .notDirectory
  | (_, none) => throw .missing

/-- A path is not too long. -/
def checkPath (path : String) : Except FileFault Unit :=
  if pathLimit < path.utf8ByteSize then .error .nameTooLong else .ok ()

/-! ### Reading and writing -/

/-- The bytes of the file at a path. -/
def read (t : FileTree) (path : String) : Except FileFault ByteArray := do
  checkPath path
  match (← t.walk (startOf path) (steps path)).2 with
  | some (.file contents) => return contents
  | some .directory => throw .isDirectory
  | none => throw .missing

/-- The last step of a path that is not empty, with the steps before it; also
whether slashes follow. -/
def lastStep? (path : String) : Option (List String × String × Bool) :=
  let all := steps path
  match all.reverse.dropWhile (· == "") with
  | [] => none
  | last :: before => some (before.reverse, last, before.length + 1 != all.length)

/-- Where a file is to be written: a name in a directory. -/
def target (t : FileTree) (path : String) : Except FileFault Place := do
  checkPath path
  match lastStep? path with
  | none => throw .isDirectory
  | some (before, last, slashes) =>
    let directory ← t.walkDirectory (startOf path) before
    if last = "." ∨ last = ".." ∨ slashes then throw .isDirectory
    match ← t.enter directory last with
    | (_, some .directory) => throw .isDirectory
    | (place, _) => return place

/-- The tree with these bytes in the file at a path. -/
def write (t : FileTree) (path : String) (contents : ByteArray) : Except FileFault FileTree := do
  return t.put (← t.target path) (.file contents)

/-! ### Building -/

/-- The tree with directories at all steps below the start. -/
def addDirectory (t : FileTree) (names : List String) : FileTree :=
  (List.range names.length).foldl
    (fun t n => t.put ⟨Place.start.base, names.take (n + 1)⟩ .directory) t

/-- The tree with a file below the start and the directories that it needs. -/
def addFile (t : FileTree) (names : List String) (contents : ByteArray) : FileTree :=
  (t.addDirectory names.dropLast).put ⟨Place.start.base, names⟩ (.file contents)

end FileTree

end CommandLine

end Asdl
