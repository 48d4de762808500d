import HeaderMacros.FileTree.Basic
import HeaderMacros.Run.Process

/-!
# The search for an included file

An include is looked up in an ordered list of directories; the first one that has the file wins. In
each directory the name is tried as it is spelled, and then component by component without regard
to letter case. Backslashes in a name count as slashes. An absolute name is not searched for.

The search needs three questions answered about files, which are gathered in `Disk`; it works over
a tree held in memory and over a file system alike.
-/

namespace HeaderMacros

/-- What the search asks about files. -/
structure Disk (m : Type → Type) where
  /-- Whether something other than a directory stands under a path. -/
  isFile : Text → m Bool
  /-- The names in the directory under a path, in the order of their bytes. -/
  list? : Text → m (Option (List Text))
  /-- The content of the file under a path. -/
  read : Text → m (Except FileFailure Text)

/-- A tree held in memory answers at once. -/
def FileTree.disk (t : FileTree) : Disk Id where
  isFile path := t.isFile path
  list? path := t.list? path
  read path := t.read path

namespace Search

variable {m : Type → Type} [Monad m]

/-- The entry that a component means: the one of that very name, or else the first one that differs
from it in letter case only. -/
def pickName? (component : Text) (names : List Text) : Option Text :=
  if names.contains component then some component else names.find? fun n => Text.equalFold n component

/-- The file that some components lead to from a directory without regard to letter case. -/
def findFolded (disk : Disk m) (dir : Text) : List Text → m (Option Text)
  | [] => do
    if ← disk.isFile dir then return some (Path.clean dir) else return none
  | component :: rest =>
    if component = [] ∨ component = Path.here then findFolded disk dir rest
    else if component = Path.above then findFolded disk (Path.join dir Path.above) rest
    else do
      match (← disk.list? dir).bind (pickName? component) with
      | none => return none
      | some name => findFolded disk (Path.join dir name) rest

/-- The file of a relative name in the first of some directories that has it. -/
def findIn (disk : Disk m) (relative : Text) : List Text → m (Option Text)
  | [] => return none
  | dir :: dirs => do
    if ← disk.isFile (Path.join dir relative) then
      return some (Path.clean (Path.join dir relative))
    else
      match ← findFolded disk dir (Path.components relative) with
      | some path => return some path
      | none => findIn disk relative dirs

/-- A name with slashes for its backslashes. -/
def withSlashes (name : Text) : Text :=
  name.map fun b => if b = Byte.backslash then Byte.slash else b

/-- The path of the file that an include names. -/
def find (disk : Disk m) (dirs : List Text) (name : Text) : m (Except SearchFailure Text) := do
  let relative := withSlashes name
  if Path.isAbsolute relative then
    if ← disk.isFile relative then return .ok (Path.clean relative)
    else return .error (.absentPath relative)
  else
    match ← findIn disk relative dirs with
    | some path => return .ok path
    | none => return .error (.notFound name dirs.length)

/-- The text of the file that an include names. -/
def resolve (disk : Disk m) (dirs : List Text) (name : Text) : m (Except SearchFailure Text) := do
  match ← find disk dirs name with
  | .error failure => return .error failure
  | .ok path =>
    match ← disk.read path with
    | .error failure => return .error (.unreadable failure)
    | .ok text => return .ok text

/-- The resolver that searches directories. -/
def resolver (disk : Disk m) (dirs : List Text) : Resolver m := fun request =>
  resolve disk dirs request.name

end Search

/-- The contents of the files of a tree. -/
def FileTree.contents (t : FileTree) : List Text :=
  t.entries.filterMap fun e => match e.2 with
    | .file content => some content
    | _ => none

/-- A nesting depth that includes of the files of a tree never reach. Every level of nesting has a
name of its own, and every name stands on a line of the root document or of a file. -/
def FileTree.nestingBound (t : FileTree) (root : Text) : Nat :=
  (root :: t.contents).foldl (fun n text => n + (Text.lines text).length) 1

end HeaderMacros
