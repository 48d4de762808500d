import HeaderMacros.FileTree.Failure
import HeaderMacros.FileTree.Path

/-!
# File trees

A finite tree of directories, regular files and two kinds of device, with a working directory. Every
entry stands under the list of its components from the root; there are no links.

A path is walked component by component, so that a component below something that is no directory
is an error of its own, and one for the directory above works only in a directory that exists.
-/

namespace HeaderMacros

/-- What stands under a name. -/
inductive FileEntry where
  /-- A directory. -/
  | directory
  /-- A regular file with its content. -/
  | file (content : Text)
  /-- A device that forgets what is written to it. -/
  | sink
  /-- A device that has no room for anything. -/
  | fullDevice
  deriving DecidableEq, Repr

/-- Whether an entry is a directory. -/
def FileEntry.isDirectory : FileEntry → Bool
  | .directory => true
  | _ => false

/-- A tree of files. -/
structure FileTree where
  /-- The entries, each under its components from the root. -/
  entries : List (List Text × FileEntry)
  /-- The components of the working directory. -/
  workingDirectory : List Text

namespace FileTree

/-- The entry under some components; the root is a directory. -/
def get? (t : FileTree) (place : List Text) : Option FileEntry :=
  if place = [] then some .directory else t.entries.lookup place

/-- The longest component of a path. -/
def maxComponentLength : Nat := 255

/-- The length at which a path is too long. -/
def maxPathLength : Nat := 4096

/-- The place that some components lead to from a place that exists. An empty component stands for
the directory itself. -/
def walk (t : FileTree) (place : List Text) : List Text → Except FileReason (List Text)
  | [] => .ok place
  | component :: rest =>
    -- Even a component that goes nowhere needs a directory to start from.
    if !((t.get? place).any FileEntry.isDirectory) then .error .notDirectory
    else if component = [] ∨ component = Path.here then walk t place rest
    else if component = Path.above then walk t place.dropLast rest
    else if maxComponentLength < component.length then .error .nameTooLong
    else if (t.get? (place ++ [component])).isNone then .error .missing
    else walk t (place ++ [component]) rest

/-- Where the walk along a path starts. -/
def start (t : FileTree) (path : Text) : List Text :=
  if Path.isAbsolute path then [] else t.workingDirectory

/-- What is wrong with a path before any walk. -/
def pathReason? (path : Text) : Option FileReason :=
  if path = [] then some .missing
  else if path.contains 0 then some .invalid
  else if maxPathLength ≤ path.length then some .nameTooLong
  else none

/-- The place that a path leads to. -/
def locate (t : FileTree) (path : Text) : Except FileReason (List Text) :=
  match pathReason? path with
  | some reason => .error reason
  | none => t.walk (t.start path) (Path.components path)

/-- What stands under a path. -/
def stat (t : FileTree) (path : Text) : Except FileReason FileEntry := do
  let place ← t.locate path
  match t.get? place with
  | some entry => .ok entry
  | none => .error .missing

/-- Whether something other than a directory stands under a path. -/
def isFile (t : FileTree) (path : Text) : Bool :=
  match t.stat path with
  | .ok entry => !entry.isDirectory
  | .error _ => false

/-- The content of the file under a path. -/
def read (t : FileTree) (path : Text) : Except FileFailure Text :=
  match t.stat path with
  | .error reason => .error ⟨.opening, path, reason⟩
  | .ok .directory => .error ⟨.reading, path, .isDirectory⟩
  | .ok (.file content) => .ok content
  | .ok .sink => .ok []
  | .ok .fullDevice => .ok []

/-- The name of an entry in a directory, if it is in that directory. -/
def childName? (directory place : List Text) : Option Text :=
  match place.getLast? with
  | some name => if place.dropLast = directory then some name else none
  | none => none

/-- The names of the entries of the directory under a path, in the order of their bytes. -/
def list? (t : FileTree) (path : Text) : Option (List Text) :=
  match t.locate path with
  | .error _ => none
  | .ok place =>
    if (t.get? place).any FileEntry.isDirectory then
      some ((t.entries.filterMap fun e => childName? place e.1).mergeSort Text.precedes)
    else none

/-- Puts an entry under some components, in the place of what is there. -/
def put (t : FileTree) (place : List Text) (entry : FileEntry) : FileTree :=
  { t with entries := (place, entry) :: t.entries.filter fun e => e.1 != place }

/-- The place of a file that is to be written. All but the last component must exist, and the last
one must be able to name a file. -/
def target (t : FileTree) (path : Text) : Except FileReason (List Text) :=
  match pathReason? path with
  | some reason => .error reason
  | none =>
    let parts := Path.components path
    -- Slashes at the end only say that a directory is meant.
    match parts.reverse.dropWhile (· == []) with
    | [] => .error .isDirectory
    | last :: front => do
      let directory ← t.walk (t.start path) front.reverse
      if !((t.get? directory).any FileEntry.isDirectory) then .error .notDirectory
      else if parts.getLast? = some [] ∨ last = Path.here ∨ last = Path.above then
        .error .isDirectory
      else if maxComponentLength < last.length then .error .nameTooLong
      else .ok (directory ++ [last])

/-- Writes a file, which is created or emptied first. -/
def write (t : FileTree) (path content : Text) : Except FileFailure FileTree :=
  match t.target path with
  | .error reason => .error ⟨.opening, path, reason⟩
  | .ok place =>
    match t.get? place with
    | some .directory => .error ⟨.opening, path, .isDirectory⟩
    | some .sink => .ok t
    | some .fullDevice => if content = [] then .ok t else .error ⟨.writing, path, .full⟩
    | _ => .ok (t.put place (.file content))

/-- A file tree with a file added, and the directories above it. -/
def addFile (t : FileTree) (place : List Text) (entry : FileEntry) : FileTree :=
  let parents := (List.range place.length).map place.take
  (parents.foldl (fun t p => if (t.get? p).isSome then t else t.put p .directory) t).put
    place entry

end FileTree

end HeaderMacros
