import HeaderMacros.CommandLine.Plan

/-!
# The program

The command line on the files, the environment and the outputs of the system.
-/

namespace HeaderMacros.Program

/-- The bytes of a string. -/
def bytes (s : String) : Text := s.toUTF8.toList

/-- The string of some bytes. Bytes that are no UTF-8 make it empty. -/
def string (text : Text) : String := (String.fromUTF8? ⟨text.toArray⟩).getD ""

/-- Why an operation on a file failed. -/
def reasonOf : IO.Error → FileReason
  | .noFileOrDirectory _ _ _ => .missing
  | .permissionDenied _ _ _ => .denied
  | .inappropriateType _ code _ => if code = 20 then .notDirectory else .isDirectory
  | .invalidArgument _ code _ => if code = 36 then .nameTooLong else .invalid
  | .resourceExhausted _ code _ => if code = 36 then .nameTooLong else .full
  | _ => .invalid

/-- Opens a file. -/
def openFile (path : Text) (mode : IO.FS.Mode) : IO (Except FileFailure IO.FS.Handle) := do
  match FileTree.pathReason? path with
  | some reason => return .error ⟨.opening, path, reason⟩
  | none =>
    try
      return .ok (← IO.FS.Handle.mk (string path) mode)
    catch e => return .error ⟨.opening, path, reasonOf e⟩

/-- The content of a file. -/
def readFile (path : Text) : IO (Except FileFailure Text) := do
  match ← openFile path .read with
  | .error failure => return .error failure
  | .ok file =>
    try
      return .ok (← file.readBinToEnd).toList
    catch e => return .error ⟨.reading, path, reasonOf e⟩

/-- Writes a file, which is created or emptied first. -/
def writeFile (path content : Text) : IO (Except FileFailure Unit) := do
  match ← openFile path .write with
  | .error failure => return .error failure
  | .ok file =>
    try
      file.write ⟨content.toArray⟩
      file.flush
      return .ok ()
    catch e => return .error ⟨.writing, path, reasonOf e⟩

/-- Whether something other than a directory stands under a path. -/
def isFile (path : Text) : IO Bool := do
  if (FileTree.pathReason? path).isSome then return false
  else
    try
      let place := (← IO.currentDir).join (string path)
      return (← place.metadata).type != .dir
    catch _ => return false

/-- The names in the directory under a path, in the order of their bytes. -/
def list? (path : Text) : IO (Option (List Text)) := do
  if (FileTree.pathReason? path).isSome then return none
  else
    try
      let place := (← IO.currentDir).join (string path)
      let entries ← place.readDir
      return some ((entries.toList.map fun e => bytes e.fileName).mergeSort Text.precedes)
    catch _ => return none

/-- The files of the system. -/
def disk : Disk IO where
  isFile := isFile
  list? := list?
  read := readFile

/-- The value of an environment variable. -/
def value (name : Text) : IO Text := do
  return ((← IO.getEnv (string name)).map bytes).getD []

/-- The environment of the process. -/
def environment : IO Settings.Environment := do
  return {
    searchList := ← value Settings.Environment.searchListName
    flags := ← value Settings.Environment.flagsName
    verbose := ← value Settings.Environment.verboseName }

/-- A nesting depth of includes beyond any that occurs. -/
def depth : Nat := 0x100000000

/-- Writes to a stream. -/
def put (stream : IO.FS.Stream) (text : Text) : IO Unit := do
  stream.write ⟨text.toArray⟩
  stream.flush

/-- Carries a plan out and gives the exit code. -/
def carryOut : CommandLine.Plan → IO Nat
  | .stop code message => do
    put (← IO.getStderr) message
    return code
  | .deliver notes output records => do
    put (← IO.getStderr) notes
    if output = [] then
      put (← IO.getStdout) records
      return CommandLine.successCode
    else
      match ← writeFile output records with
      | .ok _ => return CommandLine.successCode
      | .error failure =>
        put (← IO.getStderr) (CommandLine.messageLine failure.message)
        return CommandLine.failureCode

end HeaderMacros.Program

/-- Runs the command line. -/
def main (arguments : List String) : IO UInt32 := do
  let e ← HeaderMacros.Program.environment
  let plan ← HeaderMacros.CommandLine.plan HeaderMacros.Program.disk
    (fun _ => HeaderMacros.Program.depth) e (arguments.map HeaderMacros.Program.bytes) .standard
  return UInt32.ofNat (← HeaderMacros.Program.carryOut plan)
