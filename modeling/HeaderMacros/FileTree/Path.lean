import HeaderMacros.Text.Basic

/-!
# Paths

Paths are texts whose components stand between slashes. The operations here work on the text alone
and look at no file.
-/

namespace HeaderMacros.Path

/-- The component that stands for the directory itself. -/
def here : Text := [Byte.dot]

/-- The component that stands for the directory above. -/
def above : Text := [Byte.dot, Byte.dot]

/-- The components of a path. -/
def components (path : Text) : List Text := Text.splitOn Byte.slash path

/-- Whether a path starts at the root. -/
def isAbsolute (path : Text) : Bool := path.head? == some Byte.slash

/-- Adds a component to cleaned components, which are in reverse: empty components and those for
the directory itself are dropped, and one for the directory above cancels the component before
it. -/
def cleanStep (rooted : Bool) (done : List Text) (component : Text) : List Text :=
  if component = [] ∨ component = here then done
  else if component = above then
    match done with
    | [] => if rooted then [] else [above]
    | last :: rest => if last = above then above :: done else rest
  else component :: done

/-- The shortest path that names the same place as long as no component is a link. -/
def clean (path : Text) : Text :=
  let rooted := isAbsolute path
  let cleaned :=
    Text.join [Byte.slash] ((components path).foldl (cleanStep rooted) []).reverse
  if rooted then Byte.slash :: cleaned else if cleaned = [] then here else cleaned

/-- A path below another one, cleaned. An empty part is left out. -/
def join (dir rest : Text) : Text :=
  if dir = [] then if rest = [] then [] else clean rest
  else clean (dir ++ Byte.slash :: rest)

end HeaderMacros.Path
