set_option autoImplicit false

/-!
# Files: paths

A path as a list of names.  Reading a path drops the parts that say nothing, that is
empty ones and `.`, and keeps `..`, which cannot be dropped without looking at the
files.  The suffix of a name starts at its last dot, unless that is the name's first
or last character.
-/

namespace VmToHack

/-- A path. -/
structure Path where
  /-- The slashes with which the path starts: none, one, or exactly two. -/
  root : String := ""
  parts : List String := []
  deriving DecidableEq, Repr, Inhabited

/-- The pieces of a text between slashes, empty ones included. -/
def splitSlashes : List Char → List (List Char)
  | [] => [[]]
  | c :: cs =>
    if c = '/' then [] :: splitSlashes cs
    else
      match splitSlashes cs with
      | [] => [[c]]
      | piece :: pieces => (c :: piece) :: pieces

/-- The components of a path as it is written. -/
def components (path : String) : List String := (splitSlashes path.toList).map String.ofList

namespace Path

/-- Reads a path.  Two slashes at the start are kept, more are one. -/
def ofString (s : String) : Path where
  root :=
    match (s.toList.takeWhile (· = '/')).length with
    | 0 => ""
    | 2 => "//"
    | _ => "/"
  parts := (components s).filter fun part => part ≠ "" && part ≠ "."

/-- Writes a path; the one without parts is the current directory. -/
def text (p : Path) : String :=
  if p.root = "" && p.parts.isEmpty then "." else p.root ++ "/".intercalate p.parts

/-- The last name of a path, empty if it has none. -/
def name (p : Path) : String := (p.parts.getLast?).getD ""

/-- A name in front of its suffix, and the suffix. -/
def splitName (name : String) : String × String :=
  let back := name.toList.reverse
  match back.dropWhile (· ≠ '.') with
  | '.' :: c :: cs =>
    match back.takeWhile (· ≠ '.') with
    | [] => (name, "")
    | ext => (String.ofList (c :: cs).reverse, String.ofList ('.' :: ext.reverse))
  | _ => (name, "")

/-- The suffix of the last name. -/
def suffix (p : Path) : String := (splitName p.name).2

/-- The path with another last name. -/
def withName (p : Path) (name : String) : Path := { p with parts := p.parts.dropLast ++ [name] }

/-- The path with another suffix. -/
def withSuffix (p : Path) (suffix : String) : Path :=
  p.withName ((splitName p.name).1 ++ suffix)

/-- The path of a name in a directory. -/
def child (p : Path) (name : String) : Path := { p with parts := p.parts ++ [name] }

@[simp] theorem name_child (p : Path) (name : String) : (p.child name).name = name := by
  simp [child, Path.name]

@[simp] theorem name_withName (p : Path) (name : String) : (p.withName name).name = name := by
  simp [withName, Path.name]

end Path

end VmToHack
