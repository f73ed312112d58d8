import Fibers.Settings.Basic

/-!
# Settings in files

Settings are kept in a file with a name of its own.  They are looked for in a
directory, then in the one that holds it, and so on; where there is no such file the
settings are the standard ones.

A tree of files is given by what is found at the paths that are known.  A directory
that holds something is known by that.  A text with slashes leads from the root of the
tree, name by name, to a place in it or outside of it; two dots lead back to the
directory that holds the place.

## Main definitions

* `Node`, `FileTree` — what is found at a path, and all of it.
* `Path.spelled?`, `FileTree.resolve?` — the path that a text stands for, as it is
  spelled and as it is found.
* `FileTree.put` — a tree with something more in it.
* `FileTree.settingsAt`, `FileTree.settingsFor` — the settings in a file, and those
  for a directory.

## Main results

* `Path.step_step_dots` — two dots lead back to where a name has led away from.
-/

namespace Fibers

/-- The names from the root of a tree to a place in it. -/
abbrev Path := List String

namespace Path

/-- The place to which one name leads from a place.  `none` stands for a place outside
of the tree, from which no name leads back. -/
def step (place : Option Path) (name : String) : Option Path :=
  if name = "" ∨ name = "." then place
  else place.bind fun path =>
    if name ≠ ".." then some (path ++ [name])
    else if path.isEmpty then none
    else some path.dropLast

@[simp] theorem step_none (name : String) : step none name = none := by simp [step]

/-- Two dots lead back to the place that a name has led away from. -/
theorem step_step_dots {path : Path} {name : String} (hempty : name ≠ "") (hdot : name ≠ ".")
    (hdots : name ≠ "..") : step (step (some path) name) ".." = some path := by
  simp [step, hempty, hdot, hdots]

/-- The path that a text with slashes spells out, if it leads to a place in the
tree. -/
def spelled? (text : String) : Option Path :=
  if text.startsWith "/" then none else (text.splitOn "/").foldl step (some [])

end Path

/-- What is found at a path. -/
inductive Node where
  /-- A file with the given contents. -/
  | file (contents : ByteArray)
  /-- A directory. -/
  | directory
  deriving Inhabited

/-- What is found at the paths that are known, the last one given first. -/
structure FileTree where
  /-- The paths, with what is found there. -/
  nodes : List (Path × Node) := []
  deriving Inhabited

namespace FileTree

/-- The name of the files that hold settings. -/
def settingsName : String := "strand.toml"

/-- Puts something at a path. -/
def add (t : FileTree) (path : Path) (node : Node) : FileTree := ⟨(path, node) :: t.nodes⟩

/-- The contents of the file at a path, if there is a file. -/
def contents? (t : FileTree) (path : Path) : Option ByteArray :=
  match t.nodes.lookup path with
  | some (.file contents) => some contents
  | _ => none

/-- Whether there is a directory at a path. -/
def isDirectory (t : FileTree) (path : Path) : Bool :=
  path.isEmpty || t.nodes.any fun (other, node) =>
    match node with
    | .directory => path.isPrefixOf other
    | .file _ => path.isPrefixOf other && path != other

/-- Makes the directory to which one name leads from a place, if it is in the tree and
not there yet. -/
def enter (t : FileTree) (place : Option Path) (name : String) : FileTree × Option Path :=
  match Path.step place name with
  | some path => (if t.isDirectory path then t else t.add path .directory, some path)
  | none => (t, none)

/-- Puts something at the place to which names lead from a place.  All places on the way
are directories, which are made where they are missing. -/
def putFrom (t : FileTree) (place : Option Path) (node : Node) : List String → FileTree
  | [] => t
  | [name] =>
    match Path.step place name with
    | some path => t.add path node
    | none => t
  | name :: names =>
    let (t, place) := t.enter place name
    t.putFrom place node names

/-- Puts something at the path that a text with slashes spells out. -/
def put (t : FileTree) (text : String) (node : Node) : FileTree :=
  if text.startsWith "/" then t else t.putFrom (some []) node (text.splitOn "/")

/-- Follows one name from a directory. -/
def follow (t : FileTree) (path : Path) (name : String) : Option Path :=
  if !t.isDirectory path then none
  else if name = "" ∨ name = "." then some path
  else if name = ".." then if path.isEmpty then none else some path.dropLast
  else some (path ++ [name])

/-- The path that a text with slashes stands for, inside the tree. -/
def resolve? (t : FileTree) (text : String) : Option Path :=
  if text.startsWith "/" then none else (text.splitOn "/").foldlM t.follow []

/-- The settings in the file at a path. -/
def settingsAt (t : FileTree) (path : Option Path) : Except SettingsError Settings :=
  match (path.bind t.contents?).bind String.fromUTF8? with
  | some text => Settings.ofText text
  | none => .error .unreadable

/-- The directories from a place up to the root. -/
def upwards (path : Path) : List Path :=
  (List.range (path.length + 1)).reverse.map fun n => path.take n

/-- The nearest file with settings, from a directory upwards. -/
def nearest? (t : FileTree) (directory : Path) : Option Path :=
  ((upwards directory).map (· ++ [settingsName])).find? fun path => (t.contents? path).isSome

/-- The settings for a directory.  There is no file with settings outside of the
tree. -/
def settingsFor (t : FileTree) (directory : Option Path) : Except SettingsError Settings :=
  match directory.bind t.nearest? with
  | some path => t.settingsAt (some path)
  | none => .ok {}

end FileTree

end Fibers
