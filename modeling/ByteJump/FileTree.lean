import ByteJump.FileSource

set_option autoImplicit false

/-!
# File trees

A tree of directories and files in which paths are followed step by step from a working directory:
every step but the last has to lead to a directory, an empty step and `.` stay where they are, and
`..` leads to the parent.  So a file followed by a slash is no file, and neither is anything
reached through a directory that is not there.  The canonical path of a place is the one without
any of these.

A path can be too long to open a file by it.  Its canonical path is found all the same, because the
steps are followed one at a time, unless it comes by a place whose own canonical path is too long.
-/

-- powers of natural numbers are the built-in ones
attribute [local instance (high)] instPowNat

namespace ByteJump

/-- Directories and files by their names from the root, and the directory relative paths start
in. -/
structure FileTree where
  working : List String
  directories : List (List String)
  files : List (List String × ByteArray)

namespace FileTree

/-- What is at a place. -/
inductive Entry where
  | directory
  | file (contents : ByteArray)

/-- What the names from the root lead to.  A directory is there when it was made, when it holds
something, or when it leads to the working directory. -/
def entry? (tree : FileTree) (names : List String) : Option Entry :=
  match tree.files.lookup names with
  | some contents => some (.file contents)
  | none =>
      if names.isPrefixOf tree.working || tree.directories.any names.isPrefixOf
          || tree.files.any fun file => names.isPrefixOf file.1 then some .directory
      else none

/-! ## Following paths -/

/-- The place one step away, both given by their names, last first. -/
def next (place : List String) (step : List Char) : List String :=
  if Path.isIdle step then place
  else if step = ['.', '.'] then place.tail
  else String.ofList step :: place

/-- Where the steps of a path start, by its names, last first. -/
def start (tree : FileTree) (path : Path) : List String :=
  if path.isAbsolute then [] else tree.working.reverse

/-- The names from the root of the place the steps lead to, from a place given by its names, last
first. -/
def follow (tree : FileTree) : List String → List (List Char) → Option (List String)
  | place, [] => some place.reverse
  | place, step :: steps =>
      match tree.entry? place.reverse with
      | some .directory => follow tree (next place step) steps
      | _ => none

/-- The place a path leads to, if there is something. -/
def locate (tree : FileTree) (path : Path) : Option (List String × Entry) :=
  if path.text.isEmpty then none
  else do
    let place ← tree.follow (tree.start path) (Path.pieces path.text.toList)
    let entry ← tree.entry? place
    return (place, entry)

/-- The path of a place from the root. -/
def canonical (names : List String) : Path := ⟨"/" ++ "/".intercalate names⟩

/-- The contents of the file at a path. -/
def contents? (tree : FileTree) (path : Path) : Option ByteArray :=
  if path.isTooLong then none
  else
    match tree.locate path with
    | some (_, .file contents) => some contents
    | _ => none

/-- The text of the file at a path. -/
def text (tree : FileTree) (path : Path) : Except LoadFault String :=
  match (tree.contents? path).bind fun contents => String.fromUTF8? contents with
  | some text => .ok text
  | none => .error .unreadable

/-! ## Making directories and files -/

/-- The places that steps come by, from a place given by its names, last first; none of them has
to be there. -/
def places : List String → List (List Char) → List (List String)
  | place, [] => [place.reverse]
  | place, step :: steps => place.reverse :: places (next place step) steps

/-- The places a path comes by. -/
def route (tree : FileTree) (path : Path) : List (List String) :=
  places (tree.start path) (Path.pieces path.text.toList)

/-- The tree with all directories that a path comes by. -/
def makeDirectory (tree : FileTree) (path : Path) : FileTree :=
  { tree with directories := tree.route path ++ tree.directories }

/-- The tree with a file at a path and all directories that the path comes by.  It takes the place
of a file that was there before. -/
def write (tree : FileTree) (path : Path) (contents : ByteArray) : FileTree :=
  let route := tree.route path
  match route.getLast? with
  | some place =>
      { tree with
        directories := route.dropLast ++ tree.directories,
        files := (place, contents) :: tree.files }
  | none => tree

/-! ## Trees as sources -/

/-- The canonical path of what a path leads to, if there is one. -/
def canonical? (tree : FileTree) (path : Path) : Option Path := do
  let (place, _) ← tree.locate path
  if (tree.route path).any fun passed => (canonical passed).isTooLong then none
  else some (canonical place)

/-- A tree without files in which the directory with the given names is the working directory. -/
def ofWorking (working : List String) : FileTree := ⟨working, [], []⟩

/-- The files of a tree as a source of syntax trees.  The identity of a path is its canonical path;
a path without one stands for itself.  Either way the identity of a file has at most
`Path.maxBytes` bytes, so there are fewer of them than numbers of one byte more. -/
def source (tree : FileTree) : FileSource where
  contains path := (tree.contents? path).isSome
  identity path := (tree.canonical? path).getD path
  load path :=
    match tree.text path with
    | .error reason => .error (.load path reason)
    | .ok text => (Syntax.fromText text).mapError fun fault => .load path (.undecodable fault)
  count := 256 ^ (Path.maxBytes + 1)

end FileTree

end ByteJump
