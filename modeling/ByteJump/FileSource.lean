import ByteJump.Fault
import ByteJump.Syntax.Format

set_option autoImplicit false

/-!
# File sources

Imports ask three things of the place files come from: whether a path names a file, which path
stands for that file in comparisons, and the tree in it.  A source of finitely many files bounds
how deep imports of files that are not yet being read can nest.
-/

namespace ByteJump

/-- Where trees come from. -/
structure FileSource where
  /-- the path names a file -/
  contains : Path → Bool
  /-- the path that stands for the file in comparisons -/
  identity : Path → Path
  /-- the tree of the file -/
  load : Path → Except Fault Syntax.Program
  /-- no more files than this have different identities -/
  count : Nat

/-! ## Files in memory -/

/-- Trees by path, the newest first; of two spellings of a path the newer counts. -/
abbrev MemoryFiles : Type := List (Path × Syntax.Program)

namespace MemoryFiles

/-- One more file. -/
def insert (files : MemoryFiles) (path : Path) (tree : Syntax.Program) : MemoryFiles :=
  (path, tree) :: files

/-- The tree at a path. -/
def find? (files : MemoryFiles) (path : Path) : Option Syntax.Program :=
  (List.find? (fun file => file.1.same path) files).map Prod.snd

/-- The files as a source; a path stands for itself. -/
def source (files : MemoryFiles) : FileSource where
  contains path := (files.find? path).isSome
  identity path := path
  load path :=
    match files.find? path with
    | some tree => .ok tree
    | none => .error (.load path .noSuchFile)
  count := files.length

end MemoryFiles

end ByteJump
