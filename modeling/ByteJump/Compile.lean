import ByteJump.Generate
import ByteJump.Session

set_option autoImplicit false

/-!
# Compiling

A compilation loads a tree, resolves it in a session of its own and generates its image.
-/

namespace ByteJump

/-- Where files come from and where imports are looked for. -/
structure Compiler where
  source : FileSource
  searchPaths : List Path

namespace Compiler

/-- The program of a tree; `identity` names the file in locations and in cycles of imports. -/
def resolve (c : Compiler) (tree : Syntax.Program) (identity : Path) : Except Fault Program :=
  ((Session.start c.source c.searchPaths).resolve tree identity).1

/-- The image of a tree. -/
def compileTree (c : Compiler) (tree : Syntax.Program) (identity : Path) :
    Except Fault Artifact := do
  let program ← c.resolve tree identity
  (program.generate .none).1

/-- The image of the file at a path. -/
def compileFile (c : Compiler) (path : Path) : Except Fault Artifact := do
  let tree ← c.source.load path
  c.compileTree tree (c.source.identity path)

end Compiler

end ByteJump
