import ByteJump.Resolve.Stmt

set_option autoImplicit false

/-!
# Sessions

A session resolves main files one after the other and keeps the imports it has resolved on the way,
also those of a main file that failed.  Imports nest no deeper than there are files, since a file
is not imported while it is being resolved.
-/

namespace ByteJump

/-- A session: where files come from, the imports resolved so far, and how many main files were
resolved. -/
structure Session where
  source : FileSource
  searchPaths : List Path
  imports : Resolve.Imports
  turn : Nat

namespace Session

/-- A session in which nothing was resolved. -/
def start (source : FileSource) (searchPaths : List Path) : Session :=
  ⟨source, searchPaths, [], 0⟩

/-- A file resolved below the active files, with imports nesting at most `levels` deep. -/
def resolveFile (source : FileSource) (searchPaths : List Path) :
    Nat → List Path → FileUnit → Path → Syntax.Program → Resolve.Loading Program
  | levels, active, unit, file, tree =>
    let active := active ++ [file]
    let importFile : Path → Resolve.Loading Program :=
      match levels with
      | 0 => fun identity => throw (.internal ("imports nest too deep at " ++ identity.text))
      | levels + 1 => fun identity =>
          match source.load identity with
          | .error fault => throw fault
          | .ok tree => do
              let program ←
                resolveFile source searchPaths levels active (.library identity.key) identity tree
              modify fun imports => (identity.key, program) :: imports
              return program
    Resolve.file ⟨unit, file, ⟨0⟩, searchPaths, source, active, importFile⟩ tree

/-- The next main file, given its tree and the path that names it, and the session after it. -/
def resolve (session : Session) (tree : Syntax.Program) (file : Path) :
    Except Fault Program × Session :=
  let levels := session.source.count + 1
  let run :=
    resolveFile session.source session.searchPaths levels [] (.main session.turn) file tree
  match run.run session.imports with
  | .ok program imports =>
      (.ok program, { session with imports := imports, turn := session.turn + 1 })
  | .error fault imports =>
      (.error fault, { session with imports := imports, turn := session.turn + 1 })

/-- The next main file, loaded from its path. -/
def resolvePath (session : Session) (path : Path) : Except Fault Program × Session :=
  match session.source.load path with
  | .error fault => (.error fault, session)
  | .ok tree => session.resolve tree (session.source.identity path)

end Session

end ByteJump
