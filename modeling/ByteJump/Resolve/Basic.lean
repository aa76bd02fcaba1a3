import ByteJump.Constant
import ByteJump.FileSource

set_option autoImplicit false

/-!
# Resolving names: state

While a file is resolved its scopes grow, its declarations are numbered, and its exports and
pragmas are collected.  Files that are imported are resolved once and kept; what is kept survives a
fault, everything else about a faulty file is forgotten.
-/

namespace ByteJump.Resolve

/-- Resolved imports by the path of the file; a file is added once and stays. -/
abbrev Imports : Type := List (Path.Key × Program)

/-- A computation that may resolve imports; those that were resolved stay also after a fault. -/
abbrev Loading (α : Type) : Type := EStateM Fault Imports α

/-- What is known about the file so far. -/
structure State where
  scopes : Scopes
  /-- how many declarations there are -/
  declared : Nat
  exports : Exports
  pragmas : Pragmas

/-- A computation inside a file. -/
abbrev Resolving (α : Type) : Type := StateT State (EStateM Fault Imports) α

/-- What a file is resolved in. -/
structure Context where
  /-- the unit its declarations belong to -/
  unit : FileUnit
  /-- the path its locations name -/
  file : Path
  builtins : Builtins
  /-- the directories imports are looked for in, in order -/
  searchPaths : List Path
  source : FileSource
  /-- the files that are being resolved, this one last -/
  active : List Path
  /-- the program of a file that is not being resolved, by its identity -/
  importFile : Path → Loading Program

/-- The state before the first statement of a file. -/
def State.start (b : Builtins) : State := ⟨.ofBuiltins b, 0, .none, .default⟩

/-- A span of the file as a location. -/
def Context.locate (ctx : Context) (span : Span) : Location := ⟨ctx.file, span⟩

/-- A fault ends the resolution of the file. -/
def fail {α : Type} (fault : Fault) : Resolving α := throw fault

/-- The value, unless there is a fault instead. -/
def ofExcept {α : Type} : Except Fault α → Resolving α
  | .ok a => pure a
  | .error fault => fail fault

/-- The scopes changed. -/
def updateScopes (change : Scopes → Scopes) : Resolving Unit :=
  modify fun s => { s with scopes := change s.scopes }

/-- The identity of the next declaration. -/
def declare (ctx : Context) : Resolving DeclId := do
  let s ← get
  set { s with declared := s.declared + 1 }
  return ⟨ctx.unit, s.declared⟩

end ByteJump.Resolve
