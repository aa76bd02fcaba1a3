import ByteJump.Location
import ByteJump.Ty

set_option autoImplicit false

/-!
# Scopes

The scopes of a file form a tree that only grows: a closed scope stays, so that a label used in it
can still be looked up when the whole file is known.  Each scope knows its ancestors, itself first,
and a name means what the first of them that declares it says.  Within one scope the last
declaration of a name counts.
-/

namespace ByteJump

/-- A variable: one register, or as many as an array has elements. -/
structure Variable where
  id : DeclId
  name : String
  type : Ty
  /-- the number of elements, for arrays -/
  count : Option Nat
  site : Location
  deriving Repr

/-- A label: a name for the address at which a statement starts. -/
structure Label where
  id : DeclId
  name : String
  /-- seen by the files that import this one -/
  exported : Bool
  site : Location
  deriving Repr

/-- The declarations of one scope, last first, and the scopes around it, itself first. -/
structure Scopes.Frame where
  types : List (String × Ty)
  vars : List (String × Variable)
  labels : List (String × Label)
  chain : List Nat
  deriving Repr

/-- The scopes of a file by number, and the scope that is open. -/
structure Scopes where
  frames : Array Scopes.Frame
  current : Nat
  deriving Repr

namespace Scopes

/-- The outermost scope, with the builtin types in it. -/
def ofBuiltins (b : Builtins) : Scopes := ⟨#[⟨b.named, [], [], [0]⟩], 0⟩

/-- The scopes from `scope` outwards. -/
def chain (s : Scopes) (scope : Nat) : List Nat :=
  match s.frames[scope]? with
  | some frame => frame.chain
  | none => []

/-! ## Opening and closing -/

/-- A new scope inside the open one. -/
def push (s : Scopes) : Scopes :=
  let scope := s.frames.size
  ⟨s.frames.push ⟨[], [], [], scope :: s.chain s.current⟩, scope⟩

/-- Back to the scope around the open one; the outermost scope stays open. -/
def pop (s : Scopes) : Scopes :=
  match s.chain s.current with
  | _ :: parent :: _ => { s with current := parent }
  | _ => s

/-! ## Declaring -/

/-- The scopes with the open one changed. -/
def modify (s : Scopes) (change : Frame → Frame) : Scopes :=
  { s with frames := s.frames.modify s.current change }

/-- A type declared in the open scope. -/
def defineType (s : Scopes) (name : String) (type : Ty) : Scopes :=
  s.modify fun frame => { frame with types := (name, type) :: frame.types }

/-- A variable declared in the open scope. -/
def defineVariable (s : Scopes) (v : Variable) : Scopes :=
  s.modify fun frame => { frame with vars := (v.name, v) :: frame.vars }

/-- A label declared in the open scope. -/
def defineLabel (s : Scopes) (label : Label) : Scopes :=
  s.modify fun frame => { frame with labels := (label.name, label) :: frame.labels }

/-! ## Looking up -/

/-- What the first scope of a chain that declares the name says. -/
def findIn {α : Type} (s : Scopes) (select : Frame → List (String × α)) (scopes : List Nat)
    (name : String) : Option α :=
  scopes.findSome? fun scope =>
    match s.frames[scope]? with
    | some frame => (select frame).lookup name
    | none => none

/-- The type a name means in the open scope. -/
def findType (s : Scopes) (name : String) : Option Ty :=
  s.findIn Frame.types (s.chain s.current) name

/-- The variable a name means in the open scope. -/
def findVariable (s : Scopes) (name : String) : Option Variable :=
  s.findIn Frame.vars (s.chain s.current) name

/-- The label a name means in a scope. -/
def findLabel (s : Scopes) (scope : Nat) (name : String) : Option Label :=
  s.findIn Frame.labels (s.chain scope) name

end Scopes

end ByteJump
