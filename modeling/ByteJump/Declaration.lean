import ByteJump.Path

set_option autoImplicit false

/-!
# Identities of declarations

Names repeat; declarations do not.  A declaration is identified by the unit it belongs to and its
number there.  A library file is one unit however often it is imported, and its identity is the
path of the file; a main file is a unit of its own each time it is resolved.
-/

namespace ByteJump

/-- A file resolved once: the main file of a turn of a session, or a library file. -/
inductive FileUnit where
  | main (turn : Nat)
  | library (file : Path.Key)
  deriving DecidableEq, Repr

/-- A declaration: its unit, and how many declarations of the unit came before it. -/
structure DeclId where
  unit : FileUnit
  number : Nat
  deriving DecidableEq, Repr

end ByteJump
