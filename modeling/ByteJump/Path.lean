set_option autoImplicit false

/-!
# File paths

A path is shown as it was spelled and compared by its components.  Slashes separate components;
empty components do not count, nor does `.` except as the first component of a relative path; `..`
is a component like any other.  `Path.key` is what two spellings of one path have in common.
-/

namespace ByteJump

/-- A path as spelled. -/
structure Path where
  text : String
  deriving Repr, Inhabited

/-- What spellings of one path share: whether it starts at the root, and its components. -/
structure Path.Key where
  absolute : Bool
  components : List String
  deriving DecidableEq, Repr

namespace Path

/-- The pieces of a text between slashes, empty ones included. -/
def pieces : List Char → List (List Char)
  | [] => [[]]
  | c :: cs =>
      if c = '/' then [] :: pieces cs
      else
        match pieces cs with
        | [] => [[c]]
        | piece :: rest => (c :: piece) :: rest

/-- A piece that names no component. -/
def isIdle (piece : List Char) : Bool := piece = [] || piece = ['.']

/-- The path starts at the root. -/
def isAbsolute (p : Path) : Bool := p.text.toList.head? = some '/'

/-- The components of a path and whether it starts at the root. -/
def key (p : Path) : Key :=
  let named := fun ps : List (List Char) =>
    (ps.filter fun piece => !isIdle piece).map String.ofList
  match pieces p.text.toList with
  | ['.'] :: rest => ⟨false, "." :: named rest⟩
  | ps => ⟨p.isAbsolute, named ps⟩

/-- Two spellings name the same path. -/
def same (p q : Path) : Bool := p.key = q.key

theorem same_iff {p q : Path} : p.same q = true ↔ p.key = q.key := by
  simp [same]

/-- The path `name` seen from the directory `dir`: an absolute name stands for itself, and so does
any name in the empty directory. -/
def join (dir : Path) (name : String) : Path :=
  if (Path.mk name).isAbsolute || dir.text.isEmpty then ⟨name⟩
  else if dir.text.toList.getLast? = some '/' then ⟨dir.text ++ name⟩
  else ⟨dir.text ++ "/" ++ name⟩

/-- The bytes of the longest path by which a file can be opened. -/
def maxBytes : Nat := 4095

/-- No file can be opened by the path. -/
def isTooLong (p : Path) : Bool := maxBytes < p.text.utf8ByteSize

/-- The texts of several paths with a separator between them. -/
def list (separator : String) (paths : List Path) : String :=
  separator.intercalate (paths.map Path.text)

end Path

end ByteJump
