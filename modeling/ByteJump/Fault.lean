import ByteJump.LineMap
import ByteJump.Location
import ByteJump.Syntax.Decode

set_option autoImplicit false

/-!
# Faults

Everything that can end a compilation or a run, each with its cause.  A fault has a kind, a message
and perhaps a location; its diagnostic shows all three, with the location moved back through a line
map if there is one.
-/

namespace ByteJump

/-- What a name was looked up as. -/
inductive NameKind where
  | variable
  | type
  deriving DecidableEq, Repr

/-- Why a file could not be loaded. -/
inductive LoadFault where
  | noSuchFile
  /-- the file is not text, or cannot be read -/
  | unreadable
  /-- the text is no tree -/
  | undecodable (fault : Syntax.DecodeFault)
  /-- a reason given in words -/
  | other (reason : String)
  deriving DecidableEq, Repr

/-- What can go wrong. -/
inductive Fault where
  | undefined (kind : NameKind) (name : String) (site : Location)
  | typeMismatch (expected found : String) (site : Location)
  | invalidAccess (attempt : String) (site : Location)
  | notConstant (site : Location)
  | invalidPragma (pragma value : String) (site : Location)
  | misplacedPragma (pragma : String) (site : Location)
  | unknownPragma (pragma : String) (site : Location)
  | importNotFound (name : String) (searched : List Path) (site : Location)
  | importCycle (chain : List Path) (site : Location)
  | unresolvedLabel (name : String) (site : Location)
  | duplicateField (field struct : String) (site : Location)
  /-- something is assigned to that is no dereference -/
  | unsupportedTarget (site : Location)
  | unimplemented (construct : String) (site : Option Location)
  | divisionByZero (site : Location)
  | outOfRegisters (limit : Nat) (site : Option Location)
  | load (path : Path) (reason : LoadFault)
  /-- an invariant between two stages does not hold -/
  | internal (what : String)
  /-- the machine touched an address outside its memory -/
  | outOfBounds (pc address : Nat)
  | stepLimit (limit : Nat)
  deriving Repr

/-- The wording of a load fault. -/
def LoadFault.message : LoadFault → String
  | .noSuchFile => "no such file"
  | .unreadable => "cannot be read as text"
  | .undecodable fault => fault.message?.getD "not a syntax tree"
  | .other reason => reason

/-- What a name was looked up as, in words. -/
def NameKind.text : NameKind → String
  | .variable => "variable"
  | .type => "type"

namespace Fault

/-- The stable name of the kind of a fault. -/
def kind : Fault → String
  | .undefined .. => "UndefinedSymbol"
  | .typeMismatch .. => "TypeMismatch"
  | .invalidAccess .. => "InvalidAccess"
  | .notConstant .. => "NotConstant"
  | .invalidPragma .. => "InvalidPragmaValue"
  | .misplacedPragma .. => "MisplacedPragma"
  | .unknownPragma .. => "UnknownPragma"
  | .importNotFound .. => "ImportNotFound"
  | .importCycle .. => "ImportCycle"
  | .unresolvedLabel .. => "UnresolvedLabel"
  | .duplicateField .. => "DuplicateField"
  | .unsupportedTarget .. => "UnsupportedLvalue"
  | .unimplemented .. => "Unimplemented"
  | .divisionByZero .. => "DivisionByZero"
  | .outOfRegisters .. => "OutOfRegisters"
  | .load .. => "Load"
  | .internal .. => "Internal"
  | .outOfBounds .. => "MachineFault"
  | .stepLimit .. => "StepLimitExceeded"

/-- Where a fault is, if it has a place in a file. -/
def site? : Fault → Option Location
  | .undefined _ _ site => some site
  | .typeMismatch _ _ site => some site
  | .invalidAccess _ site => some site
  | .notConstant site => some site
  | .invalidPragma _ _ site => some site
  | .misplacedPragma _ site => some site
  | .unknownPragma _ site => some site
  | .importNotFound _ _ site => some site
  | .importCycle _ site => some site
  | .unresolvedLabel _ site => some site
  | .duplicateField _ _ site => some site
  | .unsupportedTarget site => some site
  | .unimplemented _ site => site
  | .divisionByZero site => some site
  | .outOfRegisters _ site => site
  | .load .. | .internal .. | .outOfBounds .. | .stepLimit .. => none

/-- A place behind a message that stands for itself. -/
def behind (site : Location) : String := " at " ++ site.text

/-- A place behind a message, if there is one. -/
def perhaps (site : Option Location) : String := (site.map behind).getD ""

/-- A name between backticks. -/
def ticked (name : String) : String := "`" ++ name ++ "`"

/-- The message of a fault. -/
def message : Fault → String
  | .undefined kind name site => "undefined " ++ kind.text ++ " " ++ ticked name ++ behind site
  | .typeMismatch expected found site =>
      "type mismatch: expected " ++ expected ++ ", found " ++ found ++ behind site
  | .invalidAccess attempt site => "invalid access: " ++ attempt ++ behind site
  | .notConstant site => "expression is not a compile-time constant" ++ behind site
  | .invalidPragma pragma value site =>
      "invalid value " ++ ticked value ++ " for pragma @" ++ pragma ++ behind site
  | .misplacedPragma pragma site =>
      "pragma @" ++ pragma ++ " is only allowed at file top level (" ++ site.text ++ ")"
  | .unknownPragma pragma site => "unknown pragma @" ++ pragma ++ behind site
  | .importNotFound name searched site =>
      "cannot find import \"" ++ name ++ "\" (searched " ++ Path.list ", " searched ++ ")"
        ++ behind site
  | .importCycle chain site => "import cycle: " ++ Path.list " -> " chain ++ behind site
  | .unresolvedLabel name site => "unresolved label " ++ ticked name ++ behind site
  | .duplicateField field struct site =>
      "duplicate field " ++ ticked field ++ " in struct " ++ ticked struct ++ behind site
  | .unsupportedTarget site => "unsupported assignment target" ++ behind site
  | .unimplemented construct site => "unimplemented: " ++ construct ++ perhaps site
  | .divisionByZero site => "division by zero in constant expression" ++ behind site
  | .outOfRegisters limit site =>
      "out of registers: at most " ++ toString limit ++ " are available" ++ perhaps site
  | .load path reason => "failed to load " ++ path.text ++ ": " ++ reason.message
  | .internal what => "internal compiler error: " ++ what
  | .outOfBounds pc address =>
      "machine fault at pc " ++ Text.hex pc ++ ": address " ++ Text.hex address
        ++ " is out of bounds"
  | .stepLimit limit => "step limit of " ++ toString limit ++ " exceeded"

/-- The place a diagnostic points at: the file and line the line map gives for the line of the
fault, else the file and line of the fault itself; the column stays. -/
def pointer (map : Option LineMap) (site : Location) : String :=
  let start := site.span.start
  match map.bind fun map => map.lookup start.line.toNat with
  | some origin =>
      origin.file ++ ":" ++ toString origin.line ++ ":" ++ toString start.column.toNat
  | none => site.file.text ++ ":" ++ start.text

/-- A fault as shown to the user. -/
def diagnostic (fault : Fault) (map : Option LineMap) : String :=
  "error[" ++ fault.kind ++ "]: " ++ fault.message ++
    match fault.site? with
    | some site => "\n --> " ++ pointer map site
    | none => ""

end Fault

end ByteJump
