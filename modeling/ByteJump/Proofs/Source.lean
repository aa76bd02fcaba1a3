import Mathlib.Algebra.Group.Nat.Defs
import ByteJump.Machine
import ByteJump.Emit.Stmt

set_option autoImplicit false

/-!
# What a program means

A program runs over the bytes of memory, without any code in it.  A variable is the slot of the
register that its declaration was given, so a run goes through the same registers as the emission
of code: `Slots` says what is allocated where a statement stands, whether or not the statements
before it were run.

Evaluating an expression needs registers of its own for a while.  A run forgets what was in the
bytes that are overwritten then (`World.careful`), or pretends that nothing was.  Reading a byte
that is not known, or one that is neither in a slot nor in scratch memory, gets the run stuck.

A loop is given a number of rounds, and a run times out when they are used up.  Loops in its body
are given as many as the loop has left.
-/

namespace ByteJump

namespace Source

open Memory

/-! ## Slots -/

/-- What is allocated where a statement stands. -/
structure Slots where
  /-- the first register that is free -/
  mark : Nat
  registers : List (DeclId × Nat)
  /-- the files placed so far that are placed only once -/
  placed : List Path.Key

namespace Slots

/-- Nothing is allocated, whatever was before. -/
def start (b : Bindings) : Slots := ⟨0, b.registers, []⟩

/-- Registers for a variable. -/
def bind (σ : Slots) (v : Variable) (count : Nat) : Slots :=
  { σ with mark := σ.mark + count, registers := (v.id, σ.mark) :: σ.registers }

/-- The file is not placed again. -/
def skips (σ : Slots) (file : Path) (pragmas : Pragmas) : Bool :=
  !pragmas.multi && σ.placed.contains file.key

/-- A file is placed. -/
def reach (σ : Slots) (file : Path) (pragmas : Pragmas) : Slots :=
  if pragmas.multi then σ else { σ with placed := file.key :: σ.placed }

mutual

/-- What is allocated behind a statement. -/
def stmt (σ : Slots) : Stmt → Slots
  | .mk _ act _ => action σ act

/-- What is allocated behind statements. -/
def stmts (σ : Slots) : List Stmt → Slots
  | [] => σ
  | s :: ss => stmts (stmt σ s) ss

/-- What is allocated behind a statement that may be absent. -/
def option (σ : Slots) : Option Stmt → Slots
  | some s => stmt σ s
  | none => σ

/-- What is allocated behind an action. -/
def action (σ : Slots) : Action → Slots
  | .define v _ => σ.bind v 1
  | .reserve v => σ.bind v (v.count.getD 0)
  | .block body => { stmts σ body with mark := σ.mark }
  | .branch _ taken otherwise => option (stmt σ taken) otherwise
  | .loop _ body _ => stmt σ body
  | .place file => program σ file
  | .nothing | .evaluate _ | .goto _ | .assign .. | .words _ => σ

/-- What is allocated behind an imported file. -/
def program (σ : Slots) : Program → Slots
  | .mk file statements _ pragmas =>
      if σ.skips file pragmas then σ else stmts (σ.reach file pragmas) statements

end

end Slots

/-! ## Memory -/

/-- What is known of each byte. -/
abbrev Store := Nat → Option UInt8

/-- Where things stand that a program asks for by their address, and whether a run forgets what
temporaries overwrite. -/
structure World where
  label : Label → Nat
  string : String → Nat
  /-- the first byte of scratch memory -/
  scratch : Nat
  careful : Bool

/-- The first byte of the first register. -/
def firstSlot : Nat := register 0

/-- The byte is in a slot below the mark or in scratch memory. -/
def World.reaches (w : World) (mark address : Nat) : Bool :=
  decide (firstSlot ≤ address ∧ address < register mark) ||
    decide (w.scratch ≤ address ∧ address < w.scratch + Machine.scratchSize)

/-- Before the first statement all registers and scratch memory hold zeros. -/
def World.start (w : World) : Store := fun address =>
  if w.reaches registerCount address then some 0 else none

/-- A byte that may be read below the mark. -/
def World.load (w : World) (m : Store) (mark address : Nat) : Option UInt8 :=
  if w.reaches mark address then m address else none

/-- The number in the `width` bytes at an address, when all of them may be read. -/
def World.number (w : World) (m : Store) (mark address : Nat) : Nat → Option Nat
  | 0 => some 0
  | width + 1 => do
      let low ← w.load m mark address
      let high ← w.number m mark (address + 1) width
      return low.toNat + 256 * high

/-- What is known once the bytes were overwritten. -/
def World.forget (w : World) (m : Store) (bytes : List Nat) : Store := fun address =>
  if w.careful && bytes.contains address then none else m address

/-- One byte stored. -/
def Store.set (m : Store) (address : Nat) (byte : UInt8) : Store := fun other =>
  if other = address then some byte else m other

/-- The low bytes of a number stored. -/
def Store.write (m : Store) (address : Nat) : Nat → Nat → Store
  | 0, _ => m
  | width + 1, value =>
      write (Store.set m address (UInt8.ofNat (value % 256))) (address + 1) width (value / 256)

/-! ## Expressions -/

/-- The value of an expression, where registers are allocated. -/
def eval (w : World) (σ : Slots) (m : Store) : Expr → Option Nat
  | .int value _ => some value.toNat
  | .str text _ =>
      some (w.string text % addressSpace + addressSpace * (text.utf8ByteSize % addressSpace))
  | .variable v _ =>
      match σ.registers.lookup v.id with
      | some r => w.number m σ.mark (register r) registerSize
      | none => none
  | .label use _ => use.target.map fun label => w.label label % addressSpace
  | .cast operand i =>
      match eval w σ m operand, i.type.width with
      | some x, some width => some (x % 256 ^ width)
      | _, _ => none
  | .unary op operand _ =>
      match eval w σ m operand with
      | none => none
      | some x =>
          match op with
          | .plus => some x
          | .not => operand.type.width.map fun width =>
              if x % 256 ^ width = 0 then Constant.truth else 0
          | .deref => (w.load m σ.mark (x % addressSpace)).map UInt8.toNat
          | .negate | .complement => none
  | .binary op left right i =>
      match eval w σ m left, eval w σ m right with
      | some x, some y =>
          if op = .add ∧ i.type.width = some 1 then some ((x + y) % 256) else none
      | _, _ => none
  | .index .. => none

section Inversion

variable {w : World} {σ : Slots} {m : Store} {operand left right : Expr} {i : Info} {v : Nat}

theorem eval_cast : eval w σ m (.cast operand i) = some v ↔
    ∃ x width, eval w σ m operand = some x ∧ i.type.width = some width ∧ x % 256 ^ width = v := by
  rw [eval]
  cases eval w σ m operand <;> cases i.type.width <;> simp

theorem eval_plus : eval w σ m (.unary .plus operand i) = eval w σ m operand := by
  rw [eval]
  cases eval w σ m operand <;> rfl

theorem eval_not : eval w σ m (.unary .not operand i) = some v ↔
    ∃ x width, eval w σ m operand = some x ∧ operand.type.width = some width ∧
      (if x % 256 ^ width = 0 then Constant.truth else 0) = v := by
  rw [eval]
  cases eval w σ m operand <;> cases operand.type.width <;> simp

theorem eval_deref : eval w σ m (.unary .deref operand i) = some v ↔
    ∃ x b, eval w σ m operand = some x ∧ w.load m σ.mark (x % addressSpace) = some b ∧
      b.toNat = v := by
  rw [eval]
  cases eval w σ m operand <;> simp

theorem eval_binary {op : BinaryOp} : eval w σ m (.binary op left right i) = some v ↔
    ∃ x y, eval w σ m left = some x ∧ eval w σ m right = some y ∧ op = .add ∧
      i.type.width = some 1 ∧ (x + y) % 256 = v := by
  rw [eval]
  cases eval w σ m left <;> cases eval w σ m right <;> simp [and_assoc]

end Inversion

/-- The bytes of registers that are overwritten while an expression is evaluated, where so many
registers are in use. -/
def temporaries (mark : Nat) : Expr → List Nat
  | .int .. | .str .. | .variable .. | .label .. | .index .. => []
  | .cast operand _ => temporaries mark operand
  | .unary op operand _ =>
      match op with
      | .not => temporaries mark operand ++ [register mark, register mark + 1]
      | .plus | .deref | .negate | .complement => temporaries mark operand
  | .binary _ left right _ =>
      temporaries mark left ++ register mark :: temporaries (mark + 1) right

/-- Whether a condition holds, and what is known once it was evaluated. -/
def test (w : World) (σ : Slots) (condition : Expr) (m : Store) : Option (Bool × Store) :=
  match eval w σ m condition, condition.type.width with
  | some x, some width =>
      some (x % 256 ^ width ≠ 0,
        w.forget m (temporaries σ.mark condition ++ [register σ.mark, register σ.mark + 1]))
  | _, _ => none

/-! ## Statements -/

/-- How a run ends. -/
inductive Outcome where
  | done (m : Store)
  /-- a byte was read or written that may not be -/
  | stuck
  /-- more rounds are needed -/
  | timeout

/-- What comes behind a run that is done. -/
def Outcome.andThen (o : Outcome) (next : Store → Outcome) : Outcome :=
  match o with
  | .done m => next m
  | .stuck => .stuck
  | .timeout => .timeout

/-- A value stored at an address; what is stored there may be read below the mark. -/
def storeByte (w : World) (mark address value : Nat) (m : Store) : Outcome :=
  if w.reaches mark address then .done (m.set address (UInt8.ofNat (value % 256))) else .stuck

/-- A body repeated while a test before it holds. -/
def repeatWhile (test : Store → Option (Bool × Store)) (body : Nat → Store → Outcome) :
    Nat → Store → Outcome
  | 0, _ => .timeout
  | rounds + 1, m =>
      match test m with
      | none => .stuck
      | some (false, m) => .done m
      | some (true, m) => (body (rounds + 1) m).andThen (repeatWhile test body rounds)

/-- A body repeated while a test behind it holds. -/
def repeatBody (test : Store → Option (Bool × Store)) (body : Nat → Store → Outcome) :
    Nat → Store → Outcome
  | 0, _ => .timeout
  | rounds + 1, m =>
      (body (rounds + 1) m).andThen fun m =>
        match test m with
        | none => .stuck
        | some (false, m) => .done m
        | some (true, m) => repeatBody test body rounds m

/-- A byte stored through a pointer. -/
def assign (w : World) (σ : Slots) (target value : Expr) (m : Store) : Outcome :=
  match target with
  | .unary .deref pointer _ =>
      match eval w σ m pointer, eval w σ m value with
      | some x, some y =>
          storeByte w (σ.mark + 1) (x % addressSpace) y
            (w.forget m (temporaries σ.mark pointer
              ++ (List.range addressSize).map (register σ.mark + ·)
              ++ temporaries (σ.mark + 1) value))
      | _, _ => .stuck
  | _ => .stuck

mutual

/-- A run of a statement. -/
def stmt (w : World) (σ : Slots) : Stmt → Nat → Store → Outcome
  | .mk _ act _ => action w σ act

/-- A run of statements in order. -/
def stmts (w : World) (σ : Slots) : List Stmt → Nat → Store → Outcome
  | [] => fun _ m => .done m
  | s :: ss => fun rounds m =>
      (stmt w σ s rounds m).andThen fun m => stmts w (σ.stmt s) ss rounds m

/-- A run of a statement that may be absent. -/
def option (w : World) (σ : Slots) : Option Stmt → Nat → Store → Outcome
  | some s => stmt w σ s
  | none => fun _ m => .done m

/-- A run of an action. -/
def action (w : World) (σ : Slots) : Action → Nat → Store → Outcome
  | .nothing => fun _ m => .done m
  | .place file => program w σ file
  | .evaluate value => fun _ m =>
      match eval w σ m value with
      | some _ => .done (w.forget m (temporaries σ.mark value))
      | none => .stuck
  | .define _ value => fun _ m =>
      match eval w σ m value with
      | some x =>
          .done ((w.forget m (temporaries σ.mark value)).write (register σ.mark) registerSize x)
      | none => .stuck
  | .reserve _ => fun _ m => .done m
  | .assign target value => fun _ m => assign w σ target value m
  | .block body => stmts w σ body
  | .branch condition taken otherwise => fun rounds m =>
      match test w σ condition m with
      | some (true, m) => stmt w σ taken rounds m
      | some (false, m) => option w (σ.stmt taken) otherwise rounds m
      | none => .stuck
  | .loop condition body false => repeatWhile (test w σ condition) (stmt w σ body)
  | .loop condition body true => repeatBody (test w (σ.stmt body) condition) (stmt w σ body)
  | .goto _ | .words _ => fun _ _ => .stuck

/-- A run of an imported file. -/
def program (w : World) (σ : Slots) : Program → Nat → Store → Outcome
  | .mk file statements _ pragmas => fun rounds m =>
      if σ.skips file pragmas then .done m
      else stmts w (σ.reach file pragmas) statements rounds m

end

end Source

/-! ## Structured programs -/

mutual

/-- The statement has no jump, no raw words and no label that names the entry, nor have the files
it imports. -/
def Stmt.Structured : Stmt → Prop
  | .mk labels act _ => (∀ label ∈ labels, Emit.isEntry label = false) ∧ Action.Structured act

/-- All statements are structured. -/
def Stmt.ListStructured : List Stmt → Prop
  | [] => True
  | s :: ss => Stmt.Structured s ∧ Stmt.ListStructured ss

/-- A statement that may be absent is structured. -/
def Stmt.OptionStructured : Option Stmt → Prop
  | some s => Stmt.Structured s
  | none => True

/-- An action is structured. -/
def Action.Structured : Action → Prop
  | .goto _ | .words _ => False
  | .block body => Stmt.ListStructured body
  | .branch _ taken otherwise => Stmt.Structured taken ∧ Stmt.OptionStructured otherwise
  | .loop _ body _ => Stmt.Structured body
  | .place file => Program.Structured file
  | .nothing | .evaluate _ | .define .. | .reserve _ | .assign .. => True

/-- A file is structured. -/
def Program.Structured : Program → Prop
  | .mk _ statements _ _ => Stmt.ListStructured statements

end

mutual

/-- It can be computed whether a statement is structured. -/
def Stmt.decidableStructured : (s : Stmt) → Decidable s.Structured
  | .mk labels act _ =>
      @instDecidableAnd (∀ label ∈ labels, Emit.isEntry label = false) act.Structured inferInstance
        (Action.decidableStructured act)

/-- It can be computed whether statements are structured. -/
def Stmt.decidableListStructured : (ss : List Stmt) → Decidable (Stmt.ListStructured ss)
  | [] => isTrue trivial
  | s :: ss =>
      @instDecidableAnd s.Structured (Stmt.ListStructured ss) (Stmt.decidableStructured s)
        (Stmt.decidableListStructured ss)

/-- It can be computed whether a statement that may be absent is structured. -/
def Stmt.decidableOptionStructured : (s : Option Stmt) → Decidable (Stmt.OptionStructured s)
  | some s => Stmt.decidableStructured s
  | none => isTrue trivial

/-- It can be computed whether an action is structured. -/
def Action.decidableStructured : (act : Action) → Decidable act.Structured
  | .goto _ | .words _ => isFalse id
  | .block body => Stmt.decidableListStructured body
  | .branch _ taken otherwise =>
      @instDecidableAnd taken.Structured (Stmt.OptionStructured otherwise)
        (Stmt.decidableStructured taken) (Stmt.decidableOptionStructured otherwise)
  | .loop _ body _ => Stmt.decidableStructured body
  | .place file => Program.decidableStructured file
  | .nothing | .evaluate _ | .define .. | .reserve _ | .assign .. => isTrue trivial

/-- It can be computed whether a file is structured. -/
def Program.decidableStructured : (p : Program) → Decidable p.Structured
  | .mk _ statements _ _ => Stmt.decidableListStructured statements

end

instance (p : Program) : Decidable p.Structured := p.decidableStructured

end ByteJump
