import ByteJump.Syntax.Build
import ByteJump.Proofs.Emit.Courses
import ByteJump.Proofs.Emit.Emission

set_option autoImplicit false

/-!
# Registers of accepted programs

The registers an image reports are those its program needs.  A program is rejected for too few
registers only if it needs more than there are, and then it has no image.
-/

namespace ByteJump

namespace Emit

open Assembly Memory

/-! ## Linking takes no registers -/

theorem isRegisters_of_word {s : State} {w : Word} {fault : Fault} (h : s.word w = .error fault) :
    fault.isRegisters = false := by
  cases w with
  | known value => cases h
  | address target site => exact isRegisters_of_address h
  | constant value => exact isRegisters_of_constant h

theorem isRegisters_of_finish {s : State} {halt : Nat} {fault : Fault}
    (h : s.finish halt = .error fault) : fault.isRegisters = false := by
  obtain ⟨piece, -, hencode⟩ := exists_of_link_error (finish_eq_error.mp h)
  obtain ⟨w, -, hw⟩ := Piece.encode_eq_error.mp hencode
  exact isRegisters_of_word hw

/-! ## All code of a program -/

/-- The code of a program takes the course that is counted. -/
theorem code_course (statements : List Stmt) :
    Course (code statements) .start (Stmt.listUsage statements .start) :=
  (stmts_course statements).before fun _ => .position fun _ =>
    (instruction_laying _ _ _).bind fun _ => .pure

end Emit

open Emit Memory

/-- An image is made only if the program needs no more registers than there are, and its counts have
the number it needs.  A program that needs no more is not rejected for its registers. -/
theorem Program.generate_registers (p : Program) (b : Bindings) :
    (∀ artifact, (p.generate b).1 = .ok artifact →
      artifact.stats.registers = p.need ∧ p.need ≤ 4094) ∧
    (p.need ≤ 4094 → ∀ limit site, (p.generate b).1 ≠ .error (.outOfRegisters limit site)) ∧
    (4094 < p.need → ∀ artifact, (p.generate b).1 ≠ .ok artifact) := by
  have hcourse := (code_course p.statements).run (.start b) rfl ⟨Nat.le_refl _, Nat.zero_le _⟩
  have haccepted : ∀ artifact, (p.generate b).1 = .ok artifact →
      artifact.stats.registers = p.need ∧ p.need ≤ registerCount := by
    intro artifact hartifact
    obtain ⟨log, t, hemission⟩ := emission_of_generate hartifact
    have hrun := hemission.trace.run
    rw [emitAll_map_stmt] at hrun
    rw [run_code hrun] at hcourse
    obtain ⟨husage, hwithin⟩ := hcourse
    have hneed : t.halted.highest = p.need := congrArg Usage.highest husage
    exact ⟨hemission.stats ▸ hneed, hwithin.highest⟩
  refine ⟨haccepted, fun hneed limit site hrejected => ?_, fun hneed artifact hartifact => ?_⟩
  · unfold Program.generate EStateM.run at hrejected
    cases hcode : code p.statements (.start b) with
    | error fault s =>
        rw [hcode] at hcourse hrejected
        cases hrejected
        exact Nat.not_lt.mpr hneed (hcourse rfl)
    | ok halt s =>
        rw [hcode] at hrejected
        exact nomatch isRegisters_of_finish hrejected
  · exact Nat.not_lt.mpr (haccepted artifact hartifact).2 hneed

/-- The registers that are needed by what was resolved. -/
def needed (resolved : Except Fault Program) : Option Nat := resolved.toOption.map Program.need

theorem exists_of_needed {resolved : Except Fault Program} {count : Nat}
    (h : needed resolved = some count) : ∃ p, resolved = .ok p ∧ p.need = count := by
  cases resolved with
  | error fault => cases h
  | ok p => exact ⟨p, rfl, Option.some.inj h⟩

namespace Session

/-- A variable behind a branch without a block, a block whose registers are free again, an import
and an array; and an array that is too long. -/
theorem generate_registers_arrays :
    let number : Syntax.Expr := .castTo "n8" (.ofInt 1)
    let library : Syntax.Program := [.of (.letVar "w" number)]
    let tree : Syntax.Program :=
      [.of (.letVar "x" number),
        .of (.branch (.use "x") (.of (.letVar "y" (.combine .add (.use "x") number))) none),
        .of (.block [.of (.letVar "z" number), .of (.letArray "b" (.ofInt 5) none)]),
        .of (.importOf "lib"), .of (.letArray "a" (.ofInt 2) none)]
    let large : Syntax.Program := [.of (.letArray "a" (.ofInt 18446744073709551615) none)]
    let files : MemoryFiles := [(⟨"src/lib"⟩, library)]
    ∃ p artifact q, ((afterMains files.source [⟨"src"⟩] []).resolve tree ⟨"main"⟩).1 = .ok p ∧
      (p.generate .none).1 = .ok artifact ∧ artifact.stats.registers = 8 ∧
      ((afterMains files.source [⟨"src"⟩] []).resolve large ⟨"main"⟩).1 = .ok q ∧
      q.need = 18446744073709551615 ∧ ∀ artifact, (q.generate .none).1 ≠ .ok artifact := by
  intro number library tree large files
  have haccepted : accepted ((afterMains files.source [⟨"src"⟩] []).resolve tree ⟨"main"⟩).1
      .none = true := by decide +kernel
  obtain ⟨p, artifact, hp, hartifact⟩ := exists_of_accepted haccepted
  have hneed : needed ((afterMains files.source [⟨"src"⟩] []).resolve tree ⟨"main"⟩).1 = some 8 := by
    decide +kernel
  have hlarge : needed ((afterMains files.source [⟨"src"⟩] []).resolve large ⟨"main"⟩).1 =
      some 18446744073709551615 := by decide +kernel
  obtain ⟨q, hq, hmuch⟩ := exists_of_needed hlarge
  rw [hp] at hneed
  have hcount : p.need = 8 := Option.some.inj hneed
  refine ⟨p, artifact, q, hp, hartifact, ?_, hq, hmuch, ?_⟩
  · rw [((p.generate_registers .none).1 artifact hartifact).1, hcount]
  · exact (q.generate_registers .none).2.2 (by omega)

end Session

end ByteJump
