import ByteJump.Proofs.Emit.Registers
import ByteJump.Proofs.GeneratedProgram

set_option autoImplicit false

/-!
# Emission of programs

A program that is accepted has a trace of its emission, from the state before any code to the one in
front of the halt.  The trace and the image determine each other.
-/

namespace ByteJump

namespace Emit

open Assembly Memory

/-- The state with the halt behind all code. -/
def State.halted (t : State) : State := t.emit [.instruction 0 0 (.known t.position)]

/-- The code of a program was emitted on top of some bindings: what happened on the way, the state
in front of the halt, and the image. -/
structure Emission (p : Program) (b : Bindings) (log : List Event) (t : State)
    (artifact : Artifact) : Prop where
  trace : Trace 0 [] (p.statements.map .stmt) (.start b) log t
  finish : t.halted.finish t.position = .ok artifact

section Emission

variable {p : Program} {b : Bindings} {log : List Event} {t : State} {artifact : Artifact}

theorem run_code {ss : List Stmt} {s t : State} (h : stmts ss s = .ok ⟨⟩ t) :
    code ss s = .ok t.position t.halted := by
  show (stmts ss >>= fun _ => do
    let halt ← position
    instruction 0 0 halt
    return halt) s = _
  rw [run_bind h]
  show (instruction 0 0 t.position >>= fun _ => pure t.position) t = _
  rw [run_bind (run_instruction _ _ _ t)]
  rfl

/-- The image is the one that is generated. -/
theorem Emission.generate (h : Emission p b log t artifact) :
    p.generate b = (.ok artifact, t.bindings) := by
  have hrun := h.trace.run
  rw [emitAll_map_stmt] at hrun
  unfold Program.generate EStateM.run
  rw [run_code hrun]
  show (t.halted.finish t.position, t.bindings) = _
  rw [h.finish]

/-- An image that is generated comes from an emission. -/
theorem emission_of_generate (h : (p.generate b).1 = .ok artifact) :
    ∃ log t, Emission p b log t artifact := by
  unfold Program.generate EStateM.run at h
  cases hcode : code p.statements (.start b) with
  | error fault s =>
      rw [hcode] at h
      cases h
  | ok halt s =>
      rw [hcode] at h
      obtain ⟨_, t, hstmts, -⟩ := ok_bind (x := stmts p.statements) hcode
      obtain ⟨log, htrace⟩ := trace_of_run 0 [] hstmts
      rw [run_code hstmts] at hcode
      cases hcode
      exact ⟨log, t, htrace, h⟩

/-- The program was resolved and has an image. -/
def accepted (resolved : Except Fault Program) (b : Bindings) : Bool :=
  match resolved with
  | .ok p => (p.generate b).1.isOk
  | .error _ => false

theorem exists_of_accepted {resolved : Except Fault Program} {b : Bindings}
    (h : accepted resolved b = true) :
    ∃ p artifact, resolved = .ok p ∧ (p.generate b).1 = .ok artifact := by
  cases resolved with
  | error fault => cases h
  | ok p =>
      cases hgenerate : (p.generate b).1 with
      | error fault => simp [accepted, hgenerate, Except.isOk, Except.toBool] at h
      | ok artifact => exact ⟨p, artifact, rfl, hgenerate⟩

/-- The image is the fixed part and the linked code behind it. -/
theorem Emission.image (h : Emission p b log t artifact) :
    ∃ linked, link t.halted.word t.halted.pieces.toList = .ok linked ∧ artifact.image =
      ⟨preamble (t.entry.getD codeStart) ++ linked,
        ⟨addTable, notTable, codeStart, t.position⟩⟩ := by
  obtain ⟨linked, hlink, hartifact⟩ := finish_eq_ok.mp h.finish
  exact ⟨linked, hlink, by rw [← hartifact]; rfl⟩

/-- The counts are those of the finished state. -/
theorem Emission.stats (h : Emission p b log t artifact) : artifact.stats = t.halted.stats := by
  obtain ⟨linked, -, hartifact⟩ := finish_eq_ok.mp h.finish
  rw [← hartifact]

theorem taken_start (b : Bindings) : Taken 0 (.start b) :=
  ⟨Nat.le_refl _, Nat.le_refl _, Nat.zero_le _⟩

theorem Emission.passes (h : Emission p b log t artifact) : Passes 0 log (.start b) t :=
  h.trace.passes (taken_start b)

/-- Every event is one of an emission in which the registers below the mark are taken. -/
theorem Emission.taken (h : Emission p b log t artifact) {e : Event} (he : e ∈ log) :
    Taken e.state.mark e.state := by
  obtain ⟨before, behind, rfl⟩ := List.append_of_mem he
  exact (h.passes.upTo before e behind rfl).taken.all

end Emission

end Emit

namespace Session

open Emit Resolve

/-- What a session has resolved after other main files is in order, among the imports that are kept
then. -/
theorem sound_of_resolve {source : FileSource} {dirs : List Path}
    {mains : List (Syntax.Program × Path)} {tree : Syntax.Program} {file : Path} {p : Program}
    (h : ((afterMains source dirs mains).resolve tree file).1 = .ok p) :
    ∃ J turn, Library (Imported J) ∧ Rooted (Imported J) (.main turn) p ∧ p.Sound J ∧ J.Sound := by
  have hsound := afterMains_sound source dirs mains
  have hnamed := afterMains_named source dirs mains
  obtain ⟨hsound', hresolved⟩ := (afterMains source dirs mains).resolve_sound hsound tree file
  obtain ⟨hnamed', hmain⟩ := (afterMains source dirs mains).resolve_named hnamed tree file
  exact ⟨_, _, library_of_imports hsound' hnamed', .of_main (hmain p h) (hresolved p h).files,
    hresolved p h, hsound'⟩

/-- What a session has resolved after other main files comes with a library of all files that are
imported, directly or through others. -/
theorem rooted_of_resolve {source : FileSource} {dirs : List Path}
    {mains : List (Syntax.Program × Path)} {tree : Syntax.Program} {file : Path} {p : Program}
    (h : ((afterMains source dirs mains).resolve tree file).1 = .ok p) :
    ∃ G turn, Library G ∧ Rooted G (.main turn) p := by
  obtain ⟨J, turn, hG, hrooted, -⟩ := sound_of_resolve h
  exact ⟨_, turn, hG, hrooted⟩

end Session

end ByteJump
