import ByteJump.Proofs.Emit.Patches
import ByteJump.Proofs.Emit.Statements
import ByteJump.Proofs.ResolvedProgram
import ByteJump.Proofs.Results

set_option autoImplicit false

/-!
# What resolves can be generated

A program that a session resolved has an image, unless it asks for something that is not supported,
for too many registers or for a constant that cannot be computed.  Everything its code refers to has
been placed when all of it is laid down, and the addresses are written inside the buffer.

Emission and linking can both fail, for different reasons.  Emission ends with all its labels,
points and variables settled, or with one of the faults that generating may end with; that is the
lemma on statements, at the state nothing is known of.  Behind it, linking looks up every symbol
of the code, and finds it because it was placed.  What is left are faults of constants, which
cannot be computed, and the entry and the patches are in the buffer by their addresses.
-/

namespace ByteJump

namespace Emit

open Assembly Memory

/-! ## Symbols with a value -/

/-- The target has an address, wherever it is used. -/
def State.Places (s : State) (target : Target) : Prop :=
  ∃ address, ∀ site, s.address target site = .ok address

/-- A label is placed if it has an address. -/
theorem places_label {s : State} {label : Label} : s.Places (.label label) ↔ Bound s label := by
  constructor
  · intro h
    obtain ⟨address, haddress⟩ := h
    have hnone := haddress none
    unfold State.address at hnone
    unfold Bound
    cases hlookup : s.bindings.address? label with
    | some known => rfl
    | none => simp [hlookup] at hnone
  · intro h
    obtain ⟨address, haddress⟩ := Option.isSome_iff_exists.mp h
    exact ⟨address, fun site => by simp [State.address, haddress]⟩

theorem places_point {s : State} {role : String} {serial : Nat}
    (h : (s.points.lookup serial).isSome = true) : s.Places (.point role serial) := by
  obtain ⟨address, haddress⟩ := Option.isSome_iff_exists.mp h
  exact ⟨address, fun site => by simp [State.address, haddress]⟩

section Words

variable {s : State}

/-- A word whose symbols are placed fails as a constant or not at all. -/
theorem isGenerated_of_word {w : Word} {fault : Fault} (hsymbols : SymbolsIn s.Places w)
    (h : s.word w = .error fault) : fault.isGenerated = true := by
  cases w with
  | known value => cases h
  | address target site =>
      obtain ⟨address, haddress⟩ := hsymbols
      have hword : s.word (.address target site) = .ok address := haddress site
      rw [hword] at h
      cases h
  | constant value =>
      have hlabels : value.LabelsIn (Bound s) :=
        Expr.LabelsIn.mono (fun label hlabel => places_label.mp hlabel) hsymbols
      exact isGenerated_of_constant hlabels h

theorem isGenerated_of_encode {piece : Piece} {fault : Fault} (hpiece : PieceIn s.Places piece)
    (h : piece.encode s.word = .error fault) : fault.isGenerated = true := by
  obtain ⟨w, hword, hw⟩ := Piece.encode_eq_error.mp h
  exact isGenerated_of_word (hpiece w hword) hw

/-- There is an image exactly if all pieces can be linked. -/
theorem finish_eq_ok {halt : Nat} {artifact : Artifact} : s.finish halt = .ok artifact ↔
    ∃ linked, link s.word s.pieces.toList = .ok linked ∧
      ⟨⟨preamble (s.entry.getD codeStart) ++ linked, ⟨addTable, notTable, codeStart, halt⟩⟩,
        s.stats⟩ = artifact := by
  rw [State.finish, Except.bind_eq_ok]
  exact exists_congr fun _ => and_congr_right fun _ => ⟨Except.ok.inj, congrArg Except.ok⟩

/-- A fault of linking is the fault of the image. -/
theorem finish_eq_error {halt : Nat} {fault : Fault} :
    s.finish halt = .error fault ↔ link s.word s.pieces.toList = .error fault := by
  rw [State.finish, Except.bind_eq_error]
  exact or_iff_left fun ⟨_, _, hpure⟩ => nomatch hpure

/-- Pieces whose symbols are placed are linked, unless a constant cannot be computed. -/
theorem isGenerated_of_finish {halt : Nat} {fault : Fault}
    (hpieces : ∀ piece ∈ s.pieces.toList, PieceIn s.Places piece)
    (h : s.finish halt = .error fault) : fault.isGenerated = true := by
  obtain ⟨piece, hpiece, hencode⟩ := exists_of_link_error (finish_eq_error.mp h)
  exact isGenerated_of_encode (hpieces piece hpiece) hencode

/-- The bytes of an image are what was laid down, patched. -/
theorem finish_eq (halt : Nat) :
    (s.finish halt).map (fun artifact => artifact.image.bytes.toList) =
      backpatch s.word (patchesFrom codeStart s.pieces.toList)
        ((preamble (s.entry.getD codeStart)).toList ++ blank s.pieces.toList) := by
  have hknown : ∀ n, s.word (.known n) = .ok n := fun _ => rfl
  have hlink := link_eq hknown (preamble (s.entry.getD codeStart)) s.pieces.toList
  rw [size_preamble] at hlink
  rw [← hlink]
  unfold State.finish
  cases link s.word s.pieces.toList <;> rfl

end Words

/-! ## Programs -/

/-- All code of a program in order is emitted, and then everything it refers to is placed. -/
theorem code_ends {I : Resolve.Imports} (hsound : I.Sound) {p : Program} (hp : p.Sound I)
    (b : Bindings) :
    Ends (code p.statements) (fun _ t => ∀ piece ∈ t.pieces.toList, PieceIn t.Places piece)
      (.start b) := by
  have hstatements : Emits I (fun _ => False) (stmts p.statements)
      (fun _ t => ∀ label ∈ p.ownLabels, Bound t label) (.start b) :=
    own_emits hsound hp (stmts_emits hsound p.statements hp.proper hp.labels hp.files)
  have hcode : Emits I (fun _ => False) (code p.statements) (fun _ _ => True) (.start b) := by
    unfold code
    refine hstatements.bind fun _ t _ _ => ?_
    refine Emits.mono (Emits.plain ?_) fun _ _ _ _ => trivial
    exact position_plain fun halt => (instruction_plain _ _ _).bind fun _ => Plain.pure
  have hstart : AllIn I (fun _ => False) (.start b) := fun piece hpiece => nomatch hpiece
  refine (hcode.ends hstart).mono ?_
  intro halt t hend piece hpiece
  obtain ⟨hstep, hall, -⟩ := hend
  refine (hall piece hpiece).mono fun target htarget => ?_
  rcases htarget with hsettled | hnever
  · cases target with
    | point role serial => exact places_point hsettled
    | label label =>
        rcases hsettled with hbound | ⟨file, hplaced, hfile, hlabel⟩
        · exact places_label.mpr hbound
        · rcases hstep.finished _ hplaced with hold | hfinished
          · cases hold
          · exact places_label.mpr (hfinished file hfile label hlabel)
  · exact hnever.elim

end Emit

namespace Session

open Assembly Emit Memory

/-- What resolves after any other main files is generated, or something in it is not supported.
When all code is laid down every symbol in it has an address, and the image is that code with the
words of the symbols written over it inside the buffer. -/
theorem generate_of_resolve (source : FileSource) (dirs : List Path)
    (mains : List (Syntax.Program × Path)) (tree : Syntax.Program) (file : Path) (b : Bindings)
    {p : Program} (h : ((afterMains source dirs mains).resolve tree file).1 = .ok p) :
    (∀ fault, (p.generate b).1 = .error fault → fault.isGenerated = true) ∧
      ∀ halt s, (code p.statements).run (.start b) = .ok halt s →
        (∀ piece ∈ s.pieces.toList, PieceIn s.Places piece) ∧
        (∀ patch ∈ patchesFrom codeStart s.pieces.toList, codeStart ≤ patch.address ∧
          patch.address + addressSize ≤ codeStart + size s.pieces.toList) ∧
        (p.generate b).1.map (fun artifact => artifact.image.bytes.toList) =
          backpatch s.word (patchesFrom codeStart s.pieces.toList)
            ((preamble (s.entry.getD codeStart)).toList ++ blank s.pieces.toList) := by
  obtain ⟨hsound, hresolved⟩ :=
    (afterMains source dirs mains).resolve_sound (afterMains_sound source dirs mains) tree file
  have hends := code_ends hsound (hresolved p h) b
  unfold Ends at hends
  unfold Program.generate EStateM.run
  cases hrun : code p.statements (.start b) with
  | error fault t =>
      rw [hrun] at hends
      refine ⟨fun other hother => ?_, fun halt s hs => nomatch hs⟩
      cases hother
      exact hends
  | ok halt t =>
      rw [hrun] at hends
      refine ⟨fun fault hfault => isGenerated_of_finish hends hfault, fun halt' s hs => ?_⟩
      cases hs
      exact ⟨hends, fun patch hpatch => mem_patchesFrom hpatch, finish_eq halt⟩

/-- A label that an imported file exports, with a variable in front of it. -/
theorem generate_of_resolve_import :
    let library : Syntax.Program :=
      [.mk [⟨"f", true, .zero⟩] (.define ⟨"x", .zero⟩ (.int 1 .zero)) .zero]
    let tree : Syntax.Program :=
      [.mk [] (.importFile ⟨"lib", .zero⟩) .zero, .mk [] (.goto (.label "f" .zero) []) .zero]
    let files : MemoryFiles := [(⟨"src/lib"⟩, library)]
    ∃ p, ((afterMains files.source [⟨"src"⟩] []).resolve tree ⟨"main"⟩).1 = .ok p ∧
      ∀ fault, (p.generate .none).1 = .error fault → fault.isGenerated = true := by
  intro library tree files
  have hok : ((afterMains files.source [⟨"src"⟩] []).resolve tree ⟨"main"⟩).1.isOk = true := by
    decide +kernel
  cases hp : ((afterMains files.source [⟨"src"⟩] []).resolve tree ⟨"main"⟩).1 with
  | error fault =>
      rw [hp] at hok
      cases hok
  | ok p =>
      exact ⟨p, rfl, (generate_of_resolve files.source [⟨"src"⟩] [] tree ⟨"main"⟩ .none hp).1⟩

end Session

end ByteJump
