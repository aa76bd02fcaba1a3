import ByteJump.Syntax.Build
import ByteJump.Proofs.FlattenedImports
import ByteJump.Proofs.RawWords
import ByteJump.Proofs.Emit.Moves
import ByteJump.Proofs.Resolve.Alignments

set_option autoImplicit false

/-!
# Aligned imports

A file with an alignment is placed at a multiple of it.  If the code is at one already, nothing is laid
down in front of the file; otherwise a single jump leads over zeros to the next multiple it can reach.
-/

namespace ByteJump

namespace Emit

open Assembly Memory

/-! ## Code that goes on at a multiple -/

/-- Code goes on at a multiple of a number: at once if it is at one, and else behind a jump to there
over less zeros than the number. -/
structure Aligns (n : Nat) (s t : State) : Prop where
  multiple : t.position % n = 0
  here : s.position % n = 0 → t = s
  stub : s.position % n ≠ 0 → ∃ padding, padding < n ∧ t.position = s.position + 24 + padding ∧
    t = s.emit [.instruction 0 0 (.known t.position), .bytes (List.replicate padding 0)]

/-- The zeros in front of the next multiple. -/
theorem add_padding_mod {n : Nat} (behind : Nat) (h : 0 < n) :
    (behind + (n - behind % n) % n) % n = 0 := by
  have hlt := Nat.mod_lt behind h
  rw [Nat.add_mod_mod, ← Nat.mod_add_mod, Nat.add_sub_cancel' (Nat.le_of_lt hlt), Nat.mod_self]

theorem run_alignTo_here {n : Nat} {s : State} (h : s.position % n = 0) :
    alignTo n s = .ok ⟨⟩ s := by
  have hposition : position s = .ok s.position s := rfl
  unfold alignTo
  rw [run_bind hposition, if_neg fun hboth => hboth.2 h]
  rfl

theorem run_alignTo_stub {n : Nat} {s : State} (hn : 0 < n) (h : s.position % n ≠ 0) :
    alignTo n s = .ok ⟨⟩ (s.emit (
      let padding := (n - (s.position + instructionSize) % n) % n
      [.instruction 0 0 (.known (s.position + instructionSize + padding)),
        .bytes (List.replicate padding 0)])) := by
  have hposition : position s = .ok s.position s := rfl
  have hone : 1 < n := by
    rcases Nat.lt_or_ge 1 n with hlt | hle
    · exact hlt
    · exact absurd (by rw [Nat.le_antisymm hle hn, Nat.mod_one]) h
  unfold alignTo
  rw [run_bind hposition, if_pos ⟨hone, h⟩]
  refine (run_bind (run_jumpOver _ s)).trans ?_
  rw [show ∀ count, size [.bytes (List.replicate count 0)] = count from fun _ => by
    simp [size, Piece.size]]
  rfl

/-- Aligning code never fails. -/
theorem alignTo_aligns {n : Nat} (hn : 0 < n) (s : State) :
    ∃ t, alignTo n s = .ok ⟨⟩ t ∧ Aligns n s t := by
  by_cases hhere : s.position % n = 0
  · exact ⟨s, run_alignTo_here hhere, hhere, fun _ => rfl, fun hother => absurd hhere hother⟩
  · generalize hpadding : (n - (s.position + instructionSize) % n) % n = padding
    have hrun := run_alignTo_stub hn hhere
    rw [hpadding] at hrun
    have hend : (s.emit [.instruction 0 0 (.known (s.position + instructionSize + padding)),
        .bytes (List.replicate padding 0)]).position = s.position + instructionSize + padding := by
      simp [State.position_emit, size, Piece.size, Nat.add_assoc]
    refine ⟨_, hrun, ?_, fun hother => absurd hother hhere, fun _ => ⟨padding, ?_, hend, ?_⟩⟩
    · rw [hend, ← hpadding]
      exact add_padding_mod _ hn
    · exact hpadding ▸ Nat.mod_lt _ hn
    · rw [hend]

/-! ## Files that are entered -/

/-- Files that are imported belong to the library. -/
theorem Rooted.mem_of_imports {G : Program → Prop} {unit : FileUnit} {p q : Program}
    (h : Rooted G unit p) (hG : Library G) (hq : p.Imports q) : G q := by
  induction hq with
  | single hfile => exact h.files _ hfile
  | tail _ hfile ih => exact hG.closed _ ih _ hfile

/-- Where a file is entered, its first statement starts at a multiple of its alignment, and the image
has a jump to there unless the code was at one. -/
structure EntersAligned (image : Image) (q : Program) (e : Event) (behind : List Event) : Prop where
  start : ∃ start, Aligns q.pragmas.align (e.state.reach q) start ∧
    (∀ st rest, q.statements = st :: rest →
      ∃ later, behind = ⟨.starts [] st, e.depth, start⟩ :: later) ∧
    (e.state.position % q.pragmas.align ≠ 0 →
      image.word? (e.state.position + 16) = some (start.position % addressSpace))

section Emission

variable {p q : Program} {b : Bindings} {log before behind : List Event} {t : State}
  {artifact : Artifact} {e : Event}

/-- A file is aligned wherever it is entered. -/
theorem Emission.entersAligned (h : Emission p b log t artifact) (hq : 0 < q.pragmas.align)
    (hlog : log = before ++ e :: behind) (hmoment : e.moment = .enters q) :
    EntersAligned artifact.image q e behind := by
  obtain ⟨start, inner, u, later, rfl, halign, hinner⟩ := h.trace.copied before e behind q hlog hmoment
  obtain ⟨start', halign', haligns⟩ := alignTo_aligns hq (e.state.reach q)
  obtain rfl : start' = start := by
    rw [halign] at halign'
    cases halign'
    rfl
  refine ⟨start', haligns, fun st rest hstatements => ?_, fun hposition => ?_⟩
  · rw [hstatements] at hinner
    obtain ⟨more, rfl⟩ := hinner.begins
    exact ⟨_, List.cons_append⟩
  · rw [← position_reach e.state q] at hposition ⊢
    obtain ⟨padding, -, -, hstart⟩ := haligns.stub hposition
    have hleaves : ⟨.leaves q, e.depth, u⟩ ∈ log := by
      rw [hlog]
      simp
    have hmoves : Moves start' t := hinner.moves.1.trans (h.trace.moves.2 _ hleaves).2
    obtain ⟨more, hpieces, -⟩ := adds_of_moves hmoves
    rw [hstart, toList_emit, List.append_assoc, List.cons_append] at hpieces
    have hposition' : (e.state.reach q).position =
        codeStart + size (e.state.reach q).pieces.toList := by
      rw [position_reach, pieces_reach]
      exact position_of_moves (h.trace.moves.2 e (by rw [hlog]; simp)).1
    have hfill : (Piece.instruction 0 0 (.known start'.position)).fill (valueOf t.word) =
        (wordBytes 0 ++ wordBytes 0) ++ (wordBytes start'.position ++ []) := by
      rw [Piece.fill, valueOf_ok (show t.word (.known start'.position) = .ok _ from rfl),
        List.append_nil]
    have hholds := word?_of_holds (h.holds_inside hpieces hfill)
    rwa [← hposition', List.length_append, length_wordBytes] at hholds

end Emission

end Emit

namespace Session

open Emit Memory Resolve

/-- What a session resolves comes with a library of files whose alignments a pragma accepts. -/
theorem library_of_resolve {source : FileSource} {dirs : List Path}
    {mains : List (Syntax.Program × Path)} {tree : Syntax.Program} {file : Path} {p : Program}
    (h : ((afterMains source dirs mains).resolve tree file).1 = .ok p) :
    ∃ J turn, Library (Imported J) ∧ Rooted (Imported J) (.main turn) p ∧ J.Accepted := by
  obtain ⟨hsound, hresolved⟩ :=
    (afterMains source dirs mains).resolve_sound (afterMains_sound source dirs mains) tree file
  obtain ⟨hnamed, hmain⟩ :=
    (afterMains source dirs mains).resolve_named (afterMains_named source dirs mains) tree file
  exact ⟨_, _, library_of_imports hsound hnamed, .of_main (hmain p h) (hresolved p h).files,
    (afterMains source dirs mains).resolve_accepted (afterMains_accepted source dirs mains) tree
      file⟩

/-- Aligned imports start on their boundary.  Every file that is imported, directly or through others,
has an alignment from 1 to 65536.  From any state, importing a file that is not skipped goes on with
its statements at a multiple of that; in an accepted program this is so each time a file is entered,
and every imported file is. -/
theorem imports_aligned (source : FileSource) (dirs : List Path)
    (mains : List (Syntax.Program × Path)) (tree : Syntax.Program) (file : Path) (b : Bindings)
    {p : Program} (hresolve : ((afterMains source dirs mains).resolve tree file).1 = .ok p) :
    (∀ q, p.Imports q → 1 ≤ q.pragmas.align ∧ q.pragmas.align ≤ 65536 ∧
      ∀ s : Emit.State, s.skips q = false → ∃ t, Aligns q.pragmas.align (s.reach q) t ∧
        action (.place q) s = stmts q.statements t) ∧
    ∀ artifact, (p.generate b).1 = .ok artifact → ∃ log t, Emission p b log t artifact ∧
      (∀ q, p.Imports q → Enters log q) ∧
      ∀ before e behind q, log = before ++ e :: behind → e.moment = .enters q →
        EntersAligned artifact.image q e behind := by
  obtain ⟨J, turn, hG, hrooted, haccepted⟩ := library_of_resolve hresolve
  refine ⟨fun q hq => ?_, fun artifact hartifact => ?_⟩
  · obtain ⟨hlow, hhigh⟩ := haccepted _ _ (hrooted.mem_of_imports hG hq)
    refine ⟨hlow, hhigh, fun s hskips => ?_⟩
    obtain ⟨t, halign, haligns⟩ := alignTo_aligns hlow (s.reach q)
    exact ⟨t, haligns, (run_file hskips).trans (run_bind halign)⟩
  · obtain ⟨log, t, h⟩ := emission_of_generate hartifact
    refine ⟨log, t, h, fun q hq => ?_, fun before e behind q hlog hmoment => ?_⟩
    · rcases h.includes hG hrooted hq.to_reflTransGen with rfl | henters
      · exact absurd hq.sizeOf_lt (Nat.lt_irrefl _)
      · exact henters
    · have henters : Enters log q := ⟨e, by rw [hlog]; simp, hmoment⟩
      have hfile := (h.trace.enters_below hG hrooted.hosts q henters).1
      exact h.entersAligned (haccepted _ _ hfile).1 hlog hmoment

/-- A file with the alignment 100 that is placed twice, and starts with an import of one with the
alignment 7. -/
theorem imports_aligned_nested :
    let number : Syntax.Expr := .castTo "n8" (.ofInt 1)
    let align : Word128 → Syntax.Stmt := fun n => .of (.pragmaOf "align" (some (.ofInt n)))
    let inner : Syntax.Program := [align 7, .of (.letVar "y" number)]
    let outer : Syntax.Program := [align 100, .of (.pragmaOf "multi" none), .of (.importOf "inner"),
      .of (.letVar "x" number)]
    let tree : Syntax.Program := [.of (.importOf "outer"), .of (.importOf "outer")]
    let files : MemoryFiles := [(⟨"src/outer"⟩, outer), (⟨"src/inner"⟩, inner)]
    ∃ p artifact, ((afterMains files.source [⟨"src"⟩] []).resolve tree ⟨"main"⟩).1 = .ok p ∧
      (p.generate .none).1 = .ok artifact ∧ ∃ log t, Emission p .none log t artifact ∧
        ∃ q r, p.Imports q ∧ q.Imports r ∧ q.pragmas = ⟨100, true⟩ ∧ r.pragmas = ⟨7, false⟩ ∧
          Enters log q ∧ Enters log r ∧
          ∀ before e behind q, log = before ++ e :: behind → e.moment = .enters q →
            EntersAligned artifact.image q e behind := by
  intro number align inner outer tree files
  have hchecked : runnable (fun p => p.files.any fun q => q.pragmas == ⟨100, true⟩ &&
      q.files.any fun r => r.pragmas == ⟨7, false⟩)
      ((afterMains files.source [⟨"src"⟩] []).resolve tree ⟨"main"⟩).1 .none = true := by
    decide +kernel
  obtain ⟨p, artifact, hresolve, hgenerate, hnested, -⟩ := exists_of_runnable hchecked
  obtain ⟨q, hq, hnested⟩ := List.any_eq_true.mp hnested
  obtain ⟨hmulti, hnested⟩ := Bool.and_eq_true_iff.mp hnested
  obtain ⟨r, hr, hplain⟩ := List.any_eq_true.mp hnested
  obtain ⟨-, haligned⟩ := imports_aligned files.source [⟨"src"⟩] [] tree ⟨"main"⟩ .none hresolve
  obtain ⟨log, t, h, hentered, henters⟩ := haligned artifact hgenerate
  exact ⟨p, artifact, hresolve, hgenerate, log, t, h, q, r, .single hq, .single hr,
    beq_iff_eq.mp hmulti, beq_iff_eq.mp hplain, hentered q (.single hq),
    hentered r (.tail (.single hq) hr), henters⟩

end Session

end ByteJump
