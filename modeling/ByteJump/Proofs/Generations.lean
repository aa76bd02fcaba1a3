import ByteJump.Proofs.Emit.Carried
import ByteJump.Proofs.GeneratedProgram
import ByteJump.Proofs.Sessions

set_option autoImplicit false

/-!
# Generating one image after another

Addresses of labels and registers of variables outlive the image they were made for, and programs
of one session share the files they import.  Still every image is the one that a fresh copy of the
program has, whose labels have no address and whose variables have no register: nothing is looked up
before it is bound anew.

The argument has three steps.  First, generating under a renaming and over earlier bindings ends
as generating with nothing bound does, as long as no look-up gets through to the earlier bindings;
this is the walk over the emission, continued here through linking.  Second, no look-up does in a
resolved program: `Settles` says that emission ends well with all symbols placed, or with one of
the faults that no binding causes.  Third, a copy of a program that was resolved afresh differs
from it by a renaming of units only, so the two comparisons can be joined.
-/

namespace ByteJump

/-! ## Renaming nothing

To rename nothing is a renaming, and what is carried over by it is the state itself, on top of
earlier bindings.  This is the case of one program generated twice. -/

/-- The renaming that changes nothing. -/
def Renaming.same : Renaming := ⟨id, id⟩

/-- It keeps units apart, as it keeps them as they are. -/
theorem Renaming.same_faithful : Renaming.same.Faithful := ⟨Function.injective_id, fun _ => rfl⟩

theorem Renaming.moving_faithful (move : Equiv.Perm FileUnit) :
    (Renaming.moving move).Faithful := ⟨move.injective, Path.key_standard⟩

section Same

theorem Ty.rename_same : ∀ t : Ty, t.rename .same = t
  | .object (.struct _ _) | .object (.word _ _) | .object (.string _) | .object (.literal _) => rfl
  | .array inner count => by rw [Ty.rename, Ty.rename_same inner]

theorem Variable.rename_same (v : Variable) : v.rename .same = v := by
  unfold Variable.rename
  rw [Ty.rename_same]
  rfl

theorem Label.rename_same : Label.rename .same = fun l => l := rfl

theorem Info.rename_same (i : Info) : i.rename .same = i := by
  unfold Info.rename
  rw [Ty.rename_same]
  rfl

theorem LabelUse.rename_same (u : LabelUse) : u.rename .same = u := by
  unfold LabelUse.rename
  rw [Label.rename_same, Option.map_id']

theorem Exports.rename_same (x : Exports) : x.rename .same = x := by
  have hstruct : StructDef.rename .same = fun d => d := by
    funext d
    have hfields : (fun field : String × Ty => (field.1, field.2.rename .same)) =
        fun field => field := by
      funext field
      rw [Ty.rename_same]
    unfold StructDef.rename
    rw [hfields, List.map_id']
    rfl
  unfold Exports.rename
  rw [hstruct, Label.rename_same, List.map_id', List.map_id']

mutual

/-- By induction on the expression, with nothing to do in any case. -/
theorem Expr.rename_same : ∀ e : Expr, e.rename .same = e
  | .int .. | .str .. => by simp only [Expr.rename, Info.rename_same]
  | .variable .. => by simp only [Expr.rename, Info.rename_same, Variable.rename_same]
  | .label .. => by simp only [Expr.rename, Info.rename_same, LabelUse.rename_same]
  | .cast operand _ | .unary _ operand _ => by
      simp only [Expr.rename, Info.rename_same, Expr.rename_same operand]
  | .binary _ left right _ => by
      simp only [Expr.rename, Info.rename_same, Expr.rename_same left, Expr.rename_same right]
  | .index base indices _ => by
      simp only [Expr.rename, Info.rename_same, Expr.rename_same base, Expr.renameList_same indices]

theorem Expr.renameList_same : ∀ es : List Expr, Expr.renameList .same es = es
  | [] => rfl
  | e :: es => by rw [Expr.renameList, Expr.rename_same e, Expr.renameList_same es]

end

mutual

/-- By induction on the statement. -/
theorem Stmt.rename_same : ∀ st : Stmt, st.rename .same = st
  | .mk labels act site => by
      rw [Stmt.rename, Label.rename_same, List.map_id', Action.rename_same act]
      rfl

theorem Stmt.renameList_same : ∀ ss : List Stmt, Stmt.renameList .same ss = ss
  | [] => rfl
  | st :: ss => by rw [Stmt.renameList, Stmt.rename_same st, Stmt.renameList_same ss]

theorem Stmt.renameOption_same : ∀ st : Option Stmt, Stmt.renameOption .same st = st
  | none => rfl
  | some st => by rw [Stmt.renameOption, Stmt.rename_same st]

theorem Action.rename_same : ∀ act : Action, act.rename .same = act
  | .nothing => rfl
  | .place file => by rw [Action.rename, Program.rename_same file]
  | .evaluate value | .goto value => by rw [Action.rename, Expr.rename_same]
  | .define v value => by rw [Action.rename, Expr.rename_same, Variable.rename_same]
  | .reserve v => by rw [Action.rename, Variable.rename_same]
  | .assign target value => by rw [Action.rename, Expr.rename_same, Expr.rename_same]
  | .block body => by rw [Action.rename, Stmt.renameList_same body]
  | .branch condition taken otherwise => by
      rw [Action.rename, Expr.rename_same, Stmt.rename_same taken, Stmt.renameOption_same otherwise]
  | .loop condition body bodyFirst => by
      rw [Action.rename, Expr.rename_same, Stmt.rename_same body]
  | .words values => by rw [Action.rename, Expr.renameList_same]

theorem Program.rename_same : ∀ p : Program, p.rename .same = p
  | .mk path statements exports pragmas => by
      rw [Program.rename, Stmt.renameList_same statements, Exports.rename_same]
      rfl

end

theorem Fault.rename_same (e : Fault) : e.rename .same = e := by
  cases e with
  | importNotFound name searched site | importCycle searched site =>
      simp only [Fault.rename, Renaming.same, List.map_id]
      rfl
  | unimplemented construct site | outOfRegisters limit site =>
      cases site <;> rfl
  | _ => rfl

end Same

namespace Emit

open Assembly Memory

variable {r : Renaming} {old : Bindings}

/-! ## Linking

The values of words are looked up when all code is there.  A symbol that has been placed is found
among the bindings of this generation, in front of all earlier ones. -/

theorem code_carried (hr : r.Faithful) (ss : List Stmt) (s : State) :
    Carried r old (code ss) (code (Stmt.renameList r ss)) s := by
  unfold code
  refine (stmts_carried hr ss s).seq fun _ t => .position ?_
  exact (instruction_carried _ _ _ t).seq fun _ _ => .pure _

/-- The word has the value it had, as its symbols are bound in front. -/
theorem word_carry (hr : r.Faithful) {s : State} {w : Word}
    (h : SymbolsIn s.Places w ∨ old = .none) :
    (s.carry r old).word (w.rename r) = (s.word w).mapError (Fault.rename r) := by
  cases w with
  | known value => rfl
  | address target site =>
      cases target with
      | label l => exact address_carry hr site (h.imp_left places_label.mp)
      | point role serial =>
          show (s.carry r old).address (.point role serial) (site.map (Location.rename r)) =
            (s.address (.point role serial) site).mapError (Fault.rename r)
          have hpoints : (s.carry r old).points = s.points := rfl
          unfold State.address
          dsimp only
          rw [hpoints]
          cases s.points.lookup serial <;> rfl
  | constant value =>
      exact constant_carry hr (h.imp_left fun hlabels => hlabels.mono fun l hl => places_label.mp hl)

theorem encode_carry (hr : r.Faithful) {s : State} {piece : Piece}
    (h : PieceIn s.Places piece ∨ old = .none) :
    (piece.rename r).encode (s.carry r old).word =
      (piece.encode s.word).mapError (Fault.rename r) := by
  cases piece with
  | bytes data => rfl
  | instruction source destination next =>
      have hnext := word_carry hr (h.imp_left fun hpiece => hpiece next rfl)
      exact mapError_bind hnext fun n => rfl
  | word w =>
      have hw := word_carry hr (h.imp_left fun hpiece => hpiece w rfl)
      exact mapError_bind hw fun n => rfl

/-- By induction on the pieces, each of which is encoded alike. -/
theorem link_carry (hr : r.Faithful) {s : State} {pieces : List Piece}
    (h : (∀ piece ∈ pieces, PieceIn s.Places piece) ∨ old = .none) :
    link (s.carry r old).word (pieces.map (Piece.rename r)) =
      (link s.word pieces).mapError (Fault.rename r) := by
  unfold link
  generalize (#[] : Array UInt8) = start
  induction pieces generalizing start with
  | nil => rfl
  | cons piece pieces ih =>
      rw [List.map_cons, List.foldlM_cons, List.foldlM_cons]
      refine mapError_bind ?_ fun longer => ih (h.imp_left fun hall other hother =>
        hall other (List.mem_cons_of_mem _ hother)) longer
      have hencode := encode_carry hr (h.imp_left fun hall => hall piece List.mem_cons_self)
      exact mapError_bind hencode fun bytes => rfl

theorem stats_carry (s : State) : (s.carry r old).stats = s.stats := by
  unfold State.stats State.carry
  simp only [Array.toList_map, List.countP_map, Function.comp_def, isInstruction_rename,
    hasSymbol_rename]

/-- The patches, the entry and the counts are carried over as they are. -/
theorem finish_carry (hr : r.Faithful) {s : State} (halt : Nat)
    (h : (∀ piece ∈ s.pieces.toList, PieceIn s.Places piece) ∨ old = .none) :
    (s.carry r old).finish halt = (s.finish halt).mapError (Fault.rename r) := by
  have hpieces : (s.carry r old).pieces.toList = s.pieces.toList.map (Piece.rename r) :=
    Array.toList_map
  unfold State.finish
  rw [hpieces, stats_carry]
  exact mapError_bind (link_carry hr h) fun bytes => rfl

/-! ## Images -/

/-- All code of a program is emitted with nothing bound before, or generating ends with a fault
that it may end with; in code that is emitted every symbol has a value. -/
def Settles (p : Program) : Prop :=
  Ends (code p.statements) (fun _ t => ∀ piece ∈ t.pieces.toList, PieceIn t.Places piece)
    (.start .none)

/-- A renamed program has the image of the program, on top of any bindings if all it uses is placed
by its own code, and otherwise on top of none. -/
theorem generate_carry (hr : r.Faithful) {p : Program} (h : Settles p ∨ old = .none) :
    ((p.rename r).generate old).1 = (p.generate .none).1.mapError (Fault.rename r) := by
  have hstatements : (p.rename r).statements = Stmt.renameList r p.statements := by
    cases p
    rfl
  have hcarried : Carried r old (code p.statements) (code (Stmt.renameList r p.statements))
      (.start .none) := code_carried hr _ _
  have hrun := hcarried.run
  have hstart : (State.start .none).carry r old = .start old := by
    simp [State.carry, State.start, Bindings.carry, renameKeys, Bindings.none]
  rw [hstart] at hrun
  unfold Program.generate EStateM.run
  rw [hstatements]
  unfold Settles Ends at h
  cases hcode : code p.statements (.start .none) with
  | error e t =>
      rw [hcode] at hrun h
      rw [hrun h.symm]
      rfl
  | ok halt t =>
      rw [hcode] at hrun h
      rw [hrun trivial]
      exact finish_carry hr halt h

/-- What was bound before makes no difference. -/
theorem generate_fresh {p : Program} (h : Settles p) (b : Bindings) :
    (p.generate b).1 = (p.generate .none).1 := by
  have hcarry : ((p.rename .same).generate b).1 = _ :=
    generate_carry Renaming.same_faithful (Or.inl h)
  rw [Program.rename_same] at hcarry
  rw [hcarry]
  cases (p.generate .none).1 with
  | ok artifact => rfl
  | error e => exact congrArg Except.error (Fault.rename_same e)

end Emit

/-- The same image with the same counts, or the same fault up to the spelling of paths. -/
def SameArtifact (x y : Except Fault Artifact) : Prop :=
  x.mapError (Fault.rename (.moving id)) = y.mapError (Fault.rename (.moving id))

open Emit in
/-- Copies of a program have the same image. -/
theorem SameOutcome.artifact {p q : Program} (h : SameOutcome (.ok p) (.ok q)) :
    SameArtifact (p.generate .none).1 (q.generate .none).1 := by
  obtain ⟨move, hmove⟩ := h
  have hrenamed : p.rename (.moving move) = q.rename (.moving id) := Except.ok.inj hmove
  have hp : ((p.rename (.moving move)).generate .none).1 = _ :=
    generate_carry (Renaming.moving_faithful move) (Or.inr rfl)
  have hq : ((q.rename (.moving id)).generate .none).1 = _ :=
    generate_carry (Renaming.moving_faithful (Equiv.refl FileUnit)) (Or.inr rfl)
  have hpaths : Fault.rename (.moving move) = Fault.rename (.moving id) := by
    funext e
    cases e <;> rfl
  rw [hpaths, hrenamed] at hp
  exact hp.symm.trans hq

/-- The images of programs one after the other, each on top of what those before left behind. -/
def Program.generateAll (b : Bindings) : List Program → List (Except Fault Artifact)
  | [] => []
  | p :: ps => (p.generate b).1 :: Program.generateAll (p.generate b).2 ps

namespace Session

open Emit

/-- One of some main files was resolved to the program in the session of them all. -/
def Resolves (source : FileSource) (dirs : List Path) (mains : List (Syntax.Program × Path))
    (p : Program) : Prop :=
  ∃ before tree file rest, mains = before ++ (tree, file) :: rest ∧
    ((afterMains source dirs before).resolve tree file).1 = .ok p

theorem Resolves.settles {source : FileSource} {dirs : List Path}
    {mains : List (Syntax.Program × Path)} {p : Program} (h : Resolves source dirs mains p) :
    Settles p := by
  obtain ⟨before, tree, file, -, -, hp⟩ := h
  obtain ⟨hsound, hresolved⟩ :=
    (afterMains source dirs before).resolve_sound (afterMains_sound source dirs before) tree file
  exact code_ends hsound (hresolved p hp) .none

/-- A session after main files were resolved by their paths is one after main files were resolved. -/
theorem after_eq (source : FileSource) (dirs before : List Path) :
    ∃ mains, after source dirs before = afterMains source dirs mains := by
  unfold after afterMains
  generalize start source dirs = session
  induction before generalizing session with
  | nil => exact ⟨[], rfl⟩
  | cons path before ih =>
      obtain ⟨mains, hmains⟩ := ih (session.resolvePath path).2
      rw [List.foldl_cons, hmains]
      unfold resolvePath
      cases session.source.load path with
      | error e => exact ⟨mains, rfl⟩
      | ok tree => exact ⟨(tree, session.source.identity path) :: mains, rfl⟩

theorem settles_of_resolvePath {source : FileSource} {dirs before : List Path} {main : Path}
    {p : Program} (h : ((after source dirs before).resolvePath main).1 = .ok p) : Settles p := by
  obtain ⟨mains, hmains⟩ := after_eq source dirs before
  rw [hmains] at h
  unfold resolvePath at h
  split at h
  · cases h
  · rename_i tree htree
    exact Resolves.settles ⟨mains, tree, _, [], rfl, h⟩

/-- A program of a sound session has a copy in a fresh one. -/
theorem exists_copy {files : MemoryFiles} {dirs before : List Path} {main : Path} {p : Program}
    (h : ((after files.source dirs before).resolvePath main).1 = .ok p) :
    ∃ q, ((start files.source dirs).resolvePath main).1 = .ok q ∧ SameOutcome (.ok p) (.ok q) := by
  have hsame := (Sound.after files dirs before).same_outcome (Sound.start files dirs) main
  rw [h] at hsame
  cases hq : ((start files.source dirs).resolvePath main).1 with
  | ok q => exact ⟨q, rfl, hq ▸ hsame⟩
  | error e =>
      rw [hq] at hsame
      obtain ⟨move, hmove⟩ := hsame
      cases hmove

/-- Whatever programs of a session are generated one after the other, again or after others failed,
each has the image it has on its own with nothing bound, and so does each copy of it; and in a
session over files in memory a main file has a copy that is resolved afresh. -/
theorem generateAll_fresh (source : FileSource) (dirs : List Path)
    (mains : List (Syntax.Program × Path)) (b : Bindings) (ps : List Program)
    (hps : ∀ p ∈ ps, Resolves source dirs mains p) :
    Program.generateAll b ps = ps.map (fun p => (p.generate .none).1) ∧
      (∀ p ∈ ps, ∀ q, SameOutcome (.ok p) (.ok q) →
        SameArtifact (p.generate .none).1 (q.generate .none).1) ∧
      ∀ (files : MemoryFiles) (before : List Path) (main : Path) (p : Program),
        ((after files.source dirs before).resolvePath main).1 = .ok p →
        ∃ q, ((start files.source dirs).resolvePath main).1 = .ok q ∧
          ∀ b, SameArtifact (p.generate b).1 (q.generate .none).1 := by
  refine ⟨?_, fun p _ q hq => hq.artifact, fun files before main p hp => ?_⟩
  · induction ps generalizing b with
    | nil => rfl
    | cons p ps ih =>
        have hfresh := generate_fresh (hps p List.mem_cons_self).settles b
        rw [Program.generateAll, List.map_cons, hfresh,
          ih (p.generate b).2 fun q hq => hps q (List.mem_cons_of_mem _ hq)]
  · obtain ⟨q, hq, hsame⟩ := exists_copy hp
    refine ⟨q, hq, fun b => ?_⟩
    rw [generate_fresh (settles_of_resolvePath hp) b]
    exact hsame.artifact

/-- Two programs that import one file with a label and a variable: the first has an image before and
after generating the second one fails. -/
theorem generateAll_fresh_shared :
    let library : Syntax.Program :=
      [.mk [⟨"f", true, .zero⟩] (.define ⟨"x", .zero⟩ (.int 1 .zero)) .zero]
    let use : Syntax.Stmt := .mk [] (.importFile ⟨"lib", .zero⟩) .zero
    let jump : Syntax.Program := [use, .mk [] (.goto (.label "f" .zero) []) .zero]
    let negated : Syntax.Program :=
      [use, .mk [] (.evaluate (.unary .negate (.int 1 .zero) .zero)) .zero]
    let files : MemoryFiles := [(⟨"src/lib"⟩, library)]
    let mains : List (Syntax.Program × Path) := [(jump, ⟨"jump"⟩), (negated, ⟨"negated"⟩)]
    ∃ p q, Resolves files.source [⟨"src"⟩] mains p ∧ Resolves files.source [⟨"src"⟩] mains q ∧
      (p.generate .none).1.isOk = true ∧ (q.generate .none).1.isOk = false ∧
      Program.generateAll .none [p, q, p] = [p, q, p].map fun p => (p.generate .none).1 := by
  intro library use jump negated files mains
  have hcheck : (match ((afterMains files.source [⟨"src"⟩] []).resolve jump ⟨"jump"⟩).1,
      ((afterMains files.source [⟨"src"⟩] [(jump, ⟨"jump"⟩)]).resolve negated ⟨"negated"⟩).1 with
      | .ok p, .ok q => (p.generate .none).1.isOk && !(q.generate .none).1.isOk
      | _, _ => false) = true := by decide +kernel
  split at hcheck
  · rename_i p q hp hq
    rw [Bool.and_eq_true, Bool.not_eq_true'] at hcheck
    have hresolves : Resolves files.source [⟨"src"⟩] mains p := ⟨[], jump, _, _, rfl, hp⟩
    have hresolves' : Resolves files.source [⟨"src"⟩] mains q :=
      ⟨[(jump, ⟨"jump"⟩)], negated, _, [], rfl, hq⟩
    refine ⟨p, q, hresolves, hresolves', hcheck.1, hcheck.2, ?_⟩
    refine (generateAll_fresh files.source [⟨"src"⟩] mains .none [p, q, p] fun x hx => ?_).1
    have hcases : x = p ∨ x = q ∨ x = p := by simpa using hx
    rcases hcases with rfl | rfl | rfl
    · exact hresolves
    · exact hresolves'
    · exact hresolves
  · cases hcheck

end Session

end ByteJump
