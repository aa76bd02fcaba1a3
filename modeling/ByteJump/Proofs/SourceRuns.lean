import ByteJump.Proofs.Run.Image

set_option autoImplicit false

/-!
# Programs do what their source says

The image of a structured program does on the machine what a run of the source does on the bytes it
may read.  Where the source is done the machine halts behind the code with every byte in its memory
that the run knows of; where the source needs more rounds the machine needs at least as many steps.

The statement joins two halves: emission gives code that does what each statement says, by the
lemmas on running statements, and the image is that code, linked and loaded.  `Emission.realizes`
puts the halt behind the code and the header in front of it.  What a run of the source may not
know is said once and for all by its store: a byte that the code overwrites with a temporary is
forgotten.  The second half of the module shows that this cannot be left out: there is a program
that reads such a byte, through a slot that was never written, and its value is the temporary and
not the zero it held before.
-/

namespace ByteJump

open Assembly Memory

/-- A run of a program, emitted on top of some bindings, from the first statement on. -/
def Source.run (w : World) (b : Bindings) (p : Program) (rounds : Nat) : Outcome :=
  stmts w (.start b) p.statements rounds w.start

namespace Emit

/-- What the machine has to do with an image, given how a run of the source with so many rounds
ends. -/
def Realizes (image : Image) (w : Source.World) (rounds : Nat) : Source.Outcome → Prop
  | .done m => ∃ steps, ∀ limit > steps, ∃ final,
      (Machine.ofImage image).run limit = (final, none) ∧ final.halted = true ∧
      final.pc = image.layout.halt ∧
      ∀ a v, w.reaches registerCount a = true → m a = some v → final.memory[a]? = some v
  | .stuck => True
  | .timeout => ∀ limit ≤ rounds,
      ((Machine.ofImage image).run limit).2 = some (.stepLimit limit)

section Emission

variable {p : Program} {b : Bindings} {log : List Event} {t : State} {artifact : Artifact}

/-- The code between the first state and the last one does what a run of the source does. -/
theorem Emission.compiles {I : Resolve.Imports} (h : Emission p b log t artifact)
    (hfits : artifact.image.size + Machine.scratchSize ≤ addressSpace) (hI : I.Sound)
    (hp : p.Sound I) (hstructured : p.Structured) :
    Good t ∧ Compiles (h.linked hfits) ((Source.Slots.start b).stmts p.statements)
      (Source.stmts (t.world artifact.image true) (.start b) p.statements) (.start b) t := by
  have hrun := h.trace.run
  rw [emitAll_map_stmt] at hrun
  have hstatements : Stmt.ListStructured p.statements := by
    cases p
    exact hstructured
  obtain ⟨hgood, -, hcompiles⟩ := (stmts_compiles (L := h.linked hfits) hI p.statements
    hp.proper hstatements hp.files (.start b)).run (good_start b) _ t hrun
  exact ⟨hgood, hcompiles⟩

/-- Code that follows a run of the source is run by the machine. -/
theorem Emission.realizes (h : Emission p b log t artifact) (hgood : Good t)
    (hentry : t.entry = none) (hfits : artifact.image.size + Machine.scratchSize ≤ addressSpace)
    {rounds : Nat} {o : Source.Outcome}
    (hfollows : Follows (h.linked hfits) t rounds (Machine.ofImage artifact.image).contents
      codeStart t.position o) : Realizes artifact.image (t.world artifact.image true) rounds o := by
  have hsize : (Machine.ofImage artifact.image).memory.size = (h.linked hfits).size := by
    rw [size_ofImage, h.size_image]
    rfl
  have hpc := h.pc_ofImage hentry
  have hleads := h.leads hfits
  have hintact : (h.linked hfits).Intact (Machine.ofImage artifact.image).contents :=
    fun a _ _ _ => contents_ofImage artifact.image a
  have hshows : (h.linked hfits).Shows (Machine.ofImage artifact.image).contents
      (Machine.ofImage artifact.image).contents := fun _ _ => rfl
  cases o with
  | stuck => trivial
  | timeout =>
      obtain ⟨k, c', pc', hk, hsteps⟩ := Lingers.run hfollows hleads _ hintact hshows
      intro limit hlimit
      exact Machine.runFor_of_le Linked.size_le hsteps (Nat.le_trans hlimit hk) hsize rfl hpc rfl
  | done m =>
      obtain ⟨k, c', d', -, hsteps, hintact', hshows', hknown⟩ :=
        Travels.run hfollows hleads _ hintact hshows
      refine ⟨k, fun limit hlimit => ?_⟩
      obtain ⟨fuel, rfl⟩ := Nat.exists_eq_add_of_lt hlimit
      obtain ⟨last, hrun, hmemory, hcontents, hlast, hhalted⟩ :=
        Machine.runFor_of_steps (k + fuel + 1) (fuel + 1) Linked.size_le hsteps hsize rfl hpc rfl
      obtain ⟨final, hfinal, hend, hhalt, hmemory', hcontents'⟩ :=
        h.halts hfits hgood hmemory (hcontents ▸ hintact') hlast hhalted
      refine ⟨final, hrun.trans hfinal, hend, ?_, fun a v hreaches ha => ?_⟩
      · rw [hhalt, h.layout]
      · have hdata := (isData_of_reaches (L := h.linked hfits) (Nat.le_refl _) hreaches).1
        refine getElem?_of_contents ?_ ?_
        · rw [hmemory', hmemory]
          exact hdata.lt_size
        · rw [hcontents', hcontents, hshows' a hdata]
          exact hknown a v hreaches ha

end Emission

end Emit

namespace Session

open Emit Resolve

/-- The machine does with the image of a structured program what a run of the source does on the
bytes it may read, whatever was emitted before. -/
theorem runs_as_source (source : FileSource) (dirs : List Path)
    (mains : List (Syntax.Program × Path)) (tree : Syntax.Program) (file : Path) (b : Bindings)
    {p : Program} {artifact : Artifact}
    (hresolve : ((afterMains source dirs mains).resolve tree file).1 = .ok p)
    (hgenerate : (p.generate b).1 = .ok artifact) (hstructured : p.Structured)
    (hfits : artifact.image.size + Machine.scratchSize ≤ addressSpace) :
    ∃ log t, Emission p b log t artifact ∧
      (Source.Slots.start b).stmts p.statements = t.slots ∧
      ∀ rounds, Realizes artifact.image (t.world artifact.image true) rounds
        (Source.run (t.world artifact.image true) b p rounds) := by
  obtain ⟨hsound, hresolved⟩ :=
    (afterMains source dirs mains).resolve_sound (afterMains_sound source dirs mains) tree file
  obtain ⟨log, t, h⟩ := emission_of_generate hgenerate
  obtain ⟨hgood, hcompiles⟩ := h.compiles hfits hsound (hresolved p hresolve) hstructured
  exact ⟨log, t, h, hcompiles.slots.symm, fun rounds =>
    h.realizes hgood hcompiles.entry hfits (hcompiles.runs rounds _ _ (h.known_start hfits))⟩

/-- A loop whose body stores a zero in the variable that the loop tests. -/
theorem runs_as_source_loop :
    let zero : Syntax.Expr := .cast (.int 0 .zero) (.named "n8" .zero) .zero
    let one : Syntax.Expr := .cast (.int 1 .zero) (.named "n8" .zero) .zero
    let clear : Syntax.Stmt :=
      .mk [] (.assign (.unary .deref (.int 32 .zero) .zero) zero) .zero
    let tree : Syntax.Program :=
      [.mk [] (.define ⟨"x", .zero⟩ one) .zero,
        .mk [] (.loop (.variable "x" .zero) clear false) .zero]
    ∃ p artifact, ((afterMains (MemoryFiles.source []) [] []).resolve tree ⟨"main"⟩).1 = .ok p ∧
      (p.generate .none).1 = .ok artifact ∧ p.Structured ∧
      artifact.image.size + Machine.scratchSize ≤ addressSpace ∧
      ∃ log t, Emission p .none log t artifact ∧
        (Source.Slots.start .none).stmts p.statements = t.slots ∧
        ∀ rounds, Realizes artifact.image (t.world artifact.image true) rounds
          (Source.run (t.world artifact.image true) .none p rounds) := by
  intro zero one clear tree
  have hchecked : runnable (fun p => decide p.Structured)
      ((afterMains (MemoryFiles.source []) [] []).resolve tree ⟨"main"⟩).1 .none = true := by
    decide +kernel
  obtain ⟨p, artifact, hresolve, hgenerate, hstructured, hfits⟩ := exists_of_runnable hchecked
  exact ⟨p, artifact, hresolve, hgenerate, of_decide_eq_true hstructured, hfits,
    runs_as_source (MemoryFiles.source []) [] [] tree ⟨"main"⟩ .none hresolve hgenerate
      (of_decide_eq_true hstructured) hfits⟩

end Session

/-! ## What temporaries leave behind

The program computes a sum first and reserves a variable next.  The register of the variable is
the one the sum kept its left operand in. -/

namespace Source

/-- Bytes stored further up leave a byte as it is. -/
theorem Store.write_below {b : Nat} : ∀ {width a value : Nat} {m : Store}, b < a →
    (m.write a width value) b = m b
  | 0, _, _, _, _ => rfl
  | width + 1, a, value, m, h => by
      rw [write, write_below (by omega), set, if_neg (by omega)]

/-- The first statement reserves the first register, the second one reads a byte there. -/
theorem stmts_read_first {w : World} {σ : Slots} {m : Store} {b : UInt8} {v x : Variable}
    {labels labels' : List Label} {a : Word128} {i j : Info} {site site' : Location}
    (hmark : σ.mark = 0) (hcount : v.count = some 1) (ha : a.toNat = firstSlot)
    (hm : m firstSlot = some b) (rounds : Nat) :
    ∃ m', stmts w σ [.mk labels (.reserve v) site,
        .mk labels' (.define x (.unary .deref (.int a i) j)) site'] rounds m = .done m' ∧
      m' (register 1) = some b := by
  have hbound : (σ.stmt (.mk labels (.reserve v) site)).mark = 1 := by
    rw [Slots.stmt, Slots.action, hcount, Option.getD_some, Slots.bind, hmark]
  have hreaches : w.reaches 1 firstSlot = true := by
    have hslot : firstSlot < register 1 := by decide
    simp [World.reaches, hslot]
  have hspace : firstSlot % addressSpace = firstSlot := by decide
  have heval : eval w (σ.stmt (.mk labels (.reserve v) site)) m (.unary .deref (.int a i) j) =
      some b.toNat := by
    rw [eval, eval]
    dsimp only
    rw [hbound, ha, hspace, World.load, if_pos hreaches, hm, Option.map_some]
  refine ⟨(w.forget m []).write (register 1) registerSize b.toNat, ?_, ?_⟩
  · simp only [stmts, stmt, action, Outcome.andThen, heval, hbound, temporaries]
  · have hbyte : UInt8.ofNat (b.toNat % 256) = b := by
      rw [Nat.mod_eq_of_lt b.toNat_lt, UInt8.ofNat_toNat]
    rw [show registerSize = 15 + 1 from rfl, Store.write, Store.write_below (Nat.lt_succ_self _),
      Store.set, if_pos rfl, hbyte]

end Source

namespace Emit

section Left

variable {I : Resolve.Imports} {L : Linked} {s : State}

/-- Statements behind a sum find its left operand in the register that was free. -/
theorem stmts_behind_sum (hI : I.Sound) {known : List DeclId} {op : BinaryOp} {left right : Expr}
    {i : Info} {site : Location} {ss : List Stmt}
    (hproper : Stmt.ListProper known (.mk [] (.evaluate (.binary op left right i)) site :: ss))
    (hstructured : Stmt.ListStructured ss)
    (hfiles : ∀ file ∈ Stmt.listFiles ss, I.lookup file.file.key = some file) :
    Exec (stmts (.mk [] (.evaluate (.binary op left right i)) site :: ss)) s fun _ t =>
      ∀ rounds m d x v, Known L registerCount m d → Source.eval L.world s.slots m left = some x →
        Source.eval L.world s.slots m (.binary op left right i) = some v →
        Follows L t rounds d s.position t.position (Source.stmts L.world s.slots ss rounds
          ((L.world.forget m (Source.temporaries s.mark (.binary op left right i))).set
            (register s.mark) (UInt8.ofNat (x % 256)))) := by
  refine .good fun hgood => ?_
  have hregisters : s.slots.registers = s.bindings.registers := rfl
  have hmark : s.slots.mark ≤ s.mark := Nat.le_refl _
  have hrun : stmt (.mk [] (.evaluate (.binary op left right i)) site) s =
      expr (.binary op left right i) s := by
    rw [run_stmt, action]
    rfl
  rw [stmts]
  refine (Exec.from hrun id (.refl s) (sum_exec L hmark hregisters
    (expr_exec L hproper.1.1 hregisters hmark)
    fun _ hmark' hregisters' => expr_exec L hproper.1.2 hregisters' hmark')).bind ?_
  intro _ u _ _ hsum
  obtain ⟨hkept, hmark', -, hdoes⟩ := hsum
  refine (stmts_compiles (L := L) hI ss hproper.2 hstructured hfiles u).mono ?_
  intro _ t _ hgrows hrest rounds m d x v hknown hx hv
  rw [hkept.slots hmark'] at hrest
  obtain ⟨x', hx', hleaves⟩ := hdoes m v d (hgood.below hknown) hv
  obtain rfl := Option.some.inj (hx.symm.trans hx')
  refine ((hleaves.travels hgrows).follows fun d' hd' => ?_).less (Nat.le_add_left rounds 0)
  have hset := (hknown.forget (Nat.le_refl _) hd'.1.other).set (a := register s.mark)
    (b := d' (register s.mark))
  -- the data holds the left operand there, so knowing it adds nothing that the data does not show
  rw [Contents.set_same] at hset
  rw [← hd'.2, UInt8.ofNat_toNat]
  exact hrest.runs rounds _ d' hset

end Left

/-- The program adds one and one, reserves the first register and reads its first byte into the
second one. -/
def readsStale : Program → Bool
  | .mk _ [.mk [] (.evaluate (.binary .add (.cast (.int one _) i₁) (.cast (.int two _) i₂) i)) _,
      .mk [] (.reserve v) _, .mk [] (.define _ (.unary .deref (.int a _) _)) _] _ _ =>
      one.toNat == 1 && two.toNat == 1 && i₁.type.width == some 1 && i₂.type.width == some 1 &&
        i.type.width == some 1 && v.count == some 1 && a.toNat == Source.firstSlot
  | _ => false

section Stale

variable {I : Resolve.Imports} {p : Program} {log : List Event} {t : State} {artifact : Artifact}

/-- The sum comes to two, and its left operand to one. -/
theorem eval_readsStale (hreads : readsStale p = true) : ∃ left right i site rest,
    p.statements = .mk [] (.evaluate (.binary .add left right i)) site :: rest ∧
    (∀ w σ m, Source.eval w σ m left = some 1 ∧
      Source.eval w σ m (.binary .add left right i) = some 2) ∧
    ∀ w (σ : Source.Slots) m b rounds, σ.mark = 0 → m Source.firstSlot = some b →
      ∃ m', Source.stmts w σ rest rounds m = .done m' ∧ m' (register 1) = some b := by
  unfold readsStale at hreads
  split at hreads
  case h_2 => cases hreads
  rename_i one i₁ two i₂ i site v site' x a _ _ site'' _ _
  simp only [Bool.and_eq_true, beq_iff_eq] at hreads
  obtain ⟨⟨⟨⟨⟨⟨hone, htwo⟩, hwidth₁⟩, hwidth₂⟩, hwidth⟩, hcount⟩, ha⟩ := hreads
  refine ⟨_, _, _, _, _, rfl, fun w σ m => ?_, fun w σ m b rounds hmark hm =>
    Source.stmts_read_first hmark hcount ha hm rounds⟩
  simp [Source.eval, hone, htwo, hwidth₁, hwidth₂, hwidth]

/-- A run that forgets nothing reads a zero where the machine has the left operand of the sum. -/
theorem Emission.stale (h : Emission p .none log t artifact)
    (hfits : artifact.image.size + Machine.scratchSize ≤ addressSpace) (hI : I.Sound)
    (hp : p.Sound I) (hstructured : p.Structured) (hreads : readsStale p = true) :
    (∃ m, Source.run (t.world artifact.image false) .none p 1 = .done m ∧
      m (register 1) = some 0) ∧
    ∃ steps, ∀ limit > steps, ∃ final,
      (Machine.ofImage artifact.image).run limit = (final, none) ∧
        final.memory[register 1]? = some 1 := by
  obtain ⟨hgood, hcompiles⟩ := h.compiles hfits hI hp hstructured
  have hrun := h.trace.run
  rw [emitAll_map_stmt] at hrun
  have hproper := hp.proper
  have hfiles : ∀ file ∈ Stmt.listFiles p.statements, I.lookup file.file.key = some file := hp.files
  have hstatements : Stmt.ListStructured p.statements := by
    cases p
    exact hstructured
  obtain ⟨left, right, i, site, rest, hsplit, heval, hrest⟩ := eval_readsStale hreads
  rw [hsplit] at hrun hproper hfiles hstatements
  have hfirst : (t.world artifact.image false).start Source.firstSlot = some 0 := by
    have hslot : Source.firstSlot < register registerCount := by decide
    simp [Source.World.start, Source.World.reaches, hslot]
  refine ⟨?_, ?_⟩
  · -- the run: nothing was stored in the first register, so it still holds a zero
    unfold Source.run
    rw [hsplit]
    simp only [Source.stmts, Source.stmt, Source.action, (heval _ _ _).2, Source.Outcome.andThen,
      Source.Slots.stmt, Source.Slots.action]
    exact hrest _ _ _ 0 1 rfl hfirst
  · -- the machine: the statements behind the sum follow a run that knows of the one in it
    obtain ⟨-, -, hfollows⟩ := (stmts_behind_sum (L := h.linked hfits) hI hproper hstatements.2
      hfiles (s := .start .none)).run (good_start .none) _ t hrun
    obtain ⟨m', hdone, hm'⟩ := hrest (t.world artifact.image true) (State.start .none).slots
      ((((t.world artifact.image true).forget (t.world artifact.image true).start
        (Source.temporaries 0 (.binary .add left right i)))).set (register 0) 1) 1 1 rfl (if_pos rfl)
    have hdoes := hfollows 1 _ _ 1 2 (h.known_start hfits) (heval _ _ _).1 (heval _ _ _).2
    have hrealizes := h.realizes hgood hcompiles.entry hfits hdoes
    obtain ⟨steps, hsteps⟩ : Realizes artifact.image (t.world artifact.image true) 1 (.done m') :=
      hdone ▸ hrealizes
    refine ⟨steps, fun limit hlimit => ?_⟩
    obtain ⟨final, hfinal, -, -, hmemory⟩ := hsteps limit hlimit
    exact ⟨final, hfinal, hmemory _ 1 rfl hm'⟩

end Stale

end Emit

namespace Session

open Emit Resolve

/-- A run that pretends that temporaries overwrite nothing is not what the machine does: a sum
leaves its left operand in a register that is reserved, but not written to, and read behind it. -/
theorem runs_as_source_stale :
    let one : Syntax.Expr := .cast (.int 1 .zero) (.named "n8" .zero) .zero
    let tree : Syntax.Program :=
      [.mk [] (.evaluate (.binary .add one one .zero)) .zero,
        .mk [] (.defineArray ⟨"y", .zero⟩ (.int 1 .zero) none) .zero,
        .mk [] (.define ⟨"x", .zero⟩ (.unary .deref (.int 32 .zero) .zero)) .zero]
    ∃ p artifact, ((afterMains (MemoryFiles.source []) [] []).resolve tree ⟨"main"⟩).1 = .ok p ∧
      (p.generate .none).1 = .ok artifact ∧ p.Structured ∧
      artifact.image.size + Machine.scratchSize ≤ addressSpace ∧
      ∀ log t, Emission p .none log t artifact →
        (∃ m, Source.run (t.world artifact.image false) .none p 1 = .done m ∧
          m (register 1) = some 0) ∧
        (∃ steps, ∀ limit > steps, ∃ final,
          (Machine.ofImage artifact.image).run limit = (final, none) ∧
            final.memory[register 1]? = some 1) ∧
        ¬ Realizes artifact.image (t.world artifact.image false) 1
          (Source.run (t.world artifact.image false) .none p 1) := by
  intro one tree
  have hchecked : runnable (fun p => decide p.Structured && readsStale p)
      ((afterMains (MemoryFiles.source []) [] []).resolve tree ⟨"main"⟩).1 .none = true := by
    decide +kernel
  obtain ⟨p, artifact, hresolve, hgenerate, hcheck, hfits⟩ := exists_of_runnable hchecked
  rw [Bool.and_eq_true, decide_eq_true_eq] at hcheck
  obtain ⟨hstructured, hreads⟩ := hcheck
  obtain ⟨hsound, hresolved⟩ := (afterMains (MemoryFiles.source []) [] []).resolve_sound
    (afterMains_sound (MemoryFiles.source []) [] []) tree ⟨"main"⟩
  refine ⟨p, artifact, hresolve, hgenerate, hstructured, hfits, fun log t h => ?_⟩
  obtain ⟨⟨m, hrun, hm⟩, steps, hsteps⟩ :=
    h.stale hfits hsound (hresolved p hresolve) hstructured hreads
  refine ⟨⟨m, hrun, hm⟩, ⟨steps, hsteps⟩, fun hrealizes => ?_⟩
  rw [hrun] at hrealizes
  obtain ⟨steps', hsteps'⟩ := hrealizes
  obtain ⟨final, hfinal, hone⟩ := hsteps (steps + steps' + 1) (by omega)
  obtain ⟨final', hfinal', -, -, hmemory⟩ := hsteps' (steps + steps' + 1) (by omega)
  have hzero := hmemory (register 1) 0 rfl hm
  cases hfinal.symm.trans hfinal'
  cases hone.symm.trans hzero

end Session

end ByteJump
