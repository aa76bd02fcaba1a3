import ByteJump.Proofs.Emit.Sites
import ByteJump.Proofs.Run.Frozen
import ByteJump.Proofs.Run.Image
import ByteJump.Proofs.Run.Occurrences

set_option autoImplicit false

/-!
# Code of expressions

Wherever an expression of an accepted program is emitted, its code computes the value of the
expression in any memory that shows the tables and the code of the image, whatever earlier runs left
in the fields that instructions write to.  It changes the immediate register, registers that are
free, and such fields of its own, so it can be run again.
-/

namespace ByteJump

open Assembly Memory

/-! ## Machines in the middle of code -/

/-- The byte lies in memory, and neither in the immediate register, nor in code, nor in a register
from the mark on. -/
structure Image.Open (image : Image) (mark a : Nat) : Prop where
  immediate : a < Memory.immediate ∨ Memory.immediate + registerSize ≤ a
  register : a < Memory.register mark ∨ addTable ≤ a
  code : a < codeStart ∨ image.size ≤ a
  memory : a < image.size + Machine.scratchSize

/-- The string stands in the image at the address. -/
def Image.Spells (image : Image) (address : Nat) (text : String) : Prop :=
  ∀ i (h : i < text.toUTF8.toList.length), image.bytes[address + i]? = some text.toUTF8.toList[i]

/-- The machine goes on at an address.  It has the tables and the code of the image in its memory,
but any bytes where the code writes to, and any in registers and scratch memory. -/
structure Machine.At (image : Image) (code : List Piece) (address : Nat) (m : Machine) : Prop where
  running : m.halted = false
  pc : m.pc = address
  size : m.memory.size = image.size + scratchSize
  shows : ∀ a, addTable ≤ a → a < image.size → a ∉ destinations code →
    m.contents a = image.bytes.getD a 0

/-- A machine that has the image in its memory goes on at any address. -/
theorem Machine.at_of_contents {image : Image} {m : Machine} (hrunning : m.halted = false)
    (hsize : m.memory.size = image.size + scratchSize)
    (hcontents : ∀ a, m.contents a = image.bytes.getD a 0) (code : List Piece) (address : Nat) :
    Machine.At image code address { m with pc := address } :=
  ⟨hrunning, rfl, hsize, fun a _ _ _ => hcontents a⟩

theorem Machine.at_ofImage (image : Image) (code : List Piece) (address : Nat) :
    Machine.At image code address { Machine.ofImage image with pc := address } :=
  at_of_contents (by rw [ofImage, ofBytes]) (Emit.size_ofImage image)
    (Emit.contents_ofImage image) code address

/-- The value is in the immediate register, and no byte has changed but those of the immediate
register, of registers from the mark on, and of fields of its own that the code writes to. -/
structure Machine.Computed (mark start : Nat) (own : List Piece) (v : Nat) (m m' : Machine) :
    Prop where
  immediate : m'.immediate? = some v
  other : ∀ a, m'.contents a ≠ m.contents a →
    Memory.immediate ≤ a ∧ a < Memory.immediate + registerSize ∨
      Memory.register mark ≤ a ∧ a < addTable ∨
      start ≤ a ∧ a < start + Assembly.size own ∧ a ∈ destinations own

/-- The machine gets to an address further up, without a fault and without leaving what lies between,
and `Q` holds there. -/
def Machine.Arrives (image : Image) (code : List Piece) (finish : Nat) (Q : Machine → Prop)
    (m : Machine) : Prop :=
  ∃ k m', m.stepped k = .ok m' ∧ m.Within finish k ∧ Machine.At image code finish m' ∧ Q m'

/-- The statement evaluates an expression that passes a check. -/
def Stmt.evaluates (check : Expr → Bool) (st : Stmt) : Bool :=
  match st.action with
  | .evaluate value => check value
  | .nothing | .place _ | .goto _ | .define .. | .reserve _ | .assign .. | .block _ | .branch ..
  | .loop .. | .words _ => false

namespace Emit

open Linked Resolve

/-- Where labels, strings and variables are for an expression that is emitted at the first state, by
the end of the emission, and the memory of a machine. -/
def scene (s t : State) (m : Machine) : Scene :=
  ⟨t.bindings.address?, fun text => t.strings.lookup text, s.bindings.register?, m.contents⟩

/-- The expression is emitted at the state: a statement that starts asks for its value, or for that
of an expression it is part of. -/
def Occurs (log : List Event) (x : Expr) (s : State) : Prop :=
  ∃ e ∈ log, ∃ around st y u, e.moment = .starts around st ∧
    Asks st.action (e.state.labelAll st.labels) y u ∧ Part y u x s

theorem Occurs.mono {log log' : List Event} {x : Expr} {s : State} (h : Occurs log x s)
    (hsub : log ⊆ log') : Occurs log' x s := by
  obtain ⟨e, he, hasks⟩ := h
  exact ⟨e, hsub he, hasks⟩

/-- Emitted at a state, the code of an expression has pieces of its own.  A machine that goes on at
its first byte, in any memory that shows the code, arrives at the byte behind it with the value of the
expression, if all the bytes that are dereferenced are open. -/
def Recomputes (image : Image) (t : State) (x : Expr) (s : State) : Prop :=
  ∃ u own, expr x s = .ok ⟨⟩ u ∧ u.pieces.toList = s.pieces.toList ++ own ∧
    u.position = s.position + Assembly.size own ∧
    ∀ m, Machine.At image t.halted.pieces.toList s.position m →
      ∃ v, x.value (scene s t m) = some v ∧
        ((∀ a ∈ x.reads (scene s t m), image.Open s.mark a) →
          m.Arrives image t.halted.pieces.toList u.position
            (Machine.Computed s.mark s.position own v m))

/-! ## Where an expression is emitted -/

/-- What is known of an expression that is emitted at a state. -/
structure Sited (t : State) (x : Expr) (s : State) : Prop where
  good : Good s
  run : ∃ u, expr x s = .ok ⟨⟩ u ∧ Grows u t
  typed : ∃ b, x.Typed b
  vars : x.Proper fun v => v.count = none → ∃ r, s.bindings.register? v = some r ∧ r < s.mark
  labels : x.LabelsIn t.Addresses

section Sited

variable {J : Imports} {turn : Nat} {p : Program} {b : Bindings} {log : List Event} {s t u : State}
  {artifact : Artifact} {x y : Expr} {vars : Variable → Prop} {among : Label → Prop}
  {builtins : Builtins}

theorem Part.typed (h : Part y u x s) : y.Typed builtins → x.Typed builtins := by
  induction h with
  | whole => exact id
  | cast _ ih => exact ih
  | unary _ ih => exact fun hy => ih hy.1
  | left _ ih => exact fun hy => ih hy.1
  | right _ _ _ _ ih => exact fun hy => ih hy.2.1

theorem Part.proper (h : Part y u x s) : y.Proper vars → x.Proper vars := by
  induction h with
  | whole => exact id
  | cast _ ih => exact ih
  | unary _ ih => exact fun hy => ih hy.2
  | left _ ih => exact fun hy => ih hy.1
  | right _ _ _ _ ih => exact fun hy => ih hy.2

theorem Part.labelsIn (h : Part y u x s) : y.LabelsIn among → x.LabelsIn among := by
  induction h with
  | whole => exact id
  | cast _ ih | unary _ ih => exact ih
  | left _ ih => exact fun hy => ih hy.1
  | right _ _ _ _ ih => exact fun hy => ih hy.2

theorem Asks.ruled {act : Action} (h : Asks act s y u) (hact : act.Ruled builtins vars) :
    y.Ruled builtins vars := by
  cases h with
  | evaluate | goto => exact hact
  | define => exact hact.1
  | pointer => exact ⟨hact.1.typed.1, hact.1.proper.2⟩
  | stored _ _ _ => exact hact.2
  | condition hparts _ =>
      rcases condition_of_parts hparts with ⟨inner, other, rfl⟩ | ⟨body, bodyFirst, rfl⟩
      · exact hact.1
      · exact hact.1

theorem Asks.labelsIn {act : Action} (h : Asks act s y u) (hact : act.LabelsIn among) :
    y.LabelsIn among := by
  cases h with
  | evaluate | goto | define => exact hact
  | pointer => exact hact.1
  | stored _ _ _ => exact hact.2
  | condition hparts _ =>
      rcases condition_of_parts hparts with ⟨inner, other, rfl⟩ | ⟨body, bodyFirst, rfl⟩
      · exact hact.1
      · exact hact.1

/-- What a statement of a program evaluates is emitted. -/
theorem Emission.occurs (h : Emission p b log t artifact) {check : Expr → Bool}
    (hevaluates : (Stmt.listSubs p.statements).any (Stmt.evaluates check) = true) :
    ∃ x s, Occurs log x s ∧ check x = true := by
  obtain ⟨st, hst, hcheck⟩ := List.any_eq_true.mp hevaluates
  obtain ⟨e, he, around, hmoment⟩ := h.starts (Or.inl rfl) st hst
  obtain ⟨labels, act, site⟩ := st
  cases act with
  | evaluate x => exact ⟨x, _, ⟨e, he, around, _, x, _, hmoment, .evaluate, .whole⟩, hcheck⟩
  | nothing | place _ | goto _ | define _ _ | reserve _ | assign _ _ | block _ | branch _ _ _
  | loop _ _ _ | words _ => cases hcheck

/-- The code that is emitted only grows, and ends with strings that stand in it. -/
theorem Emission.extends (h : Emission p b log t artifact) (L : Linked) : Extends log (.start b) t := by
  have hnumbered : ∀ body : List Stmt, Numbered (State.start b).serial (body.map .stmt ++ []) :=
    numbered_map nofun trivial
  have hawaits : Awaits (.start b) (p.statements.map .stmt ++ []) :=
    ⟨hnumbered _, by rw [pending_map]; exact nofun⟩
  exact (h.trace.extends L (good_start b) hawaits).1

/-- The expressions of a statement that is emitted obey the rules. -/
theorem Emission.ruled (hG : Library (Imported J)) (hrooted : Rooted (Imported J) (.main turn) p)
    (h : Emission p b log t artifact) {e : Event} (he : e ∈ log) {around : List Variable} {st : Stmt}
    (hmoment : e.moment = .starts around st) :
    ∃ builtins, st.action.Ruled builtins (· ∈ around) := by
  obtain ⟨q, -, hmade⟩ := hrooted.made hG h.trace ⟨e, he, hmoment⟩
  exact hmade.ruled

/-- What is known of an expression where it is emitted. -/
theorem Emission.sited (hG : Library (Imported J)) (hrooted : Rooted (Imported J) (.main turn) p)
    (hJ : J.Sound) (hp : p.Sound J) (h : Emission p b log t artifact) (L : Linked)
    (hx : Occurs log x s) : Sited t x s := by
  obtain ⟨e, he, around, st, y, u, hmoment, hasks, hpart⟩ := hx
  have hstays := (h.trace.stays L hG hrooted.stands (h.extends L) he (h.taken he) hmoment hasks).part
    L hpart
  obtain ⟨builtins, hruled⟩ := h.ruled hG hrooted he hmoment
  have hlabels : st.action.LabelsIn t.Addresses := by
    have hst := h.labelsIn hG hrooted hJ hp ⟨e, he, around, hmoment⟩
    cases st
    exact hst
  obtain ⟨hfits, -⟩ := h.trace.fits hG hrooted.stands (taken_start b) trivial
  have hscope : Fits e.state.bindings.registers e.inScope e.state.mark := hfits e he
  unfold Event.inScope at hscope
  rw [hmoment] at hscope
  obtain ⟨htyped, hproper⟩ := hasks.ruled hruled
  refine ⟨hstays.good, hstays.run, ⟨builtins, hpart.typed htyped⟩, ?_,
    hpart.labelsIn (hasks.labelsIn hlabels)⟩
  refine (hpart.proper hproper).mono fun v hv hcount => ?_
  obtain ⟨r, hr, hbelow⟩ := hscope.bound v hv
  have hmark := hstays.mark
  rw [State.mark_labelAll] at hmark
  have hslots : v.slots = 1 := by
    unfold Variable.slots
    rw [hcount]
    rfl
  refine ⟨r, ?_, by omega⟩
  rw [hstays.vars v hv]
  show (e.state.labelAll st.labels).bindings.registers.lookup v.id = some r
  rw [(labelAll_rest st.labels e.state).2.2.1]
  exact hr

/-- The strings of an emission stand in its image. -/
theorem Emission.spells (h : Emission p b log t artifact)
    (hfits : artifact.image.size + Machine.scratchSize ≤ addressSpace) {text : String} {a : Nat}
    (ha : t.strings.lookup text = some a) : artifact.image.Spells a text := by
  obtain ⟨before, behind, hpieces, haddress⟩ : TextAt t.pieces.toList a text := by
    rcases (h.extends (h.linked hfits)).grows.texts text a ha with hold | hnew
    · cases hold
    · exact hnew
  intro i hi
  have hlinked : (h.linked hfits).pieces = before ++ .bytes text.toUTF8.toList ::
      (behind ++ [.instruction 0 0 (.known t.position)]) := by
    show t.halted.pieces.toList = _
    rw [State.halted, toList_emit, hpieces, List.append_assoc, List.cons_append]
  have hbyte : artifact.image.bytes.getD (codeStart + Assembly.size before + i) 0 =
      text.toUTF8.toList[i] := (h.linked hfits).code before _ _ hlinked i hi
  have hinside : a + i < artifact.image.bytes.size := by
    have hsize : artifact.image.bytes.size = codeStart + Assembly.size t.halted.pieces.toList :=
      h.size_image
    have hpieces' : t.halted.pieces.toList = _ := hlinked
    rw [hsize, hpieces', size_append, haddress]
    simp only [Assembly.size, List.map_cons, List.sum_cons, Piece.size]
    omega
  rw [← haddress, Array.getD_eq_getD_getElem?, Array.getElem?_eq_getElem hinside] at hbyte
  rw [Array.getElem?_eq_getElem hinside, ← hbyte]
  rfl

/-! ## What the code of an expression does -/

theorem Emission.stop_linked (h : Emission p b log t artifact)
    (hfits : artifact.image.size + Machine.scratchSize ≤ addressSpace) :
    (h.linked hfits).stop = artifact.image.size := h.size_image.symm

theorem Emission.size_linked (h : Emission p b log t artifact)
    (hfits : artifact.image.size + Machine.scratchSize ≤ addressSpace) :
    (h.linked hfits).size = artifact.image.size + Machine.scratchSize := by
  rw [Linked.size, h.stop_linked]

theorem Emission.open_linked (h : Emission p b log t artifact)
    (hfits : artifact.image.size + Machine.scratchSize ≤ addressSpace) {mark a : Nat}
    (ha : artifact.image.Open mark a) : (h.linked hfits).Open mark a := by
  refine ⟨ha.immediate, ha.register, ?_, ?_⟩
  · rw [h.stop_linked]
    exact ha.code
  · rw [h.size_linked]
    exact ha.memory

theorem Emission.intact_of_at (h : Emission p b log t artifact)
    (hfits : artifact.image.size + Machine.scratchSize ≤ addressSpace) {address : Nat} {m : Machine}
    (hm : Machine.At artifact.image t.halted.pieces.toList address m) :
    (h.linked hfits).Intact m.contents := by
  intro a hlow hhigh hkept
  rw [h.stop_linked] at hhigh
  exact hm.shows a hlow hhigh hkept

/-- A label in the code stands inside the address space. -/
theorem Emission.label_linked (h : Emission p b log t artifact)
    (hfits : artifact.image.size + Machine.scratchSize ≤ addressSpace) {l : Label}
    (hl : t.Addresses l) : t.bindings.address? l = some ((h.linked hfits).world.label l) ∧
      (h.linked hfits).world.label l < addressSpace := by
  obtain ⟨a, ha, hle⟩ := hl
  have hlabel : (h.linked hfits).world.label l = a := by
    show (t.bindings.address? l).getD 0 = a
    rw [ha, Option.getD_some]
  have hsize : artifact.image.size = t.position + instructionSize := by
    rw [h.size_halt, h.layout]
  have hscratch : Machine.scratchSize = 0x10000 := rfl
  rw [hlabel]
  exact ⟨ha, by omega⟩

/-- An expression finds in a scene what its code needs. -/
theorem Sited.serves (h : Emission p b log t artifact)
    (hfits : artifact.image.size + Machine.scratchSize ≤ addressSpace) (hsite : Sited t x s)
    (m : Machine) : Serves (h.linked hfits) (scene s t m) s.mark x := by
  obtain ⟨u, hrun, hgrows⟩ := hsite.run
  obtain ⟨-, -, -, hremembers⟩ := (expr_grows (h.linked hfits) x).run hsite.good _ u hrun
  refine ⟨hsite.vars, hsite.labels.mono fun l hl => h.label_linked hfits hl, fun text htext => ?_⟩
  obtain ⟨a, ha⟩ := hremembers.mono hgrows text htext
  show t.strings.lookup text = _
  rw [(h.leads hfits).strings text a ha, ha]

/-- The number in the immediate register of a machine. -/
theorem Emission.immediate_of_at (h : Emission p b log t artifact) {address : Nat} {m : Machine}
    (hm : Machine.At artifact.image t.halted.pieces.toList address m) :
    m.immediate? = some (m.contents.number immediate registerSize) := by
  have hlow : immediate + registerSize ≤ codeStart := by decide
  have hsize : codeStart ≤ artifact.image.size := Nat.le.intro h.size_image.symm
  unfold Machine.immediate? Bytes.number?
  rw [if_pos (by rw [hm.size]; omega), Machine.number_contents]
  rfl

/-- Steps through linked code are steps of a machine in the middle of it. -/
theorem Emission.at_of_steps (h : Emission p b log t artifact)
    (hfits : artifact.image.size + Machine.scratchSize ≤ addressSpace) {address address' k : Nat}
    {m : Machine} {c' : Contents} (hm : Machine.At artifact.image t.halted.pieces.toList address m)
    (hsteps : Steps (h.linked hfits).size k m.contents address c' address')
    (hintact : (h.linked hfits).Intact c') :
    ∃ m', m.stepped k = .ok m' ∧ Machine.At artifact.image t.halted.pieces.toList address' m' ∧
      m'.contents = c' := by
  obtain ⟨m', hstepped, hsize, rfl, hpc, hrunning⟩ := Machine.stepped_of_steps Linked.size_le hsteps
    (hm.size.trans (h.size_linked hfits).symm) rfl hm.pc hm.running
  refine ⟨m', hstepped, ⟨hrunning, hpc, hsize.trans (h.size_linked hfits), ?_⟩, rfl⟩
  intro a hlow hhigh hkept
  rw [← h.stop_linked hfits] at hhigh
  exact hintact a hlow hhigh hkept

/-- Steps up through linked code take a machine on without leaving the code. -/
theorem Emission.arrives (h : Emission p b log t artifact)
    (hfits : artifact.image.size + Machine.scratchSize ≤ addressSpace) {address address' k : Nat}
    {m : Machine} {c' : Contents} (hm : Machine.At artifact.image t.halted.pieces.toList address m)
    (hclimbs : Climbs (h.linked hfits).size k m.contents address c' address')
    (hintact : (h.linked hfits).Intact c') :
    m.Arrives artifact.image t.halted.pieces.toList address' fun m' => m'.contents = c' := by
  obtain ⟨m', hstepped, hm', hcontents⟩ := h.at_of_steps hfits hm hclimbs.steps hintact
  exact ⟨k, m', hstepped, Machine.within_of_climbs Linked.size_le hclimbs
    (hm.size.trans (h.size_linked hfits).symm) rfl hm.pc hm.running, hm', hcontents⟩

/-- Wherever an expression is emitted, its code computes its value again and again. -/
theorem Emission.recomputes (h : Emission p b log t artifact)
    (hfits : artifact.image.size + Machine.scratchSize ≤ addressSpace) (hsite : Sited t x s) :
    Recomputes artifact.image t x s := by
  obtain ⟨u, hrun, hgrows⟩ := hsite.run
  have hleads := (h.leads hfits).before hgrows
  obtain ⟨-, hown, -⟩ := (expr_grows (h.linked hfits) x).run hsite.good _ u hrun
  obtain ⟨own, hpieces, hposition, hclosed⟩ := hown.code
  refine ⟨u, own, hrun, hpieces, hposition, fun m hm => ?_⟩
  obtain ⟨v, hv, hconfines⟩ := expr_confines hsite.good hrun hleads (hsite.serves h hfits m)
    (fun _ => rfl) (Nat.le_refl _) hpieces (h.intact_of_at hfits hm)
  refine ⟨v, hv, fun hreads => ?_⟩
  obtain ⟨k, c', hclimbs, hends⟩ := hconfines fun a ha => h.open_linked hfits (hreads a ha)
  have hlow : immediate + registerSize ≤ addTable := by decide
  have htables : addTable < codeStart := addTable_lt_codeStart
  have hstop : (h.linked hfits).stop ≤ (h.linked hfits).size := Nat.le_add_right _ _
  have hother : ∀ a, a < (h.linked hfits).size → c' a ≠ m.contents a →
      immediate ≤ a ∧ a < immediate + registerSize ∨ register s.mark ≤ a ∧ a < addTable ∨
        s.position ≤ a ∧ a < s.position + Assembly.size own ∧ a ∈ destinations own := by
    intro a ha hne
    refine (hends.other a ha hne).imp id (Or.imp id fun ⟨hcode, hmem⟩ => ?_)
    rcases hclosed a hmem with hless | ⟨hstart, hend⟩
    · omega
    · exact ⟨hstart, hend, hmem⟩
  have hintact : (h.linked hfits).Intact c' := by
    intro a hlow hhigh hkept
    rw [← h.intact_of_at hfits hm a hlow hhigh hkept]
    by_contra hne
    rcases hother a (by omega) hne with himmediate | hregister | ⟨-, -, hmem⟩
    · omega
    · omega
    · obtain ⟨behind, hbehind, -⟩ := hleads.code
      refine hkept ?_
      rw [hbehind, hpieces, destinations_append, destinations_append]
      exact List.mem_append_left _ (List.mem_append_right _ hmem)
  obtain ⟨k, m', hstepped, hwithin, hm', rfl⟩ := h.arrives hfits hm hclimbs hintact
  refine ⟨k, m', hstepped, hwithin, hm', ?_, fun a hne => ?_⟩
  · rw [h.immediate_of_at hm', hends.value]
  · rcases Nat.lt_or_ge a (h.linked hfits).size with hinside | houtside
    · exact hother a hinside hne
    · rw [h.size_linked hfits] at houtside
      refine absurd ?_ hne
      rw [Machine.contents, Machine.contents, Array.getD_eq_getD_getElem?,
        Array.getD_eq_getD_getElem?, Array.getElem?_eq_none (hm'.size.trans_le houtside),
        Array.getElem?_eq_none (hm.size.trans_le houtside)]

end Sited

end Emit

namespace Session

open Emit Resolve

/-- Expression code computes the value, disturbs nothing else and can be run again.  Wherever an
expression of an accepted program is emitted, a machine that goes on at the first byte of its code,
with the tables and the code of the image in its memory but any bytes where instructions write to,
and any in registers and scratch memory, gets to the byte behind the code without a fault and without
leaving the code before.  The
immediate register has the value of the expression then, and only the immediate register, registers
from the mark on and fields of its own code have changed. -/
theorem expressions_computed (source : FileSource) (dirs : List Path)
    (mains : List (Syntax.Program × Path)) (tree : Syntax.Program) (file : Path) (b : Bindings)
    {p : Program} {artifact : Artifact}
    (hresolve : ((afterMains source dirs mains).resolve tree file).1 = .ok p)
    (hgenerate : (p.generate b).1 = .ok artifact)
    (hfits : artifact.image.size + Machine.scratchSize ≤ addressSpace) :
    ∃ log t, Emission p b log t artifact ∧
      (∀ text a, t.strings.lookup text = some a → artifact.image.Spells a text) ∧
      ∀ x s, Occurs log x s → Recomputes artifact.image t x s := by
  obtain ⟨J, turn, hG, hrooted, hp, hJ⟩ := sound_of_resolve hresolve
  obtain ⟨log, t, h⟩ := emission_of_generate hgenerate
  exact ⟨log, t, h, fun _ _ ha => h.spells hfits ha, fun x s hx =>
    h.recomputes hfits (h.sited hG hrooted hJ hp (h.linked hfits) hx)⟩

/-- A sum of bytes and a test that follows a label to a byte of code. -/
theorem expressions_computed_deref :
    let byte : Nat → Syntax.Expr := fun n => .cast (.int (.ofNat 128 n) .zero) (.named "n8" .zero) .zero
    let read : Syntax.Expr := .unary .not (.unary .deref (.label "here" .zero) .zero) .zero
    let tree : Syntax.Program :=
      [.mk [] (.define ⟨"x", .zero⟩ (.binary .add (byte 200) (byte 100) .zero)) .zero,
        .mk [⟨"here", false, .zero⟩] (.evaluate read) .zero]
    ∃ p artifact, ((afterMains (MemoryFiles.source []) [] []).resolve tree ⟨"main"⟩).1 = .ok p ∧
      (p.generate .none).1 = .ok artifact ∧
      artifact.image.size + Machine.scratchSize ≤ addressSpace ∧
      ∃ log t, Emission p .none log t artifact ∧
        (∀ text a, t.strings.lookup text = some a → artifact.image.Spells a text) ∧
        (∃ x s, Occurs log x s ∧ Recomputes artifact.image t x s) ∧
        ∀ x s, Occurs log x s → Recomputes artifact.image t x s := by
  intro byte read tree
  have hchecked : runnable (fun p => (Stmt.listSubs p.statements).any (Stmt.evaluates fun _ => true))
      ((afterMains (MemoryFiles.source []) [] []).resolve tree ⟨"main"⟩).1 .none = true := by
    decide +kernel
  obtain ⟨p, artifact, hresolve, hgenerate, hevaluates, hfits⟩ := exists_of_runnable hchecked
  obtain ⟨log, t, h, hspells, hrecomputes⟩ := expressions_computed (MemoryFiles.source []) [] [] tree
    ⟨"main"⟩ .none hresolve hgenerate hfits
  obtain ⟨x, s, hx, -⟩ := h.occurs hevaluates
  exact ⟨p, artifact, hresolve, hgenerate, hfits, log, t, h, hspells,
    ⟨x, s, hx, hrecomputes x s hx⟩, hrecomputes⟩

end Session

end ByteJump
