import ByteJump.Proofs.NarrowValues
import ByteJump.Proofs.RawWords

set_option autoImplicit false

/-!
# Code of branches

Wherever a branch of an accepted program is emitted, it goes to one target if the low bytes of its
condition, as many as the type has, are not all zero, and to the other one if they are.  The address
is copied from a table into the jump, one byte after the other; the table does not go over a multiple
of 256, so the low byte of where each of these bytes stands is a sum without a carry.  What earlier
runs left in the fields that the copies write to has no part in it.

A branch is emitted at many places, as the condition of an `if` or of a loop, so it is found in
the trace first: `BranchAt` says that a branch with these targets is part of a statement that
starts.  At such a place the state is good, the targets are points that will be placed, and the
code stays as it is.  From linked code one gets what a run does there: it evaluates the condition,
tests it, copies an address from the table and jumps.  `Machine.Reaches` is the form of a run that
is shown of the machine itself.
-/

namespace ByteJump

open Assembly Memory

/-! ## Machines that go to an address -/

/-- The machine gets to an address, without a fault and without leaving what lies before a limit on
the way. -/
def Machine.Reaches (image : Image) (code : List Piece) (limit target : Nat) (m : Machine) : Prop :=
  ∃ k m', m.stepped k = .ok m' ∧ m.Within limit k ∧ Machine.At image code target m'

section Reaches

variable {image : Image} {code : List Piece} {finish limit target k l : Nat} {Q : Machine → Prop}
  {m m' : Machine}

theorem Machine.Within.trans (h : m.Within finish k) (hstepped : m.stepped k = .ok m')
    (hrises : m.pc ≤ m'.pc) (hlimit : finish ≤ limit) (h' : m'.Within limit l) :
    m.Within limit (k + l) := by
  intro j hj m₁ hrun
  rcases Nat.lt_or_ge j k with hbefore | hbehind
  · obtain ⟨hlow, hhigh⟩ := h j hbefore m₁ hrun
    exact ⟨hlow, Nat.lt_of_lt_of_le hhigh hlimit⟩
  · obtain ⟨i, rfl⟩ := Nat.exists_eq_add_of_le hbehind
    rw [Machine.stepped_add hstepped] at hrun
    obtain ⟨hlow, hhigh⟩ := h' i (by omega) m₁ hrun
    exact ⟨Nat.le_trans hrises hlow, hhigh⟩

theorem Machine.Arrives.reaches (h : m.Arrives image code finish Q) (hrises : m.pc ≤ finish)
    (hlimit : finish ≤ limit)
    (h' : ∀ m', Machine.At image code finish m' → Q m' → m'.Reaches image code limit target) :
    m.Reaches image code limit target := by
  obtain ⟨k, m₁, hstepped, hwithin, hm₁, hq⟩ := h
  obtain ⟨l, m₂, hstepped', hwithin', hm₂⟩ := h' m₁ hm₁ hq
  exact ⟨k + l, m₂, (Machine.stepped_add hstepped).trans hstepped',
    hwithin.trans hstepped (hm₁.pc ▸ hrises) hlimit hwithin', hm₂⟩

end Reaches

namespace Emit

open Linked Resolve

/-! ## Where a branch is emitted -/

/-- A branch is emitted at the state, among the parts of a condition or a loop. -/
def BranchAt (log : List Event) (x : Expr) (taken otherwise : Target) (s : State) : Prop :=
  ∃ e ∈ log, ∃ around st front behind, e.moment = .starts around st ∧
    parts e.state.serial st.action =
      some (front ++ .glue (.branch x taken otherwise) :: behind) ∧
    emitAll front (e.state.labelAll st.labels) = .ok ⟨⟩ s

/-- The first one for a number that was tested, or the second one if so many low bytes of it are all
zero. -/
def pick (width v first second : Nat) : Nat := if v % 256 ^ width = 0 then second else first

/-- The code of a branch: from `s` its condition, from `u` the test, and before `w` a table of its
targets, which end up at `a` and `b`. -/
structure Turns (image : Image) (t : State) (x : Expr) (taken otherwise : Target) (s u w : State)
    (width table a b : Nat) : Prop where
  condition : expr x s = .ok ⟨⟩ u
  run : branch x taken otherwise s = .ok ⟨⟩ w
  type : x.type.width = some width
  target : t.address taken none = .ok a
  alternative : t.address otherwise none = .ok b
  entries : image.word? table = some a ∧ image.word? (table + addressSize) = some b
  /-- no carry out of the low byte, at any byte of the table -/
  carries : ∀ i < 2 * addressSize, (table + i) / 256 = table / 256
  /-- all bytes of the successor of the jump, the last instruction, are copied -/
  rewrites : ∀ place last i, i < addressSize →
    ∃ copy ∈ choiceCopies table place (table + 2 * addressSize) last,
      copy.source = table + place + i ∧ copy.destination + instructionSize = w.position + nextField + i
  /-- from the first byte of the condition, by its value -/
  goes : ∀ m, Machine.At image t.halted.pieces.toList s.position m →
    ∃ v, x.value (scene s t m) = some v ∧
      ((∀ y ∈ x.reads (scene s t m), image.Open s.mark y) →
        m.Reaches image t.halted.pieces.toList w.position (pick width v a b))
  /-- by way of the test, whatever the condition reads -/
  tests : ∀ m, Machine.At image t.halted.pieces.toList s.position m → Fed x s m →
    m.Gets image t.halted.pieces.toList u.position fun m₁ => ∃ v, m₁.immediate? = some v ∧
      m₁.Reaches image t.halted.pieces.toList w.position (pick width v a b)
  /-- from the test, whatever is in the immediate register: each copy on the way -/
  chooses : ∀ m, Machine.At image t.halted.pieces.toList u.position m →
    ∃ v, m.immediate? = some v ∧
      m.Arrives image t.halted.pieces.toList (table + 2 * addressSize) fun m₁ => ∃ m₂,
        m₁.Performs (choiceCopies table (pick width v 0 addressSize) (table + 2 * addressSize)
          (pick width v a b)) m₂ ∧
        Machine.At image t.halted.pieces.toList (pick width v a b) m₂

/-! ## Targets -/

/-- Both targets of a branch are points that the parts around it place. -/
theorem targets_of_parts {serial : Nat} {act : Action} {front behind : List Item} {x : Expr}
    {taken otherwise : Target}
    (h : parts serial act = some (front ++ .glue (.branch x taken otherwise) :: behind)) :
    ∀ target, target = taken ∨ target = otherwise → ∃ role n, target = .point role n ∧
      (Item.glue (.place role n) ∈ front ∨ Item.glue (.place role n) ∈ behind) := by
  have hmem : ∀ all, parts serial act = some all → Item.glue (.branch x taken otherwise) ∈ all := by
    intro all hall
    obtain rfl := Option.some.inj (h.symm.trans hall)
    simp
  have hplace : ∀ all role n, parts serial act = some all → Item.glue (.place role n) ∈ all →
      Item.glue (.place role n) ∈ front ∨ Item.glue (.place role n) ∈ behind := by
    intro all role n hall hitem
    obtain rfl := Option.some.inj (h.symm.trans hall)
    simpa using hitem
  intro target htarget
  cases act with
  | branch condition inner other =>
      cases other <;>
      · have hbranch := hmem _ rfl
        simp only [List.mem_cons, Item.glue.injEq, Glue.branch.injEq, reduceCtorEq, false_or,
          List.not_mem_nil, or_false] at hbranch
        obtain ⟨-, rfl, rfl⟩ := hbranch
        rcases htarget with rfl | rfl <;> exact ⟨_, _, rfl, hplace _ _ _ rfl (by simp)⟩
  | loop condition body bodyFirst =>
      cases bodyFirst <;>
      · have hbranch := hmem _ rfl
        simp only [List.mem_cons, Item.glue.injEq, Glue.branch.injEq, reduceCtorEq, false_or,
          List.not_mem_nil, or_false] at hbranch
        obtain ⟨-, rfl, rfl⟩ := hbranch
        rcases htarget with rfl | rfl <;> exact ⟨_, _, rfl, hplace _ _ _ rfl (by simp)⟩
  | nothing | place _ | evaluate _ | goto _ | define _ _ | reserve _ | assign _ _ | block _
  | words _ => cases h

section Targets

variable {front behind : List Item} {x : Expr} {taken otherwise target : Target} {u v t : State}
  {a : Nat}

theorem Forks.aims_of_place (h : Forks front behind x taken otherwise u v t)
    (hplace : ∃ role n, target = .point role n ∧
      (Item.glue (.place role n) ∈ front ∨ Item.glue (.place role n) ∈ behind)) :
    ∃ a, Aims target u v t a := by
  obtain ⟨role, n, rfl, hplace⟩ := hplace
  obtain ⟨a, hpoint, -⟩ := h.away role n hplace
  exact ⟨a, h.aims hplace hpoint⟩

/-- In the state at the end the target has its address. -/
theorem Aims.address (h : Aims target u v t a) : t.address target none = .ok a := by
  obtain ⟨role, n, rfl, hpoint⟩ := h.point
  rw [State.address, hpoint]

end Targets

/-! ## What a branch does -/

/-- What is known of a branch where it is emitted, in code that is linked: its condition is emitted
from `s` to `u`, and the test up to `v`. -/
structure Turned (L : Linked) (t : State) (x : Expr) (taken otherwise : Target) (s u v w : State)
    (width table a b : Nat) : Prop where
  site : Sited t x s
  condition : expr x s = .ok ⟨⟩ u
  run : branch x taken otherwise s = .ok ⟨⟩ w
  type : x.type.width = some width
  narrow : width ≤ registerSize
  good : Good t
  rises : s.position ≤ u.position
  turning : Turning L width taken otherwise table u v w
  grows : Grows w t
  target : Aims taken s w t a
  alternative : Aims otherwise s w t b

section Turned

variable {J : Imports} {turn : Nat} {p : Program} {b : Bindings} {log : List Event}
  {s t u v w : State} {artifact : Artifact} {x : Expr} {taken otherwise : Target}
  {width table first second : Nat}

/-- The target for a number that was tested. -/
theorem Turned.aims {L : Linked}
    (h : Turned L t x taken otherwise s u v w width table first second) (zero : Bool) :
    Aims (if zero then otherwise else taken) s w t (if zero then second else first) := by
  cases zero with
  | true => exact h.alternative
  | false => exact h.target

theorem Emission.turned (hG : Library (Imported J)) (hrooted : Rooted (Imported J) (.main turn) p)
    (hJ : J.Sound) (hp : p.Sound J) (h : Emission p b log t artifact) (L : Linked)
    (hbranch : BranchAt log x taken otherwise s) :
    ∃ u v w width table first second,
      Turned L t x taken otherwise s u v w width table first second := by
  obtain ⟨e, he, around, st, front, behind, hmoment, hparts, hfront⟩ := hbranch
  obtain ⟨part, t', hpart, -, hgood, hgrows⟩ := h.trace.emits (h.extends L) he hmoment
  have hlabels := hgood.labelAll st.labels
  obtain ⟨part', htrace, -, hawaits⟩ := hpart.inside hgood hparts
  obtain ⟨one, s', w, hone, hforks⟩ := htrace.forks L front hlabels hawaits
  obtain rfl : s' = s := by
    have hrun := hone.run
    rw [hfront] at hrun
    cases hrun
    rfl
  have hasks : Asks st.action (e.state.labelAll st.labels) x s' :=
    .condition (by rwa [State.serial_labelAll]) hfront
  have hsite : Sited t x s' := h.sited hG hrooted hJ hp L
    ⟨e, he, around, st, x, s', hmoment, hasks, .whole⟩
  have hinteger : x.type.isInteger = true := by
    obtain ⟨builtins, hruled⟩ := h.ruled hG hrooted he hmoment
    rcases condition_of_parts hparts with ⟨inner, other, haction⟩ | ⟨body, bodyFirst, haction⟩ <;>
    · rw [haction] at hruled
      exact hruled.2
  obtain ⟨first, htarget⟩ := hforks.aims_of_place (targets_of_parts hparts taken (Or.inl rfl))
  obtain ⟨second, halternative⟩ :=
    hforks.aims_of_place (targets_of_parts hparts otherwise (Or.inr rfl))
  obtain ⟨_, u, hcondition, hturn⟩ :=
    ok_bind (x := expr x) (f := fun _ => Emit.turn x taken otherwise) hforks.run
  obtain ⟨hgood', hrises, -⟩ := (expr_grows L x).run hforks.good _ u hcondition
  obtain ⟨-, -, width, table, v, htype, hnarrow, hturning⟩ :=
    (turning_exec L taken otherwise hinteger).run hgood' _ w hturn
  exact ⟨u, v, w, width, table, first, second, hsite, hcondition, hforks.run, htype, hnarrow,
    (h.extends L).good, hrises.position_le, hturning, hforks.grows.trans hgrows,
    htarget.mono hgrows, halternative.mono hgrows⟩

/-- A condition or a loop that starts emits a branch. -/
theorem Emission.branchAt (h : Emission p b log t artifact) (L : Linked) {e : Event} (he : e ∈ log)
    {around : List Variable} {st inner : Stmt} {other : Option Stmt}
    (hmoment : e.moment = .starts around st) (hchoice : st.action.choice? = some (x, inner, other)) :
    ∃ taken otherwise s, BranchAt log x taken otherwise s := by
  obtain ⟨part, t', hpart, -, hgood, -⟩ := h.trace.emits (h.extends L) he hmoment
  obtain ⟨items, hparts⟩ := parts_of_choice e.state.serial hchoice
  obtain ⟨part', htrace, -, hawaits⟩ := hpart.inside hgood hparts
  have hparts' := hparts
  rw [← State.serial_labelAll st.labels] at hparts'
  obtain ⟨front, behind, taken, otherwise, s, -, -, -, rfl, hfront, -⟩ :=
    htrace.chooses L hparts' hchoice (hgood.labelAll st.labels) hawaits
  exact ⟨taken, otherwise, s, e, he, around, st, front, behind, hmoment, hparts, hfront⟩

/-- The table of a branch holds both targets. -/
theorem Emission.entries (h : Emission p b log t artifact)
    (hfits : artifact.image.size + Machine.scratchSize ≤ addressSpace)
    (hturned : Turned (h.linked hfits) t x taken otherwise s u v w width table first second) :
    artifact.image.word? table = some first ∧
      artifact.image.word? (table + addressSize) = some second := by
  obtain ⟨-, -, before, hpieces, hstart⟩ :=
    hturned.turning.laid ((h.leads hfits).before hturned.grows)
  obtain ⟨more, hmore, -⟩ := (hturned.turning.grows.trans hturned.grows).code
  have hcode : t.pieces.toList = before ++ .word (.address taken none) ::
      .word (.address otherwise none) :: more := by
    rw [hmore, hpieces]
    simp
  have hcode' : t.pieces.toList = (before ++ [.word (.address taken none)]) ++
      .word (.address otherwise none) :: more := by
    rw [hcode]
    simp
  have hbound : ∀ {target : Target} {c : Nat}, Aims target s w t c → c % addressSpace = c :=
    fun haims => Nat.mod_eq_of_lt ((h.leads hfits).lt_addressSpace hturned.good haims.le)
  obtain ⟨n, hn, hword⟩ := h.word_at hcode
  obtain ⟨n', hn', hword'⟩ := h.word_at hcode'
  obtain rfl : first = n := Except.ok.inj (hturned.target.address.symm.trans hn)
  obtain rfl : second = n' := Except.ok.inj (hturned.alternative.address.symm.trans hn')
  rw [hbound hturned.target, ← hstart] at hword
  rw [hbound hturned.alternative, size_append, ← Nat.add_assoc, ← hstart] at hword'
  exact ⟨hword, hword'⟩

/-- A machine follows a trail through linked code, and the step behind it. -/
theorem Emission.performs (h : Emission p b log t artifact)
    (hfits : artifact.image.size + Machine.scratchSize ≤ addressSpace) {m : Machine}
    {copies : List Machine.Copy} {c c' : Contents} {address address' target : Nat}
    (hm : Machine.At artifact.image t.halted.pieces.toList address m)
    (htrail : Trail (h.linked hfits).size copies m.contents address c address')
    (hstep : ByteJump.Step (h.linked hfits).size c address' c' target)
    (hintact : (h.linked hfits).Intact c') :
    ∃ m', m.Performs (copies ++ [c.copy address']) m' ∧
      Machine.At artifact.image t.halted.pieces.toList target m' := by
  obtain ⟨m₁, hfirst, hmemory, hcontents, hpc, hrunning⟩ := Machine.performs_of_trail
    Linked.size_le htrail (hm.size.trans (h.size_linked hfits).symm) rfl hm.pc hm.running
  obtain ⟨m₂, hlast, hmemory', rfl, hpc', hrunning'⟩ :=
    Machine.performs_of_step Linked.size_le hstep hmemory hcontents hpc hrunning
  refine ⟨m₂, hfirst.append hlast, hrunning', hpc', hmemory'.trans (h.size_linked hfits), ?_⟩
  intro a hlow hhigh hkept
  rw [← h.stop_linked hfits] at hhigh
  exact hintact a hlow hhigh hkept

/-- From its test a branch chooses by the number in the immediate register. -/
theorem Emission.chooses (h : Emission p b log t artifact)
    (hfits : artifact.image.size + Machine.scratchSize ≤ addressSpace)
    (hturned : Turned (h.linked hfits) t x taken otherwise s u v w width table first second)
    {m : Machine} (hm : Machine.At artifact.image t.halted.pieces.toList u.position m) :
    ∃ n, m.immediate? = some n ∧
      m.Arrives artifact.image t.halted.pieces.toList (table + 2 * addressSize) fun m₁ => ∃ m₂,
        m₁.Performs (choiceCopies table (pick width n 0 addressSize) (table + 2 * addressSize)
          (pick width n first second)) m₂ ∧
        Machine.At artifact.image t.halted.pieces.toList (pick width n first second) m₂ := by
  refine ⟨_, h.immediate_of_at hm, ?_⟩
  have hleads := h.leads hfits
  have hleads' := hleads.before hturned.grows
  obtain ⟨-, hstart, -⟩ := hturned.turning.laid hleads'
  have hgrows := hturned.turning.grows
  have hrises := hturned.rises
  have htested := hturned.turning.tested
  obtain ⟨k, c', d', hclimbs, hintact, hshows, hleaves⟩ := (hturned.turning.tests m.contents).run
    (hleads'.before hgrows) m.contents (h.intact_of_at hfits hm) fun _ _ => rfl
  generalize hzero : decide (m.contents.number immediate width = 0) = zero
  have hplace := place_of_test hleaves hzero
  rw [Contents.number_low _ hturned.narrow] at hzero
  have haims := hturned.aims zero
  have hselects := hturned.turning.selects d' zero _ hplace (haims.value hleads)
    (hleads.lt_addressSpace hturned.good haims.le) (haims.away.imp_left (by omega))
  obtain ⟨c'', htrail, hstep, hreads, hintact', -⟩ := hselects.run hleads' c' hintact hshows
  obtain ⟨k, m₁, hstepped, hwithin, hm₁, rfl⟩ := h.arrives hfits hm hclimbs hintact
  obtain ⟨m₂, hperforms, hm₂⟩ := h.performs hfits hm₁ htrail hstep hintact'
  rw [hreads, hstart] at hperforms
  rw [hstart] at hwithin hm₁
  refine ⟨k, m₁, hstepped, hwithin, hm₁, m₂, ?_, ?_⟩
  · subst hzero
    simpa only [decide_eq_true_eq, choiceCopies, pick] using hperforms
  · subst hzero
    simpa only [decide_eq_true_eq, pick] using hm₂

/-- From its test a branch gets to one of its targets. -/
theorem Emission.reaches (h : Emission p b log t artifact)
    (hfits : artifact.image.size + Machine.scratchSize ≤ addressSpace)
    (hturned : Turned (h.linked hfits) t x taken otherwise s u v w width table first second)
    {m : Machine} (hm : Machine.At artifact.image t.halted.pieces.toList u.position m) {n : Nat}
    (hn : m.immediate? = some n) :
    m.Reaches artifact.image t.halted.pieces.toList w.position (pick width n first second) := by
  obtain rfl := Option.some.inj ((h.immediate_of_at hm).symm.trans hn)
  have hleads := h.leads hfits
  have hrises := hturned.rises
  generalize hzero : decide (m.contents.number immediate width = 0) = zero
  have haims := hturned.aims zero
  have hgoes := hturned.turning.goes m.contents hzero (haims.value hleads)
    (hleads.lt_addressSpace hturned.good haims.le) (haims.away.imp_left (by omega))
  obtain ⟨k, c', d', hleaps, hintact, -, -⟩ := hgoes.run (hleads.before hturned.grows) m.contents
    (h.intact_of_at hfits hm) fun _ _ => rfl
  obtain ⟨m', hstepped, hm', -⟩ := h.at_of_steps hfits hm hleaps.steps hintact
  refine ⟨k + 1, m', hstepped, Machine.within_of_leaps Linked.size_le hleaps
    (hm.size.trans (h.size_linked hfits).symm) rfl hm.pc hm.running, ?_⟩
  rw [Contents.number_low _ hturned.narrow] at hzero
  subst hzero
  simpa only [decide_eq_true_eq, pick] using hm'

/-- Wherever a branch is emitted, it turns to the right target. -/
theorem Emission.turns (h : Emission p b log t artifact)
    (hfits : artifact.image.size + Machine.scratchSize ≤ addressSpace)
    (hturned : Turned (h.linked hfits) t x taken otherwise s u v w width table first second) :
    Turns artifact.image t x taken otherwise s u w width table first second := by
  obtain ⟨hmod, hstart, -⟩ := hturned.turning.laid ((h.leads hfits).before hturned.grows)
  have htested := hturned.turning.tested
  have hlonger := hturned.turning.longer
  refine ⟨hturned.condition, hturned.run, hturned.type, hturned.target.address,
    hturned.alternative.address, h.entries hfits hturned, fun i hi => ?_, fun place last i hi => ?_,
    fun m hm => ?_, fun m hm hfed => ?_, fun m hm => h.chooses hfits hturned hm⟩
  · simp only [addressSize] at hi
    omega
  · obtain ⟨copy, hcopy, hsource, hdestination⟩ := exists_selectAllCopies (Nat.zero_le i)
      (show i < 0 + addressSize by omega)
    refine ⟨copy, List.mem_append_left _ hcopy, hsource, ?_⟩
    rw [hdestination, hturned.turning.chosen, hstart]
    omega
  · obtain ⟨u', own, hrun, -, -, hvalue⟩ := h.recomputes hfits hturned.site
    obtain ⟨⟩ := hrun.symm.trans hturned.condition
    obtain ⟨n, hn, hcomputes⟩ := hvalue m hm
    refine ⟨n, hn, fun hreads => (hcomputes hreads).reaches ?_ ?_ fun m' hm' hcomputed =>
      h.reaches hfits hturned hm' hcomputed.immediate⟩
    · rw [hm.pc]
      exact hturned.rises
    · omega
  · refine (h.narrow hfits hturned.site hturned.condition hm hfed).mono fun m₁ hm₁ _ => ?_
    have hn := h.immediate_of_at hm₁
    exact ⟨_, hn, h.reaches hfits hturned hm₁ hn⟩

end Turned

end Emit

namespace Session

open Emit Resolve

/-- Branches go the right way.  A machine at the first byte of a branch of an accepted program, with
any bytes in the fields that instructions write to, gets to where the first target ends up if the low
bytes of its condition, as many as the type has, are not all zero, and to the second one if they are.
From the test on this holds for any number in the immediate register, and the machine does just these
copies: each byte of the address is found without a carry out of the low byte of where it stands, and
all eight are copied into the jump before it is reached. -/
theorem branches_turn (source : FileSource) (dirs : List Path)
    (mains : List (Syntax.Program × Path)) (tree : Syntax.Program) (file : Path) (b : Bindings)
    {p : Program} {artifact : Artifact}
    (hresolve : ((afterMains source dirs mains).resolve tree file).1 = .ok p)
    (hgenerate : (p.generate b).1 = .ok artifact)
    (hfits : artifact.image.size + Machine.scratchSize ≤ addressSpace) :
    ∃ log t, Emission p b log t artifact ∧ ∀ x taken otherwise s, BranchAt log x taken otherwise s →
      ∃ u w width table first second,
        Turns artifact.image t x taken otherwise s u w width table first second := by
  obtain ⟨J, turn, hG, hrooted, hp, hJ⟩ := sound_of_resolve hresolve
  obtain ⟨log, t, h⟩ := emission_of_generate hgenerate
  refine ⟨log, t, h, fun x taken otherwise s hbranch => ?_⟩
  obtain ⟨u, v, w, width, table, first, second, hturned⟩ :=
    h.turned hG hrooted hJ hp (h.linked hfits) hbranch
  exact ⟨u, w, width, table, first, second, h.turns hfits hturned⟩

/-- A choice inside a loop that tests a byte. -/
theorem branches_turn_nested :
    let byte : Nat → Syntax.Expr := fun n => .cast (.int (.ofNat 128 n) .zero) (.named "n8" .zero) .zero
    let read : Syntax.Expr := .variable "x" .zero
    let skip : Syntax.Stmt := .mk [] (.evaluate (byte 1)) .zero
    let choice : Syntax.Stmt := .mk [] (.branch (.unary .not read .zero) skip (some skip)) .zero
    let tree : Syntax.Program :=
      [.mk [] (.define ⟨"x", .zero⟩ (byte 0)) .zero, .mk [] (.loop read choice true) .zero]
    ∃ p artifact, ((afterMains (MemoryFiles.source []) [] []).resolve tree ⟨"main"⟩).1 = .ok p ∧
      (p.generate .none).1 = .ok artifact ∧
      artifact.image.size + Machine.scratchSize ≤ addressSpace ∧
      ∃ log t, Emission p .none log t artifact ∧ ∃ x taken otherwise s,
        BranchAt log x taken otherwise s ∧ ∃ u w width table first second,
          Turns artifact.image t x taken otherwise s u w width table first second ∧
          ∃ m, Machine.At artifact.image t.halted.pieces.toList u.position m := by
  intro byte read skip choice tree
  have hchecked : runnable (fun p =>
      (Stmt.listSubs p.statements).any fun st => st.action.choice?.isSome)
      ((afterMains (MemoryFiles.source []) [] []).resolve tree ⟨"main"⟩).1 .none = true := by
    decide +kernel
  obtain ⟨p, artifact, hresolve, hgenerate, hchooses, hfits⟩ := exists_of_runnable hchecked
  obtain ⟨log, t, h, hturns⟩ := branches_turn (MemoryFiles.source []) [] [] tree ⟨"main"⟩ .none
    hresolve hgenerate hfits
  obtain ⟨st, hst, hsome⟩ := List.any_eq_true.mp hchooses
  obtain ⟨e, he, around, hmoment⟩ := h.starts (Or.inl rfl) st hst
  obtain ⟨⟨x, inner, other⟩, hchoice⟩ := Option.isSome_iff_exists.mp hsome
  obtain ⟨taken, otherwise, s, hbranch⟩ := h.branchAt (h.linked hfits) he hmoment hchoice
  obtain ⟨u, w, width, table, first, second, hturn⟩ := hturns x taken otherwise s hbranch
  exact ⟨p, artifact, hresolve, hgenerate, hfits, log, t, h, x, taken, otherwise, s, hbranch, u, w,
    width, table, first, second, hturn, _, Machine.at_ofImage _ _ _⟩

end Session

end ByteJump
