import ByteJump.Proofs.Emit.Stretch
import ByteJump.Proofs.Run.Outcomes

set_option autoImplicit false

/-!
# Points and jumps to them

A point is placed once, under a number of its own, so from where it is placed on it stays where it
is.  A branch goes to one point or another, as its condition says, and a jump goes to its point.

Points belong to the emission and not to the source, so the lemmas here are what statements with
statements inside are put together from: taking a new point, placing one, jumping to one, and
branching to one of two.  A point that has not been placed yet has a value nevertheless, the one
it will have in the linked code; `value_point` reads it off the final state, where every point is
placed.
-/

namespace ByteJump

namespace Emit

open Assembly Memory Linked

variable {L : Linked} {s t u : State} {α : Type} {Q : α → State → Prop}

/-! ## States that change without code -/

/-- Emitting goes on from another state. -/
theorem Exec.from {x y : Emitter α} (hrun : x s = y u) (hgood : Good s → Good u)
    (hgrows : Grows s u) (h : Exec y u Q) : Exec x s Q := by
  refine ⟨fun hs a t hx => ?_⟩
  obtain ⟨hgood', hgrows', hQ⟩ := h.run (hgood hs) a t (hrun ▸ hx)
  exact ⟨hgood', hgrows.trans hgrows', hQ⟩

/-- Only what names mean has changed. -/
theorem Grows.of_eq (hpieces : u.pieces = s.pieces) (hposition : u.position = s.position)
    (hstrings : u.strings = s.strings)
    (hpoints : ∀ n a, s.points.lookup n = some a → u.points.lookup n = some a) : Grows s u := by
  refine ⟨⟨[], by simp [hpieces], by simp [hposition, Assembly.size], nofun⟩,
    fun text a h => ?_, fun text a h => ?_, hpoints⟩
  · rw [hstrings]
    exact h
  · rw [hstrings] at h
    exact .inl h

/-- One more point, which is not placed yet. -/
def State.counted (s : State) : State := { s with serial := s.serial + 1 }

/-- A point placed here. -/
def State.pointed (s : State) (n : Nat) : State := { s with points := (n, s.position) :: s.points }

/-- The new point has the next number. -/
theorem Exec.newPoint {role : String} {f : Target → Emitter α}
    (h : Exec (f (.point role (s.serial + 1))) s.counted Q) : Exec (newPoint role >>= f) s Q := by
  refine .from (run_bind (run_newPoint role s)) (fun hgood => ?_) (.of_eq rfl rfl rfl ?_) h
  · exact ⟨hgood.position, hgood.closed, hgood.bytes, hgood.mark,
      fun n hn => Nat.le_succ_of_le (hgood.points n hn)⟩
  · exact fun _ _ h => h

/-- Other points stay where they are. -/
theorem lookup_pointed {n m : Nat} (h : m ≠ n) :
    (s.pointed n).points.lookup m = s.points.lookup m := by
  rw [State.pointed, List.lookup_cons, beq_false_of_ne h]

theorem lookup_pointed_self (n : Nat) : (s.pointed n).points.lookup n = some s.position :=
  List.lookup_cons_self

/-- Placing a new point is growth. -/
theorem Grows.pointed {n : Nat} (h : s.points.lookup n = none) : Grows s (s.pointed n) := by
  refine .of_eq rfl rfl rfl fun m a hm => ?_
  have hne : m ≠ n := by
    rintro rfl
    rw [h] at hm
    cases hm
  rw [lookup_pointed hne]
  exact hm

/-- A state with a point more is good. -/
theorem Good.pointed {n : Nat} (h : Good s) (hn : n ≤ s.serial) : Good (s.pointed n) := by
  refine ⟨h.position, h.closed, h.bytes, h.mark, fun m hm => ?_⟩
  by_cases hne : m = n
  · exact hne ▸ hn
  · rw [lookup_pointed hne] at hm
    exact h.points m hm

/-- A point that is not placed yet is placed here. -/
theorem Exec.place {role : String} {n : Nat} {f : PUnit → Emitter α} (hn : n ≤ s.serial)
    (hfresh : s.points.lookup n = none) (h : Exec (f ⟨⟩) (s.pointed n) Q) :
    Exec (place (.point role n) >>= f) s Q :=
  .from (run_bind rfl) (fun hgood => hgood.pointed hn) (.pointed hfresh) h

/-- A point that is placed last. -/
theorem Exec.placeLast {role : String} {n : Nat} {Q : PUnit → State → Prop} (hn : n ≤ s.serial)
    (hfresh : s.points.lookup n = none) (h : Q ⟨⟩ (s.pointed n)) :
    Exec (Emit.place (.point role n)) s Q :=
  .from (y := Pure.pure ⟨⟩) rfl (fun hgood => hgood.pointed hn) (.pointed hfresh) (.pure h)

/-- A point with a number that is not in use yet. -/
theorem Good.lookup_none (h : Good s) {n : Nat} (hn : s.serial < n) : s.points.lookup n = none := by
  cases hlookup : s.points.lookup n with
  | none => rfl
  | some a =>
      have hle := h.points n (by rw [hlookup]; rfl)
      omega

/-! ## Targets -/

/-- The value of a point is the address it was placed at. -/
theorem value_point (hleads : Leads L t) {role : String} {n a : Nat}
    (h : t.points.lookup n = some a) (site : Option Location) :
    L.value (.address (.point role n) site) = a := by
  rw [L.point_value]
  exact hleads.points n a h

/-- Addresses in linked code are addresses of the machine. -/
theorem Leads.lt_addressSpace (hleads : Leads L t) (hgood : Good t) {a : Nat}
    (h : a ≤ t.position) : a < addressSpace := by
  have hstop := hleads.position_le hgood
  have hfits := L.size_le
  have hscratch : Machine.scratchSize = 0x10000 := rfl
  unfold Linked.size at hfits
  omega

/-- One may assume that the code leads on into the linked code. -/
theorem Travels.of_leads {low pc pc' : Nat} {d : Contents} {P : Contents → Prop}
    (h : Leads L t → Travels L t low d pc pc' P) : Travels L t low d pc pc' P :=
  ⟨fun hleads => (h hleads).run hleads⟩

/-- What is allocated in a state. -/
def State.slots (s : State) : Source.Slots := ⟨s.mark, s.bindings.registers, s.placed⟩

/-- The code between two states goes to one target or another, as a condition says. -/
structure Branches (L : Linked) (condition : Expr) (taken otherwise : Target) (s u : State) :
    Prop where
  kept : Kept s u
  mark : u.mark = s.mark
  longer : s.position < u.position
  goes : ∀ m d b m', Known L registerCount m d →
    Source.test L.world s.slots condition m = some (b, m') →
    ∀ target, L.value (.address (if b then taken else otherwise) none) = target →
      target < addressSpace → target ≤ s.position ∨ u.position ≤ target →
      Goes L s u d target (Known L registerCount m')

theorem branch_branches (L : Linked) {vars : Variable → Prop} {condition : Expr}
    (taken otherwise : Target) (hproper : condition.Proper vars)
    (hinteger : condition.type.isInteger = true) :
    Exec (branch condition taken otherwise) s fun _ u =>
      Branches L condition taken otherwise s u := by
  refine (branch_exec L taken otherwise hproper hinteger (show s.slots.mark = s.mark from rfl)
    rfl).mono ?_
  intro _ u _ _ h
  obtain ⟨hkept, hmark, hlonger, hgoes⟩ := h
  exact ⟨hkept, hmark, hlonger, hgoes⟩

/-- A branch between points that are placed at some time, not in the code of the branch itself. -/
theorem Branches.travels {condition : Expr} {role role' : String} {n n' inner other : Nat}
    (h : Branches L condition (.point role n) (.point role' n') s u) (hgrows : Grows u t)
    (hgood : Good t) (hinner : t.points.lookup n = some inner)
    (hother : t.points.lookup n' = some other)
    (hinner' : inner ≤ s.position ∨ u.position ≤ inner)
    (hother' : other ≤ s.position ∨ u.position ≤ other) (hle : inner ≤ t.position)
    (hle' : other ≤ t.position) {m m' : Source.Store} {d : Contents} {b : Bool}
    (hknown : Known L registerCount m d)
    (htest : Source.test L.world s.slots condition m = some (b, m')) :
    Travels L t 1 d s.position (if b then inner else other) (Known L registerCount m') := by
  refine .of_leads fun hleads => ?_
  cases b with
  | true =>
      exact (h.goes m d true m' hknown htest inner (value_point hleads hinner none)
        (hleads.lt_addressSpace hgood hle) hinner').travels hgrows
  | false =>
      exact (h.goes m d false m' hknown htest other (value_point hleads hother none)
        (hleads.lt_addressSpace hgood hle') hother').travels hgrows

/-- The code between two states jumps to a target. -/
structure Jumps (L : Linked) (target : Target) (s u : State) : Prop where
  kept : Kept s u
  mark : u.mark = s.mark
  longer : s.position < u.position
  goes : ∀ d a, L.value (.address target none) = a → a < addressSpace → a ≠ s.position →
    Goes L s u d a fun d' => d' = d

theorem jumpTo_jumps (L : Linked) (target : Target) :
    Exec (jumpTo target) s fun _ u => Jumps L target s u := by
  have hclosed : Closed s.position [.instruction 0 0 (.address target none)] :=
    closed_instruction (by decide)
  refine .of_run (run_push _ s) hclosed fun hgood => ?_
  have hlonger : s.position < (s.emit [.instruction 0 0 (.address target none)]).position := by
    rw [State.position_emit]
    exact Nat.lt_add_of_pos_right (by simp [Assembly.size, Piece.size, instructionSize])
  refine ⟨.emit _ _, rfl, hlonger, fun d a ha hspace hmoves => ?_⟩
  refine ⟨fun hleads c hintact hshows => ?_⟩
  have hzero : L.IsData 0 := isData_of_lt (by decide)
  obtain ⟨behind, hbehind, -⟩ := hleads.code
  rw [toList_emit, List.append_assoc, List.singleton_append] at hbehind
  have hmod : L.value (.address target none) % addressSpace = a := by
    rw [ha, Nat.mod_eq_of_lt hspace]
  have hkept : ∀ i < instructionSize, s.position + i ∉ destinations L.pieces := by
    intro i hi
    refine hleads.kept hgood (toList_emit _ _) rfl (Nat.le_add_right _ _) ?_ fun hmem => ?_
    · rw [State.position_emit]
      exact Nat.add_lt_add_left hi _
    · have hcode := addTable_lt_codeStart
      have hstart := hgood.position
      obtain hnone : s.position + i = 0 := by simpa [destinations] using hmem
      omega
  have hstep := step_of_kept hbehind hgood.position hintact hkept hzero.lt_size hzero.lt_size
    (by rw [hmod]; exact hmoves)
  rw [hmod, hshows 0 hzero, ← read_data (L := L) (d := d) hzero] at hstep
  refine ⟨0, _, d, ⟨c, s.position, .none c _, hlonger, hstep⟩, hintact.set (Or.inl hzero), ?_, rfl⟩
  have hshows' := hshows.set_data (v := L.read d 0) (a := 0)
  rwa [set_read_self hzero] at hshows'

/-- A jump to a point that is placed at some time, not at the jump itself. -/
theorem Jumps.travels {role : String} {n a : Nat} (h : Jumps L (.point role n) s u)
    (hgrows : Grows u t) (hgood : Good t) (ha : t.points.lookup n = some a)
    (hne : a ≠ s.position) (hle : a ≤ t.position) (d : Contents) :
    Travels L t 1 d s.position a fun d' => d' = d :=
  .of_leads fun hleads => (h.goes d a (value_point hleads ha none)
    (hleads.lt_addressSpace hgood hle) hne).travels hgrows

end Emit

end ByteJump
