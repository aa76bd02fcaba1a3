import ByteJump.Proofs.Resolve.Sound
import ByteJump.Proofs.Run.Simple

set_option autoImplicit false

/-!
# Running statements

Statements run in order, a block gives its registers back, and conditions and loops go through the
points that are placed around the statements inside them.  The body of a loop is the same code in
every round: it is emitted once, with the registers that are allocated where it stands.

`Compiles L σ run s t` is what is proved of every statement: from a machine at the code between
`s` and `t`, with everything known that the slots say, the machine does what `run` says and
arrives behind the code, or the program is done, or the rounds are used up.  Straight code
composes by `Compiles.trans`.  Conditions and loops are put together from three facts: the test
goes to one of two points, the points stand where the code places them, and the parts inside are
faithful by induction.  For a loop there is a second induction, on the number of rounds, since the
same code is run again with what the round before has left.
-/

namespace ByteJump

namespace Emit

open Assembly Memory Linked

variable {L : Linked} {s t u : State} {σ σ' : Source.Slots}
  {run run' : Nat → Source.Store → Source.Outcome}

/-! ## Statements in order -/

/-- Code behind code: what the first part leaves is known to the second one. -/
theorem Compiles.trans (h : Compiles L σ run s u) (hgrows : Grows u t)
    (h' : Compiles L σ' run' u t) :
    Compiles L σ' (fun rounds m => (run rounds m).andThen (run' rounds)) s t where
  slots := h'.slots
  serial := Nat.le_trans h.serial h'.serial
  points n hn := (h'.points n (Nat.le_trans hn h.serial)).trans (h.points n hn)
  entry := h'.entry.trans h.entry
  runs rounds m d hknown :=
    ((h.runs rounds m d hknown).later hgrows).andThen fun m' d' hknown' =>
      h'.runs rounds m' d' hknown'

/-- Emitting starts at a state with the same code. -/
theorem Compiles.from (hserial : s.serial ≤ u.serial)
    (hpoints : ∀ n ≤ s.serial, u.points.lookup n = s.points.lookup n) (hentry : u.entry = s.entry)
    (hposition : u.position = s.position) (h : Compiles L σ run u t) : Compiles L σ run s t where
  slots := h.slots
  serial := Nat.le_trans hserial h.serial
  points n hn := (h.points n (Nat.le_trans hn hserial)).trans (hpoints n hn)
  entry := h.entry.trans hentry
  runs rounds m d hknown := hposition ▸ h.runs rounds m d hknown

/-- The mark may be set back behind code. -/
theorem Compiles.still (h : Compiles L σ run s u) (hgrows : Grows u t) (hstill : Still u t)
    (hslots : t.slots = σ') : Compiles L σ' run s t where
  slots := hslots
  serial := hstill.kept.serial ▸ h.serial
  points n hn := by
    rw [hstill.kept.points]
    exact h.points n hn
  entry := hstill.kept.entry.trans h.entry
  runs rounds m d hknown := by
    rw [hstill.position]
    exact (h.runs rounds m d hknown).later hgrows

/-- Code without an effect on the data does what the empty statement says. -/
theorem Effect.compiles (h : Effect L s t id) : Compiles L s.slots (fun _ m => .done m) s t := by
  refine .of_kept h.kept h.mark fun rounds m d hknown => ((h.does d).mono ?_).follows
  rintro - _ rfl
  exact hknown

/-! ## Labels

A label takes no room in the code, and running past it changes nothing.  Only the addresses that
are bound differ behind it. -/

theorem slots_labelAll (s : State) (labels : List Label) : (s.labelAll labels).slots = s.slots := by
  obtain ⟨-, -, hregisters, -⟩ := labelAll_rest labels s
  unfold State.slots
  rw [State.mark_labelAll, State.placed_labelAll, hregisters]

/-- Labels that do not name the entry leave the entry as it was. -/
theorem entry_labelAll : ∀ (labels : List Label) {s : State},
    (∀ l ∈ labels, isEntry l = false) → (s.labelAll labels).entry = s.entry
  | [], _, _ => rfl
  | l :: labels, s, h => by
      have hrest : ((s.label l).labelAll labels).entry = (s.label l).entry :=
        entry_labelAll labels fun other hother => h other (List.mem_cons_of_mem _ hother)
      refine hrest.trans ?_
      unfold State.label
      rw [h l List.mem_cons_self]
      rfl

theorem state_labelAll (labels : List Label) : ∀ s : State,
    (s.labelAll labels).byteConstants = s.byteConstants ∧
      (s.labelAll labels).strings = s.strings := by
  induction labels with
  | nil => exact fun s => ⟨rfl, rfl⟩
  | cons l labels ih => exact fun s => ih (s.label l)

/-- What holds of every state that is reached still holds behind labels. -/
theorem Good.labelAll (h : Good s) (labels : List Label) : Good (s.labelAll labels) := by
  obtain ⟨hpieces, hposition, -, hpoints⟩ := labelAll_rest labels s
  obtain ⟨hbytes, -⟩ := state_labelAll labels s
  refine ⟨?_, ?_, fun value a ha => ?_, ?_, fun n hn => ?_⟩
  · rw [hposition, hpieces]
    exact h.position
  · rw [hpieces]
    exact h.closed
  · rw [hbytes] at ha
    rw [hposition, hpieces]
    exact h.bytes value a ha
  · rw [State.mark_labelAll]
    exact h.mark
  · rw [hpoints] at hn
    rw [State.serial_labelAll]
    exact h.points n hn

theorem Grows.labelAll (s : State) (labels : List Label) : Grows s (s.labelAll labels) := by
  obtain ⟨hpieces, hposition, -, hpoints⟩ := labelAll_rest labels s
  refine .of_eq hpieces hposition (state_labelAll labels s).2 fun n a h => ?_
  rw [hpoints]
  exact h

/-! ## Alignment

Padding is jumped over, so it has no effect when it is run.  Entering a file aligns its code and
notes the file as placed. -/

theorem alignTo_exec (L : Linked) (align : Nat) :
    Exec (alignTo align) s fun _ t => Effect L s t id := by
  unfold alignTo
  refine .position ?_
  dsimp only
  split
  · refine (jumpOver_exec L rfl).bind fun a u _ _ hjump => ?_
    exact .pure hjump.1
  · exact .pure (.refl s)

theorem Good.reach (h : Good s) (p : Program) : Good (s.reach p) := by
  unfold State.reach
  split
  · exact h
  · exact ⟨h.position, h.closed, h.bytes, h.mark, h.points⟩

theorem Grows.reach (s : State) (p : Program) : Grows s (s.reach p) := by
  unfold State.reach
  split
  · exact .refl s
  · exact .of_eq rfl rfl rfl fun _ _ h => h

theorem Compiles.reach {p : Program} (h : Compiles L σ run (s.reach p) t) :
    Compiles L σ run s t := by
  have hsame : (s.reach p).serial = s.serial ∧ (s.reach p).points = s.points ∧
      (s.reach p).entry = s.entry ∧ (s.reach p).position = s.position := by
    unfold State.reach
    split <;> exact ⟨rfl, rfl, rfl, rfl⟩
  obtain ⟨hserial, hpoints, hentry, hposition⟩ := hsame
  exact h.from (Nat.le_of_eq hserial.symm) (fun n _ => by rw [hpoints]) hentry hposition

/-- The files that a run has entered are noted on both sides alike. -/
theorem slots_reach (s : State) (path : Path) (statements : List Stmt) (exports : Exports)
    (pragmas : Pragmas) : (s.reach (.mk path statements exports pragmas)).slots =
      s.slots.reach path pragmas := by
  unfold State.reach Source.Slots.reach
  show State.slots (if pragmas.multi = true then _ else _) = _
  split <;> rfl

/-! ## Points of conditions and loops

A condition or a loop takes two or three fresh points, and each is placed once, somewhere in the
middle of the code.  `Placing` keeps count of which ones were placed so far.  It is kept by code
in between, because such code only places points that are newer still. -/

theorem lookup_of_kept (h : Kept s t) (n : Nat) : t.points.lookup n = s.points.lookup n := by
  rw [h.points]

/-- Behind a state there are `count` new points, and of these and older ones none was placed but
those with given places among the new ones. -/
structure Placing (s u : State) (count : Nat) (placed : List Nat) : Prop where
  serial : s.serial + count ≤ u.serial
  points : ∀ n ≤ s.serial + count, (∀ i ∈ placed, n ≠ s.serial + i) →
    u.points.lookup n = s.points.lookup n
  entry : u.entry = s.entry

section Placing

variable {count i : Nat} {placed : List Nat}

/-- Code that places nothing leaves the count as it is. -/
theorem Placing.kept (h : Placing s u count placed) (hkept : Kept u t) :
    Placing s t count placed where
  serial := hkept.serial ▸ h.serial
  points n hn hplaced := (lookup_of_kept hkept n).trans (h.points n hn hplaced)
  entry := hkept.entry.trans h.entry

/-- A statement inside takes newer points of its own and places only those. -/
theorem Placing.inner (h : Placing s u count placed) (hinner : Compiles L σ run u t) :
    Placing s t count placed where
  serial := Nat.le_trans h.serial hinner.serial
  points n hn hplaced :=
    (hinner.points n (Nat.le_trans hn h.serial)).trans (h.points n hn hplaced)
  entry := hinner.entry.trans h.entry

/-- Placing one of the new points adds it to the count. -/
theorem Placing.pointed (h : Placing s u count placed) (i : Nat) :
    Placing s (u.pointed (s.serial + i)) count (i :: placed) where
  serial := h.serial
  points n hn hplaced := by
    rw [lookup_pointed (hplaced i List.mem_cons_self)]
    exact h.points n hn fun j hj => hplaced j (List.mem_cons_of_mem _ hj)
  entry := h.entry

/-- A new point that was not placed. -/
theorem Placing.fresh (h : Placing s u count placed) (hgood : Good s) (hpos : 0 < i)
    (hle : i ≤ count) (hnew : i ∉ placed) : u.points.lookup (s.serial + i) = none := by
  rw [h.points _ (by omega) fun j hj heq => ?_]
  · exact hgood.lookup_none (by omega)
  · obtain rfl : i = j := by omega
    exact hnew hj

theorem Placing.le (h : Placing s u count placed) (hle : i ≤ count) : s.serial + i ≤ u.serial :=
  Nat.le_trans (Nat.add_le_add_left hle _) h.serial

/-- Only new points were placed. -/
theorem Compiles.of_placing (h : Placing s t count placed) (hnew : ∀ i ∈ placed, 0 < i)
    (hslots : t.slots = σ) (hruns : ∀ rounds m d, Known L registerCount m d →
      Follows L t rounds d s.position t.position (run rounds m)) : Compiles L σ run s t where
  slots := hslots
  serial := Nat.le_trans (Nat.le_add_right _ _) h.serial
  points n hn := h.points n (Nat.le_trans hn (Nat.le_add_right _ _)) fun i hi heq => by
    have hpos := hnew i hi
    omega
  entry := h.entry
  runs := hruns

end Placing

/-! ## Conditions and loops

The slots of a compound statement are those it started with, as the registers of its parts are
given back.  The proofs run the code in the order it is emitted: the points that are taken, the
test with its two targets, the parts, and the jumps between them. -/

theorem slots_pointed (s : State) (n : Nat) : (s.pointed n).slots = s.slots := rfl

/-- The code of a statement does what the statement says, wherever it is emitted. -/
def Faithful (L : Linked) (st : Stmt) : Prop :=
  ∀ s, Exec (stmt st) s fun _ t =>
    Compiles L (s.slots.stmt st) (Source.stmt L.world s.slots st) s t

/-- Code that tests a condition and goes on at one of two addresses. -/
theorem follows_test {test : Option (Bool × Source.Store)} {d : Contents}
    {yes no : Source.Store → Source.Outcome} {rounds pc pc' : Nat} (inner other : Nat) :
    (∀ b m, test = some (b, m) →
      Travels L t 1 d pc (if b then inner else other) (Known L registerCount m)) →
    (∀ m d', Known L registerCount m d' → Follows L t rounds d' inner pc' (yes m)) →
    (∀ m d', Known L registerCount m d' → Follows L t rounds d' other pc' (no m)) →
    Follows L t rounds d pc pc' (match test with
      | some (true, m) => yes m
      | some (false, m) => no m
      | none => .stuck) := by
  intro htest hyes hno
  cases test with
  | none => trivial
  | some result =>
      obtain ⟨b, m⟩ := result
      have hstep := htest b m rfl
      cases b with
      | true => exact (hstep.follows fun d' hd' => hyes m d' hd').less (Nat.le_add_left _ _)
      | false => exact (hstep.follows fun d' hd' => hno m d' hd').less (Nat.le_add_left _ _)

section Compound

variable {vars : Variable → Prop} {condition : Expr}

/-- The test stands behind the body's point, and the body jumps back to it.  By induction on the
rounds that are left: a round starts with the same code and with what is known to the slots at the
start. -/
theorem while_compiles {body : Stmt} (hbody : Faithful L body)
    (hproper : condition.Proper vars) (hinteger : condition.type.isInteger = true) :
    Exec (action (.loop condition body false)) s fun _ t =>
      Compiles L (s.slots.action (.loop condition body false))
        (Source.action L.world s.slots (.loop condition body false)) s t := by
  refine .good fun hgood => ?_
  rw [action]
  refine .newPoint (.newPoint (.newPoint ?_))
  have h₀ : Placing s s.counted.counted.counted 3 [] :=
    ⟨Nat.le_refl _, fun _ _ _ => rfl, rfl⟩
  refine .place (h₀.le (i := 1) (by decide)) (h₀.fresh hgood (by decide) (by decide) (by decide)) ?_
  refine (branch_branches L _ _ hproper hinteger).bind fun _ u₁ hgood₁ hgrows₁ hbranch => ?_
  have h₁ := (h₀.pointed 1).kept hbranch.kept
  have hfresh₁ := h₁.fresh hgood (i := 2) (by decide) (by decide) (by decide)
  refine .place (h₁.le (i := 2) (by decide)) hfresh₁ ?_
  refine (hbody _).bind fun _ u₂ hgood₂ hgrows₂ hinner => ?_
  refine (jumpTo_jumps L _).bind fun _ u₃ hgood₃ hgrows₃ hjump => ?_
  have h₃ := ((h₁.pointed 2).inner hinner).kept hjump.kept
  have hfresh₃ := h₃.fresh hgood (i := 3) (by decide) (by decide) (by decide)
  refine .placeLast (h₃.le (i := 3) (by decide)) hfresh₃ ?_
  have hlate₃ := hgrows₃.trans (Grows.pointed hfresh₃)
  have hlate₂ := hgrows₂.trans hlate₃
  have hlate₁ := (Grows.pointed hfresh₁).trans hlate₂
  have hend := hgood₃.pointed (h₃.le (i := 3) (by decide))
  have htop := (hgrows₁.trans hlate₁).points _ _ (lookup_pointed_self _)
  have hstart := hlate₂.points _ _ (lookup_pointed_self _)
  have hlow : s.position < u₁.position := hbranch.longer
  have hmiddle : u₁.position ≤ u₂.position := hgrows₂.position_le
  have hhigh : u₂.position < u₃.position := hjump.longer
  have hslots : u₁.slots = s.slots := hbranch.kept.slots hbranch.mark
  rw [slots_pointed, hslots] at hinner
  refine .of_placing (h₃.pointed 3) (by decide) ?_ fun rounds m d hknown => ?_
  · rw [Source.Slots.action, ← hinner.slots]
    exact hjump.kept.slots hjump.mark
  rw [Source.action]
  refine follows_repeatWhile (fun m d b m' hk htest => ?_)
    (fun rounds m d hk => (hinner.runs rounds m d hk).later hlate₃)
    (fun d => (hjump.travels (Grows.pointed hfresh₃) hend htop ?_ ?_ d).less (Nat.zero_le 1))
    rounds m d hknown
  · exact hbranch.travels hlate₁ hend hstart (lookup_pointed_self _) (Or.inr (Nat.le_refl _))
      (Or.inr (show u₁.position ≤ u₃.position by omega)) (show u₁.position ≤ u₃.position by omega)
      (Nat.le_refl _) hk htest
  · exact Nat.ne_of_lt (show s.position < u₂.position by omega)
  · exact (show s.position ≤ u₃.position by omega)

/-- As for the other loop, but the body is entered first. -/
theorem doWhile_compiles {body : Stmt} (hbody : Faithful L body)
    (hproper : condition.Proper vars) (hinteger : condition.type.isInteger = true) :
    Exec (action (.loop condition body true)) s fun _ t =>
      Compiles L (s.slots.action (.loop condition body true))
        (Source.action L.world s.slots (.loop condition body true)) s t := by
  refine .good fun hgood => ?_
  rw [action]
  refine .newPoint (.newPoint ?_)
  have h₀ : Placing s s.counted.counted 2 [] := ⟨Nat.le_refl _, fun _ _ _ => rfl, rfl⟩
  have hfresh₀ := h₀.fresh hgood (i := 1) (by decide) (by decide) (by decide)
  refine .place (h₀.le (i := 1) (by decide)) hfresh₀ ?_
  refine (hbody _).bind fun _ u₁ hgood₁ hgrows₁ hinner => ?_
  have h₁ := (h₀.pointed 1).inner hinner
  refine (branch_branches L _ _ hproper hinteger).bind fun _ u₂ hgood₂ hgrows₂ hbranch => ?_
  have h₂ := h₁.kept hbranch.kept
  have hfresh₂ := h₂.fresh hgood (i := 2) (by decide) (by decide) (by decide)
  refine .placeLast (h₂.le (i := 2) (by decide)) hfresh₂ ?_
  have hlate₂ := Grows.pointed hfresh₂
  have hlate₁ := hgrows₂.trans hlate₂
  have hend := hgood₂.pointed (h₂.le (i := 2) (by decide))
  have htop := (hgrows₁.trans hlate₁).points _ _ (lookup_pointed_self _)
  have hlow : s.position ≤ u₁.position := hgrows₁.position_le
  have hhigh : u₁.position < u₂.position := hbranch.longer
  have hslots : (s.counted.counted.pointed (s.serial + 1)).slots = s.slots := rfl
  rw [hslots] at hinner
  refine .of_placing (h₂.pointed 2) (by decide) ?_ fun rounds m d hknown => ?_
  · rw [Source.Slots.action, ← hinner.slots]
    exact hbranch.kept.slots hbranch.mark
  rw [Source.action, ← hinner.slots]
  refine follows_repeatBody (fun rounds m d hk => (hinner.runs rounds m d hk).later hlate₁)
    (fun m d b m' hk htest => ?_) rounds m d hknown
  exact hbranch.travels hlate₂ hend htop (lookup_pointed_self _) (Or.inl hlow)
    (Or.inr (Nat.le_refl _)) (show s.position ≤ u₂.position by omega) (Nat.le_refl _) hk htest

/-- Without an alternative the test goes behind the statement when it does not hold. -/
theorem ifThen_compiles {taken : Stmt} (htaken : Faithful L taken)
    (hproper : condition.Proper vars) (hinteger : condition.type.isInteger = true) :
    Exec (action (.branch condition taken none)) s fun _ t =>
      Compiles L (s.slots.action (.branch condition taken none))
        (Source.action L.world s.slots (.branch condition taken none)) s t := by
  refine .good fun hgood => ?_
  rw [action]
  refine .newPoint (.newPoint ?_)
  rw [alternative]
  simp only [bind_assoc]
  have h₀ : Placing s s.counted.counted 2 [] := ⟨Nat.le_refl _, fun _ _ _ => rfl, rfl⟩
  refine (branch_branches L _ _ hproper hinteger).bind fun _ u₁ hgood₁ hgrows₁ hbranch => ?_
  have h₁ := h₀.kept hbranch.kept
  have hfresh₁ := h₁.fresh hgood (i := 1) (by decide) (by decide) (by decide)
  refine .place (h₁.le (i := 1) (by decide)) hfresh₁ ?_
  refine (htaken _).bind fun _ u₂ hgood₂ hgrows₂ hinner => ?_
  have h₂ := (h₁.pointed 1).inner hinner
  have hfresh₂ := h₂.fresh hgood (i := 2) (by decide) (by decide) (by decide)
  refine .placeLast (h₂.le (i := 2) (by decide)) hfresh₂ ?_
  have hlate₂ := Grows.pointed hfresh₂
  have hlate₁ := hgrows₂.trans hlate₂
  have hend := hgood₂.pointed (h₂.le (i := 2) (by decide))
  have hthen := hlate₁.points _ _ (lookup_pointed_self _)
  have hhigh : u₁.position ≤ u₂.position := hgrows₂.position_le
  have hslots : u₁.slots = s.slots := hbranch.kept.slots hbranch.mark
  rw [slots_pointed, hslots] at hinner
  refine .of_placing (h₂.pointed 2) (by decide) ?_ fun rounds m d hknown => ?_
  · rw [Source.Slots.action, Source.Slots.option, ← hinner.slots]
    rfl
  rw [Source.action]
  refine follows_test u₁.position u₂.position (fun b m' htest => ?_) (fun m' d' hk => ?_)
    fun m' d' hk => ?_
  · exact hbranch.travels ((Grows.pointed hfresh₁).trans hlate₁) hend hthen (lookup_pointed_self _)
      (Or.inr (Nat.le_refl _)) (Or.inr hhigh) hhigh (Nat.le_refl _) hknown htest
  · exact (hinner.runs rounds m' d' hk).later hlate₂
  · rw [Source.option]
    exact Travels.nothing hk

/-- The statement that is taken ends with a jump over the other one. -/
theorem ifElse_compiles {taken other : Stmt} (htaken : Faithful L taken) (hother : Faithful L other)
    (hproper : condition.Proper vars) (hinteger : condition.type.isInteger = true) :
    Exec (action (.branch condition taken (some other))) s fun _ t =>
      Compiles L (s.slots.action (.branch condition taken (some other)))
        (Source.action L.world s.slots (.branch condition taken (some other))) s t := by
  refine .good fun hgood => ?_
  rw [action]
  refine .newPoint (.newPoint ?_)
  rw [alternative]
  simp only [bind_assoc]
  refine .newPoint ?_
  have h₀ : Placing s s.counted.counted.counted 3 [] := ⟨Nat.le_refl _, fun _ _ _ => rfl, rfl⟩
  refine (branch_branches L _ _ hproper hinteger).bind fun _ u₁ hgood₁ hgrows₁ hbranch => ?_
  have h₁ := h₀.kept hbranch.kept
  have hfresh₁ := h₁.fresh hgood (i := 1) (by decide) (by decide) (by decide)
  refine .place (h₁.le (i := 1) (by decide)) hfresh₁ ?_
  refine (htaken _).bind fun _ u₂ hgood₂ hgrows₂ hinner => ?_
  refine (jumpTo_jumps L _).bind fun _ u₃ hgood₃ hgrows₃ hjump => ?_
  have h₃ := ((h₁.pointed 1).inner hinner).kept hjump.kept
  have hfresh₃ := h₃.fresh hgood (i := 3) (by decide) (by decide) (by decide)
  refine .place (h₃.le (i := 3) (by decide)) hfresh₃ ?_
  refine (hother _).bind fun _ u₄ hgood₄ hgrows₄ hinner' => ?_
  have h₄ := (h₃.pointed 3).inner hinner'
  have hfresh₄ := h₄.fresh hgood (i := 2) (by decide) (by decide) (by decide)
  refine .placeLast (h₄.le (i := 2) (by decide)) hfresh₄ ?_
  have hlate₄ := Grows.pointed hfresh₄
  have hlate₃ := hgrows₄.trans hlate₄
  have hlate₂ := (Grows.pointed hfresh₃).trans hlate₃
  have hlate₁ := hgrows₂.trans (hgrows₃.trans hlate₂)
  have hend := hgood₄.pointed (h₄.le (i := 2) (by decide))
  have hthen := hlate₁.points _ _ (lookup_pointed_self _)
  have helse := hlate₃.points _ _ (lookup_pointed_self _)
  have hmiddle : u₁.position ≤ u₂.position := hgrows₂.position_le
  have hlonger : u₂.position < u₃.position := hjump.longer
  have hhigh : u₃.position ≤ u₄.position := hgrows₄.position_le
  have hslots : u₁.slots = s.slots := hbranch.kept.slots hbranch.mark
  rw [slots_pointed, hslots] at hinner
  have hslots' : u₃.slots = s.slots.stmt taken :=
    (hjump.kept.slots hjump.mark).trans hinner.slots
  rw [slots_pointed, hslots'] at hinner'
  refine .of_placing (h₄.pointed 2) (by decide) ?_ fun rounds m d hknown => ?_
  · rw [Source.Slots.action, Source.Slots.option, ← hinner'.slots]
    rfl
  rw [Source.action]
  refine follows_test u₁.position u₃.position (fun b m' htest => ?_) (fun m' d' hk => ?_)
    fun m' d' hk => ?_
  · exact hbranch.travels ((Grows.pointed hfresh₁).trans hlate₁) hend hthen helse
      (Or.inr (Nat.le_refl _)) (Or.inr (show u₁.position ≤ u₃.position by omega))
      (show u₁.position ≤ u₄.position by omega) hhigh hknown htest
  · have hjumped := hjump.travels hlate₂ hend (lookup_pointed_self _)
      (Nat.ne_of_gt (show u₂.position < u₄.position by omega)) (Nat.le_refl _)
    exact ((hinner.runs rounds m' d' hk).later (hgrows₃.trans hlate₂)).goOn hjumped
  · exact (hinner'.runs rounds m' d' hk).later hlate₄

end Compound

/-! ## All statements

The recursion is that of emission.  A placed file is among those that were resolved, so the
statements inside it are proper too; `I.Sound` and the look-up in `I` hand that down to every file
inside. -/

section Statements

variable {I : Resolve.Imports}

mutual

/-- The labels of a statement are bound in front of its action. -/
theorem stmt_compiles (hI : I.Sound) : ∀ (st : Stmt) {known : List DeclId},
    st.Proper known → st.Structured → (∀ file ∈ st.files, I.lookup file.file.key = some file) → Faithful L st
  | .mk labels act site, known, hproper, hstructured, hfiles => by
      intro s
      refine .from (run_stmt labels act site s) (fun hgood => hgood.labelAll labels)
        (.labelAll s labels) ((action_compiles hI act hproper hstructured.2 hfiles _).mono ?_)
      intro _ t _ _ h
      obtain ⟨-, hposition, -, hpoints⟩ := labelAll_rest labels s
      rw [slots_labelAll] at h
      exact h.from (Nat.le_of_eq (State.serial_labelAll labels s).symm)
        (fun n _ => by rw [hpoints]) (entry_labelAll labels hstructured.1) hposition

theorem stmts_compiles (hI : I.Sound) : ∀ (ss : List Stmt) {known : List DeclId},
    Stmt.ListProper known ss → Stmt.ListStructured ss →
    (∀ file ∈ Stmt.listFiles ss, I.lookup file.file.key = some file) →
    ∀ s, Exec (stmts ss) s fun _ t =>
      Compiles L (s.slots.stmts ss) (Source.stmts L.world s.slots ss) s t
  | [], known, _, _, _, s => by
      rw [stmts]
      refine .pure ?_
      rw [Source.Slots.stmts, Source.stmts]
      exact .nothing
  | st :: ss, known, hproper, hstructured, hfiles, s => by
      rw [stmts]
      refine (stmt_compiles hI st hproper.1 hstructured.1 (fun file hfile =>
        hfiles file (List.mem_append_left _ hfile)) s).bind fun _ u _ _ hfirst => ?_
      refine (stmts_compiles hI ss hproper.2 hstructured.2 (fun file hfile =>
        hfiles file (List.mem_append_right _ hfile)) u).mono fun _ t _ hgrows hrest => ?_
      rw [hfirst.slots] at hrest
      rw [Source.Slots.stmts, Source.stmts]
      exact hfirst.trans hgrows hrest

/-- One case for each action.  Straight ones were proved where they are emitted, and compound ones
follow from their parts. -/
theorem action_compiles (hI : I.Sound) : ∀ (act : Action) {known : List DeclId}, act.Proper known →
    act.Structured → (∀ file ∈ act.files, I.lookup file.file.key = some file) →
    ∀ s, Exec (action act) s fun _ t =>
      Compiles L (s.slots.action act) (Source.action L.world s.slots act) s t
  | .nothing, known, _, _, _, s => by
      rw [action]
      refine .pure ?_
      rw [Source.Slots.action, Source.action]
      exact .nothing
  | .place file, known, _, hstructured, hfiles, s => by
      rw [action, Source.Slots.action, Source.action]
      exact program_compiles hI file (hfiles file List.mem_cons_self) hstructured s
  | .evaluate value, known, hproper, _, _, s => by
      rw [action, Source.Slots.action]
      exact evaluate_compiles L hproper
  | .define v value, known, hproper, _, _, s => define_compiles L hproper
  | .reserve v, known, _, _, _, s => reserve_compiles L
  | .assign target value, known, hproper, _, _, s => by
      rw [action, Source.Slots.action]
      exact store_compiles L hproper.1 hproper.2
  | .block body, known, hproper, hstructured, hfiles, s => by
      refine .good fun hgood => ?_
      rw [action]
      refine .get ((stmts_compiles hI body hproper hstructured hfiles s).bind ?_)
      intro _ u _ _ hbody
      refine (release_exec hgood.mark).mono fun _ t _ hgrows hrelease => ?_
      obtain ⟨hstill, hmark⟩ := hrelease
      rw [Source.Slots.action, Source.action, ← hbody.slots]
      refine hbody.still hgrows hstill ?_
      rw [State.slots, hmark, hstill.kept.bindings, hstill.kept.placed]
      rfl
  | .branch condition taken none, known, hproper, hstructured, hfiles, s =>
      ifThen_compiles (stmt_compiles hI taken hproper.2.1 hstructured.1 fun file hfile =>
        hfiles file (List.mem_append_left _ hfile)) hproper.1.2 hproper.1.1
  | .branch condition taken (some other), known, hproper, hstructured, hfiles, s =>
      ifElse_compiles (stmt_compiles hI taken hproper.2.1 hstructured.1 fun file hfile =>
        hfiles file (List.mem_append_left _ hfile))
        (stmt_compiles hI other hproper.2.2 hstructured.2 fun file hfile =>
          hfiles file (List.mem_append_right _ hfile)) hproper.1.2 hproper.1.1
  | .loop condition body false, known, hproper, hstructured, hfiles, s =>
      while_compiles (stmt_compiles hI body hproper.2 hstructured hfiles) hproper.1.2 hproper.1.1
  | .loop condition body true, known, hproper, hstructured, hfiles, s =>
      doWhile_compiles (stmt_compiles hI body hproper.2 hstructured hfiles) hproper.1.2 hproper.1.1
  | .goto _, known, _, hstructured, _, s | .words _, known, _, hstructured, _, s =>
      hstructured.elim

/-- A file is skipped on both sides, or placed on both sides. -/
theorem program_compiles (hI : I.Sound) : ∀ (p : Program), I.lookup p.file.key = some p → p.Structured →
    ∀ s, Exec (program p) s fun _ t =>
      Compiles L (s.slots.program p) (Source.program L.world s.slots p) s t
  | .mk path statements exports pragmas, hlookup, hstructured, s => by
      obtain ⟨-, hsound⟩ := hI _ _ hlookup
      have hskips : s.slots.skips path pragmas = s.skips (.mk path statements exports pragmas) := rfl
      rw [Source.Slots.program, Source.program, hskips]
      cases hskip : s.skips (.mk path statements exports pragmas) with
      | true =>
          have hrun := run_skip hskip
          rw [action] at hrun
          exact .from (y := Pure.pure ⟨⟩) hrun id (.refl s) (.pure .nothing)
      | false =>
          have hrun := run_file hskip
          rw [action] at hrun
          refine .from hrun (fun hgood => hgood.reach _) (.reach s _)
            ((alignTo_exec L pragmas.align).bind fun _ u _ _ halign => ?_)
          refine (stmts_compiles hI statements hsound.proper hstructured hsound.files u).mono ?_
          intro _ t _ hgrows hbody
          rw [halign.kept.slots halign.mark, slots_reach] at hbody
          simp only [Bool.false_eq_true, if_false]
          exact (halign.compiles.trans hgrows hbody).reach

end

end Statements

end Emit

end ByteJump
