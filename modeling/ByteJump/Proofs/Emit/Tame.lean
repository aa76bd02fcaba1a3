import ByteJump.Proofs.Emit.Tidy
import ByteJump.Proofs.Emit.Emission

set_option autoImplicit false

/-!
# Emitting tame programs

A program is tame if it has no jump to a computed address, no raw words and no store, and neither have
the files it imports.  What is emitted for it is a row of segments.
-/

namespace ByteJump

/-! ## Tame programs

The check goes through the whole program, with all files it imports. -/

mutual

/-- The statement has no jump, no raw words and no store, nor have the files it imports. -/
def Stmt.tame : Stmt → Bool
  | .mk _ act _ => Action.tame act

/-- All statements are tame. -/
def Stmt.listTame : List Stmt → Bool
  | [] => true
  | s :: ss => Stmt.tame s && Stmt.listTame ss

/-- A statement that may be absent is tame. -/
def Stmt.optionTame : Option Stmt → Bool
  | some s => Stmt.tame s
  | none => true

/-- An action is tame. -/
def Action.tame : Action → Bool
  | .goto _ | .words _ | .assign .. => false
  | .block body => Stmt.listTame body
  | .branch _ taken otherwise => Stmt.tame taken && Stmt.optionTame otherwise
  | .loop _ body _ => Stmt.tame body
  | .place file => Program.tame file
  | .nothing | .evaluate _ | .define .. | .reserve _ => true

/-- A file is tame. -/
def Program.tame : Program → Bool
  | .mk _ statements _ _ => Stmt.listTame statements

end

namespace Emit

open Assembly Memory

variable {α : Type} {base : Nat} {s t : State}

/-! ## Points

A jump goes to a point that is placed already, or to one that will be placed behind it.  Either
way it does not go to itself, and to know this one has to keep track of which points are placed
where. -/

/-- A point, if it is placed, stands at an address or in front of it. -/
def PlacedBy (serial limit : Nat) (s : State) : Prop := ∀ x ∈ s.points, x.1 = serial → x.2 ≤ limit

/-- A point that is still to come. -/
theorem Tidy.placedBy {tested : Bool} (h : Tidy tested s) {serial : Nat} (hnew : s.serial < serial)
    (limit : Nat) : PlacedBy serial limit s := by
  intro x hx heq
  have hold := (h.points x hx).1
  omega

/-- Points that were placed stay where they are. -/
theorem PlacedBy.onward {serial limit : Nat} (h : PlacedBy serial limit s)
    (honward : Onward base s t) (hserial : serial ≤ base) : PlacedBy serial limit t := by
  intro x hx heq
  rcases honward.points x hx with hold | hnew
  · exact h x hold heq
  · omega

/-- Placing another point changes nothing for the others. -/
theorem PlacedBy.place {serial serial' limit : Nat} (h : PlacedBy serial limit s)
    (hnew : serial' = serial → s.position ≤ limit) :
    PlacedBy serial limit { s with points := (serial', s.position) :: s.points } := by
  intro x hx heq
  rcases List.mem_cons.mp hx with rfl | hx
  · exact hnew heq
  · exact h x hx heq

/-- A new point is not placed yet. -/
theorem Lays.newPoint {f : Target → Emitter α} {tested tested' : Bool} (role : String)
    {Q : α → State → Prop}
    (h : ∀ serial u, s.serial < serial → serial ≤ u.serial → (∀ base, Onward base s u) →
      (∀ limit, PlacedBy serial limit u) → Lays base tested (f (.point role serial)) u tested' Q) :
    Lays base tested (newPoint role >>= f) s tested' Q := by
  refine ⟨fun htidy a t hrun => ?_⟩
  rw [run_bind (run_newPoint role s)] at hrun
  have htidy' : Tidy tested { s with serial := s.serial + 1 } :=
    ⟨htidy.position, htidy.mark, htidy.highest, htidy.laid, htidy.bytes, htidy.strings,
      fun x hx => ⟨Nat.le_succ_of_le (htidy.points x hx).1, (htidy.points x hx).2⟩,
      htidy.entry, htidy.registers, htidy.jumps⟩
  have honward : ∀ base, Onward base s { s with serial := s.serial + 1 } := fun _ =>
    ⟨Nat.le_refl _, Nat.le_refl _, Nat.le_succ _, fun _ h => Or.inl h⟩
  have hplaced : ∀ limit, PlacedBy (s.serial + 1) limit { s with serial := s.serial + 1 } :=
    fun limit => htidy.placedBy (Nat.lt_succ_self _) limit
  have hrest := h (s.serial + 1) { s with serial := s.serial + 1 } (Nat.lt_succ_self _)
    (Nat.le_refl _) honward hplaced
  obtain ⟨hend, hfurther, hQ⟩ := hrest.run htidy' a t hrun
  exact ⟨hend, (honward base).trans hfurther, hQ⟩

/-- A point is placed between segments, behind every jump there is. -/
theorem Tidy.place (h : Tidy false s) {serial : Nat} (hserial : serial ≤ s.serial) :
    Tidy false { s with points := (serial, s.position) :: s.points } := by
  refine ⟨h.position, h.mark, h.highest, h.laid, h.bytes, h.strings, fun x hx => ?_, h.entry, h.registers,
    fun a role serial' ha x hx heq => ?_⟩
  · rcases List.mem_cons.mp hx with rfl | hx
    · exact ⟨hserial, h.cut⟩
    · exact h.points x hx
  · rcases List.mem_cons.mp hx with rfl | hx
    · have hfits := ha.fits.2
      have hposition := h.position
      simp only [Piece.size, instructionSize] at hfits
      dsimp only
      omega
    · exact h.jumps a role serial' ha x hx heq

/-- A point is placed where the code ends so far, which is between segments. -/
theorem place_lays (role : String) {serial : Nat} (hserial : serial ≤ s.serial)
    (hbase : base < serial) : Lays base false (place (.point role serial)) s false fun _ t =>
      t = { s with points := (serial, s.position) :: s.points } := by
  refine ⟨fun htidy a t hrun => ?_⟩
  cases hrun
  refine ⟨htidy.place hserial, ⟨Nat.le_refl _, Nat.le_refl _, Nat.le_refl _, fun x hx => ?_⟩, rfl⟩
  rcases List.mem_cons.mp hx with rfl | hx
  · exact Or.inr hbase
  · exact Or.inl hx

/-- A jump to a point that is not placed here. -/
theorem jumpTo_lays (role : String) {serial limit : Nat} (hplaced : PlacedBy serial limit s)
    (hlimit : limit < s.position) :
    Lays base false (jumpTo (.point role serial)) s false Anyhow := by
  refine ⟨fun htidy a t hrun => ?_⟩
  rw [show jumpTo (.point role serial) s = _ from run_push _ s] at hrun
  cases hrun
  refine ⟨htidy.emit .jump fun role' serial' hmem x hx heq => ?_, .emit s _, trivial⟩
  cases List.mem_singleton.mp hmem
  have hle := hplaced x hx heq
  omega

/-- What happens among points above a base happens among those above a lower one. -/
theorem Lays.above {tested tested' : Bool} {x : Emitter α} {Q : α → State → Prop} (base' : Nat)
    (hbase : base ≤ base') (h : Lays base' tested x s tested' Q) :
    Lays base tested x s tested' fun a t => Onward base' s t ∧ Q a t := by
  refine ⟨fun htidy a t hrun => ?_⟩
  obtain ⟨htidy', honward, hQ⟩ := h.run htidy a t hrun
  refine ⟨htidy', ⟨honward.position, honward.highest, honward.serial, fun x hx => ?_⟩, honward, hQ⟩
  exact (honward.points x hx).imp_right (Nat.lt_of_le_of_lt hbase)

/-! ## Labels -/

/-- A label is placed between segments. -/
theorem Tidy.label (h : Tidy false s) (l : Label) : Tidy false (s.label l) := by
  refine ⟨h.position, h.mark, h.highest, h.laid, h.bytes, h.strings, h.points, fun a ha => ?_,
    h.registers, h.jumps⟩
  unfold State.label at ha
  dsimp only at ha
  split at ha
  · cases hentry : s.entry with
    | some b =>
        rw [hentry] at ha
        exact h.entry a (hentry.trans ha)
    | none =>
        rw [hentry] at ha
        obtain rfl := Option.some.inj ha
        exact h.cut
  · exact h.entry a ha

theorem highest_labelAll (labels : List Label) (s : State) :
    (s.labelAll labels).highest = s.highest := by
  induction labels generalizing s with
  | nil => rfl
  | cons l labels ih => exact ih (s.label l)

/-- By induction on the labels. -/
theorem Tidy.labelAll (labels : List Label) {s : State} (h : Tidy false s) :
    Tidy false (s.labelAll labels) := by
  induction labels generalizing s with
  | nil => exact h
  | cons l labels ih => exact ih (h.label l)

/-- Labels are placed between segments. -/
theorem labels_lays (labels : List Label) :
    Lays base false (labels.forM placeLabel) s false Anyhow := by
  refine ⟨fun htidy a t hrun => ?_⟩
  rw [run_forM_placeLabel] at hrun
  cases hrun
  obtain ⟨-, hposition, -, hpoints⟩ := labelAll_rest labels s
  have hhighest := highest_labelAll labels s
  have hserial := State.serial_labelAll labels s
  exact ⟨htidy.labelAll labels, ⟨Nat.le_of_eq hposition.symm, Nat.le_of_eq hhighest.symm,
    Nat.le_of_eq hserial.symm, fun x hx => Or.inl (hpoints ▸ hx)⟩, trivial⟩

/-! ## Branches and alignment -/

/-- The table behind a jump, and the choice from it. -/
theorem run_chooseBetween (taken otherwise : Target) (s : State) : (do
      let table ← jumpOverAligned 16 [.word (.address taken none), .word (.address otherwise none)]
      let jump := (← Emit.position) + addressSize * 3 * instructionSize
      select table jump addressSize 0
      instruction 0 0 0) s = .ok () (s.emit (choosePieces taken otherwise s.position)) := by
  have hposition : ∀ u : State, Emit.position u = .ok u.position u := fun _ => rfl
  rw [run_bind (run_jumpOverAligned 16 _ s), run_bind (hposition _), Nat.mul_assoc, run_choose,
    State.emit_emit]
  rfl

/-- A condition is tested, and the table and the choice are one segment. -/
theorem branch_lays (condition : Expr) (role role' : String) (serial serial' : Nat) :
    Lays base false (branch condition (.point role serial) (.point role' serial')) s false fun _ t =>
      s.position < t.position := by
  unfold branch
  refine (expr_lays condition).bind fun _ u honward _ => ?_
  refine (widthOf_lays condition.type condition.site).bind fun width v honward₁ _ => ?_
  refine (logicalNot_lays width condition.site).bind fun _ w honward₂ _ => ?_
  have hle := ((honward.trans honward₁).trans honward₂).position
  have hsegment : Segment w.highest w.position true
      (choosePieces (.point role serial) (.point role' serial') w.position) false := .choose
  refine .emit (run_chooseBetween _ _ w) (fun _ => hsegment) ?_ fun _ => ?_
  · exact hsegment.allKnown_or_jump.resolve_right fun h => by
      obtain ⟨role, serial, hone⟩ := h
      cases hone
  · rw [State.position_emit, choosePieces, size_append, size_choicePieces]
    simp only [addressSize, instructionSize]
    omega

/-- Padding is data behind a jump over it. -/
theorem alignTo_lays (align : Nat) : Lays base false (alignTo align) s false Anyhow := by
  unfold alignTo
  refine .position ?_
  split
  · exact (jumpOver_lays (by simp [Piece.isInstruction])).bind fun _ _ _ _ => .pure trivial
  · exact .pure trivial

/-! ## Parts with statements inside

A condition, a loop, a block and an imported file each lay segments if what stands inside them does.
What happens inside is told apart from the points of the part itself by their serials: a statement only
places points whose serials are above the one it starts with. -/

/-- Segments are laid from every state, and only points that come later are placed. -/
def LaysAnywhere (x : Emitter Unit) : Prop :=
  ∀ ⦃base : Nat⦄ ⦃s : State⦄, base ≤ s.serial → Lays base false x s false Anyhow

/-- The value goes to a register that was handed out for the variable. -/
theorem define_lays (v : Variable) (value : Expr) :
    Lays base false (action (.define v value)) s false Anyhow := by
  rw [action]
  refine (expr_lays value).bind fun _ t _ _ => ?_
  refine (allocate_lays 1 v.site).bind fun r u _ hr => .tidy fun htidy => ?_
  have hcount : r < registerCount := Nat.lt_of_lt_of_le hr.1 htidy.highest
  refine (bind_lays v (Nat.le_of_lt hcount)).bind fun _ w honward _ => .tidy fun htidy' => ?_
  refine copyRange_lays registerSize ?_ (fun i hi => ?_) fun h => by cases h
  · have hposition := htidy'.position
    have hlow : immediate + registerSize ≤ codeStart := by decide
    omega
  · exact slot_register htidy'.highest (Nat.lt_of_lt_of_le hr.1 honward.highest) hi

/-- No code at all. -/
theorem reserve_lays (v : Variable) : Lays base false (action (.reserve v)) s false Anyhow := by
  rw [action]
  cases v.count with
  | some count =>
      refine (allocate_lays count v.site).bind fun r t _ hr => .tidy fun htidy => ?_
      have hle := Nat.le_trans hr.1 htidy.highest
      exact bind_lays v (by omega)
  | none => exact .throw

/-- The registers handed out in a block are given back, which moves the mark and nothing else. -/
theorem block_lays {body : List Stmt} (hbody : LaysAnywhere (stmts body)) :
    LaysAnywhere (action (.block body)) := by
  intro base s hbase
  rw [action]
  refine .tidy fun htidy => .get ?_
  refine (hbody hbase).bind fun _ t honward _ => release_lays ?_
  exact Nat.le_trans htidy.mark honward.highest

/-- One point is placed in front of the statement and one behind it. -/
theorem ifThen_lays (condition : Expr) {taken : Stmt} (htaken : LaysAnywhere (stmt taken)) :
    LaysAnywhere (action (.branch condition taken none)) := by
  intro base s hbase
  rw [action]
  refine .newPoint _ fun first s₁ hfirst hle₁ _ _ => .newPoint _ fun finish s₂ hfinish hle₂ _ _ => ?_
  rw [alternative]
  refine Lays.andThen ((branch_lays _ _ _ _ _).bind fun _ t honward _ => ?_) fun _ t honward => ?_
  · have hserial := honward.serial
    refine (place_lays _ (by omega) (by omega)).bind fun _ u honward' _ => ?_
    exact htaken (by have := honward'.serial; omega)
  · exact (place_lays _ (Nat.le_trans hle₂ honward.serial) (by omega)).anyhow

/-- The jump at the end of the statement goes to the last point, which is placed behind it. -/
theorem ifElse_lays (condition : Expr) {taken other : Stmt} (htaken : LaysAnywhere (stmt taken))
    (hother : LaysAnywhere (stmt other)) :
    LaysAnywhere (action (.branch condition taken (some other))) := by
  intro base s hbase
  rw [action]
  refine .newPoint _ fun first s₁ hfirst hle₁ _ _ =>
    .newPoint _ fun finish s₂ hfinish hle₂ _ hnew => ?_
  rw [alternative]
  refine Lays.andThen (.newPoint _ fun last s₃ hlast hle₃ honward₃ _ => ?_) fun _ t honward => ?_
  · -- the end is placed behind the jump to it, and by nothing in between
    have hplaced₃ := (hnew 0).onward (honward₃ finish) (Nat.le_refl _)
    refine ((branch_lays condition _ _ _ _).above finish (by omega)).bind
      fun _ t honward₄ habove => ?_
    have hplaced₄ := hplaced₃.onward habove.1 (Nat.le_refl _)
    have hserial₄ := honward₄.serial
    refine (place_lays _ (by omega) (by omega)).bind fun _ u honward₅ heq => ?_
    have hserial₅ := honward₅.serial
    have hplaced₅ : PlacedBy finish 0 u := heq ▸ hplaced₄.place fun h => by omega
    refine ((htaken (show finish ≤ u.serial by omega)).above finish (by omega)).bind
      fun _ v honward₆ habove => .tidy fun htidy => ?_
    have hplaced₆ := hplaced₅.onward habove.1 (Nat.le_refl _)
    have hpositive : 0 < v.position := by
      rw [htidy.position]
      exact Nat.lt_of_lt_of_le (by decide) (Nat.le_add_right _ _)
    refine (jumpTo_lays _ hplaced₆ hpositive).bind fun _ w honward₇ _ => ?_
    have hserial₇ := (honward₆.trans honward₇).serial
    refine (place_lays _ (by omega) (by omega)).bind fun _ x honward₈ _ => ?_
    exact hother (by have := honward₈.serial; omega)
  · exact (place_lays _ (Nat.le_trans hle₂ honward.serial) (by omega)).anyhow

/-- The jump back of a loop goes to the top, which stands in front of it. -/
theorem while_lays (condition : Expr) {body : Stmt} (hbody : LaysAnywhere (stmt body)) :
    LaysAnywhere (action (.loop condition body false)) := by
  intro base s hbase
  rw [action]
  refine .newPoint _ fun top s₁ htop hle₁ honward₁ hnew => .newPoint _ fun start s₂ hstart hle₂
    honward₂ _ => .newPoint _ fun finish s₃ hfinish hle₃ honward₃ _ => ?_
  have hplaced := (hnew s₃.position).onward ((honward₂ top).trans (honward₃ top)) (Nat.le_refl _)
  refine (place_lays _ (by omega) (by omega)).bind fun _ t honward₄ heq => ?_
  have hplaced₄ : PlacedBy top s₃.position t := heq ▸ hplaced.place fun _ => Nat.le_refl _
  refine ((branch_lays condition _ _ _ _).above top (by omega)).bind
    fun _ u honward₅ habove => ?_
  have hplaced₅ := hplaced₄.onward habove.1 (Nat.le_refl _)
  have hserial₅ := (honward₄.trans honward₅).serial
  refine (place_lays _ (by omega) (by omega)).bind fun _ v honward₆ heq' => ?_
  have hserial₆ := honward₆.serial
  have hplaced₆ : PlacedBy top s₃.position v := heq' ▸ hplaced₅.place fun h => by omega
  refine ((hbody (show top ≤ v.serial by omega)).above top (by omega)).bind
    fun _ w honward₇ habove' => ?_
  have hplaced₇ := hplaced₆.onward habove'.1 (Nat.le_refl _)
  -- the jump back stands behind the branch, and that behind the top
  have hposition : s₃.position < w.position := Nat.lt_of_le_of_lt honward₄.position
    (Nat.lt_of_lt_of_le habove.2 (honward₆.trans honward₇).position)
  refine (jumpTo_lays _ hplaced₇ hposition).bind fun _ x honward₈ _ => ?_
  have hserial₈ := (honward₇.trans honward₈).serial
  exact (place_lays _ (by omega) (by omega)).anyhow

/-- The point at the top is placed in front of the body. -/
theorem doWhile_lays (condition : Expr) {body : Stmt} (hbody : LaysAnywhere (stmt body)) :
    LaysAnywhere (action (.loop condition body true)) := by
  intro base s hbase
  rw [action]
  refine .newPoint _ fun top s₁ htop hle₁ _ _ => .newPoint _ fun finish s₂ hfinish hle₂ _ _ => ?_
  refine (place_lays _ (by omega) (by omega)).bind fun _ t honward _ => ?_
  have hserial := honward.serial
  refine (hbody (by omega)).bind fun _ u honward' _ => ?_
  refine (branch_lays _ _ _ _ _).bind fun _ v honward'' _ => ?_
  have hserial' := (honward'.trans honward'').serial
  exact (place_lays _ (by omega) (by omega)).anyhow

/-- A file that was placed before lays nothing; else its statements stand behind the gap that aligns
it. -/
theorem file_lays (path : Path) {statements : List Stmt} (exports : Exports) (pragmas : Pragmas)
    (hbody : LaysAnywhere (stmts statements)) :
    LaysAnywhere (program (.mk path statements exports pragmas)) := by
  intro base s hbase
  rw [program]
  refine .get ?_
  dsimp only
  split
  · exact .pure trivial
  have hfile : ∀ t : State, base ≤ t.serial →
      Lays base false (alignTo pragmas.align >>= fun _ => stmts statements) t false Anyhow :=
    fun t ht => (alignTo_lays _).bind fun _ u honward _ => hbody (Nat.le_trans ht honward.serial)
  split
  · refine (Lays.update (fun htidy => ?_) ?_).bind fun _ t honward _ =>
      hfile t (Nat.le_trans hbase honward.serial)
    · exact ⟨htidy.position, htidy.mark, htidy.highest, htidy.laid, htidy.bytes, htidy.strings,
        htidy.points, htidy.entry, htidy.registers, htidy.jumps⟩
    · exact ⟨Nat.le_refl _, Nat.le_refl _, Nat.le_refl _, fun _ h => Or.inl h⟩
  · exact hfile s hbase

/-! ## Statements

By induction on the program, one form of statement at a time. -/

mutual

theorem stmt_lays : ∀ st : Stmt, st.tame = true → LaysAnywhere (stmt st)
  | .mk labels act site, htame => by
      intro base s hbase
      rw [stmt]
      exact (labels_lays labels).bind fun _ t honward _ =>
        action_lays act htame (Nat.le_trans hbase honward.serial)

theorem stmts_lays : ∀ ss : List Stmt, Stmt.listTame ss = true → LaysAnywhere (stmts ss)
  | [], htame => by
      intro base s hbase
      rw [stmts]
      exact .pure trivial
  | st :: ss, htame => by
      intro base s hbase
      rw [stmts]
      rw [Stmt.listTame, Bool.and_eq_true] at htame
      exact (stmt_lays st htame.1 hbase).bind fun _ t honward _ =>
        stmts_lays ss htame.2 (Nat.le_trans hbase honward.serial)

theorem action_lays : ∀ act : Action, act.tame = true → LaysAnywhere (action act)
  | .nothing, htame => by
      intro base s hbase
      rw [action]
      exact .pure trivial
  | .place file, htame => by
      intro base s hbase
      rw [action]
      exact program_lays file htame hbase
  | .evaluate value, htame => by
      intro base s hbase
      rw [action]
      exact expr_lays value
  | .define v value, htame => fun _ _ _ => define_lays v value
  | .reserve v, htame => fun _ _ _ => reserve_lays v
  | .block body, htame => block_lays (stmts_lays body htame)
  | .branch condition taken none, htame => by
      rw [Action.tame, Bool.and_eq_true] at htame
      exact ifThen_lays condition (stmt_lays taken htame.1)
  | .branch condition taken (some other), htame => by
      rw [Action.tame, Bool.and_eq_true] at htame
      exact ifElse_lays condition (stmt_lays taken htame.1) (stmt_lays other htame.2)
  | .loop condition body false, htame => while_lays condition (stmt_lays body htame)
  | .loop condition body true, htame => doWhile_lays condition (stmt_lays body htame)
  | .goto _, htame | .assign _ _, htame | .words _, htame => by cases htame

theorem program_lays : ∀ file : Program, file.tame = true → LaysAnywhere (program file)
  | .mk path statements exports pragmas, htame =>
      file_lays path exports pragmas (stmts_lays statements htame)

end

end Emit

end ByteJump
