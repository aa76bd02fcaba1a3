import ByteJump.Proofs.Emit.Pieces

set_option autoImplicit false

/-!
# Code that binds nothing

Expressions, branches, stores and raw words add code and nothing else: no label is placed and no
variable gets a register.  The registers this code writes to are temporary ones, which lie at or
above the mark, and behind the code the mark is where it was.

Only emitting that ends well is looked at here.

`Calm m x s Q` is a statement about one state: if the registers below `m` are taken there, then
whenever `x` ends well it has added code that spares them, it has bound nothing, and `Q` holds of
the result.  `Q` is mostly `SameMark`, the mark being where it was, which is what lets two calm
pieces stand behind each other.  The register `m` is a parameter and not the mark of `s`: with `m`
fixed the rules for binds need no side condition, and an expression in the middle of a statement
spares what the whole statement has taken.
-/

namespace ByteJump

namespace Emit

open Assembly Memory

variable {α β : Type}

/-! ## Registers that are taken

An address outside of all registers is free whatever `m` is, so code that writes to the immediate,
to the scratch bytes or into code spares every register.  `Spares` is transitive, as it only
speaks of the code that was added. -/

/-- The address is not one of a register below `m`. -/
def Free (m a : Nat) : Prop := register 0 ≤ a → register m ≤ a

/-- The state is one of emitting code, and the registers below `m` are taken. -/
structure Taken (m : Nat) (s : State) : Prop where
  position : codeStart ≤ s.position
  mark : m ≤ s.mark
  count : s.mark ≤ registerCount

/-- Code was added that writes to no register below `m`. -/
def Spares (m : Nat) (s t : State) : Prop :=
  ∃ more, t.pieces.toList = s.pieces.toList ++ more ∧ t.position = s.position + size more ∧
    ∀ a ∈ destinations more, Free m a

section Free

variable {m a : Nat} {s t u : State}

/-- The immediate and all below it are no registers. -/
theorem free_of_lt (h : a < immediate + registerSize) : Free m a := by
  have hzero : register 0 = immediate + registerSize := by decide
  intro hlow
  omega

/-- Code stands behind all registers. -/
theorem free_of_code (hm : m ≤ registerCount) (h : codeStart ≤ a) : Free m a := by
  have hregister := register_mono hm (Nat.le_refl registerCount)
  have htable : register registerCount ≤ codeStart := by decide
  exact fun _ => by omega

theorem free_of_register {r : Nat} (hm : m ≤ r) (hr : r ≤ registerCount) (h : register r ≤ a) :
    Free m a := fun _ => Nat.le_trans (register_mono hm hr) h

theorem Free.mono {l : Nat} (hl : l ≤ m) (hm : m ≤ registerCount) (h : Free m a) : Free l a :=
  fun hlow => Nat.le_trans (register_mono hl hm) (h hlow)

theorem Taken.le_count (h : Taken m s) : m ≤ registerCount := Nat.le_trans h.mark h.count

theorem Taken.code (h : Taken m s) (ha : codeStart ≤ a) : Free m a := free_of_code h.le_count ha

theorem Spares.of_eq (hpieces : t.pieces = s.pieces) (hposition : t.position = s.position) :
    Spares m s t := ⟨[], by simp [hpieces], by simp [hposition, size], nofun⟩

theorem Spares.refl (s : State) : Spares m s s := .of_eq rfl rfl

/-- The code that was added is the code of both parts. -/
theorem Spares.trans (h : Spares m s t) (h' : Spares m t u) : Spares m s u := by
  obtain ⟨more, hpieces, hposition, hfree⟩ := h
  obtain ⟨more', hpieces', hposition', hfree'⟩ := h'
  refine ⟨more ++ more', by rw [hpieces', hpieces, List.append_assoc], ?_, fun a ha => ?_⟩
  · rw [hposition', hposition, size_append, Nat.add_assoc]
  · rw [destinations_append] at ha
    exact (List.mem_append.mp ha).elim (hfree a) (hfree' a)

/-- Fewer registers are easier to spare. -/
theorem Spares.mono {l : Nat} (hl : l ≤ m) (hm : m ≤ registerCount) (h : Spares m s t) :
    Spares l s t := by
  obtain ⟨more, hpieces, hposition, hfree⟩ := h
  exact ⟨more, hpieces, hposition, fun a ha => (hfree a ha).mono hl hm⟩

theorem Spares.position_le (h : Spares m s t) : s.position ≤ t.position := by
  obtain ⟨more, -, hposition, -⟩ := h
  omega

end Free

/-! ## Rules -/

/-- Where the registers below `m` are taken, emitting ends with code added that spares them,
nothing bound, and `Q`; or with a fault. -/
structure Calm (m : Nat) (x : Emitter α) (s : State) (Q : α → State → Prop) : Prop where
  run : Taken m s → ∀ a t, x s = .ok a t → (Kept s t ∧ Spares m s t ∧ Taken m t) ∧ Q a t

section Rules

variable {m : Nat} {s : State} {Q : α → State → Prop}

theorem Calm.pure {a : α} (h : Q a s) : Calm m (Pure.pure a) s Q := by
  refine ⟨fun htaken b t hrun => ?_⟩
  cases hrun
  exact ⟨⟨.refl s, .refl s, htaken⟩, h⟩

theorem Calm.throw {e : Fault} : Calm m (MonadExcept.throw e) s Q := by
  refine ⟨fun htaken b t hrun => ?_⟩
  cases hrun

theorem Calm.get {f : State → Emitter α} (h : Calm m (f s) s Q) :
    Calm m (MonadState.get >>= f) s Q := ⟨h.run⟩

theorem Calm.position {f : Nat → Emitter α} (h : Calm m (f s.position) s Q) :
    Calm m (Emit.position >>= f) s Q := ⟨h.run⟩

/-- A computation that ended well ended well in both of its parts. -/
theorem ok_bind {x : Emitter β} {f : β → Emitter α} {s t : State} {a : α}
    (h : (x >>= f) s = .ok a t) : ∃ b u, x s = .ok b u ∧ f b u = .ok a t := by
  cases hx : x s with
  | ok b u => exact ⟨b, u, rfl, (run_bind hx).symm.trans h⟩
  | error e u =>
      rw [run_bind_error hx] at h
      cases h

/-- The second part starts where the first one has ended, and the registers are still taken there.
-/
theorem Calm.bind {x : Emitter β} {f : β → Emitter α} {P : β → State → Prop} (h : Calm m x s P)
    (hf : ∀ b u, Taken m u → P b u → Calm m (f b) u Q) : Calm m (x >>= f) s Q := by
  refine ⟨fun htaken a t hrun => ?_⟩
  obtain ⟨b, u, hx, hfb⟩ := ok_bind hrun
  obtain ⟨⟨hkept, hspares, htaken'⟩, hP⟩ := h.run htaken b u hx
  obtain ⟨⟨hkept', hspares', htaken''⟩, hQ⟩ := (hf b u htaken' hP).run htaken' a t hfb
  exact ⟨⟨hkept.trans hkept', hspares.trans hspares', htaken''⟩, hQ⟩

/-- What is said of the result is weakened. -/
theorem Calm.mono {x : Emitter α} {P : α → State → Prop} (h : Calm m x s P)
    (hPQ : ∀ a t, Taken m t → P a t → Q a t) : Calm m x s Q := by
  refine ⟨fun htaken a t hrun => ?_⟩
  obtain ⟨hcalm, hP⟩ := h.run htaken a t hrun
  exact ⟨hcalm, hPQ a t hcalm.2.2 hP⟩

/-- The registers below `m` are taken to begin with. -/
theorem Calm.taken {x : Emitter α} (h : Taken m s → Calm m x s Q) : Calm m x s Q :=
  ⟨fun htaken => (h htaken).run htaken⟩

/-- An update that binds nothing and adds no code. -/
theorem Calm.update {f : State → State} {Q : PUnit → State → Prop} (hkept : Kept s (f s))
    (hpieces : (f s).pieces = s.pieces)
    (hposition : (f s).position = s.position) (hmark : (f s).mark = s.mark) (h : Q ⟨⟩ (f s)) :
    Calm m (modify f) s Q := by
  refine ⟨fun htaken a t hrun => ?_⟩
  cases hrun
  refine ⟨⟨hkept, .of_eq hpieces hposition, ?_, ?_, ?_⟩, h⟩
  · exact hposition ▸ htaken.position
  · exact hmark ▸ htaken.mark
  · exact hmark ▸ htaken.count

/-- Pieces are laid down that spare the registers below `m`. -/
theorem Calm.emit {x : Emitter α} {a : α} {more : List Piece} (hrun : x s = .ok a (s.emit more))
    (hfree : Taken m s → ∀ d ∈ destinations more, Free m d) (h : Q a (s.emit more)) :
    Calm m x s Q := by
  refine ⟨fun htaken b t hb => ?_⟩
  rw [hrun] at hb
  cases hb
  refine ⟨⟨.emit s more, ⟨more, toList_emit s more, rfl, hfree htaken⟩, ?_, htaken.mark,
    htaken.count⟩, h⟩
  exact Nat.le_trans htaken.position (Nat.le_add_right _ _)

end Rules

/-! ## Primitives

Each primitive names the address it writes to, and is calm if that address is free.  The
hypothesis may use that the registers are taken, since the addresses of registers are compared
with `m` through the mark. -/

section Primitives

variable {m : Nat} {s : State}

/-- The mark is where it was. -/
def SameMark (s : State) (_ : α) (t : State) : Prop := t.mark = s.mark

/-- Two parts that leave the mark alone, one behind the other. -/
theorem SameMark.bind {x : Emitter β} {f : β → Emitter α} (h : Calm m x s (SameMark s))
    (hf : ∀ b u, Taken m u → Calm m (f b) u (SameMark u)) : Calm m (x >>= f) s (SameMark s) :=
  h.bind fun b u htaken hmark => (hf b u htaken).mono fun _ _ _ hmark' => hmark'.trans hmark

theorem free_one {destination source : Nat} {next : Word} (h : Free m destination) :
    ∀ d ∈ destinations [.instruction source destination next], Free m d := by
  intro d hd
  obtain rfl : d = destination := by simpa [destinations] using hd
  exact h

theorem instruction_calm (source next : Nat) {destination : Nat}
    (h : Taken m s → Free m destination) :
    Calm m (instruction source destination next) s (SameMark s) :=
  .emit (run_instruction _ _ _ s) (fun htaken => free_one (h htaken)) rfl

theorem copy_calm (source : Nat) {destination : Nat} (h : Taken m s → Free m destination) :
    Calm m (copy source destination) s (SameMark s) :=
  .emit (run_copy _ _ s) (fun htaken => free_one (h htaken)) rfl

/-- By induction on the number of bytes; each of them goes to an address of its own. -/
theorem copyRange_calm : ∀ (length source destination : Nat) {s : State},
    (Taken m s → ∀ i < length, Free m (destination + i)) →
    Calm m (copyRange source destination length) s (SameMark s)
  | 0, source, destination, s, _ => Calm.pure rfl
  | length + 1, source, destination, s, h => by
      rw [copyRange]
      refine Calm.taken fun htaken => ?_
      refine (copy_calm source fun _ => h htaken 0 (by omega)).bind fun _ u _ hmark => ?_
      refine (copyRange_calm length _ _ fun _ i hi => ?_).mono fun _ _ _ hmark' =>
        hmark'.trans hmark
      have hfree := h htaken (i + 1) (by omega)
      rwa [show destination + (i + 1) = destination + 1 + i by omega] at hfree

theorem patches_calm (target : Nat) (fields : List (Nat × Nat))
    (h : Taken m s → codeStart ≤ target) : Calm m (patches target fields) s (SameMark s) := by
  refine .emit (run_patches _ _ s) (fun htaken d hd => ?_) rfl
  rw [destinations_patchPieces] at hd
  obtain ⟨field, -, rfl⟩ := List.mem_map.mp hd
  exact htaken.code (Nat.le_trans (h htaken) (Nat.le_add_right _ _))

/-- The copies in front go into the instruction, which stands in the code. -/
theorem patched_calm (fields : List (Nat × Nat)) (source : Nat) {destination : Nat}
    (h : Taken m s → Free m destination) :
    Calm m (patched fields source destination) s (SameMark s) := by
  refine .emit (run_patched _ _ _ s) (fun htaken d hd => ?_) rfl
  have hposition := htaken.position
  rw [destinations_patchedPieces] at hd
  rcases List.mem_append.mp hd with hfield | hlast
  · obtain ⟨field, -, rfl⟩ := List.mem_map.mp hfield
    exact htaken.code (by omega)
  · obtain rfl := List.mem_singleton.mp hlast
    exact h htaken

theorem free_jump {next : Word} {more : List Piece} (hmore : destinations more = []) :
    ∀ d ∈ destinations (.instruction 0 0 next :: more), Free m d := by
  intro d hd
  obtain rfl : d = 0 := by
    simpa [destinations, show List.filterMap _ more = [] from hmore] using hd
  exact free_of_lt (by decide)

/-- What is jumped over is data, which writes nothing by itself. -/
theorem jumpOver_calm {pieces : List Piece} (h : destinations pieces = []) :
    Calm m (jumpOver pieces) s (SameMark s) :=
  .emit (run_jumpOver pieces s) (fun _ => free_jump h) rfl

theorem forM_push_calm {pieces : List Piece} (h : destinations pieces = []) :
    Calm m (pieces.forM push) s (SameMark s) :=
  .emit (run_forM_push pieces s) (fun _ d hd => by rw [h] at hd; cases hd) rfl

theorem run_push_calm (data : List UInt8) : Calm m (push (.bytes data)) s (SameMark s) :=
  .emit (run_push _ s) (fun _ => nofun) rfl

theorem jumpOverAligned_calm (align : Nat) {pieces : List Piece} (h : destinations pieces = []) :
    Calm m (jumpOverAligned align pieces) s (SameMark s) := by
  unfold jumpOverAligned
  refine Calm.position ?_
  refine SameMark.bind (instruction_calm _ _ fun _ => free_of_lt (by decide)) fun _ t _ => ?_
  refine SameMark.bind (run_push_calm _) fun _ u _ => ?_
  exact SameMark.bind (forM_push_calm h) fun _ _ _ => Calm.pure rfl

theorem byteConstant_calm (value : UInt8) : Calm m (byteConstant value) s (SameMark s) := by
  unfold byteConstant
  refine Calm.get ?_
  cases s.byteConstants.lookup value with
  | some address => exact Calm.pure rfl
  | none =>
      refine (jumpOver_calm rfl).bind fun _ u _ hmark => ?_
      exact (Calm.update ⟨rfl, rfl, rfl, rfl, rfl⟩ rfl rfl rfl hmark).bind fun _ _ _ hmark' =>
        Calm.pure hmark'

theorem stringConstant_calm (text : String) : Calm m (stringConstant text) s (SameMark s) := by
  unfold stringConstant
  refine Calm.get ?_
  cases s.strings.lookup text with
  | some address => exact Calm.pure rfl
  | none =>
      refine (jumpOver_calm rfl).bind fun _ u _ hmark => ?_
      exact (Calm.update ⟨rfl, rfl, rfl, rfl, rfl⟩ rfl rfl rfl hmark).bind fun _ _ _ hmark' =>
        Calm.pure hmark'

theorem setByte_calm {destination : Nat} (value : UInt8) (h : Taken m s → Free m destination) :
    Calm m (setByte destination value) s (SameMark s) := by
  refine Calm.taken fun htaken => ?_
  exact SameMark.bind (byteConstant_calm value) fun _ _ _ => copy_calm _ fun _ => h htaken

theorem setBytes_calm : ∀ (length destination value : Nat) {s : State},
    (Taken m s → ∀ i < length, Free m (destination + i)) →
    Calm m (setBytes destination length value) s (SameMark s)
  | 0, destination, value, s, _ => Calm.pure rfl
  | length + 1, destination, value, s, h => by
      rw [setBytes]
      refine Calm.taken fun htaken => ?_
      refine SameMark.bind (setByte_calm _ fun _ => h htaken 0 (by omega)) fun _ u _ => ?_
      refine setBytes_calm length _ _ fun _ i hi => ?_
      have hfree := h htaken (i + 1) (by omega)
      rwa [show destination + (i + 1) = destination + 1 + i by omega] at hfree

theorem free_immediate {i : Nat} (h : i < registerSize) : Free m (immediate + i) :=
  free_of_lt (by omega)

theorem clearFrom_calm (width : Nat) : Calm m (clearFrom width) s (SameMark s) := by
  refine setBytes_calm _ _ _ fun _ i hi => ?_
  rw [Nat.add_assoc]
  exact free_immediate (by omega)

/-- The registers handed out are the next ones that are free. -/
theorem allocate_calm (count : Nat) (site : Location) :
    Calm m (allocate count site) s fun r t => r = s.mark ∧ t.mark = s.mark + count := by
  unfold allocate
  refine Calm.get ?_
  dsimp only
  split
  · rename_i hle
    refine ⟨fun htaken a t hrun => ?_⟩
    cases hrun
    refine ⟨⟨⟨rfl, rfl, rfl, rfl, rfl⟩, .of_eq rfl rfl, htaken.position, ?_, hle⟩, rfl, rfl⟩
    exact Nat.le_trans htaken.mark (Nat.le_add_right _ _)
  · exact Calm.throw

/-- The mark may go down to any register that is not below `m`. -/
theorem release_calm {mark : Nat} (h : m ≤ mark) (hcount : mark ≤ registerCount) :
    Calm m (release mark) s fun _ t => t.mark = mark := by
  refine ⟨fun htaken a t hrun => ?_⟩
  cases hrun
  exact ⟨⟨⟨rfl, rfl, rfl, rfl, rfl⟩, .of_eq rfl rfl, htaken.position, h, hcount⟩, rfl⟩

end Primitives

/-! ## Expressions

By induction on the expression.  The only registers an expression takes are those that keep a left
operand, or a counter of the zeros, and they are handed out at the mark. -/

section Expressions

variable {m : Nat} {s : State}

theorem widthOf_calm (type : Ty) (site : Location) :
    Calm m (widthOf type site) s (SameMark s) := by
  unfold widthOf
  cases type.width with
  | some width => exact Calm.pure rfl
  | none => exact Calm.throw

/-- By induction on the bytes that are left to test. -/
theorem countZeros_calm (total flag : Nat) : ∀ (count i : Nat) {s : State},
    (Taken m s → Free m total ∧ Free m flag) →
    Calm m (countZeros total flag count i) s (SameMark s)
  | 0, i, s, _ => Calm.pure rfl
  | count + 1, i, s, h => by
      rw [countZeros]
      refine Calm.taken fun htaken => ?_
      obtain ⟨htotal, hflag⟩ := h htaken
      refine SameMark.bind (patched_calm _ _ fun _ => hflag) fun _ t _ => ?_
      refine SameMark.bind (patched_calm _ _ fun _ => htotal) fun _ u _ => ?_
      exact countZeros_calm total flag count _ fun _ => ⟨htotal, hflag⟩

/-- The register it counts in is handed out above the mark, and given back. -/
theorem logicalNot_calm (width : Nat) (site : Location) :
    Calm m (logicalNot width site) s (SameMark s) := by
  unfold logicalNot
  dsimp only
  refine Calm.taken fun htaken => Calm.get ?_
  refine (allocate_calm 1 site).bind fun scratch t htaken' hscratch => ?_
  have hcount := htaken'.count
  have hle : m ≤ scratch := by have := htaken.mark; omega
  have htotal : Free m (register scratch) :=
    free_of_register hle (by omega) (Nat.le_refl _)
  have hflag : Free m (register scratch + 1) :=
    free_of_register hle (by omega) (Nat.le_succ _)
  refine (setByte_calm _ fun _ => htotal).bind fun _ u _ _ => ?_
  refine (countZeros_calm _ _ _ _ fun _ => ⟨htotal, hflag⟩).bind fun _ u _ _ => ?_
  refine (patched_calm _ _ fun _ => free_immediate (i := 0) (by decide)).bind fun _ v _ _ => ?_
  refine (clearFrom_calm 1).bind fun _ w _ _ => ?_
  exact (release_calm htaken.mark htaken.count).mono fun _ _ _ hmark => hmark

theorem str_calm (text : String) (info : Info) : Calm m (expr (.str text info)) s (SameMark s) := by
  rw [expr]
  refine SameMark.bind (stringConstant_calm text) fun address t _ => ?_
  refine SameMark.bind (setBytes_calm _ _ _ fun _ i hi => free_immediate ?_) fun _ u _ => ?_
  · exact Nat.lt_trans hi (by decide)
  refine setBytes_calm _ _ _ fun _ i hi => ?_
  rw [Nat.add_assoc]
  exact free_immediate (Nat.add_lt_add_left hi addressSize)

/-- The operand is computed first, and the result is written to the immediate. -/
theorem unary_calm (op : UnaryOp) {operand : Expr} (info : Info)
    (hoperand : ∀ {s : State}, Calm m (expr operand) s (SameMark s)) :
    Calm m (expr (.unary op operand info)) s (SameMark s) := by
  cases op with
  | plus =>
      rw [expr]
      exact hoperand
  | not =>
      rw [expr]
      refine SameMark.bind hoperand fun _ t _ => ?_
      exact SameMark.bind (widthOf_calm _ _) fun _ u _ => logicalNot_calm _ _
  | deref =>
      rw [expr]
      refine SameMark.bind hoperand fun _ t _ => ?_
      refine SameMark.bind (patched_calm _ _ fun _ => free_immediate (i := 0) (by decide))
        fun _ u _ => clearFrom_calm _
  | negate | complement =>
      rw [expr]
      exact Calm.throw

/-- The register that keeps the left operand is handed out above the mark, and given back. -/
theorem binary_calm (op : BinaryOp) {left right : Expr} (info : Info)
    (hleft : ∀ {s : State}, Calm m (expr left) s (SameMark s))
    (hright : ∀ {s : State}, Calm m (expr right) s (SameMark s)) :
    Calm m (expr (.binary op left right info)) s (SameMark s) := by
  rw [expr]
  refine SameMark.bind (widthOf_calm _ _) fun width t _ => ?_
  split
  · exact Calm.throw
  split
  · exact Calm.throw
  refine Calm.taken fun htaken => Calm.get ?_
  refine hleft.bind fun _ u htaken₁ hmark => ?_
  refine (allocate_calm 1 info.site).bind fun saved v htaken₂ hsaved => ?_
  have hcount := htaken₂.count
  have hle : m ≤ saved := by have := htaken₁.mark; omega
  refine (copy_calm _ fun _ => ?_).bind fun _ w _ _ => ?_
  · exact free_of_register hle (by omega) (Nat.le_refl _)
  refine hright.bind fun _ w _ _ => ?_
  refine (patched_calm _ _ fun _ => free_immediate (i := 0) (by decide)).bind fun _ w _ _ => ?_
  refine (clearFrom_calm 1).bind fun _ w _ _ => ?_
  exact (release_calm htaken.mark htaken.count).mono fun _ _ _ hmark => hmark

/-- One case for each kind of expression, with the operands given by the recursion. -/
theorem expr_calm : ∀ (e : Expr) {s : State}, Calm m (expr e) s (SameMark s)
  | .int value info, s => by
      rw [expr]
      exact setBytes_calm _ _ _ fun _ i hi => free_immediate hi
  | .str text info, s => str_calm text info
  | .variable v info, s => by
      rw [expr]
      cases v.count with
      | some count => exact Calm.throw
      | none =>
          refine Calm.get ?_
          cases s.bindings.register? v with
          | some r => exact copyRange_calm _ _ _ fun _ i hi => free_immediate hi
          | none => exact Calm.throw
  | .label use info, s => by
      rw [expr]
      cases use.target with
      | none => exact Calm.throw
      | some label =>
          refine SameMark.bind (jumpOver_calm rfl) fun address t _ => ?_
          refine SameMark.bind (copyRange_calm _ _ _ fun _ i hi => free_immediate ?_)
            fun _ u _ => clearFrom_calm _
          exact Nat.lt_trans hi (by decide)
  | .cast operand info, s => by
      rw [expr]
      refine SameMark.bind (expr_calm operand) fun _ t _ => ?_
      refine SameMark.bind (widthOf_calm _ _) fun width u _ => ?_
      split
      · exact clearFrom_calm _
      · exact Calm.pure rfl
  | .unary op operand info, s => unary_calm op info (expr_calm operand)
  | .binary op left right info, s => binary_calm op info (expr_calm left) (expr_calm right)
  | .index base indices info, s => by
      rw [expr]
      exact Calm.throw

end Expressions

/-! ## Branches, stores and raw words

A branch writes into its own jump and a store through its pointer, but both do it by an
instruction in the code that is patched: the address that a store writes to at run time is no
destination in the text of the code. -/

section Parts

variable {m : Nat} {s : State}

/-- By induction on the bytes of the field that is left. -/
theorem select_calm (table jump : Nat) : ∀ (count i : Nat) {s : State},
    (Taken m s → codeStart ≤ jump) → Calm m (select table jump count i) s (SameMark s)
  | 0, i, s, _ => Calm.pure rfl
  | count + 1, i, s, h => by
      rw [select]
      refine Calm.taken fun htaken => Calm.position ?_
      have hposition := htaken.position
      have hjump := h htaken
      refine SameMark.bind (patched_calm _ _ fun _ => htaken.code (by omega)) fun _ t _ => ?_
      refine SameMark.bind (instruction_calm _ _ fun _ => htaken.code (by omega)) fun _ u _ => ?_
      exact select_calm table jump count _ fun _ => hjump

/-- The byte that is chosen goes into the jump, which is code. -/
theorem branch_calm (condition : Expr) (taken otherwise : Target) :
    Calm m (branch condition taken otherwise) s (SameMark s) := by
  unfold branch
  refine SameMark.bind (expr_calm condition) fun _ t _ => ?_
  refine SameMark.bind (widthOf_calm _ _) fun width u _ => ?_
  refine SameMark.bind (logicalNot_calm _ _) fun _ v _ => ?_
  refine SameMark.bind (jumpOverAligned_calm 16 rfl) fun table w _ => Calm.position ?_
  refine Calm.taken fun htaken => ?_
  refine SameMark.bind (select_calm _ _ _ _ fun _ => ?_) fun _ x _ => ?_
  · exact Nat.le_trans htaken.position (Nat.le_add_right _ _)
  · exact instruction_calm _ _ fun _ => free_of_lt (by decide)

theorem store_calm (target value : Expr) : Calm m (store target value) s (SameMark s) := by
  unfold store
  split
  · rename_i pointer info
    refine Calm.taken fun htaken => Calm.get ?_
    refine (expr_calm pointer).bind fun _ t htaken₁ hmark => ?_
    refine (allocate_calm 1 _).bind fun saved u htaken₂ hsaved => ?_
    have hcount := htaken₂.count
    have hle : m ≤ saved := by have := htaken₁.mark; omega
    refine (copyRange_calm _ _ _ fun _ i _ => ?_).bind fun _ v _ _ => ?_
    · exact free_of_register hle (by omega) (Nat.le_add_right _ _)
    refine (expr_calm value).bind fun _ v _ _ => ?_
    refine (patched_calm _ _ fun _ => free_of_lt (by decide)).bind fun _ v _ _ => ?_
    exact (release_calm htaken.mark htaken.count).mono fun _ _ _ hmark => hmark
  · exact Calm.throw

/-- Words are data. -/
theorem words_calm : ∀ (values : List Expr) {s : State}, Calm m (words values) s (SameMark s)
  | [], s => Calm.pure rfl
  | value :: values, s => by
      have hword : ∀ w : Word, Calm m (push (.word w)) s (SameMark s) := fun w =>
        .emit (run_push _ s) (fun _ => nofun) rfl
      rw [words]
      split
      · exact SameMark.bind (hword _) fun _ t _ => words_calm values
      · refine Calm.get ?_
        split
        · exact SameMark.bind (hword _) fun _ t _ => words_calm values
        · exact SameMark.bind Calm.throw fun _ t _ => words_calm values

theorem forM_stringConstant_calm : ∀ (texts : List String) {s : State},
    Calm m (texts.forM fun text => do let _ ← stringConstant text) s (SameMark s)
  | [], s => Calm.pure rfl
  | text :: texts, s => by
      show Calm m ((do let _ ← stringConstant text) >>= fun _ =>
        texts.forM fun text => do let _ ← stringConstant text) s (SameMark s)
      refine SameMark.bind ?_ fun _ t _ => forM_stringConstant_calm texts
      exact SameMark.bind (stringConstant_calm text) fun _ _ _ => Calm.pure rfl

theorem rawWords_calm (values : List Expr) : Calm m (rawWords values) s (SameMark s) :=
  SameMark.bind (forM_stringConstant_calm _) fun _ _ _ => words_calm values

theorem behindPatches_calm (count : Nat) :
    Calm m (behindPatches count) s fun target t => codeStart ≤ target ∧ SameMark s target t := by
  refine Calm.taken fun htaken => Calm.position (Calm.pure ⟨?_, rfl⟩)
  exact Nat.le_trans htaken.position (Nat.le_add_right _ _)

theorem goto_calm (target : Expr) : Calm m (action (.goto target)) s (SameMark s) := by
  rw [action]
  refine SameMark.bind (expr_calm target) fun _ t _ => ?_
  refine (behindPatches_calm _).bind fun target u _ htarget => ?_
  refine (patches_calm _ _ fun _ => htarget.1).bind fun _ v _ hmark => ?_
  refine (instruction_calm _ _ fun _ => free_of_lt (by decide)).mono fun _ _ _ hmark' => ?_
  exact (hmark'.trans hmark).trans htarget.2

theorem alignTo_calm (align : Nat) : Calm m (alignTo align) s (SameMark s) := by
  unfold alignTo
  refine Calm.position ?_
  split
  · exact SameMark.bind (jumpOver_calm rfl) fun _ _ _ => Calm.pure rfl
  · exact Calm.pure rfl

end Parts

end Emit

end ByteJump
