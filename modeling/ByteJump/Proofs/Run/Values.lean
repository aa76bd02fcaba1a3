import ByteJump.Proofs.Lexical.Typed
import ByteJump.Proofs.Proper
import ByteJump.Proofs.Run.Contents

set_option autoImplicit false

/-!
# Values of expressions

The value of an expression against a memory, and the addresses that it dereferences.  Values have 16
bytes.  A typed expression over variables whose values fit their types has a value that fits its own
type, so a test that looks at the bytes of the type looks at all of the value; and without variables,
strings and dereferences the value is that of the constant, but for the carry of sums.

A value is computed in a scene, a picture of one moment of a run: memory, and the places of
variables, labels and strings.  No code is spoken of here, so that a statement on values can be read
without knowing how they come about.  There are three layers: the value and the addresses that are
read to get it, with an inversion lemma for each operator; the bound on the value of a typed
expression; and the comparison with constants, where the sum of the machine keeps a byte and the
sum of a constant does not.
-/

namespace ByteJump

open Memory

/-- What expressions are evaluated against: where labels and strings stand, the registers of
variables, and the bytes of memory. -/
structure Scene where
  label : Label → Option Nat
  string : String → Option Nat
  slot : Variable → Option Nat
  memory : Contents

namespace Expr

/-! ## Values -/

/-- The value of an expression.  An address is reduced to the address space, a sum to one byte. -/
def value (w : Scene) : Expr → Option Nat
  | .int value _ => some value.toNat
  | .str text _ => (w.string text).map fun address =>
      address % addressSpace + addressSpace * (text.utf8ByteSize % addressSpace)
  | .variable v _ => (w.slot v).map fun r => w.memory.number (register r) registerSize
  | .label use _ => use.target.bind w.label
  | .cast operand i =>
      match value w operand, i.type.width with
      | some x, some width => some (x % 256 ^ width)
      | _, _ => none
  | .unary op operand _ =>
      match value w operand with
      | none => none
      | some x =>
          match op with
          | .plus => some x
          | .not => operand.type.width.map fun width =>
              if x % 256 ^ width = 0 then Constant.truth else 0
          | .deref => some (w.memory (x % addressSpace)).toNat
          | .negate | .complement => none
  | .binary op left right i =>
      match value w left, value w right with
      | some x, some y =>
          if op = .add ∧ i.type.width = some 1 then some ((x + y) % 256) else none
      | _, _ => none
  | .index .. => none

/-- The addresses that an expression dereferences. -/
def reads (w : Scene) : Expr → List Nat
  | .unary op operand _ =>
      match op with
      | .deref => reads w operand ++ (value w operand).toList.map (· % addressSpace)
      | .plus | .not | .negate | .complement => reads w operand
  | .cast operand _ => reads w operand
  | .binary _ left right _ => reads w left ++ reads w right
  | .int .. | .str .. | .variable .. | .label .. | .index .. => []

section Inversion

variable {w : Scene} {operand left right : Expr} {i : Info} {v : Nat}

/-- A cast has a value if its type has a size. -/
theorem value_cast : value w (.cast operand i) = some v ↔
    ∃ x width, value w operand = some x ∧ i.type.width = some width ∧ x % 256 ^ width = v := by
  rw [value]
  cases value w operand <;> cases i.type.width <;> simp

/-- Logical not tests as many bytes as the type of its operand has. -/
theorem value_not : value w (.unary .not operand i) = some v ↔
    ∃ x width, value w operand = some x ∧ operand.type.width = some width ∧
      (if x % 256 ^ width = 0 then Constant.truth else 0) = v := by
  rw [value]
  cases value w operand <;> cases operand.type.width <;> simp

theorem value_plus : value w (.unary .plus operand i) = value w operand := by
  rw [value]
  cases value w operand <;> rfl

/-- A dereference has a value if its pointer has one. -/
theorem value_deref : value w (.unary .deref operand i) = some v ↔
    ∃ x, value w operand = some x ∧ (w.memory (x % addressSpace)).toNat = v := by
  rw [value]
  cases value w operand <;> simp

/-- A sum has a value if both of its operands do. -/
theorem value_binary {op : BinaryOp} : value w (.binary op left right i) = some v ↔
    ∃ x y, value w left = some x ∧ value w right = some y ∧ op = .add ∧
      i.type.width = some 1 ∧ (x + y) % 256 = v := by
  rw [value]
  cases value w left <;> cases value w right <;> simp [and_assoc]

end Inversion

/-! ## Values that fit -/

mutual

/-- The variables that an expression reads. -/
def vars : Expr → List Variable
  | .variable v _ => [v]
  | .int .. | .str .. | .label .. => []
  | .cast operand _ => vars operand
  | .unary _ operand _ => vars operand
  | .binary _ left right _ => vars left ++ vars right
  | .index base indices _ => vars base ++ listVars indices

/-- The variables that several expressions read. -/
def listVars : List Expr → List Variable
  | [] => []
  | e :: es => vars e ++ listVars es

end

mutual

/-- What is so of every variable that an expression reads. -/
theorem Proper.and {P Q : Variable → Prop} : ∀ {e : Expr}, e.Proper P → (∀ v ∈ e.vars, Q v) →
    e.Proper fun v => P v ∧ Q v
  | .int .., _, _ | .str .., _, _ | .label .., _, _ => trivial
  | .variable v _, h, hQ => ⟨h, hQ v List.mem_cons_self⟩
  | .cast operand _, h, hQ => Proper.and (e := operand) h hQ
  | .unary _ operand _, h, hQ => ⟨h.1, Proper.and (e := operand) h.2 hQ⟩
  | .binary .., h, hQ =>
      ⟨Proper.and h.1 fun v hv => hQ v (List.mem_append_left _ hv),
        Proper.and h.2 fun v hv => hQ v (List.mem_append_right _ hv)⟩
  | .index .., h, hQ =>
      ⟨Proper.and h.1 fun v hv => hQ v (List.mem_append_left _ hv),
        AllProper.and h.2 fun v hv => hQ v (List.mem_append_right _ hv)⟩

theorem AllProper.and {P Q : Variable → Prop} : ∀ {es : List Expr}, AllProper P es →
    (∀ v ∈ listVars es, Q v) → AllProper (fun v => P v ∧ Q v) es
  | [], _, _ => trivial
  | _ :: _, h, hQ =>
      ⟨Proper.and h.1 fun v hv => hQ v (List.mem_append_left _ hv),
        AllProper.and h.2 fun v hv => hQ v (List.mem_append_right _ hv)⟩

end

end Expr

/-- The bytes of a register from `width` on are zero. -/
def Contents.Narrow (c : Contents) (address width : Nat) : Prop :=
  ∀ i, width ≤ i → i < registerSize → c (address + i) = 0

/-- The variable holds a value that fits its type, if it has a register. -/
def Variable.Fits (slot : Variable → Option Nat) (c : Contents) (v : Variable) : Prop :=
  ∀ r width, slot v = some r → v.type.width = some width → c.Narrow (register r) width

namespace Contents

variable {c : Contents} {a : Nat}

theorem number_eq_zero_iff : ∀ {width a : Nat},
    c.number a width = 0 ↔ ∀ i < width, c (a + i) = 0
  | 0, _ => by simp [number]
  | width + 1, a => by
      have hrest : c.number (a + 1) width = 0 ↔ ∀ i < width, c (a + 1 + i) = 0 := number_eq_zero_iff
      rw [number, Nat.add_eq_zero_iff, Nat.mul_eq_zero, or_iff_right (by decide), hrest,
        ← UInt8.toNat_zero, UInt8.toNat_inj]
      constructor
      · rintro ⟨hfirst, hbehind⟩ i hi
        cases i with
        | zero => exact hfirst
        | succ i =>
            rw [Nat.add_comm i 1, ← Nat.add_assoc]
            exact hbehind i (by omega)
      · refine fun h => ⟨h 0 (by omega), fun i hi => ?_⟩
        rw [Nat.add_assoc, Nat.add_comm 1 i]
        exact h (i + 1) (by omega)

/-- A number that fits its low bytes is a number with zeros behind them. -/
theorem narrow_iff (width : Nat) :
    c.Narrow a width ↔ c.number a registerSize < 256 ^ width := by
  rcases Nat.lt_or_ge registerSize width with hwide | hsmall
  · refine ⟨fun _ => ?_, fun _ i hlow hhigh => absurd hlow (by omega)⟩
    exact Nat.lt_of_lt_of_le (c.number_lt registerSize a)
      (Nat.pow_le_pow_right (by decide) (Nat.le_of_lt hwide))
  have hsplit := c.number_split hsmall a
  have hlow := c.number_lt width a
  have hzero : c.Narrow a width ↔ c.number (a + width) (registerSize - width) = 0 := by
    rw [number_eq_zero_iff]
    constructor
    · intro h i hi
      rw [Nat.add_assoc]
      exact h (width + i) (by omega) (by omega)
    · intro h i hi hi'
      have hbyte := h (i - width) (by omega)
      rwa [Nat.add_assoc, Nat.add_sub_cancel' hi] at hbyte
  rw [hzero, hsplit]
  constructor
  · intro h
    rwa [h, Nat.mul_zero, Nat.add_zero]
  · intro h
    by_contra hne
    have hle := Nat.mul_le_mul_left (256 ^ width) (Nat.one_le_iff_ne_zero.mpr hne)
    omega

/-- The low bytes of a number that fits them are all of it. -/
theorem Narrow.number {width : Nat} (h : c.Narrow a width) (hwidth : width ≤ registerSize) :
    c.number a width = c.number a registerSize := by
  rw [c.number_low hwidth, Nat.mod_eq_of_lt ((narrow_iff width).mp h)]

end Contents

namespace Expr

variable {w : Scene} {b : Builtins}

/-- Two halves of a register, side by side, fit the register. -/
theorem halves_lt (low high : Nat) :
    low % addressSpace + addressSpace * (high % addressSpace) < 256 ^ registerSize := by
  have hspace : 0 < addressSpace := by decide
  have hlow := Nat.mod_lt low hspace
  have hhigh := Nat.mod_lt high hspace
  have hpower : 256 ^ registerSize = addressSpace * addressSpace := by decide
  rw [hpower]
  calc low % addressSpace + addressSpace * (high % addressSpace)
      < addressSpace * (high % addressSpace + 1) := by rw [Nat.mul_add]; omega
    _ ≤ addressSpace * addressSpace := Nat.mul_le_mul_left _ hhigh

theorem byte_lt_word {n : Nat} (h : n < 256) : n < 256 ^ registerSize :=
  Nat.lt_of_lt_of_le h (by decide)

/-- A label of an expression stands inside the address space. -/
def Standing (w : Scene) (l : Label) : Prop := ∃ a, w.label l = some a ∧ a < addressSpace

/-- Values have 16 bytes. -/
theorem value_lt_word : ∀ {e : Expr} {v : Nat}, e.LabelsIn (Standing w) → e.value w = some v →
    v < 256 ^ registerSize
  | .int value i, v, _, hv => by
      cases hv
      exact value.isLt
  | .str text i, v, _, hv => by
      obtain ⟨address, -, rfl⟩ := Option.map_eq_some_iff.mp hv
      exact halves_lt address text.utf8ByteSize
  | .variable x i, v, _, hv => by
      obtain ⟨r, -, rfl⟩ := Option.map_eq_some_iff.mp hv
      exact Contents.number_lt _ _ _
  | .label use i, v, ⟨l, htarget, a, ha, hbound⟩, hv => by
      rw [value, htarget, Option.bind_some, ha] at hv
      cases hv
      exact Nat.lt_trans hbound (by decide)
  | .cast operand i, v, hlabels, hv => by
      obtain ⟨x, width, hx, -, rfl⟩ := value_cast.mp hv
      exact Nat.lt_of_le_of_lt (Nat.mod_le _ _) (value_lt_word (e := operand) hlabels hx)
  | .unary .plus operand i, v, hlabels, hv => by
      rw [value_plus] at hv
      exact value_lt_word (e := operand) hlabels hv
  | .unary .not operand i, v, _, hv => by
      obtain ⟨x, _, -, -, rfl⟩ := value_not.mp hv
      refine byte_lt_word ?_
      split <;> decide
  | .unary .deref operand i, v, _, hv => by
      obtain ⟨x, -, rfl⟩ := value_deref.mp hv
      exact byte_lt_word (UInt8.toNat_lt _)
  | .unary .negate operand i, v, _, hv | .unary .complement operand i, v, _, hv => by
      rw [value] at hv
      cases hx : value w operand <;> simp [hx] at hv
  | .binary op left right i, v, _, hv => by
      obtain ⟨x, y, -, -, -, -, rfl⟩ := value_binary.mp hv
      exact byte_lt_word (Nat.mod_lt _ (by decide))
  | .index base indices i, v, _, hv => nomatch hv

/-- A typed expression over variables that fit their types has a value that fits its own. -/
theorem value_lt : ∀ {e : Expr} {v : Nat}, e.Typed b → (∀ x ∈ e.vars, x.Fits w.slot w.memory) →
    e.LabelsIn (Standing w) → e.value w = some v →
    ∀ width, e.type.width = some width → v < 256 ^ width
  | .int value i, v, htyped, _, _, hv, width, hwidth => by
      rw [show (Expr.int value i).type = b.literal from htyped] at hwidth
      cases hwidth
      cases hv
      exact value.isLt
  | .str text i, v, htyped, _, hlabels, hv, width, hwidth => by
      rw [show (Expr.str text i).type = b.string from htyped] at hwidth
      cases hwidth
      exact value_lt_word (e := .str text i) hlabels hv
  | .variable x i, v, htyped, hnarrow, _, hv, width, hwidth => by
      rw [show (Expr.variable x i).type = x.type from htyped] at hwidth
      obtain ⟨r, hr, rfl⟩ := Option.map_eq_some_iff.mp hv
      exact (Contents.narrow_iff width).mp (hnarrow x List.mem_cons_self r width hr hwidth)
  | .label use i, v, htyped, _, hlabels, hv, width, hwidth => by
      rw [show (Expr.label use i).type = b.address from htyped] at hwidth
      cases hwidth
      obtain ⟨l, htarget, a, ha, hbound⟩ := hlabels
      rw [value, htarget, Option.bind_some, ha] at hv
      cases hv
      exact hbound
  | .cast operand i, v, _, _, _, hv, width, hwidth => by
      obtain ⟨x, width', -, hwidth', rfl⟩ := value_cast.mp hv
      obtain rfl := Option.some.inj (hwidth'.symm.trans hwidth)
      exact Nat.mod_lt _ (Nat.pow_pos (by decide))
  | .unary .plus operand i, v, htyped, hnarrow, hlabels, hv, width, hwidth => by
      rw [value_plus] at hv
      rw [show (Expr.unary .plus operand i).type = operand.type from htyped.2.2] at hwidth
      exact value_lt (e := operand) htyped.1 hnarrow hlabels hv width hwidth
  | .unary .not operand i, v, htyped, _, _, hv, width, hwidth => by
      obtain ⟨x, _, -, -, rfl⟩ := value_not.mp hv
      rw [show (Expr.unary .not operand i).type = operand.type from htyped.2.2] at hwidth
      have hpower := Nat.pow_le_pow_right (n := 256) (by decide) (Ty.width_bounds htyped.2.1 hwidth).1
      refine Nat.lt_of_lt_of_le ?_ hpower
      split <;> decide
  | .unary .deref operand i, v, htyped, _, _, hv, width, hwidth => by
      obtain ⟨x, -, rfl⟩ := value_deref.mp hv
      rw [show (Expr.unary .deref operand i).type = b.word .n8 from htyped.2.2] at hwidth
      cases hwidth
      exact (w.memory (x % addressSpace)).toNat_lt
  | .unary .negate operand i, v, _, _, _, hv, _, _
  | .unary .complement operand i, v, _, _, _, hv, _, _ => by
      rw [value] at hv
      cases hx : value w operand <;> simp [hx] at hv
  | .binary op left right i, v, _, _, _, hv, width, hwidth => by
      obtain ⟨x, y, -, -, -, hone, rfl⟩ := value_binary.mp hv
      obtain rfl := Option.some.inj (hone.symm.trans hwidth)
      exact Nat.mod_lt _ (by decide)
  | .index base indices i, v, _, _, _, hv, _, _ => nomatch hv

/-- A test of the bytes of the type is one of the whole value. -/
theorem value_mod {e : Expr} {v width : Nat} (htyped : e.Typed b)
    (hnarrow : ∀ x ∈ e.vars, x.Fits w.slot w.memory)
    (hlabels : e.LabelsIn (Standing w))
    (hv : e.value w = some v) (hwidth : e.type.width = some width) : v % 256 ^ width = v :=
  Nat.mod_eq_of_lt (value_lt htyped hnarrow hlabels hv width hwidth)

/-! ## Constants

A closed expression reads no memory, so the scene matters for its labels only.  Where sums have no
carry, or where each is wrapped into a cast, the value is the one the constant has. -/

/-- The expression is one of numbers, labels, casts, `+` and `!`. -/
def Closed : Expr → Prop
  | .int .. | .label .. => True
  | .cast operand _ => Closed operand
  | .unary op operand _ => (op = .plus ∨ op = .not) ∧ Closed operand
  | .binary op left right _ => op = .add ∧ Closed left ∧ Closed right
  | .str .. | .variable .. | .index .. => False

/-- Every sum is cut down to the type of its operands. -/
def wrapped : Expr → Expr
  | .binary op left right i => .cast (.binary op (wrapped left) (wrapped right) i) ⟨left.type, i.site⟩
  | .cast operand i => .cast (wrapped operand) i
  | .unary op operand i => .unary op (wrapped operand) i
  | .index base indices i => .index (wrapped base) indices i
  | .int value i => .int value i
  | .str text i => .str text i
  | .variable v i => .variable v i
  | .label use i => .label use i

/-- No sum in the expression exceeds a byte. -/
def NoCarry (env : Constant.Env) : Expr → Prop
  | .binary _ left right _ => NoCarry env left ∧ NoCarry env right ∧
      ∀ x y, Constant.evaluate env left = .ok x → Constant.evaluate env right = .ok y →
        x.toNat + y.toNat ≤ 255
  | .cast operand _ => NoCarry env operand
  | .unary _ operand _ => NoCarry env operand
  | .int .. | .str .. | .variable .. | .label .. | .index .. => True

/-- Closed expressions can be told apart. -/
def decidableClosed : (e : Expr) → Decidable e.Closed
  | .int .. | .label .. => .isTrue trivial
  | .cast operand _ => decidableClosed operand
  | .unary op operand _ =>
      @instDecidableAnd (op = .plus ∨ op = .not) operand.Closed inferInstance
        (decidableClosed operand)
  | .binary op left right _ =>
      @instDecidableAnd (op = .add) (left.Closed ∧ right.Closed) inferInstance
        (@instDecidableAnd left.Closed right.Closed (decidableClosed left) (decidableClosed right))
  | .str .. | .variable .. | .index .. => .isFalse id

instance (e : Expr) : Decidable e.Closed := e.decidableClosed

/-- A closed expression has no variables. -/
theorem vars_of_closed : ∀ {e : Expr}, e.Closed → e.vars = []
  | .int .., _ | .label .., _ => rfl
  | .cast operand _, h => vars_of_closed (e := operand) h
  | .unary _ operand _, h => vars_of_closed (e := operand) h.2
  | .binary _ left right _, h => by
      rw [vars, vars_of_closed h.2.1, vars_of_closed h.2.2]
      rfl

/-- A closed expression dereferences nothing. -/
theorem reads_of_closed : ∀ {e : Expr}, e.Closed → e.reads w = []
  | .int .., _ | .label .., _ => rfl
  | .cast operand _, h => reads_of_closed (e := operand) h
  | .unary .plus operand _, h | .unary .not operand _, h => reads_of_closed (e := operand) h.2
  | .unary .deref operand _, h | .unary .negate operand _, h | .unary .complement operand _, h => by
      rcases h.1 with h | h <;> cases h
  | .binary _ left right _, h => by
      rw [reads, reads_of_closed h.2.1, reads_of_closed h.2.2]
      rfl

/-- A label is worth in constants what it is in the scene. -/
def Agreeing (w : Scene) (env : Constant.Env) (l : Label) : Prop :=
  ∃ a, w.label l = some a ∧ a < addressSpace ∧
    ∀ (use : LabelUse) site, use.target = some l → env.label use site = .ok (BitVec.ofNat 128 a)

variable {env : Constant.Env}

theorem standing_of_agreeing {l : Label} (h : Agreeing w env l) : Standing w l := by
  obtain ⟨a, ha, hbound, -⟩ := h
  exact ⟨a, ha, hbound⟩

/-- Labels that are worth something as constants stand inside the address space. -/
theorem labelsIn_standing {e : Expr} (h : e.LabelsIn (Agreeing w env)) : e.LabelsIn (Standing w) :=
  h.mono fun _ => standing_of_agreeing

/-- A value of the machine is a word of the right length. -/
theorem toNat_word {x : Nat} (h : x < 256 ^ registerSize) : (BitVec.ofNat 128 x).toNat = x := by
  rw [BitVec.toNat_ofNat]
  exact Nat.mod_eq_of_lt h

theorem truncate_word {x width : Nat} {type : Ty} (site : Location) (hx : x < 256 ^ registerSize)
    (hwidth : type.width = some width) :
    Constant.truncate (BitVec.ofNat 128 x) type site = .ok (BitVec.ofNat 128 (x % 256 ^ width)) := by
  unfold Constant.truncate
  rw [hwidth]
  dsimp only
  split
  · rename_i hwide
    have hpower := Nat.pow_le_pow_right (n := 256) (by decide) hwide
    rw [Nat.mod_eq_of_lt (Nat.lt_of_lt_of_le hx hpower)]
  · rw [toNat_word hx]

/-- A sum cut down to a byte. -/
theorem truncate_sum {type : Ty} (x y : Nat) (site : Location) (hwidth : type.width = some 1) :
    Constant.truncate (BitVec.ofNat 128 x + BitVec.ofNat 128 y) type site =
      .ok (BitVec.ofNat 128 ((x + y) % 256)) := by
  have hlow : (BitVec.ofNat 128 (x + y)).toNat % 256 = (x + y) % 256 := by
    rw [BitVec.toNat_ofNat]
    omega
  unfold Constant.truncate
  rw [hwidth, ← BitVec.ofNat_add, ← hlow]
  rfl

/-- Both sides give the same two values for logical not. -/
theorem unary_not_word {x : Nat} (site : Location) (hx : x < 256 ^ registerSize) :
    Constant.unary .not (BitVec.ofNat 128 x) site =
      .ok (BitVec.ofNat 128 (if x = 0 then Constant.truth else 0)) := by
  have hzero : BitVec.ofNat 128 x = 0 ↔ x = 0 := by
    rw [← BitVec.toNat_inj, toNat_word hx]
    rfl
  unfold Constant.unary
  simp only [hzero]
  split <;> rfl

/-- The value of a closed expression is that of the constant in which sums are cut down to the type
of their operands. -/
theorem evaluate_wrapped : ∀ {e : Expr} {v : Nat}, e.Typed b → e.Closed →
    e.LabelsIn (Agreeing w env) → e.value w = some v →
    Constant.evaluate env e.wrapped = .ok (BitVec.ofNat 128 v)
  | .int value i, v, _, _, _, hv => by
      cases hv
      rw [wrapped, Constant.evaluate, BitVec.ofNat_toNat, BitVec.setWidth_eq]
  | .label use i, v, _, _, hlabels, hv => by
      obtain ⟨l, htarget, a, ha, -, henv⟩ := hlabels
      rw [value, htarget, Option.bind_some, ha] at hv
      cases hv
      exact henv use i.site htarget
  | .cast operand i, v, htyped, hclosed, hlabels, hv => by
      obtain ⟨x, width, hx, hwidth, rfl⟩ := value_cast.mp hv
      have hoperand := evaluate_wrapped (e := operand) htyped hclosed hlabels hx
      have hbound := value_lt_word (labelsIn_standing (e := operand) hlabels) hx
      rw [wrapped, Constant.evaluate, hoperand]
      exact truncate_word i.site hbound hwidth
  | .unary .plus operand i, v, htyped, hclosed, hlabels, hv => by
      rw [value_plus] at hv
      rw [wrapped, Constant.evaluate, evaluate_wrapped htyped.1 hclosed.2 hlabels hv]
      rfl
  | .unary .not operand i, v, htyped, hclosed, hlabels, hv => by
      obtain ⟨x, width, hx, hwidth, rfl⟩ := value_not.mp hv
      have hstanding := labelsIn_standing (e := operand) hlabels
      have hnarrow : ∀ y ∈ operand.vars, y.Fits w.slot w.memory := by simp [vars_of_closed hclosed.2]
      rw [wrapped, Constant.evaluate, evaluate_wrapped htyped.1 hclosed.2 hlabels hx,
        value_mod htyped.1 hnarrow hstanding hx hwidth]
      exact unary_not_word i.site (value_lt_word hstanding hx)
  | .binary op left right i, v, htyped, hclosed, hlabels, hv => by
      obtain ⟨x, y, hx, hy, rfl, hone, rfl⟩ := value_binary.mp hv
      have hwidth : left.type.width = some 1 := by rw [← htyped.2.2.2, hone]
      have hleft := evaluate_wrapped htyped.1 hclosed.2.1 hlabels.1 hx
      have hright := evaluate_wrapped htyped.2.1 hclosed.2.2 hlabels.2 hy
      rw [wrapped, Constant.evaluate, Constant.evaluate, hleft, hright]
      exact truncate_sum x y i.site hwidth
  | .unary .deref operand i, _, _, hclosed, _, _ | .unary .negate operand i, _, _, hclosed, _, _
  | .unary .complement operand i, _, _, hclosed, _, _ => by
      rcases hclosed.1 with h | h <;> cases h

/-- Where no sum exceeds a byte, nothing is cut down. -/
theorem evaluate_of_noCarry : ∀ {e : Expr} {v : Nat}, e.Typed b → e.Closed → e.NoCarry env →
    e.LabelsIn (Agreeing w env) → e.value w = some v →
    Constant.evaluate env e.wrapped = Constant.evaluate env e
  | .int .., _, _, _, _, _, _ | .label .., _, _, _, _, _, _ => rfl
  | .cast operand i, v, htyped, hclosed, hcarry, hlabels, hv => by
      obtain ⟨x, width, hx, -, -⟩ := value_cast.mp hv
      rw [wrapped, Constant.evaluate, Constant.evaluate,
        evaluate_of_noCarry (e := operand) htyped hclosed hcarry hlabels hx]
  | .unary .plus operand i, v, htyped, hclosed, hcarry, hlabels, hv => by
      rw [value_plus] at hv
      rw [wrapped, Constant.evaluate, Constant.evaluate,
        evaluate_of_noCarry htyped.1 hclosed.2 hcarry hlabels hv]
  | .unary .not operand i, v, htyped, hclosed, hcarry, hlabels, hv => by
      obtain ⟨x, width, hx, -, -⟩ := value_not.mp hv
      rw [wrapped, Constant.evaluate, Constant.evaluate,
        evaluate_of_noCarry htyped.1 hclosed.2 hcarry hlabels hx]
  | .binary op left right i, v, htyped, hclosed, hcarry, hlabels, hv => by
      obtain ⟨x, y, hx, hy, rfl, -, rfl⟩ := value_binary.mp hv
      have hwrapped := evaluate_wrapped (e := .binary .add left right i) htyped hclosed hlabels hv
      have hleft := evaluate_wrapped htyped.1 hclosed.2.1 hlabels.1 hx
      have hright := evaluate_wrapped htyped.2.1 hclosed.2.2 hlabels.2 hy
      rw [evaluate_of_noCarry htyped.1 hclosed.2.1 hcarry.1 hlabels.1 hx] at hleft
      rw [evaluate_of_noCarry htyped.2.1 hclosed.2.2 hcarry.2.1 hlabels.2 hy] at hright
      have hbound := hcarry.2.2 _ _ hleft hright
      rw [toNat_word (value_lt_word (labelsIn_standing hlabels.1) hx),
        toNat_word (value_lt_word (labelsIn_standing hlabels.2) hy)] at hbound
      have hsum : (x + y) % 256 = x + y := Nat.mod_eq_of_lt (by omega)
      rw [hwrapped, hsum, Constant.evaluate, hleft, hright, BitVec.ofNat_add]
      rfl
  | .unary .deref operand i, _, _, hclosed, _, _, _
  | .unary .negate operand i, _, _, hclosed, _, _, _
  | .unary .complement operand i, _, _, hclosed, _, _, _ => by
      rcases hclosed.1 with h | h <;> cases h

end Expr

end ByteJump
