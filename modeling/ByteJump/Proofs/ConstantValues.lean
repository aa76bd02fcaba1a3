import Mathlib.Tactic.Ring
import ByteJump.Constant
import ByteJump.Proofs.Proper
import ByteJump.Proofs.Results

set_option autoImplicit false

/-!
# Values of constants

A constant is worth what arithmetic modulo `2^128` says.  An expression has no constant value exactly
if some part of it has none by itself: a variable, an element of an array, a dereference, a label or a
string that is not known, a cast to a type without a size, or a division by zero.  The fault is that of
the first such part, operands before their operator and from left to right, but for an element of an
array, whose parts are not looked at.

There are three definitions that do not mention each other: the value of a constant as a program
computes it, a reference value by arithmetic on natural numbers, and the condition that a part has
a value by itself.  The theorems connect them.  A success is the reference value, by induction on
the expression and with one lemma for each group of operators; a fault is that of the first part
without a value, where the parts are listed in the order in which they are computed.
-/

-- powers of natural numbers are the built-in ones
attribute [local instance (high)] instPowNat

namespace ByteJump

/-! ## Parts of an expression

`nodes` lists all parts of an expression, and `visited` those that are looked at while it is
computed.  They differ in the parts of an element of an array. -/

namespace Expr

mutual

/-- An expression and all its parts, operands first and from left to right. -/
def nodes : Expr → List Expr
  | .int value i => [.int value i]
  | .str text i => [.str text i]
  | .variable v i => [.variable v i]
  | .label use i => [.label use i]
  | .cast operand i => nodes operand ++ [.cast operand i]
  | .unary op operand i => nodes operand ++ [.unary op operand i]
  | .binary op left right i => nodes left ++ nodes right ++ [.binary op left right i]
  | .index base indices i => nodes base ++ listNodes indices ++ [.index base indices i]

/-- The parts of several expressions. -/
def listNodes : List Expr → List Expr
  | [] => []
  | e :: es => nodes e ++ listNodes es

end

/-- The parts that count for the value, in the same order: not those of an element of an array. -/
def visited : Expr → List Expr
  | .int value i => [.int value i]
  | .str text i => [.str text i]
  | .variable v i => [.variable v i]
  | .label use i => [.label use i]
  | .cast operand i => visited operand ++ [.cast operand i]
  | .unary op operand i => visited operand ++ [.unary op operand i]
  | .binary op left right i => visited left ++ visited right ++ [.binary op left right i]
  | .index base indices i => [.index base indices i]

/-- The parts that count have their labels among those of the whole. -/
theorem LabelsIn.of_visited {among : Label → Prop} : ∀ {e : Expr}, e.LabelsIn among →
    ∀ n ∈ e.visited, n.LabelsIn among
  | .int .., h | .str .., h | .variable .., h | .label .., h | .index .., h =>
      List.forall_mem_singleton.mpr h
  | .cast operand _, h | .unary _ operand _, h => by
      have hoperand : operand.LabelsIn among := h
      exact List.forall_mem_append.mpr
        ⟨LabelsIn.of_visited hoperand, List.forall_mem_singleton.mpr h⟩
  | .binary .., h => by
      have hoperands := List.forall_mem_append.mpr
        ⟨LabelsIn.of_visited h.1, LabelsIn.of_visited h.2⟩
      exact List.forall_mem_append.mpr ⟨hoperands, List.forall_mem_singleton.mpr h⟩

end Expr

namespace Constant

/-! ## Reference values -/

/-- An integer modulo `2^128`. -/
def residue (x : Int) : Nat := (x % 2 ^ 128).toNat

/-- The low bytes of a number that fit a type. -/
def lowBytes (type : Ty) (a : Nat) : Nat :=
  match type.width with
  | some width => if width < 16 then a % 256 ^ width else a
  | none => a

/-- An operator with one operand, modulo `2^128`. -/
def unaryReference : UnaryOp → Nat → Nat
  | .negate, a => residue (-a)
  | .plus, a => a
  | .complement, a => 2 ^ 128 - 1 - a
  | .not, a => if a = 0 then 8 else 0
  | .deref, _ => 0

/-- An operator with two operands, modulo `2^128`. -/
def binaryReference : BinaryOp → Nat → Nat → Nat
  | .add, a, b => residue (a + b)
  | .sub, a, b => residue (a - b)
  | .mul, a, b => residue (a * b)
  | .div, a, b => a / b
  | .rem, a, b => a % b
  | .and, a, b => a &&& b
  | .or, a, b => a ||| b
  | .xor, a, b => a ^^^ b
  | .shiftLeft, a, b => residue (a * 2 ^ b)
  | .shiftRight, a, b => a / 2 ^ b

/-- What an environment answers; zero for a fault. -/
def answered : Except Fault Word128 → Nat
  | .ok v => v.toNat
  | .error _ => 0

/-- What an expression is worth modulo `2^128`; zero stands for a part without a value. -/
def reference (env : Env) : Expr → Nat
  | .int value _ => value.toNat
  | .str text i => answered (env.string text i.site)
  | .label use i => answered (env.label use i.site)
  | .variable .. | .index .. => 0
  | .cast operand i => lowBytes i.type (reference env operand)
  | .unary op operand _ => unaryReference op (reference env operand)
  | .binary op left right _ => binaryReference op (reference env left) (reference env right)

/-- A part of an expression has a value if its own operands have. -/
def Defined (env : Env) : Expr → Prop
  | .int .. => True
  | .str text i => ∃ v, env.string text i.site = .ok v
  | .label use i => ∃ v, env.label use i.site = .ok v
  | .variable .. | .index .. => False
  | .cast _ i => ∃ width, i.type.width = some width
  | .unary op _ _ => op ≠ .deref
  | .binary op _ divisor _ => op = .div ∨ op = .rem → reference env divisor ≠ 0

/-- The fault of a lookup. -/
def missing? : Except Fault Word128 → Option Fault
  | .ok _ => none
  | .error fault => some fault

/-- The fault of a part of an expression whose own operands have values. -/
def fault? (env : Env) : Expr → Option Fault
  | .int .. => none
  | .str text i => missing? (env.string text i.site)
  | .label use i => missing? (env.label use i.site)
  | .variable _ i | .index _ _ i => some (.notConstant i.site)
  | .cast _ i => if i.type.width = none then some (noSize i.type i.site) else none
  | .unary op _ i => if op = .deref then some (.notConstant i.site) else none
  | .binary op _ divisor i =>
      if (op = .div ∨ op = .rem) ∧ reference env divisor = 0 then some (.divisionByZero i.site)
      else none

/-- A lookup that fails does so at the site it is made for. -/
structure Env.Located (env : Env) : Prop where
  label : ∀ use site fault, env.label use site = .error fault → fault.site? = some site
  string : ∀ text site fault, env.string text site = .error fault → fault.site? = some site

/-! ## Values of operators

Words have 128 bits, and an operator on them is one on numbers, modulo `2^128`. -/

/-- A negative number is taken modulo the same power. -/
theorem residue_eq (x : Int) : residue x = (BitVec.ofInt 128 x).toNat := by
  rw [BitVec.toNat_ofInt]
  rfl

/-- A number that a word spells. -/
theorem ofInt_toNat (a : Word128) : BitVec.ofInt 128 a.toNat = a := by
  rw [BitVec.ofInt_natCast, BitVec.ofNat_toNat, BitVec.setWidth_eq]

/-- A shift by 128 or more leaves nothing. -/
theorem residue_shift {b : Nat} (a : Nat) (h : 128 ≤ b) : residue (a * 2 ^ b) = 0 := by
  obtain ⟨c, rfl⟩ := Nat.exists_eq_add_of_le h
  have hmultiple : (a : Int) * 2 ^ (128 + c) = a * 2 ^ c * 2 ^ 128 := by ring
  rw [residue, hmultiple, Int.mul_emod_left]
  rfl

/-- One case for each operator with one operand. -/
theorem toNat_unary {op : UnaryOp} {a v : Word128} {site : Location}
    (h : unary op a site = .ok v) : v.toNat = unaryReference op a.toNat := by
  cases op with
  | negate =>
      cases h
      rw [unaryReference, residue_eq, BitVec.ofInt_neg, ofInt_toNat]
  | plus =>
      cases h
      rfl
  | complement =>
      cases h
      exact BitVec.toNat_not
  | not =>
      cases h
      rw [unaryReference, apply_ite BitVec.toNat]
      exact if_congr BitVec.toNat_eq rfl rfl
  | deref => cases h

/-- One case for each operator with two operands. -/
theorem toNat_binary {op : BinaryOp} {a b v : Word128} {site : Location}
    (h : binary op a b site = .ok v) : v.toNat = binaryReference op a.toNat b.toNat := by
  have hdivides : ∀ {x : Word128}, (if b = 0 then .error (.divisionByZero site) else .ok x) =
      Except.ok (ε := Fault) v → x = v := by
    intro x hx
    split at hx
    · cases hx
    · exact Except.ok.inj hx
  cases op with
  | add =>
      cases h
      rw [binaryReference, residue_eq, BitVec.ofInt_add, ofInt_toNat, ofInt_toNat]
  | sub =>
      cases h
      rw [binaryReference, residue_eq, Int.sub_eq_add_neg, BitVec.ofInt_add, BitVec.ofInt_neg,
        ofInt_toNat, ofInt_toNat, BitVec.sub_eq_add_neg]
  | mul =>
      cases h
      rw [binaryReference, residue_eq, BitVec.ofInt_mul, ofInt_toNat, ofInt_toNat]
  | div =>
      obtain rfl := hdivides h
      exact BitVec.toNat_udiv
  | rem =>
      obtain rfl := hdivides h
      exact BitVec.toNat_umod
  | and =>
      cases h
      exact BitVec.toNat_and ..
  | or =>
      cases h
      exact BitVec.toNat_or ..
  | xor =>
      cases h
      exact BitVec.toNat_xor ..
  | shiftLeft =>
      cases h
      rw [binaryReference]
      split
      · rw [BitVec.toNat_shiftLeft, Nat.shiftLeft_eq, residue_eq, BitVec.toNat_ofInt]
        norm_cast
      · rw [residue_shift _ (by omega)]
        rfl
  | shiftRight =>
      cases h
      rw [binaryReference]
      split
      · rw [BitVec.toNat_ushiftRight, Nat.shiftRight_eq_div_pow]
      · have hlarge : 2 ^ 128 ≤ 2 ^ b.toNat := Nat.pow_le_pow_right (by decide) (by omega)
        rw [Nat.div_eq_of_lt (Nat.lt_of_lt_of_le a.isLt hlarge)]
        rfl

/-- A cast keeps the bytes of its type. -/
theorem toNat_truncate {a v : Word128} {type : Ty} {site : Location}
    (h : truncate a type site = .ok v) : v.toNat = lowBytes type a.toNat := by
  unfold truncate at h
  unfold lowBytes
  cases hwidth : type.width with
  | none =>
      rw [hwidth] at h
      cases h
  | some width =>
      rw [hwidth] at h
      dsimp only at h ⊢
      split at h
      · rename_i hwide
        cases h
        rw [if_neg (by omega)]
      · rename_i hnarrow
        cases h
        rw [if_pos (by omega), BitVec.toNat_ofNat, Nat.mod_eq_of_lt]
        exact Nat.lt_of_le_of_lt (Nat.mod_le _ _) a.isLt

/-! ## Faults of operators -/

theorem missing?_eq_some {x : Except Fault Word128} {fault : Fault} :
    missing? x = some fault ↔ x = .error fault := by
  cases x <;> simp [missing?]

/-- Nothing is missing if there is a value. -/
theorem missing?_eq_none {x : Except Fault Word128} : missing? x = none ↔ ∃ v, x = .ok v := by
  cases x <;> simp [missing?]

/-- A cast fails if its type has no size. -/
theorem missing?_truncate (a : Word128) (type : Ty) (site : Location) :
    missing? (truncate a type site) =
      if type.width = none then some (noSize type site) else none := by
  unfold truncate
  cases type.width with
  | none => rfl
  | some width =>
      dsimp only
      split <;> rfl

theorem missing?_unary (op : UnaryOp) (a : Word128) (site : Location) :
    missing? (unary op a site) = if op = .deref then some (.notConstant site) else none := by
  cases op <;> rfl

/-- Only a division fails, and only by zero. -/
theorem missing?_binary (op : BinaryOp) (a b : Word128) (site : Location) :
    missing? (binary op a b site) =
      if (op = .div ∨ op = .rem) ∧ b.toNat = 0 then some (.divisionByZero site) else none := by
  have hzero : b.toNat = 0 ↔ b = 0 := ⟨fun h => BitVec.eq_of_toNat_eq h, congrArg BitVec.toNat⟩
  cases op with
  | div | rem =>
      simp only [binary, hzero]
      split <;> simp_all [missing?]
  | add | sub | mul | and | or | xor | shiftLeft | shiftRight => rfl

/-! ## Expressions -/

section Expressions

variable {env : Env} {e n operand left right : Expr} {v : Word128} {i : Info} {fault : Fault}

/-- A cast has a value if its operand has one and its type a size. -/
theorem evaluate_cast : evaluate env (.cast operand i) = .ok v ↔
    ∃ a, evaluate env operand = .ok a ∧ truncate a i.type i.site = .ok v := by
  rw [evaluate]
  exact Except.bind_eq_ok

/-- An operator has a value if its operand has one. -/
theorem evaluate_unary {op : UnaryOp} : evaluate env (.unary op operand i) = .ok v ↔
    ∃ a, evaluate env operand = .ok a ∧ unary op a i.site = .ok v := by
  rw [evaluate]
  exact Except.bind_eq_ok

/-- An operator has a value if both of its operands have one. -/
theorem evaluate_binary {op : BinaryOp} : evaluate env (.binary op left right i) = .ok v ↔
    ∃ a b, evaluate env left = .ok a ∧ evaluate env right = .ok b ∧ binary op a b i.site = .ok v := by
  rw [evaluate, Except.bind_eq_ok]
  simp only [Except.bind_eq_ok, exists_and_left]

/-- A value is the reference value. -/
theorem toNat_evaluate : ∀ {e : Expr} {v : Word128}, evaluate env e = .ok v →
    v.toNat = reference env e
  | .int .., _, h => by
      cases h
      rfl
  | .str text i, _, h | .label use i, _, h => by
      rw [evaluate] at h
      rw [reference, h]
      rfl
  | .cast operand i, v, h => by
      obtain ⟨a, hx, hv⟩ := evaluate_cast.mp h
      rw [reference, ← toNat_evaluate hx]
      exact toNat_truncate hv
  | .unary op operand i, v, h => by
      obtain ⟨a, hx, hv⟩ := evaluate_unary.mp h
      rw [reference, ← toNat_evaluate hx]
      exact toNat_unary hv
  | .binary op left right i, v, h => by
      obtain ⟨a, b, hx, hy, hv⟩ := evaluate_binary.mp h
      rw [reference, ← toNat_evaluate hx, ← toNat_evaluate hy]
      exact toNat_binary hv

/-- The fault is that of the first part that has one. -/
theorem missing?_evaluate : ∀ e : Expr,
    missing? (evaluate env e) = e.visited.findSome? (fault? env)
  | .int .. => rfl
  | .str text i => by
      rw [evaluate, Expr.visited, List.findSome?_singleton]
      rfl
  | .label use i => by
      rw [evaluate, Expr.visited, List.findSome?_singleton]
      rfl
  | .variable .. | .index .. => rfl
  | .cast operand i => by
      rw [evaluate, Expr.visited, List.findSome?_append, ← missing?_evaluate operand,
        List.findSome?_singleton]
      cases evaluate env operand with
      | error fault => rfl
      | ok a => exact missing?_truncate a i.type i.site
  | .unary op operand i => by
      rw [evaluate, Expr.visited, List.findSome?_append, ← missing?_evaluate operand,
        List.findSome?_singleton]
      cases evaluate env operand with
      | error fault => rfl
      | ok a => exact missing?_unary op a i.site
  | .binary op left right i => by
      rw [evaluate, Expr.visited, List.findSome?_append, List.findSome?_append,
        ← missing?_evaluate left, ← missing?_evaluate right, List.findSome?_singleton]
      cases evaluate env left with
      | error fault => rfl
      | ok a =>
          cases hy : evaluate env right with
          | error fault => rfl
          | ok b =>
              rw [fault?, ← toNat_evaluate hy]
              exact missing?_binary op a b i.site

/-- A part has a value if it has no fault. -/
theorem fault?_eq_none : fault? env n = none ↔ Defined env n := by
  cases n with
  | int value i => simp [fault?, Defined]
  | str text i => exact missing?_eq_none
  | label use i => exact missing?_eq_none
  | «variable» v i => simp [fault?, Defined]
  | index base indices i => simp [fault?, Defined]
  | cast operand i => simp [fault?, Defined, Option.ne_none_iff_exists']
  | unary op operand i => simp [fault?, Defined]
  | binary op left right i => simp [fault?, Defined]

/-- The fault of a part is that of a lookup, or says what is wrong with the part where it was written. -/
theorem fault?_cases (h : fault? env n = some fault) :
    (∃ text i, n = .str text i ∧ env.string text i.site = .error fault) ∨
      (∃ use i, n = .label use i ∧ env.label use i.site = .error fault) ∨
      fault = .notConstant n.site ∨ (∃ type, fault = noSize type n.site) ∨
      fault = .divisionByZero n.site := by
  cases n with
  | int value i => cases h
  | str text i => exact .inl ⟨text, i, rfl, missing?_eq_some.mp h⟩
  | label use i => exact .inr (.inl ⟨use, i, rfl, missing?_eq_some.mp h⟩)
  | «variable» v i | index base indices i =>
      cases h
      exact .inr (.inr (.inl rfl))
  | cast operand i =>
      rw [fault?, Option.ite_none_right_eq_some] at h
      obtain ⟨-, h⟩ := h
      cases h
      exact .inr (.inr (.inr (.inl ⟨i.type, rfl⟩)))
  | unary op operand i =>
      rw [fault?, Option.ite_none_right_eq_some] at h
      obtain ⟨-, h⟩ := h
      cases h
      exact .inr (.inr (.inl rfl))
  | binary op left right i =>
      rw [fault?, Option.ite_none_right_eq_some] at h
      obtain ⟨-, h⟩ := h
      cases h
      exact .inr (.inr (.inr (.inr rfl)))

/-- A part with a fault has it where it was written. -/
theorem site?_of_fault? (henv : env.Located) (h : fault? env n = some fault) :
    fault.site? = some n.site := by
  rcases fault?_cases h with ⟨text, i, rfl, hx⟩ | ⟨use, i, rfl, hx⟩ | rfl | ⟨type, rfl⟩ | rfl
  · exact henv.string text i.site fault hx
  · exact henv.label use i.site fault hx
  · rfl
  · rfl
  · rfl

/-- Without an element of an array all parts count. -/
theorem nodes_eq_visited : ∀ {e : Expr}, (∀ n ∈ e.visited, Defined env n) → e.nodes = e.visited
  | .int .., _ | .str .., _ | .variable .., _ | .label .., _ => rfl
  | .index base indices i, h => (h _ (List.mem_singleton.mpr rfl)).elim
  | .cast operand i, h => by
      rw [Expr.visited, List.forall_mem_append] at h
      rw [Expr.nodes, Expr.visited, nodes_eq_visited h.1]
  | .unary op operand i, h => by
      rw [Expr.visited, List.forall_mem_append] at h
      rw [Expr.nodes, Expr.visited, nodes_eq_visited h.1]
  | .binary op left right i, h => by
      rw [Expr.visited, List.forall_mem_append, List.forall_mem_append] at h
      rw [Expr.nodes, Expr.visited, nodes_eq_visited h.1.1, nodes_eq_visited h.1.2]

/-- The parts that count are parts, in the same order. -/
theorem visited_sublist : ∀ e : Expr, e.visited.Sublist e.nodes
  | .int .. | .str .. | .variable .. | .label .. => .refl _
  | .index .. => List.sublist_append_right _ _
  | .cast operand _ => (visited_sublist operand).append (.refl _)
  | .unary _ operand _ => (visited_sublist operand).append (.refl _)
  | .binary _ left right _ => ((visited_sublist left).append (visited_sublist right)).append (.refl _)

/-- An expression has a value if all its parts have. -/
theorem exists_evaluate : (∃ v, evaluate env e = .ok v) ↔ ∀ n ∈ e.nodes, Defined env n := by
  rw [← missing?_eq_none, missing?_evaluate, List.findSome?_eq_none_iff]
  simp only [fault?_eq_none]
  constructor
  · intro h
    rwa [nodes_eq_visited h]
  · exact fun h n hn => h n ((visited_sublist e).subset hn)

/-- A fault is that of a part behind parts that have values. -/
theorem evaluate_eq_error : evaluate env e = .error fault ↔ ∃ before n behind,
    e.visited = before ++ n :: behind ∧ (∀ m ∈ before, Defined env m) ∧
      fault? env n = some fault := by
  rw [← missing?_eq_some, missing?_evaluate, List.findSome?_eq_some_iff]
  simp only [fault?_eq_none]
  constructor
  · rintro ⟨before, n, behind, hvisited, hfault, hbefore⟩
    exact ⟨before, n, behind, hvisited, hbefore, hfault⟩
  · rintro ⟨before, n, behind, hvisited, hbefore, hfault⟩
    exact ⟨before, n, behind, hvisited, hfault, hbefore⟩

/-- The fault of an expression is that of one of its parts. -/
theorem exists_fault (h : evaluate env e = .error fault) :
    ∃ n ∈ e.visited, fault? env n = some fault := by
  obtain ⟨before, n, behind, hvisited, -, hfault⟩ := evaluate_eq_error.mp h
  exact ⟨n, hvisited ▸ List.mem_append_right _ List.mem_cons_self, hfault⟩

end Expressions

end Constant

end ByteJump
