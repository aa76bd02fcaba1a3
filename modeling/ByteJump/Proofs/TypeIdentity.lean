import ByteJump.Proofs.Resolve.Visits

set_option autoImplicit false

/-!
# The identity of types

In memory a type is an object, and an array points to the object of its elements.  Two types are the
same if they are one object, or arrays with the same count of elements of the same type.  So a type
is told by the counts of the arrays it consists of and by the object inside them, however its arrays
are shared; and where a type is asked for, one of two that are the same is as good as the other.
-/

namespace ByteJump

namespace Ty

/-! ## The parts of a type -/

/-- The counts of the arrays a type consists of, the outermost first. -/
def counts : Ty → List Nat
  | .object _ => []
  | .array inner count => count :: counts inner

/-- The object inside all arrays. -/
def core : Ty → Object
  | .object o => o
  | .array inner _ => core inner

theorem eq_of_parts : ∀ {a b : Ty}, a.counts = b.counts → a.core = b.core → a = b
  | .object _, .object _, _, hcore => congrArg Ty.object hcore
  | .object _, .array .., hcounts, _ => by cases hcounts
  | .array .., .object _, hcounts, _ => by cases hcounts
  | .array .., .array .., hcounts, hcore => by
      obtain ⟨hcount, hinner⟩ := List.cons.inj hcounts
      rw [hcount, eq_of_parts hinner hcore]

/-- As arrays have no identity here, the same type is the equal one. -/
theorem same_iff_eq : ∀ {a b : Ty}, a.same b = true ↔ a = b
  | .object a, .object b => by simp [same]
  | .object _, .array .. => by simp [same]
  | .array .., .object _ => by simp [same]
  | .array a m, .array b n => by simp [same, same_iff_eq (a := a) (b := b), and_comm]

/-- The same types have the same counts around the same object. -/
theorem same_iff_parts {a b : Ty} : a.same b = true ↔ a.counts = b.counts ∧ a.core = b.core := by
  rw [same_iff_eq]
  exact ⟨fun h => by rw [h]; exact ⟨rfl, rfl⟩, fun h => eq_of_parts h.1 h.2⟩

/-- Nothing that is asked of types tells one of the two from the other. -/
structure Interchangeable (a b : Ty) : Prop where
  width : a.width = b.width
  text : a.text = b.text
  isInteger : a.isInteger = b.isInteger
  isLiteral : a.isLiteral = b.isLiteral

theorem Interchangeable.of_same {a b : Ty} (h : a.same b = true) : Interchangeable a b := by
  obtain rfl := same_iff_eq.mp h
  exact ⟨rfl, rfl, rfl, rfl⟩

/-! ## Types in memory -/

/-- What stands at an address: a type that is no array, or an array whose elements have the type at
another address. -/
inductive Node where
  | object (object : Object)
  | array (inner count : Nat)

/-- Types in memory.  A type that is no array is one object, so it stands at one address only;
equal arrays may stand at several. -/
structure Heap where
  node? : Nat → Option Node
  once : ∀ {i j : Nat} {o : Object}, node? i = some (.object o) → node? j = some (.object o) → i = j

namespace Heap

variable {heap : Heap} {i j k : Nat} {a b : Ty}

/-- The type that stands at an address. -/
inductive Holds (heap : Heap) : Nat → Ty → Prop
  | object {i : Nat} {o : Object} : heap.node? i = some (.object o) → Holds heap i (.object o)
  | array {i inner count : Nat} {type : Ty} : heap.node? i = some (.array inner count) →
      Holds heap inner type → Holds heap i (.array type count)

/-- The types at two addresses are the same: the addresses are equal, or arrays with one count stand
there, the types of whose elements are the same. -/
inductive Same (heap : Heap) : Nat → Nat → Prop
  | one (i : Nat) : Same heap i i
  | arrays {i j inner inner' count : Nat} : heap.node? i = some (.array inner count) →
      heap.node? j = some (.array inner' count) → Same heap inner inner' → Same heap i j

theorem Same.symm (h : heap.Same i j) : heap.Same j i := by
  induction h with
  | one i => exact .one i
  | arrays hi hj _ ih => exact .arrays hj hi ih

/-- Whether two types are the same by address or by their parts may differ from pair to pair. -/
theorem Same.trans (h : heap.Same i j) (h' : heap.Same j k) : heap.Same i k := by
  induction h generalizing k with
  | one i => exact h'
  | arrays hi hj hinner ih =>
      cases h' with
      | one => exact .arrays hi hj hinner
      | arrays hj' hk hinner' =>
          cases hj.symm.trans hj'
          exact .arrays hi hk (ih hinner')

/-- One type stands at an address. -/
theorem Holds.unique (h : heap.Holds i a) (h' : heap.Holds i b) : a = b := by
  induction h generalizing b with
  | object hi =>
      cases h' with
      | object hi' => cases hi.symm.trans hi'; rfl
      | array hi' _ => cases hi.symm.trans hi'
  | array hi _ ih =>
      cases h' with
      | object hi' => cases hi.symm.trans hi'
      | array hi' hinner' => cases hi.symm.trans hi'; rw [ih hinner']

theorem Same.holds (h : heap.Same i j) (hi : heap.Holds i a) (hj : heap.Holds j b) : a = b := by
  induction h generalizing a b with
  | one i => exact hi.unique hj
  | arrays hnode hnode' _ ih =>
      cases hi with
      | object hnode'' => cases hnode.symm.trans hnode''
      | array hnode'' hinner =>
          cases hnode.symm.trans hnode''
          cases hj with
          | object hnode'' => cases hnode'.symm.trans hnode''
          | array hnode'' hinner' =>
              cases hnode'.symm.trans hnode''
              rw [ih hinner hinner']

theorem Holds.same (hi : heap.Holds i a) (hj : heap.Holds j a) : heap.Same i j := by
  induction hi generalizing j with
  | object hnode =>
      cases hj with
      | object hnode' =>
          rw [heap.once hnode hnode']
          exact .one j
  | array hnode _ ih =>
      cases hj with
      | array hnode' hinner' => exact .arrays hnode hnode' (ih hinner')

/-- Types in memory are compared by what stands at their addresses. -/
theorem same_iff (hi : heap.Holds i a) (hj : heap.Holds j b) :
    heap.Same i j ↔ a.same b = true := by
  rw [same_iff_eq]
  refine ⟨fun h => h.holds hi hj, ?_⟩
  rintro rfl
  exact hi.same hj

end Heap

end Ty

/-! ## Operands -/

namespace Resolve

open Ty (Interchangeable)

variable {c : Context} {s t : State} {I J : Imports} {op : BinaryOp} {left right : Syntax.Expr}
  {span : Span} {l r x : Expr}

/-- Two operands are let through if they have the same type, and then the left one gives the type. -/
theorem expr_operands (hleft : expr c left s I = .ok (l, s) I)
    (hright : expr c right s I = .ok (r, s) I) :
    expr c (.binary op left right span) s I =
      if l.type.same r.type then .ok (.binary op l r ⟨l.type, c.locate span⟩, s) I
      else .error (.typeMismatch l.type.text r.type.text (c.locate span)) I := by
  rw [expr]
  show EStateM.bind (expr c left s) _ I = _
  unfold EStateM.bind
  rw [hleft]
  show EStateM.bind (expr c right s) _ I = _
  unfold EStateM.bind
  rw [hright]
  show (if l.type.same r.type = true then _ else _ : Resolving Expr) s I = _
  split <;> rfl

/-- Two operands of one type are let through. -/
theorem expr_binary (hleft : expr c left s I = .ok (l, s) I)
    (hright : expr c right s I = .ok (r, s) I) (htype : l.type = r.type) :
    expr c (.binary op left right span) s I =
      .ok (.binary op l r ⟨l.type, c.locate span⟩, s) I := by
  rw [expr_operands hleft hright, if_pos (Ty.same_iff_eq.mpr htype)]

/-- An expression that is resolved leaves everything as it was. -/
theorem eq_of_expr_ok {e : Syntax.Expr} (h : expr c e s I = .ok (x, t) J) : t = s ∧ J = I := by
  obtain ⟨x', -, hrun⟩ | ⟨fault, -, hrun⟩ := expr_looks c e s
  · rw [hrun I] at h
    cases h
    exact ⟨rfl, rfl⟩
  · rw [hrun I] at h
    cases h

/-- An operator that is let through has operands of the same type. -/
theorem operands_of_expr_ok (h : expr c (.binary op left right span) s I = .ok (x, t) J) :
    ∃ l r, expr c left s I = .ok (l, s) I ∧ expr c right s I = .ok (r, s) I ∧
      l.type.same r.type = true ∧ x = .binary op l r ⟨l.type, c.locate span⟩ := by
  have hrun := h
  rw [expr] at hrun
  obtain ⟨l, u, K, hleft, hbehind⟩ := ok_bind hrun
  obtain ⟨rfl, rfl⟩ := eq_of_expr_ok hleft
  obtain ⟨r, u', K', hright, -⟩ := ok_bind hbehind
  obtain ⟨rfl, rfl⟩ := eq_of_expr_ok hright
  rw [expr_operands hleft hright] at h
  split at h
  · rename_i hsame
    cases h
    exact ⟨l, r, hleft, hright, hsame, rfl⟩
  · cases h

/-- What an operator with its operands in this order is resolved to, it is resolved to in the other
order but for the order. -/
theorem expr_swapped (h : expr c (.binary op left right span) s I = .ok (x, t) J) :
    ∃ y, expr c (.binary op right left span) s I = .ok (y, s) I ∧ x.type.same y.type = true := by
  obtain ⟨l, r, hleft, hright, hsame, rfl⟩ := operands_of_expr_ok h
  have htype := Ty.same_iff_eq.mp hsame
  exact ⟨_, expr_binary hright hleft htype.symm, hsame⟩

end Resolve

/-! ## Identity -/

/-- To be the same is an equivalence, of types and of types in memory, where it is told by addresses
and counts; it means the same counts around the same object, so no array is the same as another
type.  Nothing that is asked of types tells two that are the same apart, so an operator is let
through with its operands in either order or in none, and its type is as good as that of the right
operand. -/
theorem Ty.same_identity :
    (Equivalence fun a b : Ty => a.same b = true) ∧
    (∀ heap : Heap, Equivalence heap.Same ∧ ∀ (i j : Nat) (a b : Ty),
      heap.Holds i a → heap.Holds j b → (heap.Same i j ↔ a.same b = true)) ∧
    (∀ a b : Ty, a.same b = true ↔ a.counts = b.counts ∧ a.core = b.core) ∧
    (∀ (inner : Ty) (count : Nat) (o : Object),
      (Ty.array inner count).same (.object o) = false ∧
        (Ty.object o).same (.array inner count) = false) ∧
    (∀ a b : Ty, a.same b = true → Interchangeable a b) ∧
    ∀ (c : Resolve.Context) (s : Resolve.State) (I : Resolve.Imports) (op : BinaryOp)
      (left right : Syntax.Expr) (span : Span),
      ((∃ x t J, Resolve.expr c (.binary op left right span) s I = .ok (x, t) J) ↔
        ∃ x t J, Resolve.expr c (.binary op right left span) s I = .ok (x, t) J) ∧
      ∀ x t J, Resolve.expr c (.binary op left right span) s I = .ok (x, t) J →
        ∃ l r, Resolve.expr c left s I = .ok (l, s) I ∧ Resolve.expr c right s I = .ok (r, s) I ∧
          x = .binary op l r ⟨l.type, c.locate span⟩ ∧ Interchangeable x.type r.type := by
  refine ⟨⟨fun a => same_iff_eq.mpr rfl, fun h => ?_, fun h h' => ?_⟩, fun heap => ?_,
    fun a b => same_iff_parts, fun inner count o => ⟨rfl, rfl⟩, fun a b => .of_same,
    fun c s I op left right span => ⟨⟨?_, ?_⟩, ?_⟩⟩
  · exact same_iff_eq.mpr (same_iff_eq.mp h).symm
  · exact same_iff_eq.mpr ((same_iff_eq.mp h).trans (same_iff_eq.mp h'))
  · exact ⟨⟨.one, .symm, .trans⟩, fun i j a b => Heap.same_iff⟩
  · rintro ⟨x, t, J, h⟩
    obtain ⟨y, hy, -⟩ := Resolve.expr_swapped h
    exact ⟨y, s, I, hy⟩
  · rintro ⟨x, t, J, h⟩
    obtain ⟨y, hy, -⟩ := Resolve.expr_swapped h
    exact ⟨y, s, I, hy⟩
  · intro x t J h
    obtain ⟨l, r, hleft, hright, hsame, rfl⟩ := Resolve.operands_of_expr_ok h
    exact ⟨l, r, hleft, hright, rfl, .of_same hsame⟩

/-- A number type, two arrays of it that stand apart, and an array of each of them. -/
def Ty.twins : Heap where
  node? i :=
    [Node.object (.word 0 .n8), .array 0 4, .array 0 4, .array 1 2, .array 2 2][i]?
  once := by
    have hzero : ∀ (i : Nat) (o : Object),
        [Node.object (.word 0 .n8), .array 0 4, .array 0 4, .array 1 2, .array 2 2][i]? =
          some (.object o) → i = 0 := by
      intro i o h
      obtain _ | _ | _ | _ | _ | i := i <;> simp_all
    intro i j o hi hj
    rw [hzero i o hi, hzero j o hj]

/-- Arrays of arrays that share no array are the same, and they are added in either order. -/
theorem Ty.same_identity_twins :
    let type : Ty := .array (.array (.object (.word 0 .n8)) 4) 2
    let c : Resolve.Context := ⟨.main 0, ⟨"main"⟩, ⟨0⟩, [], MemoryFiles.source [], [],
      fun _ => throw (.internal "")⟩
    let rows (count : Syntax.Expr) : Syntax.Expr := .cast (.int 0 .zero)
      (.array (.array (.named "n8" .zero) count .zero) (.int 2 .zero) .zero) .zero
    let four : Syntax.Expr := .int 4 .zero
    let twoAndTwo : Syntax.Expr := .binary .add (.int 2 .zero) (.int 2 .zero) .zero
    twins.Holds 3 type ∧ twins.Holds 4 type ∧ twins.Same 3 4 ∧
      Interchangeable type type ∧
      ∃ x t J, Resolve.expr c (.binary .add (rows twoAndTwo) (rows four) .zero) (.start c.builtins)
        [] = .ok (x, t) J := by
  intro type c rows four twoAndTwo
  obtain ⟨-, hheap, -, -, hsame, hoperands⟩ := same_identity
  have hthree : twins.Holds 3 type := .array rfl (.array rfl (.object rfl))
  have hfour : twins.Holds 4 type := .array rfl (.array rfl (.object rfl))
  refine ⟨hthree, hfour, ((hheap twins).2 3 4 type type hthree hfour).mpr rfl,
    hsame type type rfl, ?_⟩
  exact (hoperands c (.start c.builtins) [] .add (rows four) (rows twoAndTwo) .zero).1.mp
    ⟨_, _, _, rfl⟩

end ByteJump
