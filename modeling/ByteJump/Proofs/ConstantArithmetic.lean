import ByteJump.Emit.Basic
import ByteJump.Proofs.ConstantValues
import ByteJump.Proofs.ResolvedProgram

set_option autoImplicit false

/-!
# Arithmetic of constants

Constants are arithmetic modulo `2^128`, with its faults, both while names are resolved and while code
is emitted.
-/

-- powers of natural numbers are the built-in ones
attribute [local instance (high)] instPowNat

namespace ByteJump

namespace Constant

/-! ## Environments -/

theorem unplaced_located : unplaced.Located where
  label use site fault h := by
    simp only [unplaced, ofTarget] at h
    cases htarget : use.target <;> rw [htarget] at h <;> cases h <;> rfl
  string text site fault h := by
    cases h
    rfl

/-- While code is emitted an unknown label or string is a fault where it is used. -/
theorem env_located (s : Emit.State) : s.env.Located where
  label use site fault h := by
    simp only [Emit.State.env, ofTarget, Emit.State.address] at h
    cases htarget : use.target with
    | none =>
        rw [htarget] at h
        cases h
        rfl
    | some label =>
        rw [htarget] at h
        dsimp only at h
        cases haddress : s.bindings.address? label with
        | none =>
            rw [haddress] at h
            cases h
            rfl
        | some address =>
            rw [haddress] at h
            cases h
  string text site fault h := by
    simp only [Emit.State.env] at h
    cases hlookup : s.strings.lookup text with
    | none =>
        rw [hlookup] at h
        cases h
        rfl
    | some address =>
        rw [hlookup] at h
        cases h

/-! ## Constants -/

/-- Constants are arithmetic modulo `2^128`, with its faults.  An expression has a value if all its
parts have, and this is the reference value; a shift by 128 or more leaves nothing.  Its fault is that
of a part behind parts that have values: operands come before their operator and from left to right,
but an element of an array is a fault before its parts are looked at.  If lookups fail where they are
made, as they do while names are resolved and while code is emitted, each fault is where its part was
written. -/
theorem evaluate_arithmetic (env : Env) (e : Expr) :
    ((∃ v, evaluate env e = .ok v) ↔ ∀ n ∈ e.nodes, Defined env n) ∧
    (∀ v, evaluate env e = .ok v → v.toNat = reference env e) ∧
    (∀ a b, 128 ≤ b → a < 2 ^ 128 →
      binaryReference .shiftLeft a b = 0 ∧ binaryReference .shiftRight a b = 0) ∧
    (∀ fault, evaluate env e = .error fault ↔ ∃ before n behind,
      e.visited = before ++ n :: behind ∧ (∀ m ∈ before, Defined env m) ∧
        fault? env n = some fault) ∧
    (env.Located → ∀ n fault, fault? env n = some fault → fault.site? = some n.site) ∧
    unplaced.Located ∧ ∀ s : Emit.State, s.env.Located := by
  refine ⟨exists_evaluate, fun _ => toNat_evaluate, fun a b hb ha => ⟨residue_shift a hb, ?_⟩,
    fun _ => evaluate_eq_error, fun henv _ _ => site?_of_fault? henv, unplaced_located, env_located⟩
  exact Nat.div_eq_of_lt (Nat.lt_of_lt_of_le ha (Nat.pow_le_pow_right (by decide) hb))

/-- A shift by more than 32 bits can count, and a sum of a division by zero and an unknown string. -/
theorem evaluate_arithmetic_cases :
    let info : UInt64 → Info := fun line =>
      ⟨.object (.literal 0), ⟨⟨"main"⟩, ⟨⟨line, 0⟩, ⟨line, 0⟩⟩⟩⟩
    let shift : Expr := .binary .shiftLeft (.int 3 (info 1)) (.int 0x10000000000 (info 2)) (info 3)
    let quotient : Expr := .binary .div (.int 1 (info 1)) (.int 0 (info 2)) (info 3)
    let sum : Expr := .binary .add quotient (.str "a" (info 4)) (info 5)
    (∃ v, evaluate unplaced shift = .ok v ∧ v.toNat = 0) ∧
      ∃ fault, evaluate unplaced sum = .error fault ∧ fault.site? = some (info 3).site := by
  intro info shift quotient sum
  constructor
  · obtain ⟨hok, hvalue, hshift, -⟩ := evaluate_arithmetic unplaced shift
    obtain ⟨v, hv⟩ := hok.mpr (by simp [shift, Expr.nodes, Defined])
    have hreference : reference unplaced shift =
        binaryReference .shiftLeft (3 : Word128).toNat (0x10000000000 : Word128).toNat := by
      simp only [shift, reference]
    exact ⟨v, hv, (hvalue v hv).trans
      (hreference.trans (hshift _ _ (by decide) (by decide)).1)⟩
  · obtain ⟨-, -, -, hfault, hsite, henv, -⟩ := evaluate_arithmetic unplaced sum
    have hquotient : fault? unplaced quotient = some (.divisionByZero (info 3).site) := rfl
    refine ⟨_, (hfault _).mpr ⟨[.int 1 (info 1), .int 0 (info 2)], quotient, _, rfl, ?_, hquotient⟩,
      hsite henv quotient _ hquotient⟩
    simp [Defined]

/-- The expression is refused for an element of an array, though the first of its parts that has no
value is a division by zero. -/
def dividesInside (e : Expr) : Bool :=
  match evaluate unplaced e with
  | .error fault => fault.kind == "NotConstant" &&
      (e.nodes.findSome? (fault? unplaced)).map Fault.kind == some "DivisionByZero"
  | .ok _ => false

/-- The statement evaluates such an expression. -/
def evaluatesElement : Stmt → Bool
  | .mk _ (.evaluate e) _ => dividesInside e
  | .mk _ .nothing _ | .mk _ (.place _) _ | .mk _ (.goto _) _ | .mk _ (.define ..) _
  | .mk _ (.reserve _) _ | .mk _ (.assign ..) _ | .mk _ (.block _) _ | .mk _ (.branch ..) _
  | .mk _ (.loop ..) _ | .mk _ (.words _) _ => false

/-- The fault of an element of an array comes before those of its parts. -/
theorem evaluate_arithmetic_element :
    let quotient : Syntax.Expr := .binary .div (.int 1 .zero) (.int 0 .zero) .zero
    let bytes : Syntax.TypeExpr := .array (.named "n8" .zero) (.int 3 .zero) .zero
    let tree : Syntax.Program :=
      [.mk [] (.evaluate (.access (.cast quotient bytes .zero) [.index (.int 0 .zero)] .zero)) .zero]
    ∃ p labels e site fault,
      ((Session.afterMains (MemoryFiles.source []) [] []).resolve tree ⟨"main"⟩).1 = .ok p ∧
      .mk labels (.evaluate e) site ∈ p.statements ∧ evaluate unplaced e = .error fault ∧
      e.nodes.findSome? (fault? unplaced) ≠ some fault := by
  intro quotient bytes tree
  have hcheck : (((Session.afterMains (MemoryFiles.source []) [] []).resolve tree
      ⟨"main"⟩).1.toOption.any fun p => p.statements.any evaluatesElement) = true := by decide +kernel
  cases hresolve : ((Session.afterMains (MemoryFiles.source []) [] []).resolve tree ⟨"main"⟩).1 with
  | error fault =>
      rw [hresolve] at hcheck
      cases hcheck
  | ok p =>
      rw [hresolve] at hcheck
      obtain ⟨⟨labels, act, site⟩, hst, hdivides⟩ := List.any_eq_true.mp hcheck
      cases act with
      | evaluate e =>
          have hdivides' : dividesInside e = true := hdivides
          unfold dividesInside at hdivides'
          cases hfault : evaluate unplaced e with
          | ok v =>
              rw [hfault] at hdivides'
              cases hdivides'
          | error fault =>
              rw [hfault] at hdivides'
              obtain ⟨hkind, hfirst⟩ := Bool.and_eq_true_iff.mp hdivides'
              refine ⟨p, labels, e, site, fault, rfl, hst, hfault, fun hsame => ?_⟩
              rw [hsame, Option.map_some, beq_iff_eq.mp hkind] at hfirst
              exact absurd hfirst (by decide)
      | nothing | place _ | goto _ | define _ _ | reserve _ | assign _ _ | block _ | branch _ _ _
      | loop _ _ _ | words _ => cases hdivides

end Constant

end ByteJump
