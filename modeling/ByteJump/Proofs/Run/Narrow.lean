import ByteJump.Proofs.Run.Evaluation
import ByteJump.Proofs.Run.Simple

set_option autoImplicit false

/-!
# Values that fit their types

The code of an expression whose variables hold values that fit their types leaves a value that fits
the type of the expression.  It may dereference any address: what it reads in code or in registers
that are free is some byte, and what lies outside memory stops the machine.

Here nothing is assumed of the addresses that an expression reads through, so its value is not
known; what is known is how long it is.  `Tries` is the notion of a run for such code: it gets
behind the code with a property, or the machine stops at an address outside of memory.  `Fills`
says that the value left is one that the type of the expression can have, and `Suited` that the
register of a variable holds such a value.  `expr_fits` follows the typing of an expression: each
operator clears the bytes behind the width of its type, or hands on a value that fits. -/

namespace ByteJump

namespace Emit

open Assembly Memory Linked

variable {L : Linked} {s t u : State} {m mark : Nat} {d d' : Contents} {P Q : Contents → Prop}

/-! ## Code that may reach outside memory -/

/-- What was emitted makes `Q` true of the data, or copies from outside memory on the way. -/
structure Tries (L : Linked) (s t : State) (d : Contents) (Q : Contents → Prop) : Prop where
  run : Leads L t → ∀ c, L.Intact c → L.Shows d c →
    (∃ k c' d', Climbs L.size k c s.position c' t.position ∧ L.Intact c' ∧ L.Shows d' c' ∧ Q d') ∨
    ∃ k c' pc, Climbs L.size k c s.position c' pc ∧ pc < t.position ∧ Strays L.size c' pc

/-- Code that is known to do something tries to. -/
theorem Does.tries (h : Does L s t d Q) : Tries L s t d Q :=
  ⟨fun hleads c hintact hshows => Or.inl (h.run hleads c hintact hshows)⟩

/-- If the first part stops the machine, there is nothing to show of the second one. -/
theorem Tries.trans (h : Tries L s u d P) (hgrows : Grows u t)
    (h' : ∀ d', P d' → Tries L u t d' Q) : Tries L s t d Q := by
  refine ⟨fun hleads c hintact hshows => ?_⟩
  rcases h.run (hleads.before hgrows) c hintact hshows with hends | hstrays
  · obtain ⟨k, c', d', hclimbs, hintact', hshows', hP⟩ := hends
    rcases (h' d' hP).run hleads c' hintact' hshows' with hends' | hstrays'
    · obtain ⟨l, c'', d'', hclimbs', hrest⟩ := hends'
      exact Or.inl ⟨k + l, c'', d'', hclimbs.trans hclimbs', hrest⟩
    · obtain ⟨l, c'', pc, hclimbs', hstrays'⟩ := hstrays'
      exact Or.inr ⟨k + l, c'', pc, hclimbs.trans hclimbs', hstrays'⟩
  · obtain ⟨k, c', pc, hclimbs, hbefore, hstrays⟩ := hstrays
    exact Or.inr ⟨k, c', pc, hclimbs, Nat.lt_of_lt_of_le hbefore hgrows.position_le, hstrays⟩

/-- The property behind the code is weakened. -/
theorem Tries.mono (h : Tries L s t d P) (hPQ : ∀ d', P d' → Q d') : Tries L s t d Q := by
  refine ⟨fun hleads c hintact hshows => (h.run hleads c hintact hshows).imp ?_ id⟩
  rintro ⟨k, c', d', hclimbs, hintact', hshows', hP⟩
  exact ⟨k, c', d', hclimbs, hintact', hshows', hPQ d' hP⟩

/-- The byte at the address in the immediate register, wherever that is in memory. -/
theorem fetch_tries (L : Linked) :
    Exec (patched (wholeField immediate sourceField) 0 immediate) s fun _ t =>
      Kept s t ∧ t.mark = s.mark ∧ ∀ d, Tries L s t d fun d' => ∃ b, d' = d.set immediate b := by
  have hfields : ∀ f ∈ wholeField immediate sourceField, f.1 < addTable ∧ f.2 < nextField := by
    decide
  refine (patching_exec L hfields (by decide) (by decide)).mono fun _ t _ _ hpatching => ?_
  obtain ⟨hkept, hmark, hpatches⟩ := hpatching
  refine ⟨hkept, hmark, fun d => ?_⟩
  have hto : (patchedField d (wholeField immediate sourceField) destinationField
      immediate).number 0 addressSize = immediate := by
    rw [number_of_none (by decide)]
    rfl
  have hreads := hpatches d _ immediate (number_wholeField _ _ _) hto
  rcases Nat.lt_or_ge (d.number immediate addressSize) L.size with hinside | houtside
  · refine (hreads.does hinside (isData_of_lt (by decide))).tries.mono ?_
    rintro _ ⟨b, rfl, -⟩
    exact ⟨b, rfl⟩
  · refine ⟨fun hleads c hintact hshows => Or.inr ?_⟩
    obtain ⟨k, c', pc, hclimbs, -, -, hcopies, hend⟩ := hreads.run hleads c hintact hshows
    refine ⟨k, c', pc, hclimbs, ?_, hcopies.strays houtside⟩
    rw [hend]
    exact Nat.lt_add_of_pos_right (by decide)

/-! ## Values that fit

A value fits a type of some width if it is below the power of 256 that belongs to it.  All values
fit a type that fills the register. -/

/-- A value that fits the type is in the immediate register, and nothing else changed but registers
from the mark on. -/
def Fills (mark : Nat) (type : Ty) (d d' : Contents) : Prop :=
  ∃ v, Yields mark v d d' ∧ ∀ width, type.width = some width → v < 256 ^ width

/-- The variable has a register below `m`, with a value that fits its type. -/
def Suited (s : State) (m : Nat) (d : Contents) (v : Variable) : Prop :=
  v.count = none → ∃ r, s.bindings.register? v = some r ∧ r < m ∧
    ∀ width, v.type.width = some width → d.Narrow (register r) width

/-- What changes above the variables has no part in whether they are suited. -/
theorem Suited.of_other {v : Variable} (h : Suited s m d v) (hm : m ≤ mark)
    (hmark : mark ≤ registerCount) (hbindings : t.bindings = s.bindings)
    (hother : ∀ a, a < immediate ∨ immediate + registerSize ≤ a →
      a < register mark ∨ addTable ≤ a → d' a = d a) : Suited t m d' v := by
  intro hcount
  obtain ⟨r, hr, hbelow, hnarrow⟩ := h hcount
  refine ⟨r, by rwa [hbindings], hbelow, fun width hwidth i hlow hhigh => ?_⟩
  have hfree := Nat.lt_of_lt_of_le hbelow (Nat.le_trans hm hmark)
  obtain ⟨-, hregister, -⟩ := register_eq hfree
  have hnext := register_succ hfree
  have hmono := register_mono (show r + 1 ≤ mark by omega) hmark
  rw [hother _ (by omega) (by omega)]
  exact hnarrow width hwidth i hlow hhigh

/-- The code between two states leaves a value that fits the type of an expression. -/
structure Fitting (L : Linked) (m : Nat) (e : Expr) (s t : State) : Prop where
  kept : Kept s t
  mark : t.mark = s.mark
  tries : ∀ d, e.Proper (Suited s m d) → Tries L s t d (Fills s.mark e.type d)

/-- A register holds no more than its bytes allow. -/
theorem Yields.lt {v : Nat} (h : Yields mark v d d') : v < 256 ^ registerSize := by
  rw [← h.value]
  exact Contents.number_lt _ _ _

/-- A type of 16 bytes fits any value. -/
theorem Yields.fills {v : Nat} {type : Ty} (h : Yields mark v d d')
    (htype : type.width = some registerSize) : Fills mark type d d' := by
  refine ⟨v, h, fun width hwidth => ?_⟩
  obtain rfl := Option.some.inj (htype.symm.trans hwidth)
  exact h.lt

section Expressions

variable {b : Builtins} {operand left right : Expr} {i : Info}

/-- The variable holds a value that fits its type, and it is copied as it is. -/
theorem variable_fits (L : Linked) (v : Variable) (htyped : (Expr.variable v i).Typed b)
    (hm : m ≤ s.mark) : Exec (expr (.variable v i)) s fun _ t => Fitting L m (.variable v i) s t := by
  refine .good fun hgood => ?_
  rw [expr]
  cases hcount : v.count with
  | some count => exact .throw
  | none =>
      refine .get ?_
      cases hregister : s.bindings.register? v with
      | none => exact .throw
      | some r =>
          refine (load_exec L r).mono fun _ t _ _ hload => ?_
          obtain ⟨hkept, hmark, hdoes⟩ := hload
          refine ⟨hkept, hmark, fun d hsuited => ?_⟩
          obtain ⟨r', hr, hbelow, hnarrow⟩ := hsuited hcount
          obtain rfl := Option.some.inj (hregister.symm.trans hr)
          obtain ⟨-, hlow, hhigh⟩ :=
            register_eq (Nat.lt_of_lt_of_le hbelow (Nat.le_trans hm hgood.mark))
          have hdata : ∀ j < registerSize, L.IsData (register r + j) := fun j hj =>
            isData_of_lt (by omega)
          refine (hdoes d hdata hlow).tries.mono fun d' hd' => ?_
          refine ⟨_, hd'.yields (by simp), fun width hwidth => ?_⟩
          rw [show (Expr.variable v i).type = v.type from htyped] at hwidth
          exact (Contents.narrow_iff width).mp (hnarrow width hwidth)

/-- An address has the width of an address. -/
theorem label_fits (L : Linked) (use : LabelUse) (htyped : (Expr.label use i).Typed b) :
    Exec (expr (.label use i)) s fun _ t => Fitting L m (.label use i) s t := by
  cases htarget : use.target with
  | none =>
      rw [expr, htarget]
      exact .throw
  | some label =>
      refine (label_exec L use i).mono fun _ t _ _ hend => ?_
      obtain ⟨hkept, hmark, hdoes⟩ := hend
      refine ⟨hkept, hmark, fun d _ => (hdoes label d htarget).tries.mono fun d' hd' => ?_⟩
      refine ⟨_, hd'.yields (by simp), fun width hwidth => ?_⟩
      rw [show (Expr.label use i).type = b.address from htyped] at hwidth
      cases hwidth
      exact Nat.mod_lt _ (by decide)

/-- The cast clears what lies behind the width of its type. -/
theorem cast_fits (L : Linked)
    (h : Exec (expr operand) s fun _ t => Fitting L m operand s t) :
    Exec (expr (.cast operand i)) s fun _ t => Fitting L m (.cast operand i) s t := by
  rw [expr]
  refine h.bind fun _ u _ _ hoperand => ?_
  refine (narrow_exec L i).mono fun _ t _ hgrows hnarrow => ?_
  obtain ⟨width, hwidth, hclear⟩ := hnarrow
  refine ⟨hoperand.kept.trans hclear.kept, hclear.mark.trans hoperand.mark, fun d hsuited => ?_⟩
  refine (hoperand.tries d hsuited).trans hgrows fun d' hd' => ?_
  obtain ⟨x, hx, -⟩ := hd'
  refine (hclear.does d').tries.mono ?_
  rintro _ rfl
  refine ⟨_, hx.clear width, fun other hother => ?_⟩
  obtain rfl := Option.some.inj (hwidth.symm.trans hother)
  exact Nat.mod_lt _ (Nat.pow_pos (by decide))

/-- Logical not leaves 0 or 8, and either fits its type. -/
theorem not_fits (L : Linked) (htyped : (Expr.unary .not operand i).Typed b)
    (h : Exec (expr operand) s fun _ t => Fitting L m operand s t) :
    Exec (expr (.unary .not operand i)) s fun _ t => Fitting L m (.unary .not operand i) s t := by
  rw [expr]
  refine h.bind fun _ u _ _ hoperand => ?_
  refine (negate_exec L i.site htyped.2.1).mono fun _ t _ hgrows hnot => ?_
  obtain ⟨hkept, hmark, hfree, width, hwidth, hlow, -, hdoes⟩ := hnot
  rw [hoperand.mark] at hmark hfree hdoes
  obtain ⟨-, -, hregister⟩ := register_eq hfree
  refine ⟨hoperand.kept.trans hkept, hmark, fun d hsuited => ?_⟩
  refine (hoperand.tries d hsuited.2).trans hgrows fun d' hd' => ?_
  obtain ⟨x, hx, -⟩ := hd'
  refine (hdoes d').tries.mono fun d'' hd'' => ?_
  refine ⟨_, hx.trans (hd''.yields fun a ha => ?_), fun other hother => ?_⟩
  · simp only [List.mem_cons, List.not_mem_nil, or_false] at ha
    simp only [registerSize] at hregister
    omega
  · rw [show (Expr.unary .not operand i).type = operand.type from htyped.2.2] at hother
    obtain rfl := Option.some.inj (hwidth.symm.trans hother)
    refine Nat.lt_of_lt_of_le ?_ (Nat.pow_le_pow_right (n := 256) (by decide) hlow)
    split <;> decide

/-- One byte is read, wherever it comes from. -/
theorem deref_fits (L : Linked) (htyped : (Expr.unary .deref operand i).Typed b)
    (h : Exec (expr operand) s fun _ t => Fitting L m operand s t) :
    Exec (expr (.unary .deref operand i)) s fun _ t =>
      Fitting L m (.unary .deref operand i) s t := by
  rw [expr]
  refine h.bind fun _ u _ _ hoperand => ?_
  refine (fetch_tries L).bind fun _ u' _ hgrows hfetch => ?_
  refine (clearFrom_exec L (by decide)).mono fun _ t _ hgrows' hclear => ?_
  obtain ⟨hkept, hmark, htries⟩ := hfetch
  refine ⟨(hoperand.kept.trans hkept).trans hclear.kept,
    (hclear.mark.trans hmark).trans hoperand.mark, fun d hsuited => ?_⟩
  refine (hoperand.tries d hsuited.2).trans (hgrows.trans hgrows') fun d' hd' => ?_
  obtain ⟨x, hx, -⟩ := hd'
  refine (htries d').trans hgrows' ?_
  rintro _ ⟨byte, rfl⟩
  refine (hclear.does _).tries.mono ?_
  rintro _ rfl
  refine ⟨_, clear_yields hx.other, fun width hwidth => ?_⟩
  rw [show (Expr.unary .deref operand i).type = b.word .n8 from htyped.2.2] at hwidth
  cases hwidth
  exact byte.toNat_lt

/-- Only bytes are added, and the sum is cleared to a byte. -/
theorem sum_fits (L : Linked) {op : BinaryOp} (hm : m ≤ s.mark)
    (hleft : Exec (expr left) s fun _ t => Fitting L m left s t)
    (hright : ∀ u, m ≤ u.mark → Exec (expr right) u fun _ t => Fitting L m right u t) :
    Exec (expr (.binary op left right i)) s fun _ t =>
      Fitting L m (.binary op left right i) s t := by
  refine (sum_emits L hleft (fun u h => ⟨h.kept, h.mark⟩)
    fun v _ hnext => hright v (by omega)).mono fun _ t _ _ hend => ?_
  obtain ⟨-, hwidth, u₁, u₃, u₄, hfirst, hsecond, hsums⟩ := hend
  have hregister := register_lt hsums.free
  refine ⟨(hsums.kept.trans hsecond.kept).trans hsums.kept_end, hsums.mark_end,
    fun d hsuited => ?_⟩
  have hmiddle := hsums.middle.trans hsums.behind
  refine (hfirst.tries d hsuited.1).trans (hsums.front.trans hmiddle) fun d₁ hd₁ => ?_
  obtain ⟨x, hx, -⟩ := hd₁
  refine (hsums.saves d₁).tries.trans hmiddle ?_
  rintro _ rfl
  have hsuited' : right.Proper (Suited u₃ m (d₁.set (register s.mark) (d₁ immediate))) := by
    refine hsuited.2.mono fun v hv =>
      hv.of_other hm hsums.free.le hsums.kept.bindings fun a ha hbelow => ?_
    rw [Contents.set_of_ne (by omega)]
    exact hx.other a ha hbelow
  have htries := hsecond.tries _ hsuited'
  rw [hsums.mark] at htries
  refine htries.trans hsums.behind fun d₂ hd₂ => ?_
  obtain ⟨y, hy, -⟩ := hd₂
  refine (hsums.adds d₂).tries.mono ?_
  rintro _ rfl
  refine ⟨_, hx.sum hsums.free hy, fun other hother => ?_⟩
  obtain rfl := Option.some.inj (hwidth.symm.trans hother)
  exact Nat.mod_lt _ (by decide)

/-- The code of a typed expression leaves a value that fits its type. -/
theorem expr_fits (L : Linked) : ∀ {e : Expr} {s : State}, e.Typed b → m ≤ s.mark →
    Exec (expr e) s fun _ t => Fitting L m e s t
  | .int value i, s, htyped, _ => by
      rw [expr]
      refine (setImmediate_exec L value.isLt).mono fun _ t _ _ hend => ?_
      obtain ⟨hkept, hmark, hdoes⟩ := hend
      refine ⟨hkept, hmark, fun d _ => (hdoes d).tries.mono fun d' hd' => ?_⟩
      refine (hd'.yields (by simp)).fills ?_
      rw [show (Expr.int value i).type = b.literal from htyped]
      rfl
  | .str text i, s, htyped, _ => by
      refine (string_exec L text i).mono fun _ t _ _ hend => ?_
      obtain ⟨hkept, hmark, hdoes⟩ := hend
      refine ⟨hkept, hmark, fun d _ => (hdoes d).tries.mono fun d' hd' => ?_⟩
      refine (hd'.yields (by simp)).fills ?_
      rw [show (Expr.str text i).type = b.string from htyped]
      rfl
  | .variable v i, s, htyped, hm => variable_fits L v htyped hm
  | .label use i, s, htyped, _ => label_fits L use htyped
  | .cast operand i, s, htyped, hm => cast_fits L (expr_fits L (e := operand) htyped hm)
  | .unary .plus operand i, s, htyped, hm => by
      rw [expr]
      refine (expr_fits L htyped.1 hm).mono fun _ t _ _ hoperand => ?_
      refine ⟨hoperand.kept, hoperand.mark, fun d hsuited => ?_⟩
      rw [show (Expr.unary .plus operand i).type = operand.type from htyped.2.2]
      exact hoperand.tries d hsuited.2
  | .unary .not operand i, s, htyped, hm => not_fits L htyped (expr_fits L htyped.1 hm)
  | .unary .deref operand i, s, htyped, hm => deref_fits L htyped (expr_fits L htyped.1 hm)
  | .unary .negate operand i, s, _, _ | .unary .complement operand i, s, _, _ => by
      rw [expr]
      exact .throw
  | .binary op left right i, s, htyped, hm =>
      sum_fits L hm (expr_fits L htyped.1 hm) fun _ hu => expr_fits L htyped.2.1 hu
  | .index base indices i, s, _, _ => by
      rw [expr]
      exact .throw

end Expressions

/-- A new variable gets a value that fits the type of what it is set to. -/
theorem define_fits (L : Linked) {b : Builtins} {v : Variable} {value : Expr} (htyped : value.Typed b) :
    Exec (action (.define v value)) s fun _ t => ∃ r, t.bindings.register? v = some r ∧
      r < registerCount ∧ ∀ d, value.Proper (Suited s s.mark d) → Tries L s t d fun d' =>
        ∀ width, value.type.width = some width → d'.Narrow (register r) width := by
  rw [action]
  refine (expr_fits L htyped (Nat.le_refl _)).bind fun _ u₁ _ _ hvalue => ?_
  refine (allocate_exec 1 v.site).bind fun r u₂ _ hgrows₂ hallocate => ?_
  obtain ⟨hstill, rfl, hmark, hcount⟩ := hallocate
  refine .bound ((save_exec L (by omega) (Nat.le_refl _)).mono fun _ t _ hgrows hsave => ?_)
  obtain ⟨hkept, -, hdoes⟩ := hsave
  refine ⟨u₁.mark, ?_, by omega, fun d hsuited => ?_⟩
  · rw [hkept.bindings]
    exact List.lookup_cons_self
  refine (hvalue.tries d hsuited).trans ((hgrows₂.trans (.bound u₂ v u₁.mark)).trans hgrows)
    fun d₁ hd₁ => ?_
  obtain ⟨x, hx, hfits⟩ := hd₁
  refine (hstill.does L d₁).tries.trans ((Grows.bound u₂ v u₁.mark).trans hgrows) ?_
  rintro _ rfl
  have hsaves : Does L u₂ t d₁ _ := ⟨(hdoes d₁).run⟩
  refine hsaves.tries.mono ?_
  rintro _ rfl width hwidth
  refine (Contents.narrow_iff width).mpr ?_
  rw [Contents.number_write, hx.value, Nat.mod_eq_of_lt hx.lt]
  exact hfits width hwidth

end Emit

end ByteJump
