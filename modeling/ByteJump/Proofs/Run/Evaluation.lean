import ByteJump.Proofs.Run.Expr
import ByteJump.Proofs.Run.Values

set_option autoImplicit false

/-!
# Expressions against any memory

The code of an expression computes its value whatever memory holds: all it reads is memory outside
the immediate register, code and the registers that are free, and all it changes outside of code is
the immediate register and the registers that are free.

Unlike a run of the source from the start, this one is given any memory at all, as a scene: its
bytes, and where variables, labels and strings are.  The value of the expression in the scene is a
function, and `Computes` says that the code leaves this value, provided that what the expression
reads lies outside of what the code itself changes, `Open`.  The proviso is on the list of
addresses read, so it is checked once for the whole expression.  The lemmas are those on running
expressions over again, with `Yields` for what is left behind: it no longer names the temporaries,
and only says that they lie at or above the mark.
-/

namespace ByteJump

open Assembly Memory

namespace Linked

variable (L : Linked)

/-- The byte lies in memory, and neither in the immediate register, nor in code, nor in a register
from the mark on. -/
structure Open (mark a : Nat) : Prop where
  immediate : a < Memory.immediate ∨ Memory.immediate + registerSize ≤ a
  register : a < Memory.register mark ∨ addTable ≤ a
  code : a < codeStart ∨ L.stop ≤ a
  memory : a < L.size

variable {L}

theorem Open.cases {mark a : Nat} (h : L.Open mark a) :
    L.IsData a ∨ addTable ≤ a ∧ a < codeStart := by
  rcases Nat.lt_or_ge a addTable with hlow | hhigh
  · exact Or.inl (Or.inl hlow)
  · rcases h.code with hcode | hcode
    · exact Or.inr ⟨hhigh, hcode⟩
    · exact Or.inl (Or.inr ⟨hcode, h.memory⟩)

/-- The byte of a register below the mark. -/
theorem open_register {mark r i : Nat} (hr : r < mark) (hmark : mark ≤ registerCount)
    (hi : i < registerSize) : L.Open mark (Memory.register r + i) := by
  have hcode := addTable_lt_codeStart
  have hstop := codeStart_le_stop (L := L)
  obtain ⟨-, hlow, hhigh⟩ := Emit.register_eq (Nat.lt_of_lt_of_le hr hmark)
  have hnext := Emit.register_succ (Nat.lt_of_lt_of_le hr hmark)
  have hbelow := Emit.register_mono (show r + 1 ≤ mark from hr) hmark
  have hsize := (isData_of_lt (L := L) (show Memory.register r + i < addTable by omega)).lt_size
  exact ⟨by omega, by omega, by omega, hsize⟩

/-- Where an expression may read, data and tables are the memory of the scene. -/
def Depicts (L : Linked) (w : Scene) (mark : Nat) (d : Contents) : Prop :=
  ∀ a, L.Open mark a → L.read d a = w.memory a

end Linked

namespace Emit

open Linked

variable {L : Linked} {s t : State} {w : Scene} {m : Nat}

/-! ## What changes -/

/-- The value is in the immediate register, and nothing else changed but registers from the mark
on. -/
structure Yields (mark v : Nat) (d d' : Contents) : Prop where
  value : d'.number immediate registerSize = v
  other : ∀ a, a < immediate ∨ immediate + registerSize ≤ a → a < register mark ∨ addTable ≤ a →
    d' a = d a

section Yields

variable {mark v width : Nat} {d d' d'' : Contents}

theorem Leaves.yields {temps : List Nat} (h : Leaves temps v d d')
    (htemps : ∀ a ∈ temps, register mark ≤ a ∧ a < addTable) : Yields mark v d d' := by
  refine ⟨h.value, fun a ha hfree => h.other a ha fun htemp => ?_⟩
  have hrange := htemps a htemp
  omega

theorem Yields.low_number (h : Yields mark v d d') (hwidth : width ≤ registerSize) :
    d'.number immediate width = v % 256 ^ width := by
  rw [d'.number_low hwidth, h.value]

/-- The low byte of the immediate register is that of the value. -/
theorem Yields.low (h : Yields mark v d d') : (d' immediate).toNat = v % 256 := by
  rw [← number_one, h.low_number (by decide), Nat.pow_one]

/-- Clearing from a width on takes the value modulo the power of 256. -/
theorem Yields.clear (h : Yields mark v d d') (width : Nat) :
    Yields mark (v % 256 ^ width) d
      (d'.write (immediate + width) (registerSize - width) 0) := by
  refine ⟨?_, fun a ha hfree => (narrow_outside ha).trans (h.other a ha hfree)⟩
  rw [number_narrow, h.value]

/-- What both codes leave, one behind the other. -/
theorem Yields.trans {v' : Nat} (h : Yields mark v d d') (h' : Yields mark v' d' d'') :
    Yields mark v' d d'' :=
  ⟨h'.value, fun a ha hfree => (h'.other a ha hfree).trans (h.other a ha hfree)⟩

/-- A byte in the immediate register, with zeros behind it. -/
theorem clear_yields {b : UInt8}
    (h : ∀ a, a < immediate ∨ immediate + registerSize ≤ a → a < register mark ∨ addTable ≤ a →
      d' a = d a) :
    Yields mark b.toNat d ((d'.set immediate b).write (immediate + 1) (registerSize - 1) 0) :=
  ⟨number_byte d' b, fun a ha hfree => (byte_outside ha).trans (h a ha hfree)⟩

/-- What an expression may read has not changed. -/
theorem depicts_of_other (h : L.Depicts w m d) (hm : m ≤ mark) (hmark : mark ≤ registerCount)
    (hother : ∀ a, a < immediate ∨ immediate + registerSize ≤ a →
      a < register mark ∨ addTable ≤ a → d' a = d a) : L.Depicts w m d' := by
  intro a ha
  rw [← h a ha]
  have hregister := register_mono hm hmark
  have hfree := ha.register
  rcases ha.cases with hdata | ⟨hlow, hhigh⟩
  · rw [read_data hdata, read_data hdata]
    exact hother a ha.immediate (by omega)
  · have hstop := codeStart_le_stop (L := L)
    unfold Linked.read
    rw [if_pos ⟨hlow, by omega⟩, if_pos ⟨hlow, by omega⟩]

/-- The left operand was saved in the register at the mark while the right one was evaluated. -/
theorem Yields.sum {x y : Nat} {d₁ d₂ : Contents} (hr : mark < registerCount)
    (hleft : Yields mark x d d₁)
    (hright : Yields (mark + 1) y (d₁.set (register mark) (d₁ immediate)) d₂) :
    Yields mark ((x + y) % 256) d ((d₂.set immediate (d₂ (register mark) + d₂ immediate)).write
      (immediate + 1) (registerSize - 1) 0) := by
  obtain ⟨-, hlow, hhigh⟩ := register_eq hr
  have hnext := register_succ hr
  have hsize : 0 < registerSize := by decide
  have hsaved : d₂ (register mark) = d₁ immediate := by
    rw [hright.other _ (Or.inr hlow) (by omega), Contents.set_self]
  have hvalue : (d₂ (register mark) + d₂ immediate).toNat = (x + y) % 256 := by
    rw [UInt8.toNat_add, hsaved, hleft.low, hright.low]
    omega
  rw [← hvalue]
  refine clear_yields fun a ha hfree => ?_
  rw [hright.other a ha (by omega), Contents.set_of_ne (by omega)]
  exact hleft.other a ha hfree

end Yields

/-! ## Expressions

A scene serves an expression if it knows the places of all its names.  It then serves the parts as
well, which the induction needs. -/

/-- What a scene has to say of an expression whose code reads registers below `m` only: where its
variables, labels and strings are. -/
structure Serves (L : Linked) (w : Scene) (m : Nat) (e : Expr) : Prop where
  vars : e.Proper fun v => v.count = none → ∃ r, w.slot v = some r ∧ r < m
  labels : e.LabelsIn fun l => w.label l = some (L.world.label l) ∧ L.world.label l < addressSpace
  strings : ∀ text ∈ e.strings, w.string text = some (L.world.string text)

/-- The code between two states evaluates an expression. -/
structure Computes (L : Linked) (w : Scene) (m : Nat) (e : Expr) (s t : State) : Prop where
  kept : Kept s t
  mark : t.mark = s.mark
  value : ∃ v, e.value w = some v ∧ ((∀ a ∈ e.reads w, L.Open m a) → ∀ d, L.Depicts w m d →
    Does L s t d (Yields s.mark v d))

section Serves

variable {operand e f : Expr} {i : Info}

/-- A scene that serves a cast serves its operand. -/
theorem Serves.cast (h : Serves L w m (.cast operand i)) : Serves L w m operand :=
  ⟨h.vars, h.labels, h.strings⟩

theorem Serves.unary {op : UnaryOp} (h : Serves L w m (.unary op operand i)) :
    Serves L w m operand := ⟨h.vars.2, h.labels, h.strings⟩

/-- A scene that serves a sum serves its left operand. -/
theorem Serves.left {op : BinaryOp} (h : Serves L w m (.binary op e f i)) : Serves L w m e :=
  ⟨h.vars.1, h.labels.1, fun text htext => h.strings text (List.mem_append_left _ htext)⟩

theorem Serves.right {op : BinaryOp} (h : Serves L w m (.binary op e f i)) : Serves L w m f :=
  ⟨h.vars.2, h.labels.2, fun text htext => h.strings text (List.mem_append_right _ htext)⟩

end Serves

variable (L)

/-- The register of the variable is below the mark, so it is not in the way. -/
theorem variable_computes (v : Variable) (i : Info) (hserves : Serves L w m (.variable v i))
    (hslots : w.slot v = s.bindings.register? v) (hm : m ≤ s.mark) :
    Exec (expr (.variable v i)) s fun _ t => Computes L w m (.variable v i) s t := by
  refine .good fun hgood => ?_
  rw [expr]
  cases hcount : v.count with
  | some count => exact .throw
  | none =>
      refine .get ?_
      obtain ⟨r, hr, hbelow⟩ := hserves.vars hcount
      rw [← hslots, hr]
      refine (load_exec L r).mono fun _ t _ _ hload => ?_
      obtain ⟨hkept, hmark, hdoes⟩ := hload
      refine ⟨hkept, hmark, _, by rw [Expr.value, hr]; rfl, fun _ d hdepicts => ?_⟩
      have hcount := Nat.le_trans hm hgood.mark
      have hopen : ∀ j < registerSize, L.Open m (register r + j) := fun j hj =>
        open_register hbelow hcount hj
      obtain ⟨-, hlow, hhigh⟩ := register_eq (Nat.lt_of_lt_of_le hbelow hcount)
      have hdata : ∀ j < registerSize, L.IsData (register r + j) := fun j hj =>
        isData_of_lt (by omega)
      have hnumber : d.number (register r) registerSize = w.memory.number (register r) registerSize :=
        Contents.number_congr fun j hj =>
          (read_data (hdata j hj)).symm.trans (hdepicts _ (hopen j hj))
      refine (hdoes d hdata hlow).mono fun _ d' hd' => ?_
      rw [hnumber] at hd'
      exact hd'.yields (by simp)

/-- The bytes behind the width of the type are cleared. -/
theorem cast_computes {operand : Expr} {i : Info}
    (h : Exec (expr operand) s fun _ t => Computes L w m operand s t) :
    Exec (expr (.cast operand i)) s fun _ t => Computes L w m (.cast operand i) s t := by
  rw [expr]
  refine h.bind fun _ u _ _ hoperand => ?_
  refine (narrow_exec L i).mono fun _ t _ hgrows hnarrow => ?_
  obtain ⟨width, hwidth, hclear⟩ := hnarrow
  obtain ⟨x, hx, hdoes⟩ := hoperand.value
  refine ⟨hoperand.kept.trans hclear.kept, hclear.mark.trans hoperand.mark, _,
    Expr.value_cast.mpr ⟨x, width, hx, hwidth, rfl⟩, fun hreads d hdepicts => ?_⟩
  refine (hdoes hreads d hdepicts).trans hgrows fun d' hd' => ?_
  refine (hclear.does d').mono ?_
  rintro - _ rfl
  exact hd'.clear width

/-- The operand is an integer, so its bytes are those of its type. -/
theorem not_computes {operand : Expr} {i : Info} (hinteger : operand.type.isInteger = true)
    (h : Exec (expr operand) s fun _ t => Computes L w m operand s t) :
    Exec (expr (.unary .not operand i)) s fun _ t => Computes L w m (.unary .not operand i) s t := by
  rw [expr]
  refine h.bind fun _ u _ _ hoperand => ?_
  refine (negate_exec L i.site hinteger).mono fun _ t _ hgrows hnot => ?_
  obtain ⟨hkept, hmark, hfree, width, hwidth, -, hhigh, hdoes'⟩ := hnot
  obtain ⟨x, hx, hdoes⟩ := hoperand.value
  rw [hoperand.mark] at hmark hfree hdoes'
  obtain ⟨-, -, hregister⟩ := register_eq hfree
  refine ⟨hoperand.kept.trans hkept, hmark, _, Expr.value_not.mpr ⟨x, width, hx, hwidth, rfl⟩,
    fun hreads d hdepicts => ?_⟩
  refine (hdoes hreads d hdepicts).trans hgrows fun d' hd' => ?_
  refine (hdoes' d').mono fun _ d'' hd'' => ?_
  rw [hd'.low_number hhigh] at hd''
  refine hd'.trans (hd''.yields fun a ha => ?_)
  simp only [List.mem_cons, List.not_mem_nil, or_false] at ha
  simp only [registerSize] at hregister
  omega

/-- The byte read is one of those the expression reads, and is open. -/
theorem deref_computes {operand : Expr} {i : Info} (hm : m ≤ s.mark)
    (h : Exec (expr operand) s fun _ t => Computes L w m operand s t) :
    Exec (expr (.unary .deref operand i)) s fun _ t =>
      Computes L w m (.unary .deref operand i) s t := by
  rw [expr]
  refine .good fun hgood => ?_
  refine h.bind fun _ u _ _ hoperand => ?_
  refine (follow_exec L).mono fun _ t _ hgrows hfollow => ?_
  obtain ⟨hkept, hmark, hdoes'⟩ := hfollow
  obtain ⟨x, hx, hdoes⟩ := hoperand.value
  refine ⟨hoperand.kept.trans hkept, hmark.trans hoperand.mark, _,
    Expr.value_deref.mpr ⟨x, hx, rfl⟩, fun hreads d hdepicts => ?_⟩
  rw [Expr.reads, hx] at hreads
  have hopen : L.Open m (x % addressSpace) := hreads _ (List.mem_append_right _ (by simp))
  refine (hdoes (fun a ha => hreads a (List.mem_append_left _ ha)) d hdepicts).trans hgrows
    fun d' hd' => ?_
  have hpointer : d'.number immediate addressSize = x % addressSpace := hd'.low_number (by decide)
  refine (hdoes' d' _ hpointer hopen.cases).mono ?_
  rintro - _ rfl
  rw [depicts_of_other hdepicts hm hgood.mark hd'.other _ hopen]
  exact clear_yields hd'.other

/-- The left operand is kept at the mark, behind all that is read. -/
theorem sum_computes {left right : Expr} {i : Info} {op : BinaryOp} (hm : m ≤ s.mark)
    (hleft : Exec (expr left) s fun _ t => Computes L w m left s t)
    (hright : ∀ u, m ≤ u.mark → u.bindings = s.bindings →
      Exec (expr right) u fun _ t => Computes L w m right u t) :
    Exec (expr (.binary op left right i)) s fun _ t =>
      Computes L w m (.binary op left right i) s t := by
  have hright' : ∀ v, Kept s v → v.mark = s.mark + 1 →
      Exec (expr right) v fun _ t => Computes L w m right v t :=
    fun v hkept hnext => hright v (by omega) hkept.bindings
  refine (sum_emits L hleft (fun u h => ⟨h.kept, h.mark⟩) hright').mono fun _ t _ _ hend => ?_
  obtain ⟨hop, hwidth, u₁, u₃, u₄, hfirst, hsecond, hsums⟩ := hend
  obtain ⟨x, hx, hdoes⟩ := hfirst.value
  obtain ⟨y, hy, hdoes'⟩ := hsecond.value
  rw [hsums.mark] at hdoes'
  refine ⟨(hsums.kept.trans hsecond.kept).trans hsums.kept_end, hsums.mark_end, _,
    Expr.value_binary.mpr ⟨x, y, hx, hy, hop, hwidth, rfl⟩, fun hreads d hdepicts => ?_⟩
  rw [Expr.reads] at hreads
  have hrightDoes : ∀ d₁, Yields s.mark x d d₁ →
      Does L u₃ u₄ (d₁.set (register s.mark) (d₁ immediate))
        (Yields (s.mark + 1) y (d₁.set (register s.mark) (d₁ immediate))) := by
    intro d₁ hd₁
    refine hdoes' (fun a ha => hreads a (List.mem_append_right _ ha)) _ ?_
    have hregister := register_lt hsums.free
    refine depicts_of_other hdepicts hm hsums.free.le fun a ha hbelow => ?_
    rw [Contents.set_of_ne (by omega)]
    exact hd₁.other a ha hbelow
  exact hsums.does (hdoes (fun a ha => hreads a (List.mem_append_left _ ha)) d hdepicts)
    hrightDoes fun d₁ d₂ hd₁ hd₂ => hd₁.sum hsums.free hd₂

/-- The code of an expression evaluates it. -/
theorem expr_computes : ∀ {e : Expr} {s : State}, Serves L w m e →
    (∀ v, w.slot v = s.bindings.register? v) → m ≤ s.mark →
    Exec (expr e) s fun _ t => Computes L w m e s t
  | .int value i, s, _, _, _ => by
      rw [expr]
      have hbound : value.toNat < 256 ^ registerSize := value.isLt
      refine (setImmediate_exec L hbound).mono fun _ t _ _ hend => ?_
      obtain ⟨hkept, hmark, hdoes⟩ := hend
      exact ⟨hkept, hmark, _, rfl, fun _ d _ =>
        (hdoes d).mono fun _ _ hd' => hd'.yields (by simp)⟩
  | .str text i, s, hserves, _, _ => by
      refine (string_exec L text i).mono fun _ t _ _ hend => ?_
      obtain ⟨hkept, hmark, hdoes⟩ := hend
      have htext := hserves.strings text List.mem_cons_self
      exact ⟨hkept, hmark, _, by rw [Expr.value, htext]; rfl, fun _ d _ =>
        (hdoes d).mono fun _ _ hd' => hd'.yields (by simp)⟩
  | .variable v i, s, hserves, hslots, hm => variable_computes L v i hserves (hslots v) hm
  | .label use i, s, hserves, _, _ => by
      obtain ⟨label, htarget, hlabel, hbound⟩ := hserves.labels
      refine (label_exec L use i).mono fun _ t _ _ hend => ?_
      obtain ⟨hkept, hmark, hdoes⟩ := hend
      have hvalue : (Expr.label use i).value w = some (L.world.label label) := by
        rw [Expr.value, htarget, Option.bind_some, hlabel]
      refine ⟨hkept, hmark, _, hvalue, fun _ d _ => ?_⟩
      have hruns := hdoes label d htarget
      rw [Nat.mod_eq_of_lt hbound] at hruns
      exact hruns.mono fun _ _ hd' => hd'.yields (by simp)
  | .cast operand i, s, hserves, hslots, hm =>
      cast_computes L (expr_computes hserves.cast hslots hm)
  | .unary .plus operand i, s, hserves, hslots, hm => by
      rw [expr]
      refine (expr_computes hserves.unary hslots hm).mono fun _ t _ _ hend => ?_
      obtain ⟨v, hv, hdoes⟩ := hend.value
      exact ⟨hend.kept, hend.mark, v, Expr.value_plus.trans hv, hdoes⟩
  | .unary .not operand i, s, hserves, hslots, hm =>
      not_computes L hserves.vars.1 (expr_computes hserves.unary hslots hm)
  | .unary .deref operand i, s, hserves, hslots, hm =>
      deref_computes L hm (expr_computes hserves.unary hslots hm)
  | .unary .negate operand i, s, _, _, _ => by
      rw [expr]
      exact .throw
  | .unary .complement operand i, s, _, _, _ => by
      rw [expr]
      exact .throw
  | .binary op left right i, s, hserves, hslots, hm =>
      sum_computes L hm (expr_computes hserves.left hslots hm) fun u hm' hbindings =>
        expr_computes hserves.right (fun v => hbindings ▸ hslots v) hm'
  | .index base indices i, s, _, _, _ => by
      rw [expr]
      exact .throw

end Emit

end ByteJump
