import ByteJump.Proofs.Proper
import ByteJump.Proofs.Run.Known
import ByteJump.Proofs.Run.Lookups

set_option autoImplicit false

/-!
# Running expressions

The code of an expression leaves its value in the immediate register, and nothing else changes but
the temporaries it needed.  What may be read while a statement runs lies below the registers that
are free, so no temporary is ever in the way.

Two structures carry the proof.  `Leaves temps v d d'` is about the data alone: the immediate
register holds `v`, and nothing else has changed but the bytes `temps`.  `Evaluates` is about
emitted code: whenever the source gives the expression a value in a store that is known, the code
leaves that value, with the temporaries that the source counts for it.  Each operator has a lemma
that takes `Evaluates` of its operands to `Evaluates` of itself; the hard ones are the sums, where
the left operand waits in a register while the right one is computed, and logical not, which
counts the bytes that are zero.
-/

namespace ByteJump

namespace Emit

open Assembly Memory Linked

variable (L : Linked) {s : State}

/-! ## Values in the immediate register

A narrow value is one with zeros behind it in the register.  So the value of the whole register is
the value of its low bytes, once the rest was cleared. -/

/-- The value is in the immediate register, and nothing else changed but temporaries. -/
structure Leaves (temps : List Nat) (v : Nat) (d d' : Contents) : Prop where
  value : d'.number immediate registerSize = v
  other : ∀ a, a < immediate ∨ immediate + registerSize ≤ a → a ∉ temps → d' a = d a

/-- Zeros behind the low bytes of the immediate register. -/
theorem number_clear {d : Contents} {width : Nat} (h : width ≤ registerSize) :
    (d.write (immediate + width) (registerSize - width) 0).number immediate registerSize =
      d.number immediate width := by
  rw [Contents.number_split _ h, Contents.number_write, Nat.zero_mod, Nat.mul_zero, Nat.add_zero]
  exact Contents.number_congr fun i hi => Contents.write_outside (by omega)

/-- A number of one byte is that byte. -/
theorem number_one (d : Contents) (a : Nat) : d.number a 1 = (d a).toNat := by
  simp [Contents.number]

/-- The low bytes of the immediate register, with zeros behind them. -/
theorem number_narrow (d : Contents) (width : Nat) :
    (d.write (immediate + width) (registerSize - width) 0).number immediate registerSize =
      d.number immediate registerSize % 256 ^ width := by
  rcases Nat.le_total width registerSize with hsmall | hlarge
  · rw [number_clear hsmall, d.number_low hsmall]
  · have hbound : d.number immediate registerSize < 256 ^ width :=
      Nat.lt_of_lt_of_le (d.number_lt _ _) (Nat.pow_le_pow_right (by decide) hlarge)
    rw [Nat.sub_eq_zero_of_le hlarge, Nat.mod_eq_of_lt hbound]
    rfl

/-- Nothing outside of the immediate register is cleared. -/
theorem narrow_outside {d : Contents} {width a : Nat}
    (ha : a < immediate ∨ immediate + registerSize ≤ a) :
    d.write (immediate + width) (registerSize - width) 0 a = d a := by
  rcases Nat.le_total width registerSize with hsmall | hlarge
  · exact Contents.write_outside (by omega)
  · rw [Nat.sub_eq_zero_of_le hlarge]
    rfl

/-- A byte in the immediate register, with zeros behind it. -/
theorem number_byte (d : Contents) (b : UInt8) :
    ((d.set immediate b).write (immediate + 1) (registerSize - 1) 0).number immediate
      registerSize = b.toNat := by
  rw [number_clear (by decide), number_one, Contents.set_self]

/-- Nothing outside of the immediate register changes with a byte in it. -/
theorem byte_outside {d : Contents} {b : UInt8} {a : Nat}
    (ha : a < immediate ∨ immediate + registerSize ≤ a) :
    (d.set immediate b).write (immediate + 1) (registerSize - 1) 0 a = d a := by
  have hsize : 0 < registerSize := by decide
  rw [narrow_outside ha, Contents.set_of_ne (by omega)]

/-- Clearing changes the immediate register and nothing else. -/
theorem clear_leaves {temps : List Nat} {d d' : Contents} {b : UInt8}
    (h : ∀ a, a < immediate ∨ immediate + registerSize ≤ a → a ∉ temps → d' a = d a) :
    Leaves temps b.toNat d ((d'.set immediate b).write (immediate + 1) (registerSize - 1) 0) :=
  ⟨number_byte d' b, fun a ha htemp => (byte_outside ha).trans (h a ha htemp)⟩

/-! ## Logical not

The code adds 8 for each low byte that is zero, to a number that makes the sum zero if all of them
are.  So one look-up tells in the end, without a branch. -/

/-- Whether a sum that counted zeros came to zero. -/
theorem sum_eq_zero_iff {d : Contents} {width : Nat} (h : width ≤ registerSize) (address : Nat) :
    UInt8.ofNat (256 - 8 * width) + UInt8.ofNat (8 * zeros d address width) = 0 ↔
      d.number address width = 0 := by
  have hle := zeros_le d width address
  have hiff := zeros_eq_iff d width address
  rw [← UInt8.ofNat_add, ← UInt8.toNat_inj, UInt8.toNat_ofNat', UInt8.toNat_zero, ← hiff]
  simp only [registerSize] at h
  omega

/-- The bytes are counted one after the other, by induction on their number, and the flag is read
off the sum. -/
theorem logicalNot_exec {width : Nat} (site : Location) (hlow : 1 ≤ width)
    (hhigh : width ≤ registerSize) :
    Exec (logicalNot width site) s fun _ t => Kept s t ∧ t.mark = s.mark ∧
      s.mark < registerCount ∧
      ∀ d, Does L s t d (Leaves [register s.mark, register s.mark + 1]
        (if d.number immediate width = 0 then Constant.truth else 0) d) := by
  have hwidth : max 1 (min width registerSize) = width := by omega
  refine .good fun hgood => ?_
  unfold logicalNot
  rw [hwidth]
  refine .get ((allocate_exec 1 site).bind fun scratch u _ hgrows₁ hallocate => ?_)
  obtain ⟨hstill, rfl, hmark, hcount⟩ := hallocate
  have hfree : s.mark < registerCount := by omega
  obtain ⟨-, hregister, hregister'⟩ := register_eq hfree
  have hregisters : register s.mark + 1 < addTable := by
    simp only [registerSize] at hregister'
    omega
  dsimp only
  refine (setByte_exec L (by omega) _).bind fun _ u₂ _ hgrows₂ hset => ?_
  refine (countZeros_exec L (by omega) hregisters (by omega) hregister (by omega)
    (by omega)).bind fun _ u₃ _ hgrows₃ hcounted => ?_
  refine (notLookup_exec L (by omega) (by decide)).bind fun _ u₄ _ hgrows₄ hnot => ?_
  refine (clearFrom_exec L (by decide)).bind fun _ u₅ _ hgrows₅ hclear => ?_
  refine (release_exec hgood.mark).mono fun _ t _ hgrows₆ hrelease => ?_
  obtain ⟨hkept₃, hmark₃, hdoes₃⟩ := hcounted
  obtain ⟨hstill₆, hmark₆⟩ := hrelease
  have htail := hnot.trans hgrows₅ hclear
  refine ⟨((((hstill.kept.trans hset.kept).trans hkept₃).trans htail.kept).trans hstill₆.kept),
    hmark₆, hfree, fun d => ?_⟩
  refine (hstill.does L d).trans (((hgrows₂.trans hgrows₃).trans (hgrows₄.trans hgrows₅)).trans
    hgrows₆) ?_
  rintro _ rfl
  refine (hset.does _).trans ((hgrows₃.trans (hgrows₄.trans hgrows₅)).trans hgrows₆) ?_
  rintro _ rfl
  refine (hdoes₃ _).trans ((hgrows₄.trans hgrows₅).trans hgrows₆) fun d' hd' => ?_
  obtain ⟨htotal, hother⟩ := hd'
  refine (htail.does d').trans hgrows₆ ?_
  rintro _ rfl
  refine (hstill₆.does L _).mono ?_
  rintro - _ rfl
  have hzeros : zeros (d.set (register s.mark) (UInt8.ofNat (256 - 8 * width))) (immediate + 0)
      width = zeros d immediate width := by
    rw [Nat.add_zero]
    exact zeros_congr fun i hi => Contents.set_of_ne (by omega)
  rw [hzeros, Contents.set_self] at htotal
  -- the count overflows to zero exactly if each byte is zero
  have hvalue : (notByte (d' (register s.mark))).toNat =
      if d.number immediate width = 0 then Constant.truth else 0 := by
    unfold notByte
    rw [htotal]
    by_cases hnumber : d.number immediate width = 0
    · rw [if_pos ((sum_eq_zero_iff hhigh immediate).mpr hnumber), if_pos hnumber]
      rfl
    · rw [if_neg (mt (sum_eq_zero_iff hhigh immediate).mp hnumber), if_neg hnumber]
      rfl
  rw [← hvalue]
  refine clear_leaves fun a ha htemp => ?_
  simp only [List.mem_cons, List.not_mem_nil, or_false, not_or] at htemp
  rw [hother a htemp.1 htemp.2, Contents.set_of_ne htemp.1]

variable {L}

/-- Asking for a width emits nothing. -/
theorem widthOf_exec (type : Ty) (site : Location) :
    Exec (widthOf type site) s fun width t => t = s ∧ type.width = some width := by
  unfold widthOf
  cases type.width with
  | some width => exact .pure ⟨rfl, rfl⟩
  | none => exact .throw

variable (L)

/-! ## Leaves of expressions

Literals are written out byte by byte, and so are the address and the length of a string, which is
placed in front.  The address of a label is only known in the image, so its bytes are copied from
a word in the code. -/

/-- A number written into the immediate register. -/
theorem setImmediate_exec {value : Nat} (h : value < 256 ^ registerSize) :
    Exec (setBytes immediate registerSize value) s fun _ t => Kept s t ∧ t.mark = s.mark ∧
      ∀ d, Does L s t d (Leaves [] value d) := by
  refine (setBytes_exec L (by decide)).mono fun _ t _ _ heffect => ?_
  refine ⟨heffect.kept, heffect.mark, fun d => (heffect.does d).mono ?_⟩
  rintro - _ rfl
  refine ⟨?_, fun a ha _ => Contents.write_outside (by omega)⟩
  rw [Contents.number_write, Nat.mod_eq_of_lt h]

/-- The string stands in the code, and its address and length are written out. -/
theorem string_exec (text : String) (i : Info) :
    Exec (expr (.str text i)) s fun _ t => Kept s t ∧ t.mark = s.mark ∧
      ∀ d, Does L s t d (Leaves [] (L.world.string text % addressSpace +
        addressSpace * (text.utf8ByteSize % addressSpace)) d) := by
  rw [expr]
  refine (stringConstant_exec L text).bind fun address u _ _ hstring => ?_
  obtain ⟨heffect, haddress⟩ := hstring
  refine (setBytes_exec L (by decide)).bind fun _ w _ hgrows hlow => ?_
  refine (setBytes_exec L (by decide)).mono fun _ t _ hgrows' hhigh => ?_
  have hall := heffect.trans (hgrows.trans hgrows') (hlow.trans hgrows' hhigh)
  refine ⟨hall.kept, hall.mark, fun d => (hall.does d).mono ?_⟩
  rintro hleads _ rfl
  have hstring := (hleads.before (hgrows.trans hgrows')).strings text address haddress
  rw [hstring]
  have hspace : 256 ^ addressSize = addressSpace := by decide
  refine ⟨?_, fun a ha _ => ?_⟩
  · have hsplit := (((id d).write immediate addressSize address).write (immediate + addressSize)
      addressSize text.utf8ByteSize).number_add addressSize addressSize immediate
    rw [Contents.number_write, hspace] at hsplit
    have hfirst : (((id d).write immediate addressSize address).write (immediate + addressSize)
        addressSize text.utf8ByteSize).number immediate addressSize = address % addressSpace := by
      rw [← hspace, ← Contents.number_write (c := id d) (b := immediate)]
      exact Contents.number_congr fun j hj => Contents.write_outside (by omega)
    rw [hfirst] at hsplit
    exact hsplit
  · have hout : a < immediate ∨ immediate + addressSize + addressSize ≤ a := ha
    rw [Contents.write_outside (by omega), Contents.write_outside (by omega)]
    rfl

/-- The value of a register, put into the immediate register. -/
theorem load_exec (r : Nat) : Exec (copyRange (register r) immediate registerSize) s fun _ t =>
    Kept s t ∧ t.mark = s.mark ∧ ∀ d, (∀ j < registerSize, L.IsData (register r + j)) →
      immediate + registerSize ≤ register r →
      Does L s t d (Leaves [] (d.number (register r) registerSize) d) := by
  refine (copyRange_exec L (by decide)).mono fun _ t _ _ hcopies => ?_
  obtain ⟨hkept, hmark, heffect⟩ := hcopies
  refine ⟨hkept, hmark, fun d hdata hlow => ?_⟩
  refine ((heffect fun j hj => Or.inr (hdata j hj)).does d).mono ?_
  rintro - _ rfl
  refine ⟨Contents.number_congr fun j hj => ?_, fun a ha _ => moved_outside (by omega)⟩
  rw [moved_inside (by omega) hj, read_data (hdata j hj)]

/-- The bytes of the register are those that the source reads for the variable. -/
theorem variable_exec (v : Variable) (i : Info) {σ : Source.Slots}
    (hregisters : σ.registers = s.bindings.registers) (hmark : σ.mark ≤ registerCount) :
    Exec (expr (.variable v i)) s fun _ t => Kept s t ∧ t.mark = s.mark ∧
      ∀ m x d, Known L σ.mark m d → Source.eval L.world σ m (.variable v i) = some x →
        Does L s t d (Leaves [] x d) := by
  rw [expr]
  cases v.count with
  | some count => exact .throw
  | none =>
      refine .get ?_
      cases hregister : s.bindings.register? v with
      | none => exact .throw
      | some r =>
          refine (load_exec L r).mono fun _ t _ _ hload => ?_
          obtain ⟨hkept, hmark', hdoes⟩ := hload
          refine ⟨hkept, hmark', fun m x d hknown heval => ?_⟩
          have hlookup : σ.registers.lookup v.id = some r := by
            rw [hregisters]
            exact hregister
          rw [Source.eval, hlookup] at heval
          obtain ⟨hnumber, hreaches⟩ := number_of_known hknown heval
          have hdata : ∀ j < registerSize, L.IsData (register r + j) ∧
              immediate + registerSize ≤ register r + j := fun j hj =>
            isData_of_reaches hmark (hreaches j hj)
          rw [← hnumber]
          exact hdoes d (fun j hj => (hdata j hj).1) (hdata 0 (by decide)).2

/-- The word holds the address of the label in the image. -/
theorem label_exec (use : LabelUse) (i : Info) :
    Exec (expr (.label use i)) s fun _ t => Kept s t ∧ t.mark = s.mark ∧
      ∀ label d, use.target = some label →
        Does L s t d (Leaves [] (L.world.label label % addressSpace) d) := by
  rw [expr]
  cases htarget : use.target with
  | none => exact .throw
  | some label =>
      refine (jumpOver_exec L rfl).bind fun a u hgood hgrows₁ hjump => ?_
      obtain ⟨heffect, hsteady, before, hpieces, haddress⟩ := hjump
      refine (copyRange_exec L (by decide)).bind fun _ w _ hgrows₂ hcopies => ?_
      obtain ⟨-, -, hcopies⟩ := hcopies
      refine (clearFrom_exec L (by decide)).mono fun _ t _ hgrows₃ hclear => ?_
      have hreadable : ∀ j < addressSize, Readable L u (a + j) := fun j hj =>
        Or.inl (hsteady (a + j) (by omega) (by simpa [Assembly.size, Piece.size] using hj))
      have hall := heffect.trans (hgrows₂.trans hgrows₃)
        ((hcopies hreadable).trans hgrows₃ hclear)
      refine ⟨hall.kept, hall.mark, fun other d hother => (hall.does d).mono ?_⟩
      obtain rfl := Option.some.inj hother
      rintro hleads _ rfl
      obtain ⟨behind, hbehind, -⟩ := (hleads.before (hgrows₂.trans hgrows₃)).code
      have hsplit : L.pieces = before ++ .word (.address (.label label) (some i.site)) ::
          behind := by
        rw [hbehind, hpieces]
        simp
      have hcode := addTable_lt_codeStart
      have hstop : a + addressSize ≤ L.stop := by
        unfold Linked.stop
        rw [hsplit, size_append, haddress]
        simp [Assembly.size, Piece.size, Nat.add_assoc]
      have himmediate : immediate + addressSize ≤ addTable := by decide
      refine ⟨?_, fun x hx _ => ?_⟩
      · rw [number_clear (by decide)]
        have hword : ∀ j (hj : j < (wordBytes (L.world.label label)).length),
            moved L (id d) a immediate addressSize (immediate + j) =
              (wordBytes (L.world.label label))[j] := by
          intro j hj
          have hj' : j < addressSize := by rwa [length_wordBytes] at hj
          have hbyte := L.code before _ behind hsplit j (by simpa [Piece.fill, L.label_value] using hj)
          simp only [Piece.fill, L.label_value] at hbyte
          rw [moved_inside (by omega) hj', ← hbyte, ← haddress]
          unfold Linked.read
          rw [if_pos ⟨by omega, by omega⟩]
        exact number_wordBytes hword
      · have hsize : registerSize = addressSize + addressSize := rfl
        rw [Contents.write_outside (by omega), moved_outside (by omega)]
        rfl

/-! ## Expressions -/

variable {L}

/-- The low bytes of the immediate register. -/
theorem Leaves.low_number {temps : List Nat} {v width : Nat} {d d' : Contents}
    (h : Leaves temps v d d') (hwidth : width ≤ registerSize) :
    d'.number immediate width = v % 256 ^ width := by
  rw [d'.number_low hwidth, h.value]

/-- The low byte of the immediate register. -/
theorem Leaves.low {temps : List Nat} {v : Nat} {d d' : Contents} (h : Leaves temps v d d') :
    (d' immediate).toNat = v % 256 := by
  rw [← number_one, h.low_number (by decide), Nat.pow_one]

/-- The immediate register cut down to its low bytes. -/
theorem Leaves.clear {temps : List Nat} {v : Nat} {d d' : Contents} (h : Leaves temps v d d')
    (width : Nat) : Leaves temps (v % 256 ^ width) d
      (d'.write (immediate + width) (registerSize - width) 0) := by
  refine ⟨?_, fun a ha htemp => (narrow_outside ha).trans (h.other a ha htemp)⟩
  rw [number_narrow, h.value]

/-- What the second code leaves, with the temporaries of both. -/
theorem Leaves.trans {temps temps' : List Nat} {v v' : Nat} {d d' d'' : Contents}
    (h : Leaves temps v d d') (h' : Leaves temps' v' d' d'') :
    Leaves (temps ++ temps') v' d d'' := by
  refine ⟨h'.value, fun a ha htemp => ?_⟩
  rw [List.mem_append, not_or] at htemp
  rw [h'.other a ha htemp.2]
  exact h.other a ha htemp.1

/-- The code between two states evaluates an expression, with registers of its own. -/
structure Evaluates (L : Linked) (σ : Source.Slots) (e : Expr) (s t : State) : Prop where
  kept : Kept s t
  mark : t.mark = s.mark
  temps : ∀ a ∈ Source.temporaries s.mark e, register s.mark ≤ a ∧ a < addTable
  does : ∀ m v d, Known L σ.mark m d → Source.eval L.world σ m e = some v →
    Does L s t d (Leaves (Source.temporaries s.mark e) v d)

variable (L)

/-! ### Behind an operand -/

/-- Behind the operand of a cast, the immediate register is cut down to the bytes of the type. -/
theorem narrow_exec (i : Info) : Exec (do
    let width ← widthOf i.type i.site
    if width < registerSize then clearFrom width) s fun _ t => ∃ width,
      i.type.width = some width ∧
      Effect L s t fun d => d.write (immediate + width) (registerSize - width) 0 := by
  refine (widthOf_exec i.type i.site).bind fun width u _ _ hwidthOf => ?_
  obtain ⟨rfl, hwidth⟩ := hwidthOf
  split
  · rename_i hsmall
    exact (clearFrom_exec L (Nat.le_of_lt hsmall)).mono fun _ _ _ _ hclear =>
      ⟨width, hwidth, hclear⟩
  · rename_i hlarge
    refine .pure ⟨width, hwidth, ?_⟩
    rw [Nat.sub_eq_zero_of_le (Nat.le_of_not_lt hlarge)]
    exact .refl u

/-- Behind the operand of a logical not, the low bytes of the immediate register are tested, as many as
the type of the operand has. -/
theorem negate_exec {operand : Expr} (site : Location)
    (hinteger : operand.type.isInteger = true) : Exec (do
      let width ← widthOf operand.type operand.site
      logicalNot width site) s fun _ t => Kept s t ∧ t.mark = s.mark ∧ s.mark < registerCount ∧
      ∃ width, operand.type.width = some width ∧ 1 ≤ width ∧ width ≤ registerSize ∧
        ∀ d, Does L s t d (Leaves [register s.mark, register s.mark + 1]
          (if d.number immediate width = 0 then Constant.truth else 0) d) := by
  refine (widthOf_exec operand.type operand.site).bind fun width u _ _ hwidthOf => ?_
  obtain ⟨rfl, hwidth⟩ := hwidthOf
  obtain ⟨hlow, hhigh⟩ := Ty.width_bounds hinteger hwidth
  refine (logicalNot_exec L site hlow hhigh).mono fun _ t _ _ hnot => ?_
  obtain ⟨hkept, hmark, hfree, hdoes⟩ := hnot
  exact ⟨hkept, hmark, hfree, width, hwidth, hlow, hhigh, hdoes⟩

/-- Behind the operand of a dereference, the byte at the address in the immediate register takes its
place, wherever it is in data or in a table. -/
theorem follow_exec : Exec (do
    patched (wholeField immediate sourceField) 0 immediate
    clearFrom 1) s fun _ t => Kept s t ∧ t.mark = s.mark ∧
      ∀ d a, d.number immediate addressSize = a → (L.IsData a ∨ addTable ≤ a ∧ a < codeStart) →
        Does L s t d fun d' => d' = (d.set immediate (L.read d a)).write (immediate + 1)
          (registerSize - 1) 0 := by
  have hfields : ∀ f ∈ wholeField immediate sourceField, f.1 < addTable ∧ f.2 < nextField := by
    decide
  refine (patched_exec L hfields (by decide) (by decide)).bind fun _ u _ _ hpatched => ?_
  refine (clearFrom_exec L (by decide)).mono fun _ t _ hgrows hclear => ?_
  obtain ⟨hkept, hmark, hdoes⟩ := hpatched
  refine ⟨hkept.trans hclear.kept, hclear.mark.trans hmark, fun d a ha hsource => ?_⟩
  have hfrom : (patchedField d (wholeField immediate sourceField) sourceField 0).number 0
      addressSize = a := by
    rw [number_wholeField, ha]
  have hto : (patchedField d (wholeField immediate sourceField) destinationField
      immediate).number 0 addressSize = immediate := by
    rw [number_of_none (by decide)]
    rfl
  refine (hdoes d a immediate hfrom hto hsource (isData_of_lt (by decide))).trans hgrows ?_
  rintro _ rfl
  exact hclear.does _

/-! ### Operators

Each of these gets the operands with what they evaluate to, and continues the run behind them. -/

/-- A cast to a narrow type clears the bytes behind it. -/
theorem cast_exec {operand : Expr} {i : Info} {σ : Source.Slots}
    (h : Exec (expr operand) s fun _ t => Evaluates L σ operand s t) :
    Exec (expr (.cast operand i)) s fun _ t => Evaluates L σ (.cast operand i) s t := by
  rw [expr]
  refine h.bind fun _ u _ _ hoperand => ?_
  refine (narrow_exec L i).mono fun _ t _ hgrows hnarrow => ?_
  obtain ⟨width, hwidth, hclear⟩ := hnarrow
  refine ⟨hoperand.kept.trans hclear.kept, hclear.mark.trans hoperand.mark, hoperand.temps,
    fun m v d hknown hv => ?_⟩
  obtain ⟨x, width', hx, hwidth', rfl⟩ := Source.eval_cast.mp hv
  obtain rfl := Option.some.inj (hwidth.symm.trans hwidth')
  refine (hoperand.does m x d hknown hx).trans hgrows fun d' hd' => ?_
  refine (hclear.does d').mono ?_
  rintro - _ rfl
  exact hd'.clear width

/-- The operand is an integer, so it has as many bytes as its type says. -/
theorem not_exec {operand : Expr} {i : Info} {σ : Source.Slots}
    (hinteger : operand.type.isInteger = true)
    (h : Exec (expr operand) s fun _ t => Evaluates L σ operand s t) :
    Exec (expr (.unary .not operand i)) s fun _ t => Evaluates L σ (.unary .not operand i) s t := by
  rw [expr]
  refine h.bind fun _ u _ _ hoperand => ?_
  refine (negate_exec L i.site hinteger).mono fun _ t _ hgrows hnot => ?_
  obtain ⟨hkept, hmark, hfree, width, hwidth, -, hhigh, hdoes⟩ := hnot
  rw [hoperand.mark] at hmark hfree hdoes
  obtain ⟨-, -, hregister⟩ := register_eq hfree
  refine ⟨hoperand.kept.trans hkept, hmark, fun a ha => ?_, fun m v d hknown hv => ?_⟩
  · rw [Source.temporaries] at ha
    rcases List.mem_append.mp ha with hfirst | hscratch
    · exact hoperand.temps a hfirst
    · simp only [List.mem_cons, List.not_mem_nil, or_false] at hscratch
      simp only [registerSize] at hregister
      omega
  · obtain ⟨x, width', hx, hwidth', rfl⟩ := Source.eval_not.mp hv
    obtain rfl := Option.some.inj (hwidth.symm.trans hwidth')
    refine (hoperand.does m x d hknown hx).trans hgrows fun d' hd' => ?_
    refine (hdoes d').mono fun _ d'' hd'' => ?_
    rw [hd'.low_number hhigh] at hd''
    exact hd'.trans hd''

/-- The pointer is copied into the source of an instruction, which then reads through it. -/
theorem deref_exec {operand : Expr} {i : Info} {σ : Source.Slots} (hmark : σ.mark ≤ s.mark)
    (h : Exec (expr operand) s fun _ t => Evaluates L σ operand s t) :
    Exec (expr (.unary .deref operand i)) s fun _ t =>
      Evaluates L σ (.unary .deref operand i) s t := by
  rw [expr]
  refine .good fun hgood => ?_
  refine h.bind fun _ u _ _ hoperand => ?_
  refine (follow_exec L).mono fun _ t _ hgrows hfollow => ?_
  obtain ⟨hkept, hmark', hdoes⟩ := hfollow
  refine ⟨hoperand.kept.trans hkept, hmark'.trans hoperand.mark, hoperand.temps,
    fun m v d hknown hv => ?_⟩
  obtain ⟨x, b, hx, hb, rfl⟩ := Source.eval_deref.mp hv
  obtain ⟨hreaches, hbyte⟩ := load_eq_some hb
  have hdata := (isData_of_reaches (Nat.le_trans hmark hgood.mark) hreaches).1
  refine (hoperand.does m x d hknown hx).trans hgrows fun d' hd' => ?_
  have hpointer : d'.number immediate addressSize = x % addressSpace := hd'.low_number (by decide)
  refine (hdoes d' _ hpointer (Or.inl hdata)).mono ?_
  rintro - _ rfl
  have hknown' := hknown.mono hmark hgood.mark hd'.other hoperand.temps
  rw [read_data hdata, hknown' _ b hreaches hbyte]
  exact clear_leaves hd'.other

variable {L}

/-- The left operand is saved in a free register while the right one is evaluated, and the sum of
both takes the place of the right one. -/
theorem Leaves.sum {r x y : Nat} {temps temps' : List Nat} {d d₁ d₂ : Contents}
    (hr : r < registerCount) (hleft : Leaves temps x d d₁)
    (hright : Leaves temps' y (d₁.set (register r) (d₁ immediate)) d₂)
    (hbehind : ∀ a ∈ temps', register r < a) :
    let d' := (d₂.set immediate (d₂ (register r) + d₂ immediate)).write (immediate + 1)
      (registerSize - 1) 0
    Leaves (temps ++ register r :: temps') ((x + y) % 256) d d' ∧
      (d' (register r)).toNat = x % 256 := by
  intro d'
  obtain ⟨-, hlow, -⟩ := register_eq hr
  have hsaved : d₂ (register r) = d₁ immediate := by
    rw [hright.other _ (Or.inr hlow) fun ha => ?_, Contents.set_self]
    exact Nat.lt_irrefl _ (hbehind _ ha)
  have hvalue : (d₂ (register r) + d₂ immediate).toNat = (x + y) % 256 := by
    rw [UInt8.toNat_add, hsaved, hleft.low, hright.low]
    omega
  rw [← hvalue]
  refine ⟨clear_leaves fun a ha htemp => ?_, ?_⟩
  · simp only [List.mem_append, List.mem_cons, not_or] at htemp
    rw [hright.other a ha htemp.2.2, Contents.set_of_ne htemp.2.1]
    exact hleft.other a ha htemp.1
  · have hbehind' : immediate + 1 + (registerSize - 1) ≤ register r := by
      simp only [registerSize] at hlow ⊢
      omega
    rw [show d' (register r) = d₂ (register r) from
      (Contents.write_outside (Or.inr hbehind')).trans (Contents.set_of_ne (by omega)), hsaved,
      hleft.low]

variable (L)

/-- Around its operands the code of a sum saves the low byte of the left one in the register that was
free, and adds it to the low byte of the right one.  The left operand ends at `u`, and the right one
goes from `v` to `w`. -/
structure Sums (L : Linked) (s u v w t : State) : Prop where
  free : s.mark < registerCount
  kept : Kept s v
  mark : v.mark = s.mark + 1
  kept_end : Kept w t
  mark_end : t.mark = s.mark
  front : Grows u v
  middle : Grows v w
  behind : Grows w t
  saves : ∀ d, Does L u v d fun d' => d.set (register s.mark) (d immediate) = d'
  adds : ∀ d, Does L w t d fun d' => (d.set immediate (d (register s.mark) + d immediate)).write
    (immediate + 1) (registerSize - 1) 0 = d'

/-- How the code of a sum is made of that of its operands. -/
theorem sum_emits {left right : Expr} {i : Info} {op : BinaryOp} {P : State → Prop}
    {Q : State → State → Prop} (hleft : Exec (expr left) s fun _ u => P u)
    (hkept : ∀ u, P u → Kept s u ∧ u.mark = s.mark)
    (hright : ∀ v, Kept s v → v.mark = s.mark + 1 → Exec (expr right) v fun _ w => Q v w) :
    Exec (expr (.binary op left right i)) s fun _ t => op = .add ∧ i.type.width = some 1 ∧
      ∃ u v w, P u ∧ Q v w ∧ Sums L s u v w t := by
  rw [expr]
  refine .good fun hgood => ?_
  refine (widthOf_exec i.type i.site).bind fun width s' _ _ hwidthOf => ?_
  obtain ⟨rfl, hwidth⟩ := hwidthOf
  by_cases hop : op = .add
  case neg =>
    rw [if_pos hop]
    exact .throw
  by_cases hone : width = 1
  case neg =>
    rw [if_neg (not_not_intro hop), if_pos hone]
    exact .throw
  rw [if_neg (not_not_intro hop), if_neg (not_not_intro hone)]
  refine .get (hleft.bind fun _ u _ _ hfirst => ?_)
  obtain ⟨hkept₁, hmark₁⟩ := hkept u hfirst
  refine (allocate_exec 1 i.site).bind fun saved u' _ hgrows₂ hallocate => ?_
  obtain ⟨hstill, rfl, hmark₂, hcount⟩ := hallocate
  rw [hmark₁] at hmark₂ ⊢
  have hfree : s'.mark < registerCount := by omega
  have hregister := register_lt hfree
  refine (copy_exec L hregister).bind fun _ v _ hgrows₃ hcopy => ?_
  obtain ⟨hkept₃, hmark₃, hcopied⟩ := hcopy
  have hkept' : Kept s' v := (hkept₁.trans hstill.kept).trans hkept₃
  have hnext : v.mark = s'.mark + 1 := hmark₃.trans hmark₂
  refine (hright v hkept' hnext).bind fun _ w _ hgrows₄ hsecond => ?_
  refine (sumLookup_exec L hregister (by decide) (by decide)).bind fun _ w' _ hgrows₅ hsum => ?_
  refine (clearFrom_exec L (by decide)).bind fun _ w'' _ hgrows₆ hclear => ?_
  refine (release_exec hgood.mark).mono fun _ t _ hgrows₇ hrelease => ?_
  obtain ⟨hstill', hmark₇⟩ := hrelease
  have htail := hsum.trans hgrows₆ hclear
  refine ⟨hop, hone ▸ hwidth, u, v, w, hfirst, hsecond, hfree, hkept', hnext,
    htail.kept.trans hstill'.kept, hmark₇, hgrows₂.trans hgrows₃, hgrows₄,
    (hgrows₅.trans hgrows₆).trans hgrows₇, fun d => ?_, fun d => ?_⟩
  · refine (hstill.does L d).trans hgrows₃ ?_
    rintro _ rfl
    have himmediate : L.IsData immediate := isData_of_lt (by decide)
    refine ((hcopied (Or.inr himmediate)).does d).mono ?_
    rintro - _ rfl
    rw [read_data himmediate]
  · refine (htail.does d).trans hgrows₇ ?_
    rintro _ rfl
    exact hstill'.does L _

variable {L}

/-- A sum runs as its operands do, one behind the other. -/
theorem Sums.does {u v w t : State} {d : Contents} {A C : Contents → Prop}
    {B : Contents → Contents → Prop} (h : Sums L s u v w t) (hleft : Does L s u d A)
    (hright : ∀ d₁, A d₁ → Does L v w (d₁.set (register s.mark) (d₁ immediate)) (B d₁))
    (hend : ∀ d₁ d₂, A d₁ → B d₁ d₂ →
      C ((d₂.set immediate (d₂ (register s.mark) + d₂ immediate)).write (immediate + 1)
        (registerSize - 1) 0)) : Does L s t d C := by
  refine hleft.trans (h.front.trans (h.middle.trans h.behind)) fun d₁ hd₁ => ?_
  refine (h.saves d₁).trans (h.middle.trans h.behind) ?_
  rintro _ rfl
  refine (hright d₁ hd₁).trans h.behind fun d₂ hd₂ => ?_
  refine (h.adds d₂).mono ?_
  rintro - _ rfl
  exact hend d₁ d₂ hd₁ hd₂

variable (L)

/-- A sum is evaluated, and the low byte of its left operand stays in the register that was free. -/
theorem sum_exec {left right : Expr} {i : Info} {σ : Source.Slots} (hmark : σ.mark ≤ s.mark)
    (hregisters : σ.registers = s.bindings.registers)
    (hleft : Exec (expr left) s fun _ t => Evaluates L σ left s t)
    (hright : ∀ u, σ.mark ≤ u.mark → σ.registers = u.bindings.registers →
      Exec (expr right) u fun _ t => Evaluates L σ right u t) {op : BinaryOp} :
    Exec (expr (.binary op left right i)) s fun _ t => Kept s t ∧ t.mark = s.mark ∧
      (∀ a ∈ Source.temporaries s.mark (.binary op left right i),
        register s.mark ≤ a ∧ a < addTable) ∧
      ∀ m v d, Known L σ.mark m d → Source.eval L.world σ m (.binary op left right i) = some v →
        ∃ x, Source.eval L.world σ m left = some x ∧ Does L s t d fun d' =>
          Leaves (Source.temporaries s.mark (.binary op left right i)) v d d' ∧
            (d' (register s.mark)).toNat = x % 256 := by
  have hright' : ∀ v, Kept s v → v.mark = s.mark + 1 →
      Exec (expr right) v fun _ w => Evaluates L σ right v w :=
    fun v hkept hnext => hright v (by omega) (by rw [hkept.bindings]; exact hregisters)
  refine (sum_emits L hleft (fun u h => ⟨h.kept, h.mark⟩) hright').mono fun _ t _ _ hend => ?_
  obtain ⟨-, -, u₁, u₃, u₄, hfirst, hsecond, hsums⟩ := hend
  have hregister := register_lt hsums.free
  have htemps := hsecond.temps
  have hsecondDoes := hsecond.does
  rw [hsums.mark] at htemps hsecondDoes
  have hsucc := register_succ hsums.free
  refine ⟨(hsums.kept.trans hsecond.kept).trans hsums.kept_end, hsums.mark_end,
    fun a ha => ?_, fun m v d hknown hv => ?_⟩
  · rw [Source.temporaries] at ha
    rcases List.mem_append.mp ha with ha | ha
    · exact hfirst.temps a ha
    rcases List.mem_cons.mp ha with rfl | ha
    · exact ⟨Nat.le_refl _, hregister⟩
    · have hrange := htemps a ha
      omega
  obtain ⟨x, y, hx, hy, -, -, rfl⟩ := Source.eval_binary.mp hv
  -- saving the left operand leaves what the right one may read as it was
  have hrightDoes : ∀ d₁, Leaves (Source.temporaries s.mark left) x d d₁ →
      Does L u₃ u₄ (d₁.set (register s.mark) (d₁ immediate))
        (Leaves (Source.temporaries (s.mark + 1) right) y
          (d₁.set (register s.mark) (d₁ immediate))) := by
    intro d₁ hd₁
    have hother : ∀ a, a < immediate ∨ immediate + registerSize ≤ a →
        a ∉ Source.temporaries s.mark left ++ [register s.mark] →
        (d₁.set (register s.mark) (d₁ immediate)) a = d a := by
      intro a ha htemp
      simp only [List.mem_append, List.mem_singleton, not_or] at htemp
      rw [Contents.set_of_ne htemp.2]
      exact hd₁.other a ha htemp.1
    refine hsecondDoes m y _ (hknown.mono hmark hsums.free.le hother fun a ha => ?_) hy
    rcases List.mem_append.mp ha with ha | ha
    · exact hfirst.temps a ha
    · obtain rfl := List.mem_singleton.mp ha
      exact ⟨Nat.le_refl _, hregister⟩
  refine ⟨x, hx, hsums.does (hfirst.does m x d hknown hx) hrightDoes fun d₁ d₂ hd₁ hd₂ => ?_⟩
  rw [Source.temporaries]
  refine hd₁.sum hsums.free hd₂ fun a ha => ?_
  have hrange := htemps a ha
  simp only [registerSize] at hsucc
  omega

/-- The low bytes of the two operands are added by one look-up in a table. -/
theorem add_exec {left right : Expr} {i : Info} {σ : Source.Slots} (hmark : σ.mark ≤ s.mark)
    (hregisters : σ.registers = s.bindings.registers)
    (hleft : Exec (expr left) s fun _ t => Evaluates L σ left s t)
    (hright : ∀ u, σ.mark ≤ u.mark → σ.registers = u.bindings.registers →
      Exec (expr right) u fun _ t => Evaluates L σ right u t) {op : BinaryOp} :
    Exec (expr (.binary op left right i)) s fun _ t =>
      Evaluates L σ (.binary op left right i) s t := by
  refine (sum_exec L hmark hregisters hleft hright).mono fun _ t _ _ hend => ?_
  obtain ⟨hkept, hmark', htemps, hdoes⟩ := hend
  refine ⟨hkept, hmark', htemps, fun m v d hknown hv => ?_⟩
  obtain ⟨x, -, hsum⟩ := hdoes m v d hknown hv
  exact hsum.mono fun _ _ hd' => hd'.1

/-- The code of an expression evaluates it. -/
theorem expr_exec {vars : Variable → Prop} {σ : Source.Slots} : ∀ {e : Expr} {s : State},
    e.Proper vars → σ.registers = s.bindings.registers → σ.mark ≤ s.mark →
    Exec (expr e) s fun _ t => Evaluates L σ e s t
  | .int value i, s, _, _, _ => by
      rw [expr]
      have hbound : value.toNat < 256 ^ registerSize := value.isLt
      refine (setImmediate_exec L hbound).mono fun _ t _ _ hend => ?_
      obtain ⟨hkept, hmark, hdoes⟩ := hend
      refine ⟨hkept, hmark, by simp [Source.temporaries], fun m v d _ hv => ?_⟩
      obtain rfl := Option.some.inj hv
      exact hdoes d
  | .str text i, s, _, _, _ => by
      refine (string_exec L text i).mono fun _ t _ _ hend => ?_
      obtain ⟨hkept, hmark, hdoes⟩ := hend
      refine ⟨hkept, hmark, by simp [Source.temporaries], fun m v d _ hv => ?_⟩
      obtain rfl := Option.some.inj hv
      exact hdoes d
  | .variable v i, s, _, hregisters, hmark => by
      refine .good fun hgood => ?_
      refine (variable_exec L v i hregisters (Nat.le_trans hmark hgood.mark)).mono ?_
      intro _ t _ _ hend
      obtain ⟨hkept, hmark', hdoes⟩ := hend
      exact ⟨hkept, hmark', by simp [Source.temporaries], hdoes⟩
  | .label use i, s, _, _, _ => by
      refine (label_exec L use i).mono fun _ t _ _ hend => ?_
      obtain ⟨hkept, hmark, hdoes⟩ := hend
      refine ⟨hkept, hmark, by simp [Source.temporaries], fun m v d _ hv => ?_⟩
      obtain ⟨label, htarget, rfl⟩ := Option.map_eq_some_iff.mp hv
      exact hdoes label d htarget
  | .cast operand i, s, h, hregisters, hmark => cast_exec L (expr_exec h hregisters hmark)
  | .unary .plus operand i, s, h, hregisters, hmark => by
      rw [expr]
      refine (expr_exec h.2 hregisters hmark).mono fun _ t _ _ hend => ?_
      refine ⟨hend.kept, hend.mark, hend.temps, fun m v d hknown hv => ?_⟩
      exact hend.does m v d hknown (Source.eval_plus.symm.trans hv)
  | .unary .not operand i, s, h, hregisters, hmark =>
      not_exec L h.1 (expr_exec h.2 hregisters hmark)
  | .unary .deref operand i, s, h, hregisters, hmark =>
      deref_exec L hmark (expr_exec h.2 hregisters hmark)
  | .unary .negate operand i, s, _, _, _ => by
      rw [expr]
      exact .throw
  | .unary .complement operand i, s, _, _, _ => by
      rw [expr]
      exact .throw
  | .binary op left right i, s, h, hregisters, hmark =>
      add_exec L hmark hregisters (expr_exec h.1 hregisters hmark) fun _ hmark' hregisters' =>
        expr_exec h.2 hregisters' hmark'
  | .index base indices i, s, _, _, _ => by
      rw [expr]
      exact .throw

end Emit

end ByteJump
