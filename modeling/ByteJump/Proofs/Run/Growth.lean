import ByteJump.Proofs.Emit.Trace
import ByteJump.Proofs.Run.Points
import ByteJump.Proofs.Run.Statements

set_option autoImplicit false

/-!
# Growth of the code

Whatever expressions, branches and words are emitted, a good state grows to a good state, in which
nothing but the code has changed.  Behind an expression its strings are remembered.

For code that is not run at the moment one still has to know that the emission goes on in good
order: this is what `…_grows` says of each part, in the form of `Exec`, with the postcondition
that only code was added.  The lemmas are used where a program is looked at as a whole, for the
parts in front of the one in question and behind it.  The strings of an expression matter in
addition, because constants in raw words refer to them: they are remembered from the expression
on.
-/

namespace ByteJump

namespace Emit

open Assembly Memory Linked

variable {s t u : State} {α β : Type} {Q : α → State → Prop}

/-! ## Expressions -/

/-- Code was emitted and nothing else has changed. -/
structure Adds (s t : State) : Prop where
  kept : Kept s t
  mark : t.mark = s.mark

theorem Adds.refl (s : State) : Adds s s := ⟨.refl s, rfl⟩

/-- What is added behind what was added. -/
theorem Adds.trans (h : Adds s t) (h' : Adds t u) : Adds s u :=
  ⟨h.kept.trans h'.kept, h'.mark.trans h.mark⟩

/-- Code with an effect on data adds pieces and changes nothing else. -/
theorem Effect.adds {L : Linked} {F : Contents → Contents} (h : Effect L s t F) : Adds s t :=
  ⟨h.kept, h.mark⟩

/-- The strings of an expression have addresses. -/
def Remembers (e : Expr) (t : State) : Prop :=
  ∀ text ∈ e.strings, ∃ a, t.strings.lookup text = some a

/-- What is remembered is not forgotten while code grows. -/
theorem Remembers.mono {e : Expr} (h : Remembers e s) (hgrows : Grows s t) : Remembers e t := by
  intro text htext
  obtain ⟨a, ha⟩ := h text htext
  exact ⟨a, hgrows.strings text a ha⟩

theorem remembers_nil {e : Expr} (h : e.strings = []) : Remembers e t := by
  intro text htext
  rw [h] at htext
  cases htext

section Expressions

-- the code is linked in some way, which has no part in what is said here
variable (L : Linked)

include L

theorem clearFrom_grows (width : Nat) (h : width ≤ registerSize) :
    Exec (clearFrom width) s fun _ t => Adds s t :=
  (clearFrom_exec L h).mono fun _ _ _ _ h => h.adds

/-- The register it counts in is given back. -/
theorem logicalNot_grows (width : Nat) (site : Location) :
    Exec (logicalNot width site) s fun _ t => Adds s t := by
  have hclamp : logicalNot width site = logicalNot (max 1 (min width registerSize)) site := by
    unfold logicalNot
    have hwidth : max 1 (min (max 1 (min width registerSize)) registerSize) =
        max 1 (min width registerSize) := by
      simp only [registerSize]
      omega
    rw [hwidth]
  rw [hclamp]
  refine (logicalNot_exec L site (Nat.le_max_left _ _) ?_).mono fun _ _ _ _ h => ⟨h.1, h.2.1⟩
  simp only [registerSize]
  omega

/-- What stands behind the operand of a cast. -/
theorem narrow_grows (i : Info) : Exec (do
    let width ← widthOf i.type i.site
    if width < registerSize then clearFrom width) s fun _ t => Adds s t := by
  refine (narrow_exec L i).mono fun _ t _ _ hnarrow => ?_
  obtain ⟨width, -, hclear⟩ := hnarrow
  exact hclear.adds

/-- What stands behind the operand of a logical not. -/
theorem negate_grows (operand : Expr) (site : Location) : Exec (do
    let width ← widthOf operand.type operand.site
    logicalNot width site) s fun _ t => Adds s t := by
  refine (widthOf_exec operand.type operand.site).bind fun width v _ _ hwidth => ?_
  obtain ⟨rfl, -⟩ := hwidth
  exact logicalNot_grows L width site

/-- What stands behind the operand of a dereference. -/
theorem follow_grows : Exec (do
    patched (wholeField immediate sourceField) 0 immediate
    clearFrom 1) s fun _ t => Adds s t :=
  (follow_exec L).mono fun _ _ _ _ hfollow => ⟨hfollow.1, hfollow.2.1⟩

/-- What stands behind both operands of a sum. -/
theorem sum_grows {saved mark : Nat} (hsaved : register saved < addTable)
    (hmark : mark ≤ registerCount) : Exec (do
    patched [(register saved, sourceField + 1), (immediate, sourceField)] addTable immediate
    clearFrom 1
    release mark) s fun _ t => Kept s t ∧ t.mark = mark := by
  refine (sumLookup_exec L hsaved (by decide) (by decide)).bind fun _ u _ _ hsum => ?_
  refine (clearFrom_grows L 1 (by decide)).bind fun _ v _ _ hclear => ?_
  refine (release_exec hmark).mono fun _ t _ _ hrelease => ⟨?_, hrelease.2⟩
  exact (hsum.kept.trans hclear.kept).trans hrelease.1.kept

/-- A string is remembered with its address, whether it was laid down before or is now. -/
theorem str_grows (text : String) (i : Info) {s : State} :
    Exec (expr (.str text i)) s fun _ t => Adds s t ∧ Remembers (.str text i) t := by
  rw [expr]
  refine (stringConstant_exec L text).bind fun a u _ _ hstring => ?_
  refine (setBytes_exec L (by decide)).bind fun _ v _ hgrows hlow => ?_
  refine (setBytes_exec L (by decide)).mono fun _ t _ hgrows' hhigh => ?_
  refine ⟨(hstring.1.adds.trans hlow.adds).trans hhigh.adds, fun other hother => ?_⟩
  obtain rfl := List.mem_singleton.mp hother
  exact ⟨a, (hgrows.trans hgrows').strings other a hstring.2⟩

/-- The word stands behind a jump over it. -/
theorem labelUse_grows (use : LabelUse) (i : Info) {s : State} :
    Exec (expr (.label use i)) s fun _ t => Adds s t ∧ Remembers (.label use i) t := by
  rw [expr]
  cases use.target with
  | none => exact .throw
  | some label =>
      refine (jumpOver_exec L rfl).bind fun address u _ _ hjump => ?_
      refine (copyRange_exec L (by decide)).bind fun _ v _ _ hcopy => ?_
      refine (clearFrom_grows L _ (by decide)).mono fun _ t _ _ hclear =>
        ⟨?_, remembers_nil rfl⟩
      exact (hjump.1.adds.trans ⟨hcopy.1, hcopy.2.1⟩).trans hclear

/-- What the left operand remembers is still remembered behind the right one. -/
theorem binary_grows (op : BinaryOp) {left right : Expr} (i : Info) {s : State}
    (hleft : ∀ {s : State}, Exec (expr left) s fun _ t => Adds s t ∧ Remembers left t)
    (hright : ∀ {s : State}, Exec (expr right) s fun _ t => Adds s t ∧ Remembers right t) :
    Exec (expr (.binary op left right i)) s fun _ t =>
      Adds s t ∧ Remembers (.binary op left right i) t := by
  refine (sum_emits L hleft (fun u h => ⟨h.1.kept, h.1.mark⟩)
    fun v _ _ => hright).mono fun _ t _ _ hend => ?_
  obtain ⟨-, -, u, v, w, hleft, hright, hsums⟩ := hend
  refine ⟨⟨(hsums.kept.trans hright.1.kept).trans hsums.kept_end, hsums.mark_end⟩,
    fun text htext => ?_⟩
  have hbehind := hsums.front.trans (hsums.middle.trans hsums.behind)
  rcases List.mem_append.mp htext with htext | htext
  · exact hleft.2.mono hbehind text htext
  · exact hright.2.mono hsums.behind text htext

/-- Emitting an expression adds code, and remembers its strings. -/
theorem expr_grows (e : Expr) {s : State} : Exec (expr e) s fun _ t => Adds s t ∧ Remembers e t := by
  cases e with
  | int value i =>
      rw [expr]
      exact (setBytes_exec L (by decide)).mono fun _ _ _ _ h => ⟨h.adds, remembers_nil rfl⟩
  | str text i => exact str_grows L text i
  | «variable» v i =>
      rw [expr]
      cases v.count with
      | some count => exact .throw
      | none =>
          refine .get ?_
          cases s.bindings.register? v with
          | some r =>
              exact (copyRange_exec L (by decide)).mono fun _ _ _ _ h =>
                ⟨⟨h.1, h.2.1⟩, remembers_nil rfl⟩
          | none => exact .throw
  | label use i => exact labelUse_grows L use i
  | cast operand i =>
      rw [expr]
      refine (expr_grows operand).bind fun _ u _ _ hoperand => ?_
      exact (narrow_grows L i).mono fun _ t _ hgrows hnarrow =>
        ⟨hoperand.1.trans hnarrow, hoperand.2.mono hgrows⟩
  | unary op operand i =>
      cases op with
      | plus =>
          rw [expr]
          exact expr_grows operand
      | not =>
          rw [expr]
          refine (expr_grows operand).bind fun _ u _ _ hoperand => ?_
          exact (negate_grows L operand i.site).mono fun _ t _ hgrows hnegate =>
            ⟨hoperand.1.trans hnegate, hoperand.2.mono hgrows⟩
      | deref =>
          rw [expr]
          refine (expr_grows operand).bind fun _ u _ _ hoperand => ?_
          exact (follow_grows L).mono fun _ t _ hgrows hfollow =>
            ⟨hoperand.1.trans hfollow, hoperand.2.mono hgrows⟩
      | negate | complement =>
          rw [expr]
          exact .throw
  | binary op left right i => exact binary_grows L op i (expr_grows left) (expr_grows right)
  | index base indices i =>
      rw [expr]
      exact .throw

/-! ## Branches and stores -/

/-- The table is placed behind a jump, and the choice writes into its own jump. -/
theorem turn_grows (condition : Expr) (taken otherwise : Target) :
    Exec (turn condition taken otherwise) s fun _ t => Adds s t := by
  unfold turn
  refine (widthOf_exec condition.type condition.site).bind fun width v _ _ hwidth => ?_
  obtain ⟨rfl, -⟩ := hwidth
  refine (logicalNot_grows L width condition.site).bind fun _ u₁ _ _ hnot => ?_
  refine (jumpOverAligned_exec L (by decide) (by decide) rfl).bind fun table u₂ _ _ htable => ?_
  refine .position ?_
  rw [Nat.mul_assoc]
  refine (choice_exec L table).mono fun _ t _ _ hchoice => ?_
  exact (hnot.trans htable.1.adds).trans ⟨hchoice.1, hchoice.2.1⟩

/-- The condition first, and then the choice. -/
theorem branch_grows (condition : Expr) (taken otherwise : Target) :
    Exec (branch condition taken otherwise) s fun _ t => Adds s t :=
  (expr_grows L condition).bind fun _ _ _ _ hvalue =>
    (turn_grows L condition taken otherwise).mono fun _ _ _ _ hturn => hvalue.1.trans hturn

omit L in
/-- A jump to the address in the immediate register. -/
theorem jump_grows : Exec (do
    patches (← behindPatches (wholeField immediate nextField).length) (wholeField immediate nextField)
    instruction 0 0 0) s fun _ t => Adds s t := by
  have hrun : (do
      patches (← behindPatches (wholeField immediate nextField).length)
        (wholeField immediate nextField)
      instruction 0 0 0) s = .ok () (s.emit (patchPieces (s.position + addressSize * instructionSize)
        s.position (wholeField immediate nextField) ++ [.instruction 0 0 (.known 0)])) := by
    have hbehind : behindPatches (wholeField immediate nextField).length s =
        .ok (s.position + addressSize * instructionSize) s := rfl
    rw [run_bind hbehind, run_bind (run_patches _ _ s), run_instruction, State.emit_emit]
  refine .of_run hrun (fun a ha => ?_) fun _ => ⟨.emit _ _, rfl⟩
  rw [destinations_append, destinations_patchPieces] at ha
  rw [size_append, size_patchPieces]
  rcases List.mem_append.mp ha with ha | ha
  · obtain ⟨f, hf, rfl⟩ := List.mem_map.mp ha
    obtain ⟨i, hi, rfl⟩ := List.mem_map.mp hf
    have hi := List.mem_range.mp hi
    refine Or.inr ⟨by omega, ?_⟩
    simp only [wholeField, List.length_map, List.length_range, Assembly.size, List.map_cons,
      List.map_nil, List.sum_cons, List.sum_nil, Piece.size, addressSize, instructionSize, nextField]
      at hi ⊢
    omega
  · obtain rfl : a = 0 := List.mem_singleton.mp ha
    exact Or.inl (by decide)

/-! ## Raw words -/

omit L in
/-- By induction on the words, each of which is one piece. -/
theorem words_grows : ∀ (values : List Expr) {s : State}, Exec (words values) s fun _ t => Adds s t
  | [], s => .pure (.refl s)
  | value :: values, s => by
      have hpush : ∀ w : Word, Exec (push (.word w)) s fun _ t => Adds s t := fun w =>
        .of_run (run_push _ s) (fun _ => nofun) fun _ => ⟨.emit _ _, rfl⟩
      have hrest : ∀ u, Adds s u → Exec (words values) u fun _ t => Adds s t := fun u hu =>
        (words_grows values).mono fun _ _ _ _ ht => hu.trans ht
      rw [words]
      split
      · exact (hpush _).bind fun _ u _ _ hu => hrest u hu
      · refine .get ?_
        cases s.constant value with
        | ok n => exact (hpush _).bind fun _ u _ _ hu => hrest u hu
        | error fault => exact Exec.throw

theorem strings_grow : ∀ (texts : List String) {s : State}, Exec (texts.forM fun text => do
    let _ ← stringConstant text) s fun _ t => Adds s t
  | [], s => .pure (.refl s)
  | text :: texts, s => by
      show Exec ((do let _ ← stringConstant text) >>= fun _ =>
        texts.forM fun text => do let _ ← stringConstant text) s fun _ t => Adds s t
      have hfirst : Exec (do let _ ← stringConstant text) s fun _ t => Adds s t :=
        (stringConstant_exec L text).bind fun _ _ _ _ h => .pure h.1.adds
      exact hfirst.bind fun _ u _ _ hu => (strings_grow texts).mono fun _ _ _ _ ht => hu.trans ht

/-- The strings come first, and then the words. -/
theorem rawWords_grows (values : List Expr) :
    Exec (rawWords values) s fun _ t => Adds s t :=
  (strings_grow L _).bind fun _ _ _ _ hu => (words_grows values).mono fun _ _ _ _ ht => hu.trans ht

end Expressions

end Emit

end ByteJump
