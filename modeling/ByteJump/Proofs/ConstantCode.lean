import ByteJump.Proofs.ExpressionCode

set_option autoImplicit false

/-!
# Code of constants

A closed expression is made of numbers, labels, casts, `+` and `!`.  Its code computes what it is
worth as a constant once all labels are placed, with each sum in it cut down to the type of its
operands; so where no sum exceeds a byte, code and constants agree.
-/

namespace ByteJump

open Assembly Memory

namespace Emit

open Linked Resolve

/-- Emitted at a state, the code of an expression computes a constant: what the expression is worth
if its sums are cut down to the type of their operands, and what it is worth itself if no sum exceeds
a byte. -/
def Folds (image : Image) (t : State) (x : Expr) (s : State) : Prop :=
  ∃ u own value, expr x s = .ok ⟨⟩ u ∧ u.pieces.toList = s.pieces.toList ++ own ∧
    u.position = s.position + Assembly.size own ∧
    Constant.evaluate t.env x.wrapped = .ok value ∧
    (x.NoCarry t.env → Constant.evaluate t.env x = .ok value) ∧
    ∀ m, Machine.At image t.halted.pieces.toList s.position m →
      m.Arrives image t.halted.pieces.toList u.position
        (Machine.Computed s.mark s.position own value.toNat m)

section Folds

variable {p : Program} {b : Bindings} {log : List Event} {s t : State} {artifact : Artifact}
  {x : Expr}

/-- A label in the code is worth the same in constants as in the code. -/
theorem Emission.agreeing (h : Emission p b log t artifact)
    (hfits : artifact.image.size + Machine.scratchSize ≤ addressSpace) {l : Label}
    (hl : t.Addresses l) (m : Machine) : Expr.Agreeing (scene s t m) t.env l := by
  obtain ⟨haddress, hbound⟩ := h.label_linked hfits hl
  refine ⟨_, haddress, hbound, fun use site htarget => ?_⟩
  unfold State.env Constant.ofTarget
  simp only [htarget, State.address, haddress]
  rfl

/-- An expression that is emitted has a value in every memory. -/
theorem Sited.value (h : Emission p b log t artifact)
    (hfits : artifact.image.size + Machine.scratchSize ≤ addressSpace) (hsite : Sited t x s)
    (m : Machine) : ∃ v, x.value (scene s t m) = some v := by
  obtain ⟨u, hrun, -⟩ := hsite.run
  obtain ⟨-, -, hcomputes⟩ := (expr_computes (h.linked hfits) (hsite.serves h hfits m)
    (fun _ => rfl) (Nat.le_refl _)).run hsite.good _ u hrun
  obtain ⟨v, hv, -⟩ := hcomputes.value
  exact ⟨v, hv⟩

/-- A closed expression has one value, and it is that of a constant. -/
theorem Sited.constant (h : Emission p b log t artifact)
    (hfits : artifact.image.size + Machine.scratchSize ≤ addressSpace) (hsite : Sited t x s)
    (hclosed : x.Closed) : ∃ value, Constant.evaluate t.env x.wrapped = .ok value ∧
      (x.NoCarry t.env → Constant.evaluate t.env x = .ok value) ∧
      ∀ m, x.value (scene s t m) = some value.toNat := by
  obtain ⟨builtins, htyped⟩ := hsite.typed
  have hagreeing : ∀ m, x.LabelsIn (Expr.Agreeing (scene s t m) t.env) := fun m =>
    hsite.labels.mono fun l hl => h.agreeing hfits hl m
  have hworth : ∀ m v, x.value (scene s t m) = some v →
      Constant.evaluate t.env x.wrapped = .ok (BitVec.ofNat 128 v) := fun m v hv =>
    Expr.evaluate_wrapped htyped hclosed (hagreeing m) hv
  obtain ⟨v, hv⟩ := hsite.value h hfits (Machine.ofImage artifact.image)
  refine ⟨_, hworth _ v hv, fun hcarry => ?_, fun m => ?_⟩
  · rw [← Expr.evaluate_of_noCarry htyped hclosed hcarry (hagreeing _) hv]
    exact hworth _ v hv
  · obtain ⟨v', hv'⟩ := hsite.value h hfits m
    have hsame : BitVec.ofNat 128 v' = BitVec.ofNat 128 v :=
      Except.ok.inj ((hworth m v' hv').symm.trans (hworth _ v hv))
    have hword := Expr.value_lt_word (Expr.labelsIn_standing (hagreeing m)) hv'
    rw [hv', ← hsame, Expr.toNat_word hword]

/-- Wherever a closed expression is emitted, its code computes a constant. -/
theorem Emission.folds (h : Emission p b log t artifact)
    (hfits : artifact.image.size + Machine.scratchSize ≤ addressSpace) (hsite : Sited t x s)
    (hclosed : x.Closed) : Folds artifact.image t x s := by
  obtain ⟨value, hwrapped, hplain, hvalue⟩ := hsite.constant h hfits hclosed
  obtain ⟨u, own, hrun, hpieces, hposition, hcomputes⟩ := h.recomputes hfits hsite
  refine ⟨u, own, value, hrun, hpieces, hposition, hwrapped, hplain, fun m hm => ?_⟩
  obtain ⟨v, hv, hends⟩ := hcomputes m hm
  obtain rfl : v = value.toNat := Option.some.inj (hv.symm.trans (hvalue m))
  exact hends (by rw [Expr.reads_of_closed hclosed]; exact nofun)

end Folds

end Emit

namespace Session

open Emit Resolve

/-- Constants and code agree up to the carry of sums.  Wherever a closed expression of an accepted
program is emitted, its code leaves in the immediate register what the expression is worth as a
constant, with the final addresses of labels and with each sum cut down to the type of its operands;
where no sum exceeds a byte, that is what the expression itself is worth. -/
theorem constants_computed (source : FileSource) (dirs : List Path)
    (mains : List (Syntax.Program × Path)) (tree : Syntax.Program) (file : Path) (b : Bindings)
    {p : Program} {artifact : Artifact}
    (hresolve : ((afterMains source dirs mains).resolve tree file).1 = .ok p)
    (hgenerate : (p.generate b).1 = .ok artifact)
    (hfits : artifact.image.size + Machine.scratchSize ≤ addressSpace) :
    ∃ log t, Emission p b log t artifact ∧
      ∀ x s, Occurs log x s → x.Closed → Folds artifact.image t x s := by
  obtain ⟨J, turn, hG, hrooted, hp, hJ⟩ := sound_of_resolve hresolve
  obtain ⟨log, t, h⟩ := emission_of_generate hgenerate
  exact ⟨log, t, h, fun x s hx =>
    h.folds hfits (h.sited hG hrooted hJ hp (h.linked hfits) hx)⟩

/-- A test of a sum that exceeds a byte, run from the image as it is loaded. -/
theorem constants_computed_carry :
    let byte : Nat → Syntax.Expr := fun n => .cast (.int (.ofNat 128 n) .zero) (.named "n8" .zero) .zero
    let test : Syntax.Expr := .unary .not (.binary .add (byte 200) (byte 56) .zero) .zero
    let tree : Syntax.Program := [.mk [] (.evaluate test) .zero]
    ∃ p artifact, ((afterMains (MemoryFiles.source []) [] []).resolve tree ⟨"main"⟩).1 = .ok p ∧
      (p.generate .none).1 = .ok artifact ∧
      artifact.image.size + Machine.scratchSize ≤ addressSpace ∧
      ∃ log t, Emission p .none log t artifact ∧
        (∀ x s, Occurs log x s → x.Closed → Folds artifact.image t x s) ∧
        ∃ x s value k m', Occurs log x s ∧ x.Closed ∧
          Constant.evaluate t.env x.wrapped = .ok value ∧
          ({ Machine.ofImage artifact.image with pc := s.position } : Machine).stepped k = .ok m' ∧
          m'.immediate? = some value.toNat := by
  intro byte test tree
  have hchecked : runnable (fun p => (Stmt.listSubs p.statements).any (Stmt.evaluates fun x =>
      decide x.Closed)) ((afterMains (MemoryFiles.source []) [] []).resolve tree ⟨"main"⟩).1
      .none = true := by
    decide +kernel
  obtain ⟨p, artifact, hresolve, hgenerate, hevaluates, hfits⟩ := exists_of_runnable hchecked
  obtain ⟨log, t, h, hfolds⟩ := constants_computed (MemoryFiles.source []) [] [] tree ⟨"main"⟩ .none
    hresolve hgenerate hfits
  obtain ⟨x, s, hx, hclosed⟩ := h.occurs hevaluates
  have hclosed := of_decide_eq_true hclosed
  obtain ⟨u, own, value, -, -, -, hvalue, -, hends⟩ := hfolds x s hx hclosed
  obtain ⟨k, m', hstepped, -, -, hcomputed⟩ := hends _ (Machine.at_ofImage artifact.image _ s.position)
  exact ⟨p, artifact, hresolve, hgenerate, hfits, log, t, h, hfolds, x, s, value, k, m', hx, hclosed,
    hvalue, hstepped, hcomputed.immediate⟩

end Session

end ByteJump
