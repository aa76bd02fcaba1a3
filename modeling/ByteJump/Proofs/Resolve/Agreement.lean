import ByteJump.Proofs.Renaming
import ByteJump.Resolve.Expr

set_option autoImplicit false

/-!
# Resolving the same text twice

The same text is resolved by two computations.  The left one keeps the imports it resolves, the
right one keeps nothing.  They agree when they end alike: both with values that are equal up to
renaming, or both with faults that are equal up to the spelling of paths.  The imports on the left
satisfy an invariant all the way.

A lenient comparison says nothing when the computation on the right faults.  It serves to carry a
success over from one context to another.
-/

namespace ByteJump.Resolve

/-! ## Agreement -/

/-- How the two sides of a comparison are brought to the same names, what holds of the imports on
the left, and whether faults on the right are left out of the comparison. -/
structure Bond where
  left : Renaming
  right : Renaming
  left_injective : left.unit.Injective
  right_injective : right.unit.Injective
  same_path : left.path = right.path
  holds : Imports → Prop
  lenient : Prop

namespace Bond

/-- Two faults that are the same up to spelling, if faults are compared. -/
def Faults (b : Bond) (e f : Fault) : Prop := b.lenient ∨ e.rename b.left = f.rename b.right

/-- Two states that are the same up to renaming. -/
def States (b : Bond) (s t : State) : Prop := s.rename b.left = t.rename b.right

end Bond

/-- Two computations that may resolve imports agree. -/
def LoadsAlike {α β : Type} (b : Bond) (R : α → β → Prop) (x : Loading α) (y : Loading β) : Prop :=
  ∀ I, b.holds I →
    match y [] with
    | .ok c J => J = [] ∧ ∃ a I', x I = .ok a I' ∧ R a c ∧ b.holds I'
    | .error f J => J = [] ∧ (b.lenient ∨
        ∃ e I', x I = .error e I' ∧ e.rename b.left = f.rename b.right ∧ b.holds I')

/-- Two computations inside a file agree, from states that are the same up to renaming on. -/
def Agrees {α β : Type} (b : Bond) (R : α → β → Prop) (x : Resolving α) (y : Resolving β) : Prop :=
  ∀ s t, b.States s t → LoadsAlike b (fun a c => R a.1 c.1 ∧ b.States a.2 c.2) (x s) (y t)

variable {α β γ δ : Type} {b : Bond}

/-! ## Rules for computations that load -/

theorem LoadsAlike.pure {R : α → β → Prop} {a : α} {c : β} (h : R a c) :
    LoadsAlike b R (Pure.pure a) (Pure.pure c) :=
  fun I hI => ⟨rfl, a, I, rfl, h, hI⟩

theorem LoadsAlike.throw {R : α → β → Prop} {e f : Fault} (h : b.Faults e f) :
    LoadsAlike b R (throw e) (throw f) :=
  fun I hI => ⟨rfl, h.imp id fun h => ⟨e, I, rfl, h, hI⟩⟩

theorem LoadsAlike.bind {R : α → β → Prop} {S : γ → δ → Prop} {x : Loading α} {y : Loading β}
    {f : α → Loading γ} {g : β → Loading δ} (h : LoadsAlike b R x y)
    (hfg : ∀ a c, R a c → LoadsAlike b S (f a) (g c)) : LoadsAlike b S (x >>= f) (y >>= g) := by
  intro I hI
  have h := h I hI
  cases hy : y [] with
  | ok c J =>
      rw [hy] at h
      obtain ⟨rfl, a, I', hx, hR, hI'⟩ := h
      have hxf : (x >>= f) I = f a I' := by
        simp [Bind.bind, EStateM.bind, hx]
      have hyg : (y >>= g) [] = g c [] := by
        simp [Bind.bind, EStateM.bind, hy]
      rw [hxf, hyg]
      exact hfg a c hR I' hI'
  | error e J =>
      rw [hy] at h
      obtain ⟨rfl, h⟩ := h
      have hyg : (y >>= g) [] = .error e [] := by
        simp [Bind.bind, EStateM.bind, hy]
      rw [hyg]
      refine ⟨rfl, h.imp id ?_⟩
      rintro ⟨e', I', hx, he, hI'⟩
      refine ⟨e', I', ?_, he, hI'⟩
      simp [Bind.bind, EStateM.bind, hx]

/-- Only the runs count: those on the left from imports with the invariant, and the one on the
right that starts with none. -/
theorem LoadsAlike.congr {R : α → β → Prop} {x x' : Loading α} {y y' : Loading β}
    (hx : ∀ I, b.holds I → x I = x' I) (hy : y [] = y' []) (h : LoadsAlike b R x' y') :
    LoadsAlike b R x y := by
  intro I hI
  rw [hx I hI, hy]
  exact h I hI

/-- A lenient comparison says nothing when the right side faults. -/
theorem LoadsAlike.of_lenient {R : α → β → Prop} {x : Loading α} {y : Loading β} {f : Fault}
    (hlenient : b.lenient) (hy : y [] = .error f []) : LoadsAlike b R x y := by
  intro I _
  rw [hy]
  exact ⟨rfl, Or.inl hlenient⟩

/-! ## Rules for computations inside a file -/

theorem Agrees.pure {R : α → β → Prop} {a : α} {c : β} (h : R a c) :
    Agrees b R (Pure.pure a) (Pure.pure c) :=
  fun _ _ hst => LoadsAlike.pure ⟨h, hst⟩

theorem Agrees.bind {R : α → β → Prop} {S : γ → δ → Prop} {x : Resolving α} {y : Resolving β}
    {f : α → Resolving γ} {g : β → Resolving δ} (h : Agrees b R x y)
    (hfg : ∀ a c, R a c → Agrees b S (f a) (g c)) : Agrees b S (x >>= f) (y >>= g) :=
  fun s t hst => (h s t hst).bind fun a c hac => hfg a.1 c.1 hac.1 a.2 c.2 hac.2

theorem Agrees.fail {R : α → β → Prop} {e f : Fault} (h : b.Faults e f) :
    Agrees b R (fail e) (fail f) :=
  fun _ _ _ => LoadsAlike.throw h

theorem Agrees.get : Agrees b b.States (MonadState.get : Resolving State) MonadState.get :=
  fun _ _ hst => LoadsAlike.pure ⟨hst, hst⟩

theorem Agrees.set {s t : State} (h : b.States s t) :
    Agrees b (fun _ _ => True) (MonadStateOf.set s : Resolving PUnit) (MonadStateOf.set t) :=
  fun _ _ _ => LoadsAlike.pure ⟨trivial, h⟩

theorem Agrees.update {f g : State → State} (h : ∀ s t, b.States s t → b.States (f s) (g t)) :
    Agrees b (fun _ _ => True) (modify f : Resolving PUnit) (modify g) :=
  fun s t hst => LoadsAlike.pure ⟨trivial, h s t hst⟩

theorem Agrees.lift {R : α → β → Prop} {x : Loading α} {y : Loading β} (h : LoadsAlike b R x y) :
    Agrees b R (liftM x) (liftM y) :=
  fun _ _ hst => h.bind fun _ _ hac => LoadsAlike.pure ⟨hac, hst⟩

/-- Faults may be replaced by other faults as long as these are the same up to spelling too. -/
theorem Agrees.recast {R : α → β → Prop} {x : Resolving α} {y : Resolving β} {φ ψ : Fault → Fault}
    (h : Agrees b R x y)
    (hfault : ∀ e f, e.rename b.left = f.rename b.right →
      (φ e).rename b.left = (ψ f).rename b.right) :
    Agrees b R (tryCatch x fun e => Resolve.fail (φ e)) (tryCatch y fun f => Resolve.fail (ψ f)) := by
  intro s t hst I hI
  have h := h s t hst I hI
  have hrun : ∀ {γ : Type} (z : Resolving γ) (χ : Fault → Fault) (s : State) (I : Imports),
      (tryCatch z fun e => Resolve.fail (χ e)) s I =
        match z s I with
        | .ok a I' => .ok a I'
        | .error e I' => .error (χ e) I' := by
    intro γ z χ s I
    show EStateM.tryCatch (z s) (fun e => Resolve.fail (χ e) s) I = _
    unfold EStateM.tryCatch
    cases z s I <;> rfl
  rw [hrun, hrun]
  cases hy : y t [] with
  | ok c J =>
      rw [hy] at h
      obtain ⟨hJ, a, I', hx, hR, hI'⟩ := h
      rw [hx]
      exact ⟨hJ, a, I', rfl, hR, hI'⟩
  | error f J =>
      rw [hy] at h
      refine ⟨h.1, h.2.imp id ?_⟩
      rintro ⟨e, I', hx, he, hI'⟩
      rw [hx]
      exact ⟨φ e, I', rfl, hfault e f he, hI'⟩

theorem Agrees.ofExcept {R : α → β → Prop} {x : Except Fault α} {y : Except Fault β}
    (hok : ∀ a c, x = .ok a → y = .ok c → R a c)
    (h : (x.mapError (Fault.rename b.left)).map (fun _ => ()) =
      (y.mapError (Fault.rename b.right)).map (fun _ => ())) :
    Agrees b R (ofExcept x) (ofExcept y) := by
  cases x with
  | ok a =>
      cases y with
      | ok c => exact Agrees.pure (hok a c rfl rfl)
      | error f => simp [Except.mapError, Except.map] at h
  | error e =>
      cases y with
      | ok c => simp [Except.mapError, Except.map] at h
      | error f =>
          simp only [Except.mapError, Except.map, Except.error.injEq] at h
          exact Agrees.fail (Or.inr h)

end ByteJump.Resolve
