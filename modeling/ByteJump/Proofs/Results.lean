import Mathlib.Data.List.Forall2

set_option autoImplicit false

/-!
# Steps that may fail

Steps one behind the other come to a result exactly if each of them does, and their fault is that of
the first one that has a fault.
-/

namespace ByteJump

variable {ε α β : Type}

/-- A computation that is said to have a result has one. -/
theorem exists_of_isOk {x : Except ε α} (h : x.isOk = true) : ∃ a, x = .ok a := by
  cases x with
  | error fault => cases h
  | ok a => exact ⟨a, rfl⟩

/-! ## Two steps -/

theorem Except.bind_eq_ok {x : Except ε α} {f : α → Except ε β} {b : β} :
    (x >>= f) = .ok b ↔ ∃ a, x = .ok a ∧ f a = .ok b := by
  cases x with
  | error fault => exact ⟨nofun, fun ⟨_, h, _⟩ => nomatch h⟩
  | ok a => exact ⟨fun h => ⟨a, rfl, h⟩, fun ⟨_, h, hf⟩ => by cases h; exact hf⟩

theorem Except.bind_eq_error {x : Except ε α} {f : α → Except ε β} {fault : ε} :
    (x >>= f) = .error fault ↔ x = .error fault ∨ ∃ a, x = .ok a ∧ f a = .error fault := by
  cases x with
  | error other =>
      refine ⟨fun h => Or.inl ?_, fun h => ?_⟩
      · cases h
        rfl
      · obtain h | ⟨_, hok, _⟩ := h
        · cases h
          rfl
        · cases hok
  | ok a =>
      refine ⟨fun h => Or.inr ⟨a, rfl, h⟩, fun h => ?_⟩
      obtain h | ⟨_, hok, hf⟩ := h
      · cases h
      · cases hok
        exact hf

theorem Except.map_eq_ok {x : Except ε α} {f : α → β} {b : β} :
    x.map f = .ok b ↔ ∃ a, x = .ok a ∧ f a = b := by
  cases x with
  | error fault => exact ⟨nofun, fun ⟨_, h, _⟩ => nomatch h⟩
  | ok a => exact ⟨fun h => ⟨a, rfl, Except.ok.inj h⟩, fun ⟨_, h, hb⟩ => by cases h; rw [← hb]; rfl⟩

/-! ## A step for each element -/

/-- Steps that all succeed, one for each element. -/
theorem mapM_eq_ok {f : α → Except ε β} : ∀ {as : List α} {bs : List β},
    as.mapM f = .ok bs ↔ List.Forall₂ (fun a b => f a = .ok b) as bs
  | [], bs => by
      rw [List.mapM_nil, List.forall₂_nil_left_iff]
      exact ⟨fun h => by cases h; rfl, fun h => by rw [h]; rfl⟩
  | a :: as, bs => by
      rw [List.mapM_cons, Except.bind_eq_ok, List.forall₂_cons_left_iff]
      constructor
      · rintro ⟨b, hb, hrest⟩
        obtain ⟨bs', hbs, hcons⟩ := Except.bind_eq_ok.mp hrest
        cases hcons
        exact ⟨b, bs', hb, mapM_eq_ok.mp hbs, rfl⟩
      · rintro ⟨b, bs', hb, hbs, rfl⟩
        exact ⟨b, hb, Except.bind_eq_ok.mpr ⟨bs', mapM_eq_ok.mpr hbs, rfl⟩⟩

theorem forall₂_congr {R S : α → β → Prop} : ∀ {as : List α} {bs : List β},
    (∀ a ∈ as, ∀ b, R a b ↔ S a b) → (List.Forall₂ R as bs ↔ List.Forall₂ S as bs)
  | [], _, _ => by rw [List.forall₂_nil_left_iff, List.forall₂_nil_left_iff]
  | a :: as, bs, h => by
      rw [List.forall₂_cons_left_iff, List.forall₂_cons_left_iff]
      refine exists_congr fun b => exists_congr fun bs' => and_congr (h a List.mem_cons_self b) ?_
      exact and_congr_left fun _ => forall₂_congr fun a ha => h a (List.mem_cons_of_mem _ ha)

theorem exists_of_forall₂ {R : α → β → Prop} {as : List α} {bs : List β}
    (h : List.Forall₂ R as bs) : ∀ a ∈ as, ∃ b, R a b := by
  induction h with
  | nil => exact nofun
  | cons hb _ ih => exact List.forall_mem_cons.mpr ⟨⟨_, hb⟩, ih⟩

end ByteJump
