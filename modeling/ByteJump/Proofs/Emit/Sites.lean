import ByteJump.Proofs.Emit.Emission
import ByteJump.Proofs.Emit.Labels
import ByteJump.Proofs.Lexical.Expressions

set_option autoImplicit false

/-!
# Where statements start

Where a statement starts in the emission of a program, its expressions obey the typing rules, each
of their variables has a register below the mark, and each of their labels has an address.
-/

namespace ByteJump

/-! ## Labels of statements inside statements -/

section Labels

variable {among : Label → Prop}

mutual

theorem Stmt.labelsIn_subs : ∀ s : Stmt, s.LabelsIn among → ∀ st ∈ s.subs, st.LabelsIn among
  | .mk labels action site, h, st, hst => by
      rcases List.mem_cons.mp hst with rfl | hst
      · exact h
      · exact Action.labelsIn_subs action h st hst

/-- What holds of the labels of statements holds of those of the statements inside them. -/
theorem Stmt.labelsIn_listSubs : ∀ ss : List Stmt, Stmt.ListLabelsIn among ss →
    ∀ st ∈ Stmt.listSubs ss, st.LabelsIn among
  | [], _, st, hst => nomatch hst
  | s :: ss, h, st, hst => by
      rcases List.mem_append.mp hst with hst | hst
      · exact Stmt.labelsIn_subs s h.1 st hst
      · exact Stmt.labelsIn_listSubs ss h.2 st hst

theorem Stmt.labelsIn_optionSubs : ∀ s : Option Stmt, Stmt.OptionLabelsIn among s →
    ∀ st ∈ Stmt.optionSubs s, st.LabelsIn among
  | none, _, st, hst => nomatch hst
  | some s, h, st, hst => Stmt.labelsIn_subs s h st hst

theorem Action.labelsIn_subs : ∀ a : Action, a.LabelsIn among → ∀ st ∈ a.subs, st.LabelsIn among
  | .nothing, _, st, hst | .place _, _, st, hst | .evaluate _, _, st, hst | .goto _, _, st, hst
  | .define .., _, st, hst | .reserve _, _, st, hst | .assign .., _, st, hst
  | .words _, _, st, hst => nomatch hst
  | .block body, h, st, hst => Stmt.labelsIn_listSubs body h st hst
  | .branch condition taken otherwise, h, st, hst => by
      rcases List.mem_append.mp hst with hst | hst
      · exact Stmt.labelsIn_subs taken h.2.1 st hst
      · exact Stmt.labelsIn_optionSubs otherwise h.2.2 st hst
  | .loop condition body _, h, st, hst => Stmt.labelsIn_subs body h.2 st hst

end

end Labels

namespace Emit

open Assembly Memory Resolve

variable {J : Imports} {turn : Nat} {p : Program} {b : Bindings} {log : List Event} {t : State}
  {artifact : Artifact}

/-- The label stands in the code. -/
def State.Addresses (t : State) (l : Label) : Prop :=
  ∃ a, t.bindings.address? l = some a ∧ a ≤ t.position

/-- The labels that an emitted file may use are all placed. -/
theorem Emission.addresses (hG : Library (Imported J)) (hrooted : Rooted (Imported J) (.main turn) p)
    (hJ : J.Sound) (h : Emission p b log t artifact) {q : Program} (hq : Emitted p log q)
    (hsound : q.Sound J) {l : Label} (hl : q.MayUse l) : t.Addresses l := by
  obtain ⟨owner, howner, hown⟩ : ∃ owner, Emitted p log owner ∧ l ∈ owner.ownLabels := by
    rcases hl with hown | ⟨file, hfile, hexported⟩
    · exact ⟨q, hq, hown⟩
    · have hkept := (hJ _ _ (hsound.files file hfile)).2
      exact ⟨file, h.imported hG hrooted hq hfile, hkept.exports l hexported⟩
  obtain ⟨e, hlast, haddress⟩ := h.address hG hrooted howner hown
  exact ⟨_, haddress, (h.passes.onward e hlast.mem).position_le⟩

/-- The labels of a statement that starts are all placed. -/
theorem Emission.labelsIn (hG : Library (Imported J)) (hrooted : Rooted (Imported J) (.main turn) p)
    (hJ : J.Sound) (hp : p.Sound J) (h : Emission p b log t artifact) {st : Stmt}
    (hst : Starts log st) : st.LabelsIn t.Addresses := by
  obtain ⟨q, hq, hsound, hmem⟩ : ∃ q, Emitted p log q ∧ q.Sound J ∧
      st ∈ Stmt.listSubs q.statements := by
    rcases h.trace.source hG hrooted.hosts hst with hmem | ⟨q, henters, ⟨hq, -⟩, hmem⟩
    · rw [flatMap_subs_map] at hmem
      exact ⟨p, Or.inl rfl, hp, hmem⟩
    · exact ⟨q, Or.inr henters, (hJ _ _ hq).2, hmem⟩
  refine (Stmt.labelsIn_listSubs _ hsound.labels st hmem).mono fun l hl => ?_
  exact h.addresses hG hrooted hJ hq hsound hl

end Emit

end ByteJump
