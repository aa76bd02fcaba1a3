import ByteJump.Proofs.Emit.Emission

set_option autoImplicit false

/-!
# Storage of live variables

No two variables that are in scope at a statement share a byte, and nothing that the code of the
statement needs for itself is kept where one of them is.
-/

namespace ByteJump

namespace Emit

open Assembly Memory

/-- The byte is one of the registers of a variable. -/
def State.Stores (s : State) (v : Variable) (address : Nat) : Prop :=
  ∃ r, s.bindings.register? v = some r ∧ register r ≤ address ∧
    address < register r + v.slots * registerSize

/-- The variables have registers between the immediate register and the tables, below the mark, and
no two of them share a byte. -/
structure State.KeepsApart (s : State) (vs : List Variable) : Prop where
  bound : ∀ v ∈ vs, ∃ r, s.bindings.register? v = some r ∧ r + v.slots ≤ s.mark ∧
    32 ≤ register r ∧ register r + v.slots * registerSize ≤ 0x10000
  apart : vs.Pairwise fun v w => ∀ address, s.Stores v address → ¬ s.Stores w address

theorem register_add {r n : Nat} (h : r + n ≤ registerCount) :
    register (r + n) = register r + n * registerSize := by
  rw [register_of_le h, register_of_le (Nat.le_trans (Nat.le_add_right _ _) h), ← Nat.add_mul]
  congr 1
  omega

theorem Fits.keepsApart {s : State} {vs : List Variable} (h : Fits s.bindings.registers vs s.mark)
    (hcount : s.mark ≤ registerCount) : s.KeepsApart vs := by
  refine ⟨fun v hv => ?_, ?_⟩
  · obtain ⟨r, hr, hbelow⟩ := h.bound v hv
    have hlow := register_mono (Nat.zero_le r) (by omega)
    have hhigh := register_mono (Nat.le_trans hbelow hcount) (Nat.le_refl registerCount)
    rw [register_add (Nat.le_trans hbelow hcount)] at hhigh
    exact ⟨r, hr, hbelow, hlow, hhigh⟩
  · refine h.pairwise.imp_of_mem fun {v w} hv hw hfront address hstored hstored' => ?_
    obtain ⟨r, hr, hlow, -⟩ := hstored
    obtain ⟨r', hr', -, hhigh⟩ := hstored'
    have hbehind := hfront r' r hr' hr
    obtain ⟨known, hknown, hbelow⟩ := h.bound v hv
    rw [show s.bindings.registers.lookup v.id = some r from hr] at hknown
    cases hknown
    have hle := register_mono hbehind (by omega)
    rw [register_add (by omega)] at hle
    omega

end Emit

namespace Session

open Assembly Emit Memory Resolve

/-- Wherever a statement of an accepted program is emitted, the variables that were visible where it
was resolved are stored apart from each other below the mark, and what the code of the statement
writes to is no register below the mark. -/
theorem variables_apart (source : FileSource) (dirs : List Path)
    (mains : List (Syntax.Program × Path)) (tree : Syntax.Program) (file : Path) (b : Bindings)
    {p : Program} {artifact : Artifact}
    (hresolve : ((afterMains source dirs mains).resolve tree file).1 = .ok p)
    (hgenerate : (p.generate b).1 = .ok artifact) :
    ∃ log t, Emission p b log t artifact ∧
      ∀ e ∈ log, ∀ scope st, e.moment = .starts scope st →
        (∃ q, (q = p ∨ Enters log q) ∧ MadeIn q scope st) ∧ e.state.KeepsApart scope ∧
          ∃ u, stmt st e.state = .ok ⟨⟩ u ∧ Spares e.state.mark e.state u := by
  obtain ⟨G, turn, hG, hrooted⟩ := rooted_of_resolve hresolve
  obtain ⟨log, t, hemission⟩ := emission_of_generate hgenerate
  refine ⟨log, t, hemission, fun e he scope st hmoment => ?_⟩
  obtain ⟨hfits, -⟩ := hemission.trace.fits hG hrooted.stands (taken_start b) trivial
  have htaken := hemission.taken he
  obtain ⟨part, u, hpart, -⟩ := hemission.trace.inner e he scope st hmoment
  have hscope : Fits e.state.bindings.registers scope e.state.mark := by
    have he' : Fits e.state.bindings.registers e.inScope e.state.mark := hfits e he
    unfold Event.inScope at he'
    rw [hmoment] at he'
    exact he'
  refine ⟨hrooted.made hG hemission.trace ⟨e, he, hmoment⟩, hscope.keepsApart htaken.count, u, ?_,
    (hpart.passes htaken).whole.spares⟩
  have hrun := hpart.run
  rw [emitAll] at hrun
  obtain ⟨_, u', hst, hdone⟩ := ok_bind hrun
  cases hdone
  exact hst

/-- An array in front of a block with a variable and an import in it, and a variable behind it. -/
theorem variables_apart_block :
    let library : Syntax.Program := [.mk [] (.define ⟨"x", .zero⟩ (.int 1 .zero)) .zero]
    let tree : Syntax.Program :=
      [.mk [] (.defineArray ⟨"a", .zero⟩ (.int 3 .zero) none) .zero,
        .mk [] (.block [.mk [] (.define ⟨"b", .zero⟩ (.int 2 .zero)) .zero,
          .mk [] (.importFile ⟨"lib", .zero⟩) .zero]) .zero,
        .mk [] (.define ⟨"c", .zero⟩ (.int 3 .zero)) .zero]
    let files : MemoryFiles := [(⟨"src/lib"⟩, library)]
    ∃ p artifact, ((afterMains files.source [⟨"src"⟩] []).resolve tree ⟨"main"⟩).1 = .ok p ∧
      (p.generate .none).1 = .ok artifact ∧ ∃ log t, Emission p .none log t artifact ∧
        ∀ e ∈ log, ∀ scope st, e.moment = .starts scope st →
          (∃ q, (q = p ∨ Enters log q) ∧ MadeIn q scope st) ∧ e.state.KeepsApart scope ∧
            ∃ u, stmt st e.state = .ok ⟨⟩ u ∧ Spares e.state.mark e.state u := by
  intro library tree files
  have haccepted : accepted ((afterMains files.source [⟨"src"⟩] []).resolve tree ⟨"main"⟩).1
      .none = true := by decide +kernel
  obtain ⟨p, artifact, hresolve, hgenerate⟩ := exists_of_accepted haccepted
  exact ⟨p, artifact, hresolve, hgenerate, variables_apart files.source [⟨"src"⟩] [] tree ⟨"main"⟩
    .none hresolve hgenerate⟩

end Session

end ByteJump
