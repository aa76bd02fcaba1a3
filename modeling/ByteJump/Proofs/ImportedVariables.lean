import ByteJump.Proofs.Emit.Lasting
import ByteJump.Proofs.LiveVariables

set_option autoImplicit false

/-!
# Variables of imported files

Where a file is emitted its outermost variables get registers, and these stay reserved up to the end
of the block around the import.  An import that is skipped reserves nothing: if the block in which
the file was emitted has ended, its registers have been given back.

The events of a trace say which registers are bound and when they are given back.  An outermost
variable of a file is bound to the register that is free when its declaration is reached, and the
mark stays above it until the block around the import ends, as only blocks lower the mark.
`Reserves` states this as a property of the rest of the log behind the import, up to the end of
the block: both for variables that are stored to and for those that are declared later.
-/

namespace ByteJump

namespace Emit

open Assembly Memory

/-- From an event on, as long as no block ends that is open there, no register of the variables is
used for anything else: no code that is laid down writes to it, and no variable gets it. -/
def Reserves (log : List Event) (start : Event) (vs : List Variable) : Prop :=
  ∀ before later e rest, log = before ++ start :: (later ++ e :: rest) →
    Inside start (later ++ [e]) →
    ∀ v ∈ vs, ∀ address, start.state.Stores v address →
      (∃ more, e.state.pieces.toList = start.state.pieces.toList ++ more ∧
        address ∉ destinations more) ∧
      ∀ scope st w u, e.moment = .starts scope st → st.declared? = some w →
        stmt st e.state = .ok ⟨⟩ u → ¬ u.Stores w address

/-- Only simple statements declare variables. -/
theorem simple_of_variable {act : Action} {w : Variable} (h : act.declared? = some w) :
    isSimple act = true := by
  cases act with
  | define _ _ | reserve _ => rfl
  | nothing | place _ | evaluate _ | goto _ | assign _ _ | block _ | branch _ _ _ | loop _ _ _
  | words _ => cases h

/-- A statement that declares a variable gives it the register at the mark. -/
theorem register_of_stmt {m : Nat} {st : Stmt} {w : Variable} {s u : State} (htaken : Taken m s)
    (h : st.declared? = some w) (hrun : stmt st s = .ok ⟨⟩ u) :
    u.bindings.register? w = some s.mark := by
  cases st with
  | mk labels act site =>
      have hvariable : act.declared? = some w := h
      rw [run_stmt] at hrun
      have hact := action_simple (simple_of_variable hvariable) (htaken.labelAll labels) hrun
      unfold Bindings.register?
      rw [hact.registers, hvariable, State.mark_labelAll]
      exact List.lookup_cons_self

/-- The bytes of a variable lie below the mark. -/
theorem State.Stores.lt {s : State} {v : Variable} {r address : Nat}
    (h : s.Stores v address) (hr : s.bindings.register? v = some r)
    (hbelow : r + v.slots ≤ s.mark) (hcount : s.mark ≤ registerCount) :
    register 0 ≤ address ∧ address < register s.mark := by
  obtain ⟨known, hknown, hlow, hhigh⟩ := h
  rw [hr] at hknown
  cases hknown
  have hfirst := register_mono (Nat.zero_le r) (by omega)
  have hlast := register_mono hbelow hcount
  rw [register_add (by omega)] at hlast
  omega

/-- The variables of a file that has just been emitted have registers, which stay reserved. -/
theorem Emission.reserves {G : Program → Prop} {turn : Nat} {p : Program} {b : Bindings}
    {log : List Event} {t : State} {artifact : Artifact} (hG : Library G)
    (hrooted : Rooted G (.main turn) p) (h : Emission p b log t artifact) {start : Event}
    {file : Program} (hstart : start ∈ log) (hleaves : start.moment = .leaves file) :
    (∀ v ∈ file.variables, (start.state.bindings.register? v).isSome = true) ∧
      Reserves log start file.variables := by
  obtain ⟨hfits, -⟩ := h.trace.fits hG hrooted.stands (taken_start b) trivial
  have hcount := (h.taken hstart).count
  have hbound : ∀ v ∈ file.variables, ∃ r, start.state.bindings.register? v = some r ∧
      r + v.slots ≤ start.state.mark := by
    have hstart : Fits start.state.bindings.registers start.inScope start.state.mark :=
      hfits start hstart
    unfold Event.inScope at hstart
    rw [hleaves] at hstart
    exact hstart.bound
  refine ⟨fun v hv => ?_, ?_⟩
  · obtain ⟨r, hr, -⟩ := hbound v hv
    rw [hr]
    rfl
  intro before later e rest hlog hinside v hv address hstores
  obtain ⟨r, hr, hbelow⟩ := hbound v hv
  obtain ⟨hlow, hhigh⟩ := hstores.lt hr hbelow hcount
  have hstretch := (h.trace.lasts (taken_start b)).upTo before start later e rest hlog hinside
  obtain ⟨more, hpieces, -, hfree⟩ := hstretch.spares
  refine ⟨⟨more, hpieces, fun hmem => ?_⟩, fun scope st w u hmoment hvariable hrun hother => ?_⟩
  · exact Nat.not_lt.mpr (hfree address hmem hlow) hhigh
  · have hbehind := register_mono hstretch.taken.mark hstretch.taken.count
    obtain ⟨known, hknown, hbelow', -⟩ := hother
    rw [register_of_stmt hstretch.taken hvariable hrun] at hknown
    cases hknown
    omega

end Emit

namespace Session

open Assembly Emit Memory

/-- From the end of each emission of an imported file to the end of the block around it, the
registers that its outermost variables got there are used for nothing else. -/
theorem imported_variables_reserved (source : FileSource) (dirs : List Path)
    (mains : List (Syntax.Program × Path)) (tree : Syntax.Program) (file : Path) (b : Bindings)
    {p : Program} {artifact : Artifact}
    (hresolve : ((afterMains source dirs mains).resolve tree file).1 = .ok p)
    (hgenerate : (p.generate b).1 = .ok artifact) :
    ∃ log t, Emission p b log t artifact ∧
      ∀ e ∈ log, ∀ q, e.moment = .leaves q →
        (∀ v ∈ q.variables, (e.state.bindings.register? v).isSome = true) ∧
          Reserves log e q.variables := by
  obtain ⟨G, turn, hG, hrooted⟩ := rooted_of_resolve hresolve
  obtain ⟨log, t, hemission⟩ := emission_of_generate hgenerate
  exact ⟨log, t, hemission, fun e he q hleaves => hemission.reserves hG hrooted he hleaves⟩

/-- A file that declares a variable at its outermost level, imported. -/
theorem imported_variables_reserved_import :
    let library : Syntax.Program := [.mk [] (.define ⟨"x", .zero⟩ (.int 1 .zero)) .zero]
    let tree : Syntax.Program :=
      [.mk [] (.importFile ⟨"lib", .zero⟩) .zero,
        .mk [] (.define ⟨"y", .zero⟩ (.int 2 .zero)) .zero]
    let files : MemoryFiles := [(⟨"src/lib"⟩, library)]
    ∃ p artifact, ((afterMains files.source [⟨"src"⟩] []).resolve tree ⟨"main"⟩).1 = .ok p ∧
      (p.generate .none).1 = .ok artifact ∧ ∃ log t, Emission p .none log t artifact ∧
        ∀ e ∈ log, ∀ q, e.moment = .leaves q →
          (∀ v ∈ q.variables, (e.state.bindings.register? v).isSome = true) ∧
            Reserves log e q.variables := by
  intro library tree files
  have haccepted : accepted ((afterMains files.source [⟨"src"⟩] []).resolve tree ⟨"main"⟩).1
      .none = true := by decide +kernel
  obtain ⟨p, artifact, hresolve, hgenerate⟩ := exists_of_accepted haccepted
  exact ⟨p, artifact, hresolve, hgenerate, imported_variables_reserved files.source [⟨"src"⟩] []
    tree ⟨"main"⟩ .none hresolve hgenerate⟩

/-- The second of three statements is an import of a file with a single variable, which has register
0 when the import has been emitted although the next variable gets that register too; and the
program is accepted. -/
def importLetsGo : Except Fault Program → Bool
  | .ok (.mk path [first, .mk [] (.place q) site, .mk [] (.define y value) site'] exports pragmas) =>
      match q.variables, stmts [first, .mk [] (.place q) site] (.start .none) with
      | [x], .ok _ u => x.slots == 1 && y.slots == 1 && u.mark == 0 &&
          u.bindings.register? x == some 0 &&
          (Program.generate (.mk path [first, .mk [] (.place q) site,
            .mk [] (.define y value) site'] exports pragmas) .none).1.isOk
      | _, _ => false
  | _ => false

/-- An import that is skipped reserves nothing: the file was emitted in a block that has ended. -/
theorem imported_variables_reserved_skipped :
    let library : Syntax.Program := [.mk [] (.define ⟨"x", .zero⟩ (.int 1 .zero)) .zero]
    let again : Syntax.Stmt := .mk [] (.importFile ⟨"lib", .zero⟩) .zero
    let tree : Syntax.Program :=
      [.mk [] (.block [again]) .zero, again, .mk [] (.define ⟨"y", .zero⟩ (.int 2 .zero)) .zero]
    let files : MemoryFiles := [(⟨"src/lib"⟩, library)]
    ∃ p artifact log t e st q,
      ((afterMains files.source [⟨"src"⟩] []).resolve tree ⟨"main"⟩).1 = .ok p ∧
      Emission p .none log t artifact ∧ e ∈ log ∧ e.moment = .ends st ∧ st.action = .place q ∧
      ¬ Reserves log e q.variables := by
  intro library again tree files
  have hcheck : importLetsGo ((afterMains files.source [⟨"src"⟩] []).resolve tree ⟨"main"⟩).1 =
      true := by decide +kernel
  unfold importLetsGo at hcheck
  split at hcheck
  · rename_i path first q site y value site' exports pragmas hp
    split at hcheck
    · rename_i x _ u hvariables hrun
      simp only [Bool.and_eq_true, beq_iff_eq] at hcheck
      obtain ⟨⟨⟨⟨hx, hy⟩, hmark⟩, hregister⟩, hok⟩ := hcheck
      cases hgenerate : (Program.generate (.mk path [first, .mk [] (.place q) site,
          .mk [] (.define y value) site'] exports pragmas) .none).1 with
      | error fault =>
          rw [hgenerate] at hok
          cases hok
      | ok artifact =>
          obtain ⟨log, t, hemission⟩ := emission_of_generate hgenerate
          have htrace : Trace 0 [] (([.stmt first] ++ [.stmt (.mk [] (.place q) site)]) ++
              [.stmt (.mk [] (.define y value) site')]) (.start .none) log t := hemission.trace
          rw [← emitAll_map_stmt] at hrun
          obtain ⟨before, scope, behind, hlog, hstmt⟩ := htrace.next hrun
          have hend : ⟨.ends (.mk [] (.place q) site), 0, u⟩ ∈ log := by simp [hlog]
          refine ⟨_, artifact, log, t, _, _, q, hp, hemission, hend, rfl, rfl, fun hreserves => ?_⟩
          have hstored : u.Stores x 32 := ⟨0, hregister, by decide, by rw [hx]; decide⟩
          obtain ⟨-, hnot⟩ := hreserves before [] _ behind hlog (by simp [Inside]) x
            (by simp [hvariables]) 32 hstored
          refine hnot _ _ y t rfl rfl hstmt ⟨0, ?_, by decide, by rw [hy]; decide⟩
          rw [register_of_stmt (hemission.taken hend) rfl hstmt]
          exact congrArg some hmark
    · cases hcheck
  · cases hcheck

end Session

end ByteJump
