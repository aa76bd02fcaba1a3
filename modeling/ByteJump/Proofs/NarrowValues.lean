import ByteJump.Proofs.ExpressionCode
import ByteJump.Proofs.Run.Narrow

set_option autoImplicit false

/-!
# Values that fit their types

If the variables that an expression reads hold values that fit their types, so does what the code of
the expression leaves in the immediate register, and a new variable gets a value that fits its type.
A test looks at the bytes of the type only, so it decides whether the whole register is zero: that is
how `!`, conditions and loops choose.
-/

namespace ByteJump

open Assembly Memory

/-- The machine arrives at an address further up, where `Q` holds; if it does not, it is because
something is dereferenced on the way that lies outside memory. -/
def Machine.Gets (image : Image) (code : List Piece) (finish : Nat) (Q : Machine → Prop)
    (m : Machine) : Prop :=
  m.Astray finish ∨ m.Arrives image code finish Q

theorem Machine.Gets.mono {image : Image} {code : List Piece} {finish : Nat} {Q Q' : Machine → Prop}
    {m : Machine} (h : m.Gets image code finish Q)
    (hQ : ∀ m', Machine.At image code finish m' → Q m' → Q' m') : m.Gets image code finish Q' :=
  h.imp id fun ⟨k, m', hstepped, hwithin, hm', hq⟩ =>
    ⟨k, m', hstepped, hwithin, hm', hQ m' hm' hq⟩

namespace Emit

open Linked Resolve

/-- The variables of an expression that is emitted at the state hold values that fit their types. -/
def Fed (x : Expr) (s : State) (m : Machine) : Prop :=
  ∀ v ∈ x.vars, v.Fits s.bindings.register? m.contents

/-- Emitted at a state, the code of an expression leaves a value that fits its type. -/
def Narrows (image : Image) (t : State) (x : Expr) (s : State) : Prop :=
  ∃ u, expr x s = .ok ⟨⟩ u ∧ ∀ m, Machine.At image t.halted.pieces.toList s.position m → Fed x s m →
    m.Gets image t.halted.pieces.toList u.position fun m' =>
      ∀ width, x.type.width = some width → m'.contents.Narrow immediate width

/-- Emitted at a state, a logical not turns the number in the whole immediate register, as its operand
leaves it, into 8 if that is zero, and into 0 otherwise. -/
def Negates (image : Image) (t : State) (operand : Expr) (i : Info) (s : State) : Prop :=
  ∃ u w, expr operand s = .ok ⟨⟩ u ∧ expr (.unary .not operand i) s = .ok ⟨⟩ w ∧
    ∀ m, Machine.At image t.halted.pieces.toList s.position m → Fed operand s m →
      m.Gets image t.halted.pieces.toList u.position fun m₁ => ∃ v, m₁.immediate? = some v ∧
        m₁.Arrives image t.halted.pieces.toList w.position fun m₂ =>
          m₂.immediate? = some (if v = 0 then Constant.truth else 0)

/-- Emitted at a state, a definition gives its variable a register, and a value that fits its type. -/
def Defines (image : Image) (t : State) (x : Variable) (value : Expr) (s : State) : Prop :=
  ∃ u r, action (.define x value) s = .ok ⟨⟩ u ∧ u.bindings.register? x = some r ∧
    ∀ m, Machine.At image t.halted.pieces.toList s.position m → Fed value s m →
      m.Gets image t.halted.pieces.toList u.position fun m' =>
        x.Fits u.bindings.register? m'.contents

/-- From its branch, a condition or a loop that starts at a state goes to the statement inside if the
number in the whole immediate register, as the tested expression leaves it, is not zero; if it is
zero, to the alternative, or to where the statement ends. -/
def Decides (image : Image) (t : State) (act : Action) (start finish : State) (part : List Event)
    (x : Expr) (inner : Stmt) (other : Option Stmt) : Prop :=
  ∃ s u w taken otherwise a b, Asks act start x s ∧ expr x s = .ok ⟨⟩ u ∧
    branch x taken otherwise s = .ok ⟨⟩ w ∧ Begins part inner a ∧
    (match other with
      | some st => Begins part st b
      | none => b = finish.position) ∧
    ∀ m, Machine.At image t.halted.pieces.toList s.position m → Fed x s m →
      m.Gets image t.halted.pieces.toList u.position fun m₁ => ∃ v, m₁.immediate? = some v ∧
        ∃ k m₂, m₁.stepped k = .ok m₂ ∧ m₁.Within w.position k ∧
          Machine.At image t.halted.pieces.toList (if v = 0 then b else a) m₂

section Narrow

variable {J : Imports} {turn : Nat} {p : Program} {b : Bindings} {log part : List Event}
  {s t u v : State} {artifact : Artifact} {x y : Expr} {e : Event} {around : List Variable} {st : Stmt}

/-! ## From code to the machine -/

/-- A machine follows code that may reach outside memory. -/
theorem Emission.gets (h : Emission p b log t artifact)
    (hfits : artifact.image.size + Machine.scratchSize ≤ addressSpace) {m : Machine}
    {Q : Contents → Prop} (htries : Tries (h.linked hfits) s u m.contents Q) (hgrows : Grows u t)
    (hm : Machine.At artifact.image t.halted.pieces.toList s.position m) :
    m.Gets artifact.image t.halted.pieces.toList u.position fun m' =>
      ∃ d', (h.linked hfits).Shows d' m'.contents ∧ Q d' := by
  rcases htries.run ((h.leads hfits).before hgrows) m.contents (h.intact_of_at hfits hm)
    fun _ _ => rfl with hends | hstrays
  · obtain ⟨k, c', d', hclimbs, hintact, hshows, hQ⟩ := hends
    obtain ⟨k, m', hstepped, hwithin, hm', rfl⟩ := h.arrives hfits hm hclimbs hintact
    exact Or.inr ⟨k, m', hstepped, hwithin, hm', d', hshows, hQ⟩
  · obtain ⟨k, c', pc, hclimbs, hbefore, hstrays⟩ := hstrays
    exact Or.inl (Machine.astray_of_climbs Linked.size_le hclimbs hbefore hstrays
      (hm.size.trans (h.size_linked hfits).symm) rfl hm.pc hm.running)

/-- The variables of an expression that is emitted are suited, if they hold values that fit. -/
theorem Sited.suited (hsite : Sited t x s) {m : Machine} (hfed : Fed x s m) :
    x.Proper (Suited s s.mark m.contents) := by
  refine (hsite.vars.and hfed).mono fun v hv hcount => ?_
  obtain ⟨r, hr, hbelow⟩ := hv.1 hcount
  exact ⟨r, hr, hbelow, fun width hwidth => hv.2 r width hr hwidth⟩

/-- The immediate register of a machine is data. -/
theorem immediate_of_shows {L : Linked} {d c : Contents} (h : L.Shows d c) :
    c.number immediate registerSize = d.number immediate registerSize :=
  Contents.number_congr fun _ hi => h _ (isData_immediate hi)

/-- Wherever an expression is emitted, its code leaves a value that fits. -/
theorem Emission.narrow (h : Emission p b log t artifact)
    (hfits : artifact.image.size + Machine.scratchSize ≤ addressSpace) (hsite : Sited t x s)
    (hrun : expr x s = .ok ⟨⟩ u) {m : Machine}
    (hm : Machine.At artifact.image t.halted.pieces.toList s.position m) (hfed : Fed x s m) :
    m.Gets artifact.image t.halted.pieces.toList u.position fun m' =>
      ∀ width, x.type.width = some width → m'.contents.Narrow immediate width := by
  obtain ⟨u', hrun', hgrows⟩ := hsite.run
  cases hrun.symm.trans hrun'
  obtain ⟨builtins, htyped⟩ := hsite.typed
  obtain ⟨-, -, hfitting⟩ :=
    (expr_fits (h.linked hfits) htyped (Nat.le_refl s.mark)).run hsite.good _ u hrun
  refine (h.gets hfits (hfitting.tries _ (hsite.suited hfed)) hgrows hm).mono fun m' _ hends => ?_
  obtain ⟨d', hshows, n, hyields, hbound⟩ := hends
  refine fun width hwidth => (Contents.narrow_iff width).mpr ?_
  rw [immediate_of_shows hshows, hyields.value]
  exact hbound width hwidth

/-- A logical not tests the whole value of its operand. -/
theorem Emission.negates (h : Emission p b log t artifact)
    (hfits : artifact.image.size + Machine.scratchSize ≤ addressSpace) {i : Info}
    (hsite : Sited t (.unary .not x i) s) : Negates artifact.image t x i s := by
  obtain ⟨w, hrun, hgrows⟩ := hsite.run
  obtain ⟨builtins, htyped⟩ := hsite.typed
  have hnot := hrun
  rw [expr] at hnot
  obtain ⟨_, u, hoperand, hbehind⟩ := ok_bind (x := expr x) hnot
  obtain ⟨hgood, -, -⟩ := (expr_grows (h.linked hfits) x).run hsite.good _ u hoperand
  obtain ⟨-, hgrows', -, -, -, width, hwidth, -, hhigh, hdoes⟩ :=
    (negate_exec (h.linked hfits) i.site htyped.2.1).run hgood _ w hbehind
  have hsited : Sited t x s :=
    ⟨hsite.good, ⟨u, hoperand, hgrows'.trans hgrows⟩, ⟨builtins, htyped.1⟩, hsite.vars.2, hsite.labels⟩
  refine ⟨u, w, hoperand, hrun, fun m hm hfed => ?_⟩
  refine (h.narrow hfits hsited hoperand hm hfed).mono fun m₁ hm₁ hnarrow => ?_
  refine ⟨_, h.immediate_of_at hm₁, ?_⟩
  obtain ⟨k, c', d', hclimbs, hintact, hshows, hleaves⟩ := (hdoes m₁.contents).run
    ((h.leads hfits).before hgrows) m₁.contents (h.intact_of_at hfits hm₁) fun _ _ => rfl
  obtain ⟨k, m₂, hstepped, hwithin, hm₂, rfl⟩ := h.arrives hfits hm₁ hclimbs hintact
  refine ⟨k, m₂, hstepped, hwithin, hm₂, ?_⟩
  show m₂.immediate? = _
  rw [h.immediate_of_at hm₂, immediate_of_shows hshows, hleaves.value,
    (hnarrow width hwidth).number hhigh]

/-! ## Definitions and choices -/

/-- A variable that is set to a literal has the most bytes, as the literal itself. -/
theorem width_defined (builtins : Builtins) (type : Ty) :
    (if type.isLiteral then builtins.word .n128 else type).width = type.width := by
  cases hliteral : type.isLiteral with
  | false => rfl
  | true =>
      obtain ⟨inner, count⟩ | ⟨_ | _ | _ | _⟩ := type <;> cases hliteral
      rfl

/-- A new variable holds a value that fits its type. -/
theorem Emission.defines (hG : Library (Imported J)) (hrooted : Rooted (Imported J) (.main turn) p)
    (hJ : J.Sound) (hp : p.Sound J) (h : Emission p b log t artifact)
    (hfits : artifact.image.size + Machine.scratchSize ≤ addressSpace) (he : e ∈ log)
    (hmoment : e.moment = .starts around st) {v : Variable} (hdefine : st.action = .define v x) :
    Defines artifact.image t v x (e.state.labelAll st.labels) := by
  have hsite : Sited t x (e.state.labelAll st.labels) :=
    h.sited hG hrooted hJ hp (h.linked hfits)
      ⟨e, he, around, st, x, _, hmoment, by rw [hdefine]; exact .define, .whole⟩
  obtain ⟨builtins, hruled⟩ := h.ruled hG hrooted he hmoment
  rw [hdefine] at hruled
  obtain ⟨⟨htyped, -⟩, -, htype⟩ := hruled
  obtain ⟨part, u, hpart, -, -, hgrows⟩ := h.trace.emits (h.extends (h.linked hfits)) he hmoment
  have hrun := hpart.completes (by rw [hdefine]; rfl)
  rw [hdefine] at hrun
  obtain ⟨-, -, r, hr, hregister, htries⟩ :=
    (define_fits (h.linked hfits) htyped).run hsite.good _ u hrun
  refine ⟨u, r, hrun, hr, fun m hm hfed => ?_⟩
  refine (h.gets hfits (htries _ (hsite.suited hfed)) hgrows hm).mono fun m' _ hends => ?_
  obtain ⟨d', hshows, hnarrow⟩ := hends
  intro r' width hr' hwidth i hlow hhigh
  cases hr.symm.trans hr'
  rw [htype, width_defined] at hwidth
  obtain ⟨-, -, hbelow⟩ := register_eq hregister
  rw [hshows _ (isData_of_lt (by omega))]
  exact hnarrow width hwidth i hlow hhigh

theorem parts_of_choice {act : Action} {inner : Stmt} {other : Option Stmt} (serial : Nat)
    (h : act.choice? = some (x, inner, other)) : ∃ items, parts serial act = some items := by
  cases act with
  | branch condition taken otherwise => cases otherwise <;> exact ⟨_, rfl⟩
  | loop condition body bodyFirst => cases bodyFirst <;> exact ⟨_, rfl⟩
  | nothing | place _ | evaluate _ | goto _ | define _ _ | reserve _ | assign _ _ | block _
  | words _ => cases h

theorem isInteger_of_choice {act : Action} {builtins : Builtins} {vars : Variable → Prop}
    {inner : Stmt} {other : Option Stmt} (hact : act.Ruled builtins vars)
    (h : act.choice? = some (x, inner, other)) : x.type.isInteger = true := by
  cases act with
  | branch _ _ _ | loop _ _ _ =>
      cases h
      exact hact.2
  | nothing | place _ | evaluate _ | goto _ | define _ _ | reserve _ | assign _ _ | block _
  | words _ => cases h

/-- A condition or a loop tests the whole value of an expression. -/
theorem Emission.decides (hG : Library (Imported J)) (hrooted : Rooted (Imported J) (.main turn) p)
    (hJ : J.Sound) (hp : p.Sound J) (h : Emission p b log t artifact)
    (hfits : artifact.image.size + Machine.scratchSize ≤ addressSpace) (he : e ∈ log)
    (hmoment : e.moment = .starts around st) {inner : Stmt} {other : Option Stmt}
    (hchoice : st.action.choice? = some (x, inner, other)) :
    ∃ part v, Trace e.depth around [.stmt st] e.state part v ∧ part ⊆ log ∧
      Decides artifact.image t st.action (e.state.labelAll st.labels) v part x inner other := by
  obtain ⟨builtins, hruled⟩ := h.ruled hG hrooted he hmoment
  obtain ⟨part, v, hpart, hsub, hgood, hgrows⟩ :=
    h.trace.emits (h.extends (h.linked hfits)) he hmoment
  refine ⟨part, v, hpart, hsub, ?_⟩
  have hlabels := hgood.labelAll st.labels
  obtain ⟨items, hparts⟩ := parts_of_choice e.state.serial hchoice
  obtain ⟨part', htrace, hsub', hawaits⟩ := hpart.inside hgood hparts
  rw [← State.serial_labelAll st.labels] at hparts
  obtain ⟨front, behind, taken, otherwise, s, w, first, second, rfl, hfront, hchooses⟩ :=
    htrace.chooses (h.linked hfits) hparts hchoice hlabels hawaits
  have hleads := (h.leads hfits).before hgrows
  obtain ⟨u, width, hvalue, hgood', hwidth, hhigh, hgoes⟩ := hchooses.goes hleads
    (htrace.extends (h.linked hfits) hlabels hawaits).1.good (isInteger_of_choice hruled hchoice)
  have hasks : Asks st.action (e.state.labelAll st.labels) x s := .condition hparts hfront
  have hsite : Sited t x s := h.sited hG hrooted hJ hp (h.linked hfits)
    ⟨e, he, around, st, x, s, hmoment, hasks, .whole⟩
  refine ⟨s, u, w, taken, otherwise, first, second, hasks, hvalue, hchooses.run,
    hchooses.begins.mono hsub', ?_, fun m hm hfed => ?_⟩
  · cases other with
    | none => exact hchooses.alternative
    | some st' => exact Begins.mono hchooses.alternative hsub'
  refine (h.narrow hfits hsite hvalue hm hfed).mono fun m₁ hm₁ hnarrow => ?_
  refine ⟨_, h.immediate_of_at hm₁, ?_⟩
  obtain ⟨k, c', d', hleaps, hintact, -, -⟩ := (hgoes m₁.contents).run
    (hleads.before hchooses.grows) m₁.contents (h.intact_of_at hfits hm₁) fun _ _ => rfl
  obtain ⟨m₂, hstepped, hm₂, -⟩ := h.at_of_steps hfits hm₁ hleaps.steps hintact
  rw [(hnarrow width hwidth).number hhigh] at hm₂
  exact ⟨k + 1, m₂, hstepped, Machine.within_of_leaps Linked.size_le hleaps
    (hm₁.size.trans (h.size_linked hfits).symm) rfl hm₁.pc hm₁.running, hm₂⟩

end Narrow

end Emit

namespace Session

open Emit Resolve

/-- Values fit their types.  Wherever an expression of an accepted program is emitted, if its variables
hold values with zeros behind the bytes of their types, its code leaves a value with zeros behind the
bytes of its own type, and a definition gives its variable such a value.  So `!`, conditions and
loops, which test these bytes only, decide whether the whole value is zero.  A machine that does not
get so far dereferences something outside memory on the way. -/
theorem values_fit (source : FileSource) (dirs : List Path)
    (mains : List (Syntax.Program × Path)) (tree : Syntax.Program) (file : Path) (b : Bindings)
    {p : Program} {artifact : Artifact}
    (hresolve : ((afterMains source dirs mains).resolve tree file).1 = .ok p)
    (hgenerate : (p.generate b).1 = .ok artifact)
    (hfits : artifact.image.size + Machine.scratchSize ≤ addressSpace) :
    ∃ log t, Emission p b log t artifact ∧
      (∀ x s, Occurs log x s → Narrows artifact.image t x s) ∧
      (∀ x i s, Occurs log (.unary .not x i) s → Negates artifact.image t x i s) ∧
      ∀ e ∈ log, ∀ around st, e.moment = .starts around st →
        (∀ v x, st.action = .define v x →
          Defines artifact.image t v x (e.state.labelAll st.labels)) ∧
        ∀ x inner other, st.action.choice? = some (x, inner, other) →
          ∃ part v, Trace e.depth around [.stmt st] e.state part v ∧ part ⊆ log ∧
            Decides artifact.image t st.action (e.state.labelAll st.labels) v part x inner other := by
  obtain ⟨J, turn, hG, hrooted, hp, hJ⟩ := sound_of_resolve hresolve
  obtain ⟨log, t, h⟩ := emission_of_generate hgenerate
  have hsite : ∀ {x s}, Occurs log x s → Sited t x s := h.sited hG hrooted hJ hp (h.linked hfits)
  refine ⟨log, t, h, fun x s hx => ?_, fun x i s hx => h.negates hfits (hsite hx),
    fun e he around st hmoment => ⟨fun v x hdefine => ?_, fun x inner other hchoice => ?_⟩⟩
  · obtain ⟨u, hrun, -⟩ := (hsite hx).run
    exact ⟨u, hrun, fun m hm hfed => h.narrow hfits (hsite hx) hrun hm hfed⟩
  · exact h.defines hG hrooted hJ hp hfits he hmoment hdefine
  · exact h.decides hG hrooted hJ hp hfits he hmoment hchoice

/-- A loop that tests a byte by way of `!`, and reads a byte of code. -/
theorem values_fit_loop :
    let byte : Nat → Syntax.Expr := fun n => .cast (.int (.ofNat 128 n) .zero) (.named "n8" .zero) .zero
    let read : Syntax.Expr := .unary .deref (.label "here" .zero) .zero
    let test : Syntax.Expr := .unary .not (.variable "x" .zero) .zero
    let tree : Syntax.Program :=
      [.mk [] (.define ⟨"x", .zero⟩ (byte 200)) .zero,
        .mk [⟨"here", false, .zero⟩] (.loop test (.mk [] (.evaluate read) .zero) false) .zero]
    ∃ p artifact, ((afterMains (MemoryFiles.source []) [] []).resolve tree ⟨"main"⟩).1 = .ok p ∧
      (p.generate .none).1 = .ok artifact ∧
      artifact.image.size + Machine.scratchSize ≤ addressSpace ∧
      ∃ log t, Emission p .none log t artifact ∧
        (∃ x s u, Occurs log x s ∧ expr x s = .ok ⟨⟩ u ∧
          ({ Machine.ofImage artifact.image with pc := s.position } : Machine).Gets artifact.image
            t.halted.pieces.toList u.position fun m' =>
              ∀ width, x.type.width = some width → m'.contents.Narrow immediate width) ∧
        ∃ e ∈ log, ∃ around st x inner other part v, e.moment = .starts around st ∧
          st.action.choice? = some (x, inner, other) ∧
          Trace e.depth around [.stmt st] e.state part v ∧ part ⊆ log ∧
          Decides artifact.image t st.action (e.state.labelAll st.labels) v part x inner other := by
  intro byte read test tree
  have hchecked : runnable (fun p =>
      (Stmt.listSubs p.statements).any (Stmt.evaluates fun x => x.vars.isEmpty) &&
        (Stmt.listSubs p.statements).any fun st => st.action.choice?.isSome)
      ((afterMains (MemoryFiles.source []) [] []).resolve tree ⟨"main"⟩).1 .none = true := by
    decide +kernel
  obtain ⟨p, artifact, hresolve, hgenerate, hpresent, hfits⟩ := exists_of_runnable hchecked
  obtain ⟨hevaluates, hchooses⟩ := Bool.and_eq_true_iff.mp hpresent
  obtain ⟨log, t, h, hnarrows, -, hstarts⟩ := values_fit (MemoryFiles.source []) [] [] tree ⟨"main"⟩
    .none hresolve hgenerate hfits
  refine ⟨p, artifact, hresolve, hgenerate, hfits, log, t, h, ?_, ?_⟩
  · obtain ⟨x, s, hx, hvars⟩ := h.occurs hevaluates
    obtain ⟨u, hrun, hgets⟩ := hnarrows x s hx
    refine ⟨x, s, u, hx, hrun, hgets _ (Machine.at_ofImage _ _ _) fun v hv => ?_⟩
    rw [List.isEmpty_iff.mp hvars] at hv
    cases hv
  · obtain ⟨st, hst, hsome⟩ := List.any_eq_true.mp hchooses
    obtain ⟨e, he, around, hmoment⟩ := h.starts (Or.inl rfl) st hst
    obtain ⟨⟨x, inner, other⟩, hchoice⟩ := Option.isSome_iff_exists.mp hsome
    obtain ⟨part, v, htrace, hsub, hdecides⟩ := (hstarts e he around st hmoment).2 x inner other hchoice
    exact ⟨e, he, around, st, x, inner, other, part, v, hmoment, hchoice, htrace, hsub, hdecides⟩

end Session

end ByteJump
