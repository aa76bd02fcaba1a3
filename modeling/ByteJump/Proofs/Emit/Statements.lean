import ByteJump.Proofs.Emit.Placed

set_option autoImplicit false

/-!
# Emitted statements

When a statement has been emitted, its labels have addresses, the variables it declares have
registers, and so is what the files it imports hold.  A file that was reached before is the same
file, so its labels are settled as well.

`Ready` is the precondition of a part of a program: known variables have registers, and the labels
that may be used are among the targets that may be left open.  `Emits` is what holds behind the
part: no fault but those that generating may end with, and no symbol open but one that may be.
That a part settles its own labels and variables is `Completes`, stated for each form of statement
on its own, so that the induction only has to put the cases together.  Files carry the induction
over to the files they import; a file that was reached before is known by its path to be the same
one. -/

namespace ByteJump

namespace Emit

open Assembly Memory Resolve

variable {I : Imports} {pending : Target → Prop} {s : State}

/-! ## Raw words

Raw words are computed at once unless they mention a label, and then there is no label in them
that could be missing. -/

mutual

/-- A value that mentions no label uses none. -/
theorem labelsIn_of_mentionsLabel {among : Label → Prop} : ∀ {e : Expr},
    e.mentionsLabel = false → e.LabelsIn among
  | .int .., _ | .str .., _ | .variable .., _ => trivial
  | .label .., h => nomatch h
  | .cast operand _, h | .unary _ operand _, h => labelsIn_of_mentionsLabel (e := operand) h
  | .binary _ left right _, h => by
      obtain ⟨hleft, hright⟩ := Bool.or_eq_false_iff.mp h
      exact ⟨labelsIn_of_mentionsLabel hleft, labelsIn_of_mentionsLabel hright⟩
  | .index base indices _, h => by
      obtain ⟨hbase, hindices⟩ := Bool.or_eq_false_iff.mp h
      exact ⟨labelsIn_of_mentionsLabel hbase, allLabelsIn_of_anyMentionsLabel hindices⟩

theorem allLabelsIn_of_anyMentionsLabel {among : Label → Prop} : ∀ {es : List Expr},
    Expr.anyMentionsLabel es = false → Expr.AllLabelsIn among es
  | [], _ => trivial
  | e :: es, h => by
      obtain ⟨he, hes⟩ := Bool.or_eq_false_iff.mp h
      exact ⟨labelsIn_of_mentionsLabel he, allLabelsIn_of_anyMentionsLabel hes⟩

end

variable {b : Bindings} {among : Target → Prop}

/-- By induction on the words. -/
theorem words_plain : ∀ {values : List Expr},
    (Expr.AllLabelsIn (fun label => among (.label label)) values) → Plain b among (words values)
  | [], _ => Plain.pure
  | value :: values, h => by
      have hrest := words_plain h.2
      rw [words]
      split
      · refine (push_plain ?_).bind fun _ => hrest
        rintro _ ⟨⟩
        exact h.1
      · rename_i hmentions
        refine Plain.get fun s _ => ?_
        split
        · refine (push_plain ?_).bind fun _ => hrest
          rintro _ ⟨⟩
          trivial
        · rename_i fault hfault
          have hnone : value.LabelsIn (Bound s) :=
            labelsIn_of_mentionsLabel (Bool.eq_false_iff.mpr hmentions)
          exact (Plain.throw (isGenerated_of_constant hnone hfault)).bind fun _ => hrest

theorem forM_stringConstant_plain : ∀ texts : List String,
    Plain b among (texts.forM fun text => do let _ ← stringConstant text)
  | [] => Plain.pure
  | text :: texts => by
      show Plain b among ((do let _ ← stringConstant text) >>= fun _ =>
        texts.forM fun text => do let _ ← stringConstant text)
      refine Plain.bind ?_ fun _ => forM_stringConstant_plain texts
      exact (stringConstant_plain text).bind fun _ => Plain.pure

theorem rawWords_plain {values : List Expr}
    (h : Expr.AllLabelsIn (fun label => among (.label label)) values) :
    Plain b among (rawWords values) :=
  (forM_stringConstant_plain _).bind fun _ => words_plain h

theorem alignTo_plain (align : Nat) : Plain b among (alignTo align) := by
  unfold alignTo
  refine position_plain fun here => ?_
  split
  · exact (jumpOver_plain (bytes_in _)).bind fun _ => Plain.pure
  · exact Plain.pure

/-! ## What a statement settles -/

/-- Labels have addresses, variables have registers, and the labels of files are settled. -/
structure Done (I : Imports) (labels : List Label) (declared : List DeclId) (files : List Program)
    (t : State) : Prop where
  labels : ∀ label ∈ labels, Bound t label
  declared : ∀ id ∈ declared, Registered t id
  files : ∀ file ∈ files, ∀ label ∈ file.ownLabels, Settled I t (.label label)

section Done

variable {labels labels' : List Label} {declared declared' : List DeclId}
  {files files' : List Program} {t : State}

theorem Done.nothing : Done I [] [] [] t := ⟨nofun, nofun, nofun⟩

theorem Done.mono {u : State} (hkeeps : Keeps t u) (h : Done I labels declared files t) :
    Done I labels declared files u where
  labels label hlabel := hkeeps.addresses label (h.labels label hlabel)
  declared id hid := hkeeps.registers id (h.declared id hid)
  files file hfile label hlabel := Settled.mono hkeeps (h.files file hfile label hlabel)

theorem Done.append (h : Done I labels declared files t) (h' : Done I labels' declared' files' t) :
    Done I (labels ++ labels') (declared ++ declared') (files ++ files') t where
  labels label hlabel := (List.mem_append.mp hlabel).elim (h.labels label) (h'.labels label)
  declared id hid := (List.mem_append.mp hid).elim (h.declared id) (h'.declared id)
  files file hfile := (List.mem_append.mp hfile).elim (h.files file) (h'.files file)

theorem Done.of_labels (h : ∀ label ∈ labels, Bound t label) : Done I labels [] [] t :=
  ⟨h, nofun, nofun⟩

theorem Done.of_declared {id : DeclId} (h : Registered t id) : Done I [] [id] [] t := by
  refine ⟨nofun, fun other hother => ?_, nofun⟩
  obtain rfl := List.mem_singleton.mp hother
  exact h

end Done

/-! ## Statements -/

/-- Known variables have registers, and labels that may be used may be open. -/
structure Ready (known : List DeclId) (among : Label → Prop) (pending : Target → Prop) (s : State) :
    Prop where
  registers : ∀ id ∈ known, Registered s id
  labels : ∀ label, among label → pending (.label label)

section Ready

variable {known : List DeclId} {among : Label → Prop}

theorem Ready.keeps {t : State} (h : Ready known among pending s) (hkeeps : Keeps s t) :
    Ready known among pending t :=
  ⟨fun id hid => hkeeps.registers id (h.registers id hid), h.labels⟩

theorem Ready.append {t : State} {labels : List Label} {declared : List DeclId}
    {files : List Program} (h : Ready known among pending s) (hkeeps : Keeps s t)
    (hdone : Done I labels declared files t) : Ready (known ++ declared) among pending t := by
  refine ⟨fun id hid => ?_, h.labels⟩
  rcases List.mem_append.mp hid with hold | hnew
  · exact hkeeps.registers id (h.registers id hold)
  · exact hdone.declared id hnew

theorem Ready.point {q : Target} (h : Ready known among pending s) :
    Ready known among (fun target => pending target ∨ target = q) s :=
  ⟨h.registers, fun label hlabel => Or.inl (h.labels label hlabel)⟩

theorem Ready.proper (h : Ready known among pending s) {e : Expr}
    (he : e.Proper fun v => v.id ∈ known) :
    e.Proper fun v => (s.bindings.registers.lookup v.id).isSome = true :=
  he.mono fun v => h.registers v.id

theorem expr_emits (h : Ready known among pending s) {e : Expr}
    (hproper : e.Proper fun v => v.id ∈ known) (hlabels : e.LabelsIn among) :
    Emits I pending (expr e) (fun _ _ => True) s := by
  refine Emits.mono (Emits.plain ?_) fun _ _ _ _ => trivial
  exact plain_rules.expr ⟨h.proper hproper, hlabels.mono h.labels⟩

theorem branch_emits (h : Ready known among pending s) {condition : Expr}
    {taken otherwise : Target} (hproper : condition.Proper fun v => v.id ∈ known)
    (hlabels : condition.LabelsIn among) (htaken : pending taken) (hotherwise : pending otherwise) :
    Emits I pending (branch condition taken otherwise) (fun _ _ => True) s := by
  refine Emits.mono (Emits.plain ?_) fun _ _ _ _ => trivial
  exact branch_plain (h.proper hproper) (hlabels.mono h.labels) htaken hotherwise

end Ready

/-- What is open may be open with one more point, as long as the point is placed. -/
theorem Emits.point {α : Type} {x : Emitter α} {q : Target} {Q : α → State → Prop}
    (h : Emits I (fun target => pending target ∨ target = q) x Q s)
    (hplaced : ∀ a t, Q a t → Settled I t q) : Emits I pending x Q s := by
  refine h.narrow (fun _ => Or.inl) fun a t hQ target htarget => ?_
  rcases htarget with htarget | rfl
  · exact Or.inl htarget
  · exact Or.inr (hplaced a t hQ)

/-- A new point may be open in what comes behind, as long as it is placed there. -/
theorem Emits.newPoint {α : Type} {role : String} {f : Target → Emitter α} {Q : α → State → Prop}
    {known : List DeclId} {among : Label → Prop} (h : Ready known among pending s)
    (hf : ∀ q t, (∃ role serial, q = .point role serial) →
      Ready known among (fun target => pending target ∨ target = q) t →
      Emits I (fun target => pending target ∨ target = q) (f q)
        (fun a u => Settled I u q ∧ Q a u) t) :
    Emits I pending (Emit.newPoint role >>= f) Q s := by
  refine (newPoint_emits role).bind fun q t hstep hq => ?_
  obtain ⟨serial, rfl⟩ := hq
  have hready := (h.keeps hstep.toKeeps).point (q := .point role serial)
  have hinside := hf _ t ⟨role, serial, rfl⟩ hready
  exact (Emits.point hinside fun _ _ hQ => hQ.1).mono fun _ _ _ hQ => hQ.2

/-- A file counts as reached from its first statement on. -/
theorem Emits.reached {α : Type} {x : Emitter α} {Q : α → State → Prop} {key : Path.Key}
    (h : Emits I pending x Q { s with placed := key :: s.placed })
    (hfinished : ∀ a t, Q a t → ∀ p, I.lookup key = some p → ∀ label ∈ p.ownLabels, Bound t label) :
    Emits I pending (modify (fun s => { s with placed := key :: s.placed }) >>= fun _ => x) Q s := by
  refine ⟨fun hs => Ends.bind (Ends.update ?_)⟩
  have hkeeps : Keeps s { s with placed := key :: s.placed } :=
    ⟨fun _ h => h, fun _ h => h, fun _ h => h, fun _ h => List.mem_cons_of_mem _ h⟩
  refine (h.ends (hs.of_keeps hkeeps rfl)).mono ?_
  intro a t hend
  obtain ⟨hstep, ht, hQ⟩ := hend
  refine ⟨⟨hkeeps.trans hstep.toKeeps, hstep.code, fun other hother => ?_⟩, ht, hQ⟩
  rcases hstep.finished other hother with hold | hnew
  · rcases List.mem_cons.mp hold with rfl | hold
    · exact Or.inr (hfinished a t hQ)
    · exact Or.inl hold
  · exact Or.inr hnew

/-! ## Parts with statements inside

A block, a condition, a loop and an imported file each complete what they declare if the statements
inside them do.  A point of the part is open from the jump to it to its place, which
`Emits.newPoint` allows. -/

/-- Where known variables have registers, all the labels, variables and files are done. -/
def Completes (I : Imports) (known : List DeclId) (among : Label → Prop) (x : Emitter Unit)
    (labels : List Label) (declared : List DeclId) (files : List Program) : Prop :=
  ∀ ⦃pending : Target → Prop⦄ ⦃s : State⦄, Ready known among pending s →
    Emits I pending x (fun _ t => Done I labels declared files t) s

section Parts

variable {known : List DeclId} {among : Label → Prop} {labels labels' : List Label}
  {declared declared' : List DeclId} {files files' : List Program} {condition : Expr}

/-- A goto is an expression and an instruction that is patched. -/
theorem goto_emits {target : Expr} (hproper : target.Proper fun v => v.id ∈ known)
    (hlabels : target.LabelsIn among) : Completes I known among (action (.goto target)) [] [] [] := by
  intro pending s hready
  rw [action]
  refine (expr_emits hready hproper hlabels).bind fun _ t _ _ => ?_
  refine Emits.mono (Emits.plain ?_) fun _ _ _ _ => Done.nothing
  refine behindPatches_plain _ fun _ => (patches_plain _ _).bind fun _ => ?_
  exact instruction_plain _ _ _

/-- Behind the declaration the variable has a register. -/
theorem define_emits {v : Variable} {value : Expr} (hproper : value.Proper fun v => v.id ∈ known)
    (hlabels : value.LabelsIn among) :
    Completes I known among (action (.define v value)) [] [v.id] [] := by
  intro pending s hready
  rw [action]
  refine (expr_emits hready hproper hlabels).bind fun _ t _ _ => ?_
  refine (Emits.plain (allocate_plain 1 v.site)).bind fun r u _ _ => ?_
  refine (bind_emits v r).bind fun _ w _ hregistered => ?_
  refine (Emits.plain (plain_rules.copyRange _ _ _)).mono fun _ x hstep _ => ?_
  exact Done.of_declared (hstep.registers _ hregistered)

/-- An array has its registers when it is declared. -/
theorem reserve_emits {v : Variable} {count : Nat} (hcount : v.count = some count) :
    Completes I known among (action (.reserve v)) [] [v.id] [] := by
  intro pending s _
  rw [action, hcount]
  refine (Emits.plain (allocate_plain count v.site)).bind fun r t _ _ => ?_
  exact (bind_emits v r).mono fun _ u _ hregistered => Done.of_declared hregistered

/-- The registers of a block are given back, but its variables stay bound. -/
theorem block_emits {body : List Stmt}
    (hbody : Completes I known among (stmts body) labels declared files) :
    Completes I known among (action (.block body)) labels declared files := by
  intro pending s hready
  rw [action]
  refine Emits.get ?_
  refine (hbody hready).bind fun _ t _ hdone => ?_
  refine (Emits.plain (release_plain _)).mono fun _ u hstep _ => ?_
  exact hdone.mono hstep.toKeeps

/-- The point behind the statement is pending while the statement is emitted. -/
theorem ifThen_emits {taken : Stmt} (hproper : condition.Proper fun v => v.id ∈ known)
    (hlabels : condition.LabelsIn among)
    (htaken : Completes I known among (stmt taken) labels declared files) :
    Completes I known among (action (.branch condition taken none)) labels declared files := by
  intro pending s hready
  rw [action]
  refine .newPoint hready fun thenPoint t hthen hready₁ => ?_
  refine .newPoint hready₁ fun finish u hfinish hready₂ => ?_
  rw [alternative]
  simp only [bind_assoc]
  refine (branch_emits hready₂ hproper hlabels (Or.inl (Or.inr rfl)) (Or.inr rfl)).bind
    fun _ t₁ hstep₁ _ => ?_
  refine (place_emits hthen).bind fun _ t₂ hstep₂ hthen => ?_
  refine (htaken (hready₂.keeps (hstep₁.trans hstep₂).toKeeps)).bind fun _ t₃ hstep₃ hdone => ?_
  refine (place_emits hfinish).mono fun _ t₄ hstep₄ hfinish => ?_
  exact ⟨hfinish, hthen.mono (hstep₃.trans hstep₄).toKeeps, hdone.mono hstep₄.toKeeps⟩

/-- The other branch may use what the first one declares: its variables are bound by then. -/
theorem ifElse_emits {taken other : Stmt} (hproper : condition.Proper fun v => v.id ∈ known)
    (hlabels : condition.LabelsIn among)
    (htaken : Completes I known among (stmt taken) labels declared files)
    (hother : Completes I (known ++ declared) among (stmt other) labels' declared' files') :
    Completes I known among (action (.branch condition taken (some other))) (labels ++ labels')
      (declared ++ declared') (files ++ files') := by
  intro pending s hready
  rw [action]
  refine .newPoint hready fun thenPoint t hthen hready₁ => ?_
  refine .newPoint hready₁ fun finish u hfinish hready₂ => ?_
  rw [alternative]
  simp only [bind_assoc]
  refine .newPoint hready₂ fun elsePoint w helse hready₃ => ?_
  refine (branch_emits hready₃ hproper hlabels (Or.inl (Or.inl (Or.inr rfl))) (Or.inr rfl)).bind
    fun _ t₁ hstep₁ _ => ?_
  refine (place_emits hthen).bind fun _ t₂ hstep₂ hthen => ?_
  have hready₄ := hready₃.keeps (hstep₁.trans hstep₂).toKeeps
  refine (htaken hready₄).bind fun _ t₃ hstep₃ hdone => ?_
  refine (jumpTo_emits (Or.inl (Or.inr rfl))).bind fun _ t₄ hstep₄ _ => ?_
  refine (place_emits helse).bind fun _ t₅ hstep₅ helse => ?_
  have hmiddle := hstep₄.trans hstep₅
  have hready₅ := (hready₄.append hstep₃.toKeeps hdone).keeps hmiddle.toKeeps
  refine (hother hready₅).bind fun _ t₆ hstep₆ hdone' => ?_
  refine (place_emits hfinish).mono fun _ t₇ hstep₇ hfinish => ?_
  have hbehind := hstep₆.trans hstep₇
  refine ⟨helse.mono hbehind.toKeeps, hfinish, ?_, ?_⟩
  · exact hthen.mono ((hstep₃.trans hmiddle).trans hbehind).toKeeps
  · exact (hdone.mono (hmiddle.trans hbehind).toKeeps).append (hdone'.mono hstep₇.toKeeps)

/-- The point at the top is placed when the body jumps back to it, and the one at the end is
pending. -/
theorem while_emits {body : Stmt} (hproper : condition.Proper fun v => v.id ∈ known)
    (hlabels : condition.LabelsIn among)
    (hbody : Completes I known among (stmt body) labels declared files) :
    Completes I known among (action (.loop condition body false)) labels declared files := by
  intro pending s hready
  rw [action]
  refine .newPoint hready fun top t₁ htop hready₁ => ?_
  refine .newPoint hready₁ fun start t₂ hstart hready₂ => ?_
  refine .newPoint hready₂ fun finish t₃ hfinish hready₃ => ?_
  refine (place_emits htop).bind fun _ t₄ hstep₄ htop => ?_
  have hready₄ := hready₃.keeps hstep₄.toKeeps
  refine (branch_emits hready₄ hproper hlabels (Or.inl (Or.inr rfl)) (Or.inr rfl)).bind
    fun _ t₅ hstep₅ _ => ?_
  refine (place_emits hstart).bind fun _ t₆ hstep₆ hstart => ?_
  refine (hbody (hready₄.keeps (hstep₅.trans hstep₆).toKeeps)).bind fun _ t₇ hstep₇ hdone => ?_
  refine (jumpTo_emits (Or.inl (Or.inl (Or.inr rfl)))).bind fun _ t₈ hstep₈ _ => ?_
  refine (place_emits hfinish).mono fun _ t₉ hstep₉ hfinish => ?_
  have hbehind := hstep₈.trans hstep₉
  refine ⟨hfinish, hstart.mono (hstep₇.trans hbehind).toKeeps, ?_, hdone.mono hbehind.toKeeps⟩
  exact htop.mono (((hstep₅.trans hstep₆).trans hstep₇).trans hbehind).toKeeps

/-- As before, with the test behind the body. -/
theorem doWhile_emits {body : Stmt} (hproper : condition.Proper fun v => v.id ∈ known)
    (hlabels : condition.LabelsIn among)
    (hbody : Completes I known among (stmt body) labels declared files) :
    Completes I known among (action (.loop condition body true)) labels declared files := by
  intro pending s hready
  rw [action]
  refine .newPoint hready fun top t₁ htop hready₁ => ?_
  refine .newPoint hready₁ fun finish t₂ hfinish hready₂ => ?_
  refine (place_emits htop).bind fun _ t₃ hstep₃ htop => ?_
  have hready₃ := hready₂.keeps hstep₃.toKeeps
  refine (hbody hready₃).bind fun _ t₄ hstep₄ hdone => ?_
  refine (branch_emits (hready₃.keeps hstep₄.toKeeps) hproper hlabels (Or.inl (Or.inr rfl))
    (Or.inr rfl)).bind fun _ t₅ hstep₅ _ => ?_
  refine (place_emits hfinish).mono fun _ t₆ hstep₆ hfinish => ?_
  have hbehind := hstep₅.trans hstep₆
  exact ⟨hfinish, htop.mono (hstep₄.trans hbehind).toKeeps, hdone.mono hbehind.toKeeps⟩

end Parts

/-- The statements of a file leave nothing open: all that the file may use stands in the file or in
files it imports. -/
theorem own_emits (hsound : I.Sound) {p : Program} (hp : p.Sound I)
    (h : Completes I [] p.MayUse (stmts p.statements) p.ownLabels
      (Stmt.listDeclared p.statements) p.files) :
    Emits I pending (stmts p.statements) (fun _ t => ∀ label ∈ p.ownLabels, Bound t label) s := by
  have hready : Ready [] p.MayUse
      (fun target => pending target ∨ ∃ label, target = .label label ∧ p.MayUse label) s :=
    ⟨nofun, fun label hlabel => Or.inr ⟨label, rfl, hlabel⟩⟩
  refine Emits.mono ((h hready).narrow (fun _ => Or.inl) ?_) fun _ t _ hdone => hdone.labels
  intro _ t hdone target htarget
  refine htarget.imp id fun huse => ?_
  obtain ⟨label, rfl, hlabel⟩ := huse
  rcases hlabel with hown | ⟨file, hfile, hexported⟩
  · exact Or.inl (hdone.labels label hown)
  · have hfile' := (hsound _ _ (hp.files file hfile)).2
    exact hdone.files file hfile label (hfile'.exports label hexported)

/-- A file settles its labels: it is emitted now, or it was reached before, and then it is the same
file. -/
theorem file_emits (hsound : I.Sound) {p : Program} (hp : I.lookup p.file.key = some p)
    (h : Completes I [] p.MayUse (stmts p.statements) p.ownLabels
      (Stmt.listDeclared p.statements) p.files) :
    Emits I pending (program p) (fun _ t => ∀ label ∈ p.ownLabels, Settled I t (.label label)) s := by
  obtain ⟨file, statements, exports, pragmas⟩ := p
  have hstatements : ∀ {s : State}, Emits I pending (do alignTo pragmas.align; stmts statements)
      (fun _ t => ∀ label ∈ Stmt.listLabels statements, Bound t label) s := by
    intro s
    refine (Emits.plain (alignTo_plain _)).bind fun _ t _ _ => ?_
    exact own_emits hsound (hsound _ _ hp).2 h
  rw [program]
  refine Emits.get ?_
  dsimp only
  split
  · rename_i hagain
    refine Emits.pure fun label hlabel => Or.inr ⟨_, ?_, hp, hlabel⟩
    simp only [Bool.and_eq_true, List.contains_iff_mem] at hagain
    exact hagain.2
  · split
    · refine Emits.mono (Emits.reached hstatements ?_) ?_
      · intro _ t hbound q hq
        obtain rfl := Option.some.inj (hp.symm.trans hq)
        exact hbound
      · exact fun _ t _ hbound label hlabel => Or.inl (hbound label hlabel)
    · exact hstatements.mono fun _ t _ hbound label hlabel => Or.inl (hbound label hlabel)

/-! ## Statements

By induction on the program, one form of statement at a time. -/

mutual

/-- The labels of a statement are settled in front of it. -/
theorem stmt_emits (hsound : I.Sound) : ∀ (st : Stmt) {known : List DeclId} {among : Label → Prop},
    st.Proper known → st.LabelsIn among →
    (∀ file ∈ st.files, I.lookup file.file.key = some file) →
    Completes I known among (stmt st) st.ownLabels st.declared st.files
  | .mk labels act site, known, among, hproper, hlabels, hfiles => by
      intro pending s hready
      rw [stmt]
      refine (forM_placeLabel_emits labels).bind fun _ t hstep hbound => ?_
      have haction := action_emits hsound act hproper hlabels hfiles (hready.keeps hstep.toKeeps)
      refine haction.mono fun _ u hstep' hdone => ?_
      exact ((Done.of_labels hbound).mono hstep'.toKeeps).append hdone

theorem stmts_emits (hsound : I.Sound) : ∀ (ss : List Stmt) {known : List DeclId}
    {among : Label → Prop}, Stmt.ListProper known ss → Stmt.ListLabelsIn among ss →
    (∀ file ∈ Stmt.listFiles ss, I.lookup file.file.key = some file) →
    Completes I known among (stmts ss) (Stmt.listLabels ss) (Stmt.listDeclared ss)
      (Stmt.listFiles ss)
  | [], known, among, _, _, _ => by
      intro pending s _
      rw [stmts]
      exact Emits.pure Done.nothing
  | st :: ss, known, among, hproper, hlabels, hfiles => by
      intro pending s hready
      rw [stmts]
      have hfirst := stmt_emits hsound st hproper.1 hlabels.1
        (fun file hfile => hfiles file (List.mem_append_left _ hfile)) hready
      refine hfirst.bind fun _ t hstep hdone => ?_
      have hrest := stmts_emits hsound ss hproper.2 hlabels.2
        (fun file hfile => hfiles file (List.mem_append_right _ hfile))
        (hready.append hstep.toKeeps hdone)
      exact hrest.mono fun _ u hstep' hdone' => (hdone.mono hstep'.toKeeps).append hdone'

/-- Each case is one of the lemmas on parts. -/
theorem action_emits (hsound : I.Sound) : ∀ (act : Action) {known : List DeclId}
    {among : Label → Prop}, act.Proper known → act.LabelsIn among →
    (∀ file ∈ act.files, I.lookup file.file.key = some file) →
    Completes I known among (action act) act.ownLabels act.declared act.files
  | .nothing, known, among, _, _, _ => by
      intro pending s _
      rw [action]
      exact Emits.pure Done.nothing
  | .place file, known, among, _, _, hfiles => by
      intro pending s _
      rw [action]
      refine (program_emits hsound file (hfiles file List.mem_cons_self)).mono ?_
      intro _ t _ hsettled
      refine ⟨nofun, nofun, fun other hother => ?_⟩
      obtain rfl := List.mem_singleton.mp hother
      exact hsettled
  | .evaluate value, known, among, hproper, hlabels, _ => by
      intro pending s hready
      rw [action]
      exact (expr_emits hready hproper hlabels).mono fun _ _ _ _ => Done.nothing
  | .goto target, known, among, hproper, hlabels, _ => goto_emits hproper hlabels
  | .define v value, known, among, hproper, hlabels, _ => define_emits hproper hlabels
  | .reserve v, known, among, hproper, _, _ => by
      obtain ⟨count, hcount⟩ := Option.isSome_iff_exists.mp hproper
      exact reserve_emits hcount
  | .assign target value, known, among, hproper, hlabels, _ => by
      intro pending s hready
      rw [action]
      refine Emits.mono (Emits.plain ?_) fun _ _ _ _ => Done.nothing
      exact plain_rules.store ⟨hready.proper hproper.1, hlabels.1.mono hready.labels⟩
        ⟨hready.proper hproper.2, hlabels.2.mono hready.labels⟩
  | .block body, known, among, hproper, hlabels, hfiles =>
      block_emits (stmts_emits hsound body hproper hlabels hfiles)
  | .branch condition taken none, known, among, hproper, hlabels, hfiles => by
      have htaken := stmt_emits hsound taken hproper.2.1 hlabels.2.1 fun file hfile =>
        hfiles file (List.mem_append_left _ hfile)
      intro pending s hready
      exact (ifThen_emits hproper.1.2 hlabels.1 htaken hready).mono fun _ t _ hdone =>
        hdone.append Done.nothing
  | .branch condition taken (some other), known, among, hproper, hlabels, hfiles =>
      ifElse_emits hproper.1.2 hlabels.1
        (stmt_emits hsound taken hproper.2.1 hlabels.2.1 fun file hfile =>
          hfiles file (List.mem_append_left _ hfile))
        (stmt_emits hsound other hproper.2.2 hlabels.2.2 fun file hfile =>
          hfiles file (List.mem_append_right _ hfile))
  | .loop condition body false, known, among, hproper, hlabels, hfiles =>
      while_emits hproper.1.2 hlabels.1 (stmt_emits hsound body hproper.2 hlabels.2 hfiles)
  | .loop condition body true, known, among, hproper, hlabels, hfiles =>
      doWhile_emits hproper.1.2 hlabels.1 (stmt_emits hsound body hproper.2 hlabels.2 hfiles)
  | .words values, known, among, _, hlabels, _ => by
      intro pending s hready
      rw [action]
      refine Emits.mono (Emits.plain ?_) fun _ _ _ _ => Done.nothing
      exact rawWords_plain (Expr.AllLabelsIn.mono hready.labels hlabels)

/-- Either the file is placed here, or it was reached before and its labels are settled already.
-/
theorem program_emits (hsound : I.Sound) : ∀ (p : Program) {pending : Target → Prop} {s : State},
    I.lookup p.file.key = some p →
    Emits I pending (program p) (fun _ t => ∀ label ∈ p.ownLabels, Settled I t (.label label)) s
  | .mk _ statements _ _, _, _, hp =>
      have hfile := (hsound _ _ hp).2
      file_emits hsound hp (stmts_emits hsound statements hfile.proper hfile.labels hfile.files)

end

end Emit

end ByteJump
