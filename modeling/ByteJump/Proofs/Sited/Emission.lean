import ByteJump.Generate
import ByteJump.Proofs.Emit.Rules
import ByteJump.Proofs.Sited.Tree

set_option autoImplicit false

/-!
# Places of faults in generating

A fault in generating the image of a program is placed at a part of the program, whether it is found
while code is emitted or when the symbols in the code get their values.

Faults arise at two times.  While code is emitted, registers may run out or a type may have no
size, and such a fault carries the place of an expression.  When the image is made, a symbol may
have no value, and then the place is the one the word was emitted with.  So `EmitsIn` follows two
things through the emission: where a fault is placed, and that every word of the code is
`WordSited`.  At the end `link_sited` turns the second one into places of faults.
-/

namespace ByteJump.Emit

open Assembly Memory

variable {α β : Type} {among : Location → Prop}

/-! ## Code

A known word has no fault in it.  An address carries the place of the use it was emitted for, or
is placed at the label itself; a constant carries the places of its parts. -/

/-- A fault in the value of the word is placed among the given places. -/
def WordSited (among : Location → Prop) : Word → Prop
  | .known _ => True
  | .address (.label label) site => among (site.getD label.site)
  | .address (.point ..) _ => True
  | .constant value => value.SitesIn among

/-- A fault in a word of the piece is placed among the given places. -/
def PieceSited (among : Location → Prop) (piece : Piece) : Prop :=
  ∀ word, piece.word? = some word → WordSited among word

/-- A fault in a word of the code so far is placed among the given places. -/
def State.SitesIn (among : Location → Prop) (s : State) : Prop :=
  ∀ piece ∈ s.pieces.toList, PieceSited among piece

/-- The computation adds code and ends with a fault only where its place, and those of faults in the
code, are among the given places. -/
structure EmitsIn (among : Location → Prop) (x : Emitter α) : Prop where
  ends : ∀ s, s.SitesIn among →
    match x s with
    | .ok _ t => t.SitesIn among
    | .error e _ => e.SiteIn among

theorem pieceSited_known (source destination next : Nat) :
    PieceSited among (.instruction source destination (.known next)) := by
  rintro _ ⟨⟩
  trivial

theorem pieceSited_bytes (data : List UInt8) : PieceSited among (.bytes data) := by
  rintro _ ⟨⟩

theorem pieceSited_word {word : Word} (h : WordSited among word) :
    PieceSited among (.word word) := by
  rintro _ ⟨⟩
  exact h

theorem forall_mem_singleton_sited {piece : Piece} (h : PieceSited among piece) :
    ∀ other ∈ [piece], PieceSited among other := List.forall_mem_singleton.mpr h

/-! ## Rules

An update that leaves the code alone keeps all places, so registers, bindings and pools need no
attention. -/

theorem EmitsIn.pure {a : α} : EmitsIn among (Pure.pure a : Emitter α) := ⟨fun _ hs => hs⟩

theorem EmitsIn.throw {e : Fault} (h : e.SiteIn among) :
    EmitsIn among (MonadExcept.throw e : Emitter α) := ⟨fun _ _ => h⟩

/-- A fault at a place. -/
theorem EmitsIn.throwAt {e : Fault} {site : Location} (he : e.site? = some site) (h : among site) :
    EmitsIn among (MonadExcept.throw e : Emitter α) := .throw (Fault.siteIn_of_some he h)

/-- What holds of the code behind the first part holds in front of the second one. -/
theorem EmitsIn.bind {x : Emitter β} {f : β → Emitter α} (h : EmitsIn among x)
    (hf : ∀ b, EmitsIn among (f b)) : EmitsIn among (x >>= f) := by
  refine ⟨fun s hs => ?_⟩
  have hx := h.ends s hs
  rw [show (x >>= f) s = _ from EStateM.run_bind x f, EStateM.run]
  cases hxs : x s with
  | ok b t =>
      rw [hxs] at hx
      exact (hf b).ends t hx
  | error e t =>
      rw [hxs] at hx
      exact hx

/-- The state that is read is one whose code is sited. -/
theorem EmitsIn.get {f : State → Emitter α}
    (h : ∀ s : State, s.SitesIn among → EmitsIn among (f s)) :
    EmitsIn among (MonadState.get >>= f) := ⟨fun s hs => (h s hs).ends s hs⟩

/-- Anything but the code is changed. -/
theorem EmitsIn.update {f : State → State} (h : ∀ s, (f s).pieces = s.pieces) :
    EmitsIn among (modify f : Emitter Unit) := by
  refine ⟨fun s hs => ?_⟩
  show (f s).SitesIn among
  unfold State.SitesIn at hs ⊢
  rw [h]
  exact hs

theorem push_sited {piece : Piece} (h : PieceSited among piece) : EmitsIn among (push piece) := by
  refine ⟨fun s hs other hother => ?_⟩
  rcases List.mem_append.mp (Array.toList_push ▸ hother) with hother | hother
  · exact hs other hother
  · exact List.mem_singleton.mp hother ▸ h

theorem forM_sited {γ : Type} {f : γ → Emitter Unit} : ∀ {l : List γ},
    (∀ a ∈ l, EmitsIn among (f a)) → EmitsIn among (l.forM f)
  | [], _ => .pure
  | a :: l, h => by
      show EmitsIn among (f a >>= fun _ => l.forM f)
      refine (h a List.mem_cons_self).bind fun _ => ?_
      exact forM_sited fun b hb => h b (List.mem_cons_of_mem a hb)

/-! ## Instructions and constants

All of these push words that are known. -/

theorem position_sited : EmitsIn among position := .get fun _ _ => .pure

theorem instruction_sited (source destination next : Nat) :
    EmitsIn among (instruction source destination next) := push_sited (pieceSited_known _ _ _)

theorem copy_sited (source destination : Nat) : EmitsIn among (copy source destination) :=
  position_sited.bind fun _ => instruction_sited _ _ _

theorem jumpOver_sited {pieces : List Piece} (h : ∀ piece ∈ pieces, PieceSited among piece) :
    EmitsIn among (jumpOver pieces) := by
  refine position_sited.bind fun _ => (instruction_sited _ _ _).bind fun _ => ?_
  exact (forM_sited fun piece hpiece => push_sited (h piece hpiece)).bind fun _ => .pure

theorem jumpOverAligned_sited (align : Nat) {pieces : List Piece}
    (h : ∀ piece ∈ pieces, PieceSited among piece) :
    EmitsIn among (jumpOverAligned align pieces) := by
  refine position_sited.bind fun _ => (instruction_sited _ _ _).bind fun _ => ?_
  refine (push_sited (pieceSited_bytes _)).bind fun _ => ?_
  exact (forM_sited fun piece hpiece => push_sited (h piece hpiece)).bind fun _ => .pure

theorem byteConstant_sited (value : UInt8) : EmitsIn among (byteConstant value) := by
  refine .get fun s _ => ?_
  split
  · exact .pure
  · refine (jumpOver_sited (forall_mem_singleton_sited (pieceSited_bytes _))).bind fun _ => ?_
    exact EmitsIn.bind (.update fun _ => rfl) fun _ => .pure

theorem stringConstant_sited (text : String) : EmitsIn among (stringConstant text) := by
  refine .get fun s _ => ?_
  split
  · exact .pure
  · refine (jumpOver_sited (forall_mem_singleton_sited (pieceSited_bytes _))).bind fun _ => ?_
    exact EmitsIn.bind (.update fun _ => rfl) fun _ => .pure

theorem patches_sited (target : Nat) : ∀ fields, EmitsIn among (patches target fields)
  | [] => .pure
  | (_, _) :: rest => (copy_sited _ _).bind fun _ => patches_sited target rest

theorem behindPatches_sited (count : Nat) : EmitsIn among (behindPatches count) :=
  position_sited.bind fun _ => .pure

theorem patched_sited (fields : List (Nat × Nat)) (source destination : Nat) :
    EmitsIn among (patched fields source destination) :=
  (behindPatches_sited _).bind fun _ => (patches_sited _ fields).bind fun _ =>
    instruction_sited _ _ _

/-! ## Registers, labels and points

The only fault here is that the registers run out, and it is placed where they were asked for. -/

theorem allocate_sited {count : Nat} {site : Location} (h : among site) :
    EmitsIn among (allocate count site) := by
  refine .get fun s _ => ?_
  dsimp only
  split
  · exact EmitsIn.bind (.update fun _ => rfl) fun _ => .pure
  · exact .throwAt rfl h

theorem release_sited (mark : Nat) : EmitsIn among (release mark) := .update fun _ => rfl

theorem placeLabel_sited (label : Label) : EmitsIn among (placeLabel label) := .update fun _ => rfl

/-- The new point goes into what comes behind. -/
theorem newPoint_sited {role : String} {f : Target → Emitter α}
    (h : ∀ serial, EmitsIn among (f (.point role serial))) :
    EmitsIn among (newPoint role >>= f) := by
  refine ⟨fun s hs => ?_⟩
  exact (h (s.serial + 1)).ends { s with serial := s.serial + 1 } hs

theorem place_sited (target : Target) : EmitsIn among (place target) := by
  cases target with
  | label label => exact placeLabel_sited label
  | point role serial => exact .update fun _ => rfl

theorem jumpTo_sited (role : String) (serial : Nat) :
    EmitsIn among (jumpTo (.point role serial)) := by
  refine push_sited ?_
  rintro _ ⟨⟩
  trivial

/-! ## Expressions

The common walk over expressions needs to know that the places of a part are places of the whole,
and of each primitive that it keeps to them. -/

theorem sited_rules : Rules (Expr.SitesIn among) fun x => EmitsIn among x where
  inherited := ⟨fun h => h.2, fun h => h.2, fun h => h.2⟩
  pure := .pure
  bind := .bind
  mark h _ := .get fun s _ => h s
  copy := copy_sited
  patched := patched_sited
  byteConstant := byteConstant_sited
  stringConstant := stringConstant_sited
  release := release_sited
  allocate he := allocate_sited he.site
  refuse he h := by cases h <;> exact .throwAt rfl he.site
  register {v _ _} _ h := .get fun s _ => by
    cases s.bindings.register? v with
    | some r => exact h r
    | none => exact .throw (Fault.siteIn_of_none rfl)
  word he _ := jumpOver_sited (forall_mem_singleton_sited (pieceSited_word he))
  unresolved he _ := .throwAt rfl he

theorem expr_sited (e : Expr) (h : e.SitesIn among) : EmitsIn among (expr e) := sited_rules.expr h

/-! ## Branches and raw words

Raw words that mention a label are left as constants with the places of their parts; the others
are computed now, and fail at one of these places. -/

theorem select_sited (table jump : Nat) : ∀ count i, EmitsIn among (select table jump count i)
  | 0, _ => .pure
  | count + 1, _ =>
      position_sited.bind fun _ => (patched_sited _ _ _).bind fun _ =>
        (instruction_sited _ _ _).bind fun _ => select_sited table jump count _

/-- The targets of a branch are points, whose addresses cannot be missing at a place. -/
theorem branch_sited {condition : Expr} (h : condition.SitesIn among) {role role' : String}
    {serial serial' : Nat} :
    EmitsIn among (branch condition (.point role serial) (.point role' serial')) := by
  have hpieces : ∀ piece ∈ [Piece.word (.address (.point role serial) none),
      .word (.address (.point role' serial') none)], PieceSited among piece :=
    List.forall_mem_cons.mpr ⟨pieceSited_word trivial,
      forall_mem_singleton_sited (pieceSited_word trivial)⟩
  refine sited_rules.branch h ((jumpOverAligned_sited 16 hpieces).bind fun _ => ?_)
  refine position_sited.bind fun _ => (select_sited _ _ _ _).bind fun _ => ?_
  exact instruction_sited _ _ _

/-- A label without an address is missed at the place of its use, or of its own. -/
theorem State.address_sited (s : State) {target : Target} {site : Option Location}
    (h : WordSited among (.address target site)) :
    FaultsIn among (s.address target site) fun _ => True := by
  unfold State.address
  cases target with
  | label label =>
      dsimp only
      split
      · exact trivial
      · exact Fault.siteIn_of_some rfl h
  | point role serial =>
      dsimp only
      split
      · exact trivial
      · exact Fault.siteIn_of_none rfl

theorem State.constant_sited (s : State) {value : Expr} (h : value.SitesIn among) :
    FaultsIn among (s.constant value) fun _ => True := by
  have hvalue := Constant.evaluate_sited (Constant.env_located s) h
  unfold State.constant
  cases hrun : Constant.evaluate s.env value with
  | ok v => trivial
  | error e => exact hvalue.fault hrun

theorem State.word_sited (s : State) {word : Word} (h : WordSited among word) :
    FaultsIn among (s.word word) fun _ => True := by
  cases word with
  | known value => trivial
  | address target site => exact s.address_sited h
  | constant value => exact s.constant_sited h

/-- Each value becomes a word with the value's own places, or is computed now. -/
theorem words_sited {values : List Expr} (h : Expr.AllSitesIn among values) :
    EmitsIn among (words values) := by
  induction values with
  | nil => exact .pure
  | cons value values ih =>
      rw [words]
      split
      · exact EmitsIn.bind (push_sited (pieceSited_word h.1)) fun _ => ih h.2
      · refine .get fun s _ => ?_
        have hconstant := s.constant_sited h.1
        cases hrun : s.constant value with
        | ok n => exact EmitsIn.bind (push_sited (pieceSited_word trivial)) fun _ => ih h.2
        | error e => exact EmitsIn.bind (.throw (hconstant.fault hrun)) fun _ => ih h.2

theorem rawWords_sited {values : List Expr} (h : Expr.AllSitesIn among values) :
    EmitsIn among (rawWords values) := by
  refine (forM_sited fun text _ => ?_).bind fun _ => words_sited h
  exact (stringConstant_sited text).bind fun _ => .pure

theorem alignTo_sited (align : Nat) : EmitsIn among (alignTo align) := by
  refine position_sited.bind fun _ => ?_
  split
  · refine (jumpOver_sited (forall_mem_singleton_sited (pieceSited_bytes _))).bind fun _ => ?_
    exact .pure
  · exact .pure

/-! ## Statements

The points of conditions and loops are the emission's own, so of the words a statement emits only
those of its expressions have places. -/

theorem alternative_sited {condition : Expr} (h : condition.SitesIn among) {role role' : String}
    {serial serial' : Nat} {body : Emitter Unit} (hbody : EmitsIn among body)
    {otherwise : Option Stmt} (hotherwise : ∀ s ∈ otherwise, EmitsIn among (stmt s)) :
    EmitsIn among (alternative condition (.point role serial) (.point role' serial') body
      otherwise) := by
  cases otherwise with
  | none =>
      rw [alternative]
      refine (branch_sited h).bind fun _ => (place_sited _).bind fun _ => ?_
      exact hbody
  | some s =>
      rw [alternative]
      refine newPoint_sited fun serial => ?_
      refine (branch_sited h).bind fun _ => (place_sited _).bind fun _ => ?_
      refine hbody.bind fun _ => (jumpTo_sited _ _).bind fun _ => ?_
      exact (place_sited _).bind fun _ => hotherwise s rfl

mutual

theorem stmt_sited : ∀ s : Stmt, s.SitesIn among → EmitsIn among (stmt s)
  | .mk labels act _, h => by
      rw [stmt]
      refine (forM_sited fun label _ => placeLabel_sited label).bind fun _ => ?_
      exact action_sited act h

theorem stmts_sited : ∀ ss : List Stmt, Stmt.ListSitesIn among ss → EmitsIn among (stmts ss)
  | [], _ => by
      rw [stmts]
      exact .pure
  | s :: ss, h => by
      rw [stmts]
      exact (stmt_sited s h.1).bind fun _ => stmts_sited ss h.2

theorem optionStmt_sited : ∀ s : Option Stmt, Stmt.OptionSitesIn among s →
    ∀ t ∈ s, EmitsIn among (stmt t)
  | none, _, _, ht => by cases ht
  | some s, h, t, ht => by
      cases ht
      exact stmt_sited s h

/-- One case for each action, with the statements inside given by the recursion. -/
theorem action_sited : ∀ a : Action, a.SitesIn among → EmitsIn among (action a)
  | .nothing, _ => by
      rw [action]
      exact .pure
  | .place file, h => by
      rw [action]
      exact program_sited file h
  | .evaluate value, h => by
      rw [action]
      exact expr_sited value h
  | .goto target, h => by
      rw [action]
      refine (expr_sited target h).bind fun _ => (behindPatches_sited _).bind fun _ => ?_
      exact (patches_sited _ _).bind fun _ => instruction_sited _ _ _
  | .define v value, h => by
      rw [action]
      refine (expr_sited value h.2).bind fun _ => (allocate_sited h.1).bind fun _ => ?_
      exact EmitsIn.bind (.update fun _ => rfl) fun _ => sited_rules.copyRange _ _ _
  | .reserve v, h => by
      rw [action]
      split
      · exact (allocate_sited h).bind fun _ => .update fun _ => rfl
      · exact .throw (Fault.siteIn_of_none rfl)
  | .assign target value, h => by
      rw [action]
      exact sited_rules.store h.1 h.2
  | .block body, h => by
      rw [action]
      exact .get fun s _ => (stmts_sited body h).bind fun _ => release_sited _
  | .branch condition taken otherwise, h => by
      rw [action]
      refine newPoint_sited fun _ => newPoint_sited fun _ => ?_
      have hotherwise := optionStmt_sited otherwise h.2.2
      refine (alternative_sited h.1 (stmt_sited taken h.2.1) hotherwise).bind fun _ => ?_
      exact place_sited _
  | .loop condition body false, h => by
      rw [action]
      refine newPoint_sited fun _ => newPoint_sited fun _ => newPoint_sited fun _ => ?_
      refine (place_sited _).bind fun _ => (branch_sited h.1).bind fun _ => ?_
      refine (place_sited _).bind fun _ => (stmt_sited body h.2).bind fun _ => ?_
      exact (jumpTo_sited _ _).bind fun _ => place_sited _
  | .loop condition body true, h => by
      rw [action]
      refine newPoint_sited fun _ => newPoint_sited fun _ => (place_sited _).bind fun _ => ?_
      refine (stmt_sited body h.2).bind fun _ => (branch_sited h.1).bind fun _ => ?_
      exact place_sited _
  | .words values, h => by
      rw [action]
      exact rawWords_sited h

/-- An imported file has its places among those of the program. -/
theorem program_sited : ∀ p : Program, p.SitesIn among → EmitsIn among (program p)
  | .mk file statements _ pragmas, h => by
      have hstatements := stmts_sited statements h
      rw [program]
      refine .get fun s _ => ?_
      dsimp only
      split
      · exact .pure
      · have hbody : EmitsIn among (do
            alignTo pragmas.align
            stmts statements) := (alignTo_sited _).bind fun _ => hstatements
        split
        · exact EmitsIn.bind (.update fun _ => rfl) fun _ => hbody
        · exact hbody

end

/-! ## Images

Linking goes through the pieces in order and stops at the first word without a value; that word
was sited, and so is the fault. -/

theorem code_sited {statements : List Stmt} (h : Stmt.ListSitesIn among statements) :
    EmitsIn among (code statements) := by
  unfold code
  refine (stmts_sited statements h).bind fun _ => position_sited.bind fun _ => ?_
  exact (instruction_sited _ _ _).bind fun _ => .pure

/-- A piece holds at most one word. -/
theorem encode_sited {value : Word → Except Fault Nat}
    (hvalue : ∀ word, WordSited among word → FaultsIn among (value word) fun _ => True)
    {piece : Piece} (h : PieceSited among piece) :
    FaultsIn among (piece.encode value) fun _ => True := by
  cases piece with
  | instruction source destination next =>
      exact (hvalue next (h next rfl)).bind fun _ _ => trivial
  | bytes data => trivial
  | word word => exact (hvalue word (h word rfl)).bind fun _ _ => trivial

theorem link_sited {value : Word → Except Fault Nat}
    (hvalue : ∀ word, WordSited among word → FaultsIn among (value word) fun _ => True) :
    ∀ (pieces : List Piece) (code : Array UInt8), (∀ piece ∈ pieces, PieceSited among piece) →
      FaultsIn among (pieces.foldlM (append value) code) fun _ => True
  | [], _, _ => trivial
  | piece :: pieces, code, h => by
      rw [List.foldlM_cons]
      have happend : FaultsIn among (append value code piece) fun _ => True :=
        (encode_sited hvalue (h piece List.mem_cons_self)).bind fun _ _ => trivial
      refine happend.bind fun code _ => link_sited hvalue pieces code fun other hother => ?_
      exact h other (List.mem_cons_of_mem _ hother)

/-- A program without an image has none because of one of its parts. -/
theorem generate_sited {p : Program} (h : p.SitesIn among) (b : Bindings) :
    FaultsIn among (p.generate b).1 fun _ => True := by
  have hcode : EmitsIn among (code p.statements) := by
    cases p
    exact code_sited h
  have hstart := hcode.ends (.start b) fun _ hpiece => by cases hpiece
  unfold Program.generate EStateM.run
  cases hrun : code p.statements (.start b) with
  | error e s =>
      rw [hrun] at hstart
      exact hstart
  | ok halt s =>
      rw [hrun] at hstart
      unfold State.finish
      exact (link_sited (fun _ hword => s.word_sited hword) _ _ hstart).bind fun _ _ => trivial

end ByteJump.Emit
