import ByteJump.Generate
import ByteJump.Proofs.Respelling.Basic

set_option autoImplicit false

/-!
# Emitting respelled code

Emission looks declarations up by their identities and never at names, but for the one question
whether a label names the entry.  So respelled code is emitted as before: piece by piece in the same
places, with the symbols respelled.  Links and counts are the same numbers.

`Echoes` relates two computations that run side by side, one from a state and one from the same
state respelled: both answer alike and leave states that are respellings of each other, or both
fail with the same kind of fault.  It is closed under binds, so each function of the emission gets
one lemma of the same shape as its own definition, from the pieces up to `code_echoes`.  What an
image is made of is read off the state afterwards: `word_respell`, `link_respell` and
`finish_respell` say that nothing in it depends on a spelling, which gives `generate_respell`.
-/

namespace ByteJump

section Defs

variable (r : Respelling)

/-- A target respelled. -/
def Target.respell : Target → Target
  | .label l => .label (l.respell r)
  | .point role serial => .point role serial

/-- A word respelled. -/
def Assembly.Word.respell : Assembly.Word → Assembly.Word
  | .known value => .known value
  | .address target site => .address (target.respell r) (site.map (Location.respell r))
  | .constant value => .constant (value.respell r)

/-- A piece respelled. -/
def Assembly.Piece.respell : Assembly.Piece → Assembly.Piece
  | .instruction source destination next => .instruction source destination (next.respell r)
  | .bytes data => .bytes data
  | .word value => .word (value.respell r)

/-- What is known while code is emitted, respelled. -/
def Emit.State.respell (s : State) : State :=
  { s with pieces := s.pieces.map (Assembly.Piece.respell r) }

end Defs

namespace Emit

open Assembly Memory

variable {r : Respelling} {α β : Type}

/-! ## Pieces

A respelling renames what a word refers to and keeps what it takes in the image.  So sizes, and
with them all addresses, are those of the pieces before. -/

@[simp]
theorem size_piece_respell (piece : Piece) : (piece.respell r).size = piece.size := by
  cases piece <;> rfl

@[simp]
theorem size_map_respell (pieces : List Piece) :
    Assembly.size (pieces.map (Piece.respell r)) = Assembly.size pieces := by
  simp [Assembly.size, Function.comp_def]

theorem isSymbol_respell (w : Word) : (w.respell r).isSymbol = w.isSymbol := by
  cases w <;> rfl

theorem isInstruction_respell (piece : Piece) :
    (piece.respell r).isInstruction = piece.isInstruction := by
  cases piece <;> rfl

theorem hasSymbol_respell (piece : Piece) : (piece.respell r).hasSymbol = piece.hasSymbol := by
  cases piece <;> simp [Piece.hasSymbol, Piece.word?, Piece.respell, isSymbol_respell]

/-! ## Respelled computations

The two computations are written separately, as the second one may well carry other locations and
other symbols in its text.  The rules for `get`, `position` and `update` are there because the
emission reads its state before it decides: what is read on the second side is the respelled
state, and a number read from it is the same number. -/

/-- From the respelled state the second computation does what the first one does, respelled; the
kinds of faults are the same. -/
structure Echoes (r : Respelling) (x y : Emitter α) : Prop where
  run : ∀ s, match x s with
    | .ok a t => y (s.respell r) = .ok a (t.respell r)
    | .error e t => ∃ e', y (s.respell r) = .error e' (t.respell r) ∧ e'.kind = e.kind

theorem Echoes.pure (a : α) : Echoes r (Pure.pure a) (Pure.pure a) := ⟨fun _ => rfl⟩

theorem Echoes.throw {e e' : Fault} (h : e'.kind = e.kind) :
    Echoes r (MonadExcept.throw e : Emitter α) (MonadExcept.throw e') := ⟨fun _ => ⟨e', rfl, h⟩⟩

/-- The two continuations are related for every result of the first computations, which is the
same on both sides. -/
theorem Echoes.bind {x y : Emitter β} {f g : β → Emitter α} (h : Echoes r x y)
    (hf : ∀ b, Echoes r (f b) (g b)) : Echoes r (x >>= f) (y >>= g) := by
  refine ⟨fun s => ?_⟩
  have h := h.run s
  show match EStateM.bind x f s with
    | .ok a t => EStateM.bind y g (s.respell r) = .ok a (t.respell r)
    | .error e t => ∃ e', EStateM.bind y g (s.respell r) = .error e' (t.respell r) ∧
        e'.kind = e.kind
  unfold EStateM.bind
  cases hx : x s with
  | ok b t =>
      rw [hx] at h
      rw [show y (s.respell r) = .ok b (t.respell r) from h]
      exact (hf b).run t
  | error e t =>
      rw [hx] at h
      obtain ⟨e', hy, hkind⟩ := h
      rw [hy]
      exact ⟨e', rfl, hkind⟩

/-- What is read on the second side is the respelled state. -/
theorem Echoes.get {f g : State → Emitter α} (h : ∀ s, Echoes r (f s) (g (s.respell r))) :
    Echoes r (MonadState.get >>= f) (MonadState.get >>= g) := ⟨fun s => (h s).run s⟩

/-- The position of the next piece is a number that no spelling changes. -/
theorem Echoes.position {f g : Nat → Emitter α} (h : ∀ n, Echoes r (f n) (g n)) :
    Echoes r (Emit.position >>= f) (Emit.position >>= g) := ⟨fun s => (h s.position).run s⟩

/-- An update that commutes with respelling. -/
theorem Echoes.update {f g : State → State} (h : ∀ s, g (s.respell r) = (f s).respell r) :
    Echoes r (modify f) (modify g) := by
  refine ⟨fun s => ?_⟩
  show EStateM.Result.ok PUnit.unit (g (s.respell r)) = .ok PUnit.unit ((f s).respell r)
  rw [h]

/-! ## Primitives

Nothing here looks at a name.  The one exception is `placeLabel`, which asks whether the label is
the entry: a faithful respelling keeps that answer, which is where `r.Faithful` is used. -/

theorem push_echoes (piece : Piece) : Echoes r (push piece) (push (piece.respell r)) :=
  .update fun s => by simp [State.respell]

theorem instruction_echoes (source destination next : Nat) :
    Echoes r (instruction source destination next) (instruction source destination next) :=
  push_echoes (.instruction source destination (.known next))

theorem copy_echoes (source destination : Nat) :
    Echoes r (copy source destination) (copy source destination) :=
  .position fun _ => instruction_echoes _ _ _

/-- By induction on the number of bytes, as the copies are emitted one after another. -/
theorem copyRange_echoes : ∀ length source destination : Nat,
    Echoes r (copyRange source destination length) (copyRange source destination length)
  | 0, _, _ => .pure _
  | length + 1, source, destination => by
      rw [copyRange]
      exact (copy_echoes _ _).bind fun _ => copyRange_echoes length _ _

theorem forM_push_echoes : ∀ pieces : List Piece,
    Echoes r (pieces.forM push) ((pieces.map (Piece.respell r)).forM push)
  | [] => .pure _
  | piece :: pieces => by
      show Echoes r (push piece >>= fun _ => pieces.forM push)
        (push (piece.respell r) >>= fun _ => (pieces.map (Piece.respell r)).forM push)
      exact (push_echoes piece).bind fun _ => forM_push_echoes pieces

theorem jumpOver_echoes (pieces : List Piece) :
    Echoes r (jumpOver pieces) (jumpOver (pieces.map (Piece.respell r))) := by
  unfold jumpOver
  refine .position fun n => ?_
  dsimp only
  rw [size_map_respell]
  exact (instruction_echoes _ _ _).bind fun _ => (forM_push_echoes pieces).bind fun _ => .pure _

theorem jumpOverAligned_echoes (align : Nat) (pieces : List Piece) :
    Echoes r (jumpOverAligned align pieces)
      (jumpOverAligned align (pieces.map (Piece.respell r))) := by
  unfold jumpOverAligned
  refine .position fun n => ?_
  dsimp only
  rw [size_map_respell]
  refine (instruction_echoes _ _ _).bind fun _ => (push_echoes (.bytes _)).bind fun _ => ?_
  exact (forM_push_echoes pieces).bind fun _ => .pure _

theorem byteConstant_echoes (value : UInt8) :
    Echoes r (byteConstant value) (byteConstant value) := by
  unfold byteConstant
  refine .get fun s => ?_
  rw [show (s.respell r).byteConstants = s.byteConstants from rfl]
  cases s.byteConstants.lookup value with
  | some address => exact .pure _
  | none =>
      refine (jumpOver_echoes [.bytes [value]]).bind fun address => ?_
      exact Echoes.bind (.update fun _ => rfl) fun _ => .pure _

theorem stringConstant_echoes (text : String) :
    Echoes r (stringConstant text) (stringConstant text) := by
  unfold stringConstant
  refine .get fun s => ?_
  rw [show (s.respell r).strings = s.strings from rfl]
  cases s.strings.lookup text with
  | some address => exact .pure _
  | none =>
      refine (jumpOver_echoes [.bytes text.toUTF8.toList]).bind fun address => ?_
      exact Echoes.bind (.update fun _ => rfl) fun _ => .pure _

theorem setByte_echoes (destination : Nat) (value : UInt8) :
    Echoes r (setByte destination value) (setByte destination value) :=
  (byteConstant_echoes value).bind fun _ => copy_echoes _ _

theorem setBytes_echoes : ∀ length destination value : Nat,
    Echoes r (setBytes destination length value) (setBytes destination length value)
  | 0, _, _ => .pure _
  | length + 1, destination, value => by
      rw [setBytes]
      exact (setByte_echoes _ _).bind fun _ => setBytes_echoes length _ _

theorem clearFrom_echoes (width : Nat) : Echoes r (clearFrom width) (clearFrom width) :=
  setBytes_echoes _ _ _

theorem patches_echoes (target : Nat) : ∀ fields : List (Nat × Nat),
    Echoes r (patches target fields) (patches target fields)
  | [] => .pure _
  | (source, offset) :: fields => by
      rw [patches]
      exact (copy_echoes _ _).bind fun _ => patches_echoes target fields

/-- The fields of an instruction that is patched are offsets from its own place, which is the same
on both sides. -/
theorem patched_echoes (fields : List (Nat × Nat)) (source destination : Nat) :
    Echoes r (patched fields source destination) (patched fields source destination) := by
  unfold patched
  refine Echoes.bind (.position fun _ => .pure _) fun target => ?_
  exact (patches_echoes target fields).bind fun _ => instruction_echoes _ _ _

/-- Running out of registers is reported at a site, and only the site is respelled. -/
theorem allocate_echoes (count : Nat) (site : Location) :
    Echoes r (allocate count site) (allocate count (site.respell r)) := by
  unfold allocate
  refine .get fun s => ?_
  dsimp only
  rw [show (s.respell r).mark = s.mark from rfl]
  split
  · exact Echoes.bind (.update fun _ => rfl) fun _ => .pure _
  · exact .throw rfl

theorem release_echoes (mark : Nat) : Echoes r (release mark) (release mark) :=
  .update fun _ => rfl

/-- Whether a label names the entry is the only question about a spelling that emission ever asks.
-/
theorem placeLabel_echoes (hr : r.Faithful) (l : Label) :
    Echoes r (placeLabel l) (placeLabel (l.respell r)) := by
  unfold placeLabel
  rw [isEntry_respell hr]
  exact .update fun _ => rfl

theorem place_echoes (hr : r.Faithful) (target : Target) :
    Echoes r (place target) (place (target.respell r)) := by
  cases target with
  | label l => exact placeLabel_echoes hr l
  | point role serial => exact .update fun _ => rfl

/-- Internal points are numbered as they are made, so both sides give a point the same number. -/
theorem newPoint_echoes {f g : Target → Emitter α} (role : String)
    (h : ∀ serial, Echoes r (f (.point role serial)) (g (.point role serial))) :
    Echoes r (newPoint role >>= f) (newPoint role >>= g) :=
  ⟨fun s => (h (s.serial + 1)).run { s with serial := s.serial + 1 }⟩

theorem jumpTo_echoes (target : Target) : Echoes r (jumpTo target) (jumpTo (target.respell r)) :=
  push_echoes (.instruction 0 0 (.address target none))

/-! ## Expressions

The walk over an expression follows its constructors.  A variable is looked up by its identity, a
type gives a width, and neither depends on names. -/

theorem widthOf_echoes (type : Ty) (site : Location) :
    Echoes r (widthOf type site) (widthOf (type.respell r) (site.respell r)) := by
  unfold widthOf
  rw [Ty.width_respell]
  cases type.width with
  | some width => exact .pure _
  | none => exact .throw rfl

theorem countZeros_echoes (total flag : Nat) : ∀ count i : Nat,
    Echoes r (countZeros total flag count i) (countZeros total flag count i)
  | 0, _ => .pure _
  | count + 1, i => by
      rw [countZeros]
      refine (patched_echoes _ _ _).bind fun _ => (patched_echoes _ _ _).bind fun _ => ?_
      exact countZeros_echoes total flag count _

/-- The bytes of a long value are tested one by one with the same instructions, whatever the site
of a fault is. -/
theorem logicalNot_echoes (width : Nat) (site : Location) :
    Echoes r (logicalNot width site) (logicalNot width (site.respell r)) := by
  unfold logicalNot
  refine .get fun s => (allocate_echoes 1 site).bind fun scratch => ?_
  refine (setByte_echoes _ _).bind fun _ => (countZeros_echoes _ _ _ _).bind fun _ => ?_
  refine (patched_echoes _ _ _).bind fun _ => (clearFrom_echoes 1).bind fun _ => ?_
  exact release_echoes _

/-- By induction on the expression.  The case of a label is the only one that puts a respelled
symbol into a word; all others emit the same pieces. -/
theorem expr_echoes (e : Expr) : Echoes r (expr e) (expr (e.respell r)) := by
  cases e with
  | int value info =>
      rw [Expr.respell, expr, expr]
      exact setBytes_echoes _ _ _
  | str text info =>
      rw [Expr.respell, expr, expr]
      refine (stringConstant_echoes text).bind fun address => ?_
      exact (setBytes_echoes _ _ _).bind fun _ => setBytes_echoes _ _ _
  | «variable» v info =>
      rw [Expr.respell, expr, expr, show (v.respell r).count = v.count from rfl]
      cases v.count with
      | some count => exact .throw rfl
      | none =>
          refine .get fun s => ?_
          rw [show (s.respell r).bindings.register? (v.respell r) = s.bindings.register? v from rfl]
          cases s.bindings.register? v with
          | some n => exact copyRange_echoes _ _ _
          | none => exact .throw rfl
  | label use info =>
      rw [Expr.respell, expr, expr,
        show (use.respell r).target = use.target.map (Label.respell r) from rfl]
      cases use.target with
      | none => exact .throw rfl
      | some label =>
          refine Echoes.bind (jumpOver_echoes [.word (.address (.label label) (some info.site))])
            fun address => ?_
          exact (copyRange_echoes _ _ _).bind fun _ => clearFrom_echoes _
  | cast operand info =>
      rw [Expr.respell, expr, expr]
      refine (expr_echoes operand).bind fun _ => ?_
      refine (widthOf_echoes info.type info.site).bind fun width => ?_
      split
      · exact clearFrom_echoes _
      · exact .pure _
  | unary op operand info =>
      have hoperand : Echoes r _ _ := expr_echoes operand
      cases op with
      | plus =>
          rw [Expr.respell, expr, expr]
          exact hoperand
      | not =>
          rw [Expr.respell, expr, expr, Expr.type_respell, Expr.site_respell]
          refine hoperand.bind fun _ => (widthOf_echoes _ _).bind fun width => ?_
          exact logicalNot_echoes width info.site
      | deref =>
          rw [Expr.respell, expr, expr]
          exact hoperand.bind fun _ => (patched_echoes _ _ _).bind fun _ => clearFrom_echoes _
      | negate | complement =>
          rw [Expr.respell, expr, expr]
          exact .throw rfl
  | binary op left right info =>
      rw [Expr.respell, expr, expr]
      refine (widthOf_echoes info.type info.site).bind fun width => ?_
      split
      · exact .throw rfl
      split
      · exact .throw rfl
      · refine .get fun s => (expr_echoes left).bind fun _ => ?_
        refine (allocate_echoes 1 info.site).bind fun saved => (copy_echoes _ _).bind fun _ => ?_
        refine (expr_echoes right).bind fun _ => (patched_echoes _ _ _).bind fun _ => ?_
        exact (clearFrom_echoes 1).bind fun _ => release_echoes _
  | index base indices info =>
      rw [Expr.respell, expr, expr]
      exact .throw rfl

/-! ## Branches, stores and words

What a block of raw words does is decided by two questions about its expressions, whether they
mention a label and which strings they hold.  Both have the same answer after respelling, so the
same words are written at once and the same ones are left open. -/

theorem select_echoes (table jump : Nat) : ∀ count i : Nat,
    Echoes r (select table jump count i) (select table jump count i)
  | 0, _ => .pure _
  | count + 1, i => by
      rw [select]
      refine .position fun n => (patched_echoes _ _ _).bind fun _ => ?_
      exact (instruction_echoes _ _ _).bind fun _ => select_echoes table jump count _

/-- Both targets are respelled, and the table holds them in the same order. -/
theorem branch_echoes (condition : Expr) (taken otherwise : Target) :
    Echoes r (branch condition taken otherwise)
      (branch (condition.respell r) (taken.respell r) (otherwise.respell r)) := by
  unfold branch
  rw [Expr.type_respell, Expr.site_respell]
  refine (expr_echoes condition).bind fun _ => (widthOf_echoes _ _).bind fun width => ?_
  refine (logicalNot_echoes width _).bind fun _ => ?_
  refine Echoes.bind (jumpOverAligned_echoes 16
    [.word (.address taken none), .word (.address otherwise none)]) fun table => ?_
  refine .position fun n => (select_echoes _ _ _ _).bind fun _ => ?_
  exact instruction_echoes _ _ _

theorem store_echoes (target value : Expr) :
    Echoes r (store target value) (store (target.respell r) (value.respell r)) := by
  unfold store
  cases target with
  | unary op pointer info =>
      cases op with
      | deref =>
          rw [Expr.respell]
          refine .get fun s => (expr_echoes pointer).bind fun _ => ?_
          refine (allocate_echoes 1 info.site).bind fun saved => ?_
          refine (copyRange_echoes _ _ _).bind fun _ => (expr_echoes value).bind fun _ => ?_
          exact (patched_echoes _ _ _).bind fun _ => release_echoes _
      | plus | not | negate | complement => exact .throw rfl
  | int _ _ | str _ _ | «variable» _ _ | label _ _ | cast _ _ | binary _ _ _ _ | index _ _ _ =>
      exact .throw rfl

mutual

theorem mentionsLabel_respell : ∀ e : Expr, (e.respell r).mentionsLabel = e.mentionsLabel
  | .int .. | .str .. | .variable .. | .label .. => rfl
  | .cast operand _ | .unary _ operand _ => by
      simp only [Expr.respell, Expr.mentionsLabel, mentionsLabel_respell operand]
  | .binary _ left right _ => by
      simp only [Expr.respell, Expr.mentionsLabel, mentionsLabel_respell left,
        mentionsLabel_respell right]
  | .index base indices _ => by
      simp only [Expr.respell, Expr.mentionsLabel, mentionsLabel_respell base,
        anyMentionsLabel_respell indices]

theorem anyMentionsLabel_respell : ∀ es : List Expr,
    Expr.anyMentionsLabel (Expr.respellList r es) = Expr.anyMentionsLabel es
  | [] => rfl
  | e :: es => by
      simp only [Expr.respellList, Expr.anyMentionsLabel, mentionsLabel_respell e,
        anyMentionsLabel_respell es]

end

mutual

theorem strings_respell : ∀ e : Expr, (e.respell r).strings = e.strings
  | .int .. | .str .. | .variable .. | .label .. => rfl
  | .cast operand _ | .unary _ operand _ => by
      simp only [Expr.respell, Expr.strings, strings_respell operand]
  | .binary _ left right _ => by
      simp only [Expr.respell, Expr.strings, strings_respell left, strings_respell right]
  | .index base indices _ => by
      simp only [Expr.respell, Expr.strings, strings_respell base, listStrings_respell indices]

theorem listStrings_respell : ∀ es : List Expr,
    Expr.listStrings (Expr.respellList r es) = Expr.listStrings es
  | [] => rfl
  | e :: es => by
      simp only [Expr.respellList, Expr.listStrings, strings_respell e, listStrings_respell es]

end

/-! ## Values of symbols

The address of a symbol and the value of a constant come from tables that are keyed by identities.
They are the same number on both sides, or the same kind of fault. -/

theorem address_respell (s : State) (target : Target) (site : Option Location) :
    Mirrors id (s.address target site)
      ((s.respell r).address (target.respell r) (site.map (Location.respell r))) := by
  cases target with
  | label l =>
      have hsame : (s.respell r).bindings.address? (l.respell r) = s.bindings.address? l := rfl
      simp only [Target.respell, State.address, hsame]
      cases s.bindings.address? l with
      | some address => exact .ok address
      | none => exact .error rfl
  | point role serial =>
      have hsame : (s.respell r).points = s.points := rfl
      simp only [Target.respell, State.address, hsame]
      cases s.points.lookup serial with
      | some address => exact .ok address
      | none => exact .error rfl

theorem constant_respell (s : State) (value : Expr) :
    Mirrors id (s.constant value) ((s.respell r).constant (value.respell r)) := by
  have hvalue : Mirrors id (Constant.evaluate s.env value)
      (Constant.evaluate (s.respell r).env (value.respell r)) := by
    refine evaluate_mirrors (fun use site => ?_) (fun text site => ?_) value
    · simp only [State.env, Constant.ofTarget, LabelUse.respell]
      cases use.target with
      | none => exact .error rfl
      | some l =>
          exact (address_respell s (.label l) (some site)).map (BitVec.ofNat 128)
    · simp only [State.env]
      rw [show (s.respell r).strings = s.strings from rfl]
      cases s.strings.lookup text with
      | some address => exact .ok _
      | none => exact .error rfl
  exact hvalue.map fun v => v.toNat % addressSpace

/-- By induction on the list: each value is either deferred on both sides or written on both
sides. -/
theorem words_echoes : ∀ values : List Expr,
    Echoes r (words values) (words (Expr.respellList r values))
  | [] => .pure _
  | value :: values => by
      rw [Expr.respellList, words, words, mentionsLabel_respell]
      have hrest : Echoes r _ _ := words_echoes values
      split
      · exact (push_echoes (.word (.constant value))).bind fun _ => hrest
      · refine .get fun s => ?_
        have hvalue := constant_respell (r := r) s value
        cases hconstant : s.constant value with
        | ok n =>
            rw [hconstant] at hvalue
            rw [show (s.respell r).constant (value.respell r) = .ok n from hvalue]
            exact (push_echoes (.word (.known n))).bind fun _ => hrest
        | error e =>
            rw [hconstant] at hvalue
            obtain ⟨e', he', hkind⟩ := hvalue
            rw [he']
            exact Echoes.bind (.throw hkind) fun _ => hrest

theorem strings_echoes : ∀ texts : List String,
    Echoes r (texts.forM fun text => do let _ ← stringConstant text)
      (texts.forM fun text => do let _ ← stringConstant text)
  | [] => .pure _
  | text :: texts => by
      show Echoes r ((do let _ ← stringConstant text) >>= fun _ => texts.forM _)
        ((do let _ ← stringConstant text) >>= fun _ => texts.forM _)
      refine Echoes.bind ?_ fun _ => strings_echoes texts
      exact (stringConstant_echoes text).bind fun _ => .pure _

theorem rawWords_echoes (values : List Expr) :
    Echoes r (rawWords values) (rawWords (Expr.respellList r values)) := by
  unfold rawWords
  rw [listStrings_respell]
  exact (strings_echoes _).bind fun _ => words_echoes values

theorem alignTo_echoes (align : Nat) : Echoes r (alignTo align) (alignTo align) := by
  unfold alignTo
  refine .position fun n => ?_
  split
  · exact Echoes.bind (jumpOver_echoes [.bytes _]) fun _ => .pure _
  · exact .pure _

/-! ## Statements

The statement, its action, an alternative and a file are emitted by one recursion, so the four
lemmas are proved together along it. -/

theorem placeLabels_echoes (hr : r.Faithful) : ∀ labels : List Label,
    Echoes r (labels.forM placeLabel) ((labels.map (Label.respell r)).forM placeLabel)
  | [] => .pure _
  | l :: labels => by
      show Echoes r (placeLabel l >>= fun _ => labels.forM placeLabel)
        (placeLabel (l.respell r) >>= fun _ => (labels.map (Label.respell r)).forM placeLabel)
      exact (placeLabel_echoes hr l).bind fun _ => placeLabels_echoes hr labels

theorem bind_echoes (v : Variable) (n : Nat) :
    Echoes r (modify fun s => { s with bindings := s.bindings.bind v n })
      (modify fun s => { s with bindings := s.bindings.bind (v.respell r) n }) :=
  .update fun _ => rfl

mutual

theorem stmt_echoes (hr : r.Faithful) : ∀ st : Stmt, Echoes r (stmt st) (stmt (st.respell r))
  | .mk labels act site => by
      rw [Stmt.respell, stmt, stmt]
      exact (placeLabels_echoes hr labels).bind fun _ => action_echoes hr act

theorem stmts_echoes (hr : r.Faithful) :
    ∀ ss : List Stmt, Echoes r (stmts ss) (stmts (Stmt.respellList r ss))
  | [] => by
      rw [Stmt.respellList, stmts]
      exact .pure _
  | st :: ss => by
      rw [Stmt.respellList, stmts, stmts]
      exact (stmt_echoes hr st).bind fun _ => stmts_echoes hr ss

/-- With no alternative the branch goes to the end, with one it goes to a point of its own. -/
theorem alternative_echoes (hr : r.Faithful) (condition : Expr) (taken finish : Target)
    {body body' : Emitter Unit} (hbody : Echoes r body body') :
    ∀ st : Option Stmt, Echoes r (alternative condition taken finish body st)
      (alternative (condition.respell r) (taken.respell r) (finish.respell r) body'
        (Stmt.respellOption r st))
  | none => by
      rw [Stmt.respellOption, alternative, alternative]
      refine (branch_echoes condition taken finish).bind fun _ => ?_
      exact (place_echoes hr taken).bind fun _ => hbody
  | some st => by
      rw [Stmt.respellOption, alternative, alternative]
      refine newPoint_echoes _ fun serial => ?_
      refine (branch_echoes condition taken (.point "if.else" serial)).bind fun _ => ?_
      refine (place_echoes hr taken).bind fun _ => hbody.bind fun _ => ?_
      refine (jumpTo_echoes finish).bind fun _ => ?_
      exact (place_echoes hr (.point "if.else" serial)).bind fun _ => stmt_echoes hr st

/-- One case for each action.  A placed file is emitted by `program_echoes`, which the recursion
supplies. -/
theorem action_echoes (hr : r.Faithful) :
    ∀ act : Action, Echoes r (action act) (action (act.respell r))
  | .nothing => by
      rw [Action.respell, action]
      exact .pure _
  | .place file => by
      rw [Action.respell, action, action]
      exact program_echoes hr file
  | .evaluate value => by
      rw [Action.respell, action, action]
      exact expr_echoes value
  | .goto target => by
      rw [Action.respell, action, action]
      refine (expr_echoes target).bind fun _ => ?_
      refine Echoes.bind (.position fun _ => .pure _) fun n => ?_
      exact (patches_echoes n _).bind fun _ => instruction_echoes _ _ _
  | .define v value => by
      rw [Action.respell, action, action]
      refine (expr_echoes value).bind fun _ => (allocate_echoes 1 v.site).bind fun n => ?_
      exact (bind_echoes v n).bind fun _ => copyRange_echoes _ _ _
  | .reserve v => by
      rw [Action.respell, action, action, show (v.respell r).count = v.count from rfl]
      cases v.count with
      | some count => exact (allocate_echoes count v.site).bind fun n => bind_echoes v n
      | none => exact .throw rfl
  | .assign target value => by
      rw [Action.respell, action, action]
      exact store_echoes target value
  | .block body => by
      rw [Action.respell, action, action]
      exact .get fun s => (stmts_echoes hr body).bind fun _ => release_echoes _
  | .branch condition taken otherwise => by
      rw [Action.respell, action, action]
      refine newPoint_echoes _ fun n => newPoint_echoes _ fun m => ?_
      refine Echoes.bind (alternative_echoes hr condition (.point "if.then" n) (.point "if.end" m)
        (stmt_echoes hr taken) otherwise) fun _ => ?_
      exact place_echoes hr (.point "if.end" m)
  | .loop condition body false => by
      rw [Action.respell, action, action]
      refine newPoint_echoes _ fun n => newPoint_echoes _ fun m => newPoint_echoes _ fun k => ?_
      refine (place_echoes hr (.point "while.top" n)).bind fun _ => ?_
      refine Echoes.bind (branch_echoes condition (.point "while.body" m) (.point "while.end" k))
        fun _ => ?_
      refine (place_echoes hr (.point "while.body" m)).bind fun _ => ?_
      refine (stmt_echoes hr body).bind fun _ => ?_
      refine (jumpTo_echoes (.point "while.top" n)).bind fun _ => ?_
      exact place_echoes hr (.point "while.end" k)
  | .loop condition body true => by
      rw [Action.respell, action, action]
      refine newPoint_echoes _ fun n => newPoint_echoes _ fun m => ?_
      refine (place_echoes hr (.point "do.top" n)).bind fun _ => ?_
      refine (stmt_echoes hr body).bind fun _ => ?_
      refine Echoes.bind (branch_echoes condition (.point "do.top" n) (.point "do.end" m))
        fun _ => ?_
      exact place_echoes hr (.point "do.end" m)
  | .words values => by
      rw [Action.respell, action, action]
      exact rawWords_echoes values

/-- Whether a file was placed before is a question about its identity, which a respelling keeps.
-/
theorem program_echoes (hr : r.Faithful) :
    ∀ p : Program, Echoes r (program p) (program (p.respell r))
  | .mk file statements exports pragmas => by
      rw [Program.respell, program, program]
      refine .get fun s => ?_
      rw [show (s.respell r).placed = s.placed from rfl]
      have hrest : Echoes r (alignTo pragmas.align >>= fun _ => stmts statements)
          (alignTo pragmas.align >>= fun _ => stmts (Stmt.respellList r statements)) :=
        (alignTo_echoes _).bind fun _ => stmts_echoes hr statements
      dsimp only
      split
      · exact .pure _
      split
      · exact Echoes.bind (.update fun _ => rfl) fun _ => hrest
      · exact hrest

end

theorem code_echoes (hr : r.Faithful) (ss : List Stmt) :
    Echoes r (code ss) (code (Stmt.respellList r ss)) := by
  unfold code
  refine (stmts_echoes hr ss).bind fun _ => .position fun n => ?_
  exact (instruction_echoes _ _ _).bind fun _ => .pure _

/-! ## Images

Linking reads the pieces in order and replaces each word by its value.  On the respelled side the
pieces are the respelled ones, and each of their words has the same value. -/

theorem word_respell (s : State) (w : Word) :
    Mirrors id (s.word w) ((s.respell r).word (w.respell r)) := by
  cases w with
  | known value => exact .ok value
  | address target site => exact address_respell s target site
  | constant value => exact constant_respell s value

theorem encode_respell (s : State) (piece : Piece) :
    Mirrors id (piece.encode s.word) ((piece.respell r).encode (s.respell r).word) := by
  cases piece with
  | bytes data => exact .ok data
  | instruction source destination next => exact (word_respell s next).bind fun n => .ok _
  | word w => exact (word_respell s w).bind fun n => .ok _

theorem link_respell (s : State) (pieces : List Piece) :
    Mirrors id (link s.word pieces) (link (s.respell r).word (pieces.map (Piece.respell r))) := by
  unfold link
  generalize (#[] : Array UInt8) = start
  induction pieces generalizing start with
  | nil => exact .ok start
  | cons piece pieces ih =>
      rw [List.map_cons, List.foldlM_cons, List.foldlM_cons]
      refine Mirrors.bind ?_ fun longer => ih longer
      exact (encode_respell s piece).bind fun bytes => .ok _

theorem stats_respell (s : State) : (s.respell r).stats = s.stats := by
  unfold State.stats State.respell
  simp only [Array.toList_map, List.countP_map, Function.comp_def, isInstruction_respell,
    hasSymbol_respell]

/-- The patches, the entry and the counts of the image are numbers read from the state. -/
theorem finish_respell (s : State) (halt : Nat) :
    Mirrors id (s.finish halt) ((s.respell r).finish halt) := by
  have hpieces : (s.respell r).pieces.toList = s.pieces.toList.map (Piece.respell r) :=
    Array.toList_map
  unfold State.finish
  rw [hpieces, stats_respell]
  exact (link_respell s _).bind fun bytes => .ok _

/-- A respelled program has the same image with the same counts, or a fault of the same kind. -/
theorem generate_respell (hr : r.Faithful) (p : Program) (b : Bindings) :
    Mirrors id (p.generate b).1 ((p.respell r).generate b).1 := by
  obtain ⟨file, statements, exports, pragmas⟩ := p
  have hcode := (code_echoes hr statements).run (.start b)
  rw [show (State.start b).respell r = .start b by simp [State.respell, State.start]] at hcode
  unfold Program.generate EStateM.run
  rw [Program.respell, Program.statements, Program.statements]
  cases hrun : code statements (.start b) with
  | ok halt s =>
      rw [hrun] at hcode
      rw [show code _ _ = _ from hcode]
      exact finish_respell s halt
  | error e s =>
      rw [hrun] at hcode
      obtain ⟨e', he', hkind⟩ := hcode
      rw [he']
      exact .error hkind

end Emit

end ByteJump
