import ByteJump.Proofs.Emit.OpenWords

set_option autoImplicit false

/-!
# Words that are written last

Four kinds of words depend on where labels and points end up: the word in the code of a label, the
successor of a jump between the parts of a condition or a loop, the two words in the table of a
branch, and a raw word that mentions a label.

`Defers` says for each kind of statement which words these are and where they stand, in terms of what
the statement says and not of the pieces that were laid down.  The main statement is `Trace.opens`:
along a trace the words that are left open are exactly those that the statements of the trace defer.
So none of them is written too early, with an address that a label has only for a while, and no other
word waits for the end.

The proof follows the trace.  For a condition or a loop the code between the statements inside is a row
of parts, and what these leave open is what the statement defers; blocks and files add nothing to what
the statements inside them defer.
-/

namespace ByteJump

namespace Emit

open Assembly Memory

/-! ## Words left open by what statements say

The cases of `Defers` follow the kinds of actions.  A table is described by where it stands, since
its place depends on the padding in front of it. -/

/-- The table of a branch stands at an address: behind the condition, the test of it, a jump, and as
many zeros as the next multiple of 16 is away. -/
def TableAt (condition : Expr) (s : State) (table : Nat) : Prop :=
  ∃ width u v, condition.type.width = some width ∧ expr condition s = .ok ⟨⟩ u ∧
    logicalNot width condition.site u = .ok ⟨⟩ v ∧
    table = v.position + instructionSize +
      (alignUp (v.position + instructionSize) 16 - (v.position + instructionSize))

/-- Emitted from a state, an action leaves a word open that is written when all code is there, apart
from the words of the statements inside it. -/
inductive Defers : Action → State → Patch → Prop
  /-- the word in the code of a label -/
  | label {act : Action} {s u v : State} {x : Expr} {use : LabelUse} {info : Info} {l : Label}
      (hasks : Asks act s x u) (hpart : Part x u (.label use info) v)
      (htarget : use.target = some l) :
      Defers act s ⟨v.position + instructionSize, .address (.label l) (some info.site)⟩
  /-- the successor of a jump -/
  | jump {act : Action} {s u : State} {front behind : List Item} {target : Target}
      (hparts : parts s.serial act = some (front ++ .glue (.jump target) :: behind))
      (hfront : emitAll front s = .ok ⟨⟩ u) :
      Defers act s ⟨u.position + nextField, .address target none⟩
  /-- the first word in the table of a branch -/
  | taken {act : Action} {s u : State} {front behind : List Item} {x : Expr}
      {taken otherwise : Target} {table : Nat}
      (hparts : parts s.serial act = some (front ++ .glue (.branch x taken otherwise) :: behind))
      (hfront : emitAll front s = .ok ⟨⟩ u) (htable : TableAt x u table) :
      Defers act s ⟨table, .address taken none⟩
  /-- the second word in the table of a branch -/
  | otherwise {act : Action} {s u : State} {front behind : List Item} {x : Expr}
      {taken otherwise : Target} {table : Nat}
      (hparts : parts s.serial act = some (front ++ .glue (.branch x taken otherwise) :: behind))
      (hfront : emitAll front s = .ok ⟨⟩ u) (htable : TableAt x u table) :
      Defers act s ⟨table + addressSize, .address otherwise none⟩
  /-- a raw word that mentions a label -/
  | word {values : List Expr} {s : State} {i : Nat} (hi : i < values.length)
      (hlabel : values[i].mentionsLabel = true) :
      Defers (.words values) s ⟨s.firstWord values + 8 * i, .constant values[i]⟩

/-- A statement that starts at one of the events leaves the word open. -/
def Deferred (log : List Event) (word : Patch) : Prop :=
  ∃ e ∈ log, ∃ around st, e.moment = .starts around st ∧
    Defers st.action (e.state.labelAll st.labels) word

/-! ## Parts of statements

A condition or a loop is a row of parts: code that belongs to it, and the statements inside it.
`ItemsOpen` collects what the code of the row itself leaves open, and leaves the statements inside
to their own events. -/

/-- The code of one part of a statement leaves the word open. -/
inductive Glue.Opens : Glue → State → Patch → Prop
  | jump {target : Target} {s : State} :
      Glue.Opens (.jump target) s ⟨s.position + nextField, .address target none⟩
  | condition {x : Expr} {taken otherwise : Target} {s : State} {word : Patch}
      (h : LabelWord x s word) : Glue.Opens (.branch x taken otherwise) s word
  | taken {x : Expr} {taken otherwise : Target} {s : State} {table : Nat}
      (h : TableAt x s table) :
      Glue.Opens (.branch x taken otherwise) s ⟨table, .address taken none⟩
  | otherwise {x : Expr} {taken otherwise : Target} {s : State} {table : Nat}
      (h : TableAt x s table) :
      Glue.Opens (.branch x taken otherwise) s ⟨table + addressSize, .address otherwise none⟩

/-- The code between statements in a row of items leaves the word open. -/
def ItemsOpen (items : List Item) (s : State) (word : Patch) : Prop :=
  ∃ front code behind u, items = front ++ .glue code :: behind ∧ emitAll front s = .ok ⟨⟩ u ∧
    code.Opens u word

section Parts

variable {act : Action} {items : List Item} {x : Expr} {s t : State} {word : Patch}

/-- The successor of a jump is one open word. -/
theorem jumpTo_opens (target : Target) :
    Opens (Glue.Opens (.jump target) s) s (s.emit [.instruction 0 0 (.address target none)]) := by
  refine .emit fun word => ?_
  constructor
  · intro h
    obtain rfl : word = ⟨s.position + nextField, .address target none⟩ := by
      simpa [patchesFrom, Piece.patches, Piece.word?, Piece.wordOffset, Word.isSymbol] using h
    exact .jump
  · rintro ⟨⟩
    simp [patchesFrom, Piece.patches, Piece.word?, Piece.wordOffset, Word.isSymbol]

/-- The table of a branch leaves both of its words open. -/
theorem table_opens {taken otherwise : Target} {a : Nat}
    (h : jumpOverAligned 16 [.word (.address taken none), .word (.address otherwise none)] s =
      .ok a t) :
    Opens (fun word => ∃ table, table = s.position + instructionSize +
        (alignUp (s.position + instructionSize) 16 - (s.position + instructionSize)) ∧
      (word = ⟨table, .address taken none⟩ ∨ word = ⟨table + addressSize, .address otherwise none⟩))
      s t := by
  rw [run_jumpOverAligned] at h
  cases h
  refine .emit fun word => ?_
  simp [alignedPieces, patchesFrom, Piece.patches, Piece.word?, Piece.wordOffset, Piece.size,
    Word.isSymbol, Nat.add_assoc]

/-- The words of the condition, and the two in the table. -/
theorem branch_opens {taken otherwise : Target} (h : branch x taken otherwise s = .ok ⟨⟩ t) :
    Opens (Glue.Opens (.branch x taken otherwise) s) s t := by
  unfold branch at h
  obtain ⟨_, u, hcondition, hbehind⟩ := ok_bind (x := expr x) h
  obtain ⟨width, u', hwidth, hbody⟩ := ok_bind hbehind
  obtain ⟨htype, rfl⟩ := widthOf_ok hwidth
  obtain ⟨_, v, htest, hrest⟩ := ok_bind hbody
  obtain ⟨a, w, htable, hchoice⟩ := ok_bind hrest
  have hselect : Shut (Emit.position >>= fun here =>
      select a (here + addressSize * 3 * instructionSize) addressSize 0 >>= fun _ =>
        instruction 0 0 0) :=
    .position fun _ => (select_shut _ _ _ _).bind fun _ => instruction_shut 0 0 0
  have hcode := ((expr_opens _ hcondition).closed
    ((logicalNot_shut width x.info).run _ _ v htest)).trans
      ((table_opens htable).closed (hselect.run w _ t hchoice))
  refine hcode.congr fun word => ?_
  constructor
  · rintro (hlabel | ⟨table, hstart, rfl | rfl⟩)
    · exact .condition hlabel
    · exact .taken ⟨width, _, v, htype, hcondition, htest, hstart⟩
    · exact .otherwise ⟨width, _, v, htype, hcondition, htest, hstart⟩
  · rintro (_ | hlabel | ⟨width', u', v', htype', hcondition', htest', hstart⟩ |
      ⟨width', u', v', htype', hcondition', htest', hstart⟩)
    · exact .inl hlabel
    all_goals
      cases htype.symm.trans htype'
      cases hcondition.symm.trans hcondition'
      cases htest.symm.trans htest'
    · exact .inr ⟨_, hstart, .inl rfl⟩
    · exact .inr ⟨_, hstart, .inr rfl⟩

/-- One case for each kind of code between statements. -/
theorem glue_opens {code : Glue} (h : code.emit s = .ok ⟨⟩ t) : Opens (code.Opens s) s t := by
  cases code with
  | point role =>
      cases h
      exact (Opens.same rfl rfl).congr fun _ => ⟨False.elim, nofun⟩
  | branch condition taken otherwise => exact branch_opens h
  | jump target =>
      have hrun : jumpTo target s = _ := run_push _ s
      have heq : jumpTo target s = .ok ⟨⟩ t := h
      rw [hrun] at heq
      cases heq
      exact jumpTo_opens target
  | place role serial =>
      cases h
      exact (Opens.same rfl rfl).congr fun _ => ⟨False.elim, nofun⟩

/-- What a condition or a loop defers is what the code between its statements leaves open. -/
theorem defers_of_parts (hparts : parts s.serial act = some items) :
    ItemsOpen items s word ↔ Defers act s word := by
  constructor
  · rintro ⟨front, code, behind, u, rfl, hfront, hopen⟩
    cases hopen with
    | jump => exact .jump hparts hfront
    | condition h =>
        obtain ⟨use, info, l, v, hpart, htarget, rfl⟩ := h
        exact .label (.condition hparts hfront) hpart htarget
    | taken h => exact .taken hparts hfront h
    | otherwise h => exact .otherwise hparts hfront h
  · intro h
    cases h with
    | label hasks hpart htarget =>
        cases hasks with
        | condition hparts' hfront =>
            cases hparts.symm.trans hparts'
            exact ⟨_, _, _, _, rfl, hfront, .condition ⟨_, _, _, _, hpart, htarget, rfl⟩⟩
        | evaluate | goto | define | pointer | stored _ _ _ => cases hparts
    | jump hparts' hfront =>
        cases hparts.symm.trans hparts'
        exact ⟨_, _, _, _, rfl, hfront, .jump⟩
    | taken hparts' hfront htable =>
        cases hparts.symm.trans hparts'
        exact ⟨_, _, _, _, rfl, hfront, .taken htable⟩
    | otherwise hparts' hfront htable =>
        cases hparts.symm.trans hparts'
        exact ⟨_, _, _, _, rfl, hfront, .otherwise htable⟩
    | word _ _ => cases hparts

end Parts

/-! ## Statements with no other inside

Such a statement has one or two expressions and some code around them.  The words of the
expressions are left open as `LabelWord` says, and only raw words add any of their own. -/

section Simple

variable {act : Action} {target value : Expr} {values : List Expr} {s t : State} {word : Patch}

/-- Where there are neither parts nor raw words, only labels are deferred. -/
theorem defers_asked (hparts : parts s.serial act = none) (hwords : ∀ values, act ≠ .words values) :
    Defers act s word ↔ ∃ x u, Asks act s x u ∧ LabelWord x u word := by
  constructor
  · intro h
    cases h with
    | label hasks hpart htarget => exact ⟨_, _, hasks, _, _, _, _, hpart, htarget, rfl⟩
    | jump hparts' _ | taken hparts' _ _ | otherwise hparts' _ _ =>
        cases hparts.symm.trans hparts'
    | word _ _ => exact absurd rfl (hwords _)
  · rintro ⟨x, u, hasks, use, info, l, v, hpart, htarget, rfl⟩
    exact .label hasks hpart htarget

/-- An action that asks for nothing leaves nothing open. -/
theorem defers_nothing (hparts : parts s.serial act = none)
    (hwords : ∀ values, act ≠ .words values) (hasks : ∀ x u, ¬ Asks act s x u) :
    Nowhere word ↔ Defers act s word := by
  rw [defers_asked hparts hwords]
  exact ⟨False.elim, fun ⟨x, u, h, _⟩ => hasks x u h⟩

/-- An action that asks for one value at once leaves the labels of the value open. -/
theorem defers_value (hparts : parts s.serial act = none)
    (hwords : ∀ values, act ≠ .words values) (hasks : ∀ x u, Asks act s x u ↔ x = value ∧ u = s) :
    LabelWord value s word ↔ Defers act s word := by
  rw [defers_asked hparts hwords]
  constructor
  · exact fun h => ⟨value, s, (hasks value s).mpr ⟨rfl, rfl⟩, h⟩
  · rintro ⟨x, u, h, hlabel⟩
    obtain ⟨rfl, rfl⟩ := (hasks x u).mp h
    exact hlabel

/-- The words of the target; the instruction that jumps is patched. -/
theorem goto_opens (h : action (.goto target) s = .ok ⟨⟩ t) : Opens (LabelWord target s) s t := by
  rw [action] at h
  obtain ⟨_, u, htarget, hrest⟩ := ok_bind (x := expr target) h
  have hjump : Shut (behindPatches (wholeField immediate nextField).length >>= fun start =>
      patches start (wholeField immediate nextField) >>= fun _ => instruction 0 0 0) := by
    refine Shut.bind (.position fun _ => .pure) fun _ => ?_
    exact (patches_shut _ _).bind fun _ => instruction_shut 0 0 0
  exact (expr_opens _ htarget).closed (hjump.run u _ t hrest)

/-- The words of the value. -/
theorem define_opens {v : Variable} (h : action (.define v value) s = .ok ⟨⟩ t) :
    Opens (LabelWord value s) s t := by
  rw [action] at h
  obtain ⟨_, u, hvalue, hrest⟩ := ok_bind (x := expr value) h
  have hkeep : Shut (allocate 1 v.site >>= fun r =>
      (modify fun s => { s with bindings := s.bindings.bind v r }) >>= fun _ =>
        copyRange immediate (register r) registerSize) := by
    refine (allocate_shut 1 _).bind fun r => Shut.bind (.update fun _ => ?_) fun _ => ?_
    · exact .same rfl rfl
    · exact shut_rules.copyRange _ _ _
  exact (expr_opens _ hvalue).closed (hkeep.run u _ t hrest)

/-- No code at all. -/
theorem reserve_shut (v : Variable) : Shut (action (.reserve v)) := by
  rw [action]
  cases v.count with
  | none => exact .throw
  | some count =>
      refine (allocate_shut _ _).bind fun r => .update fun _ => ?_
      exact .same rfl rfl

/-- A store leaves the words of its pointer and of its value open. -/
theorem store_opens (h : store target value s = .ok ⟨⟩ t) :
    Opens (fun word => ∃ x u, Asks (.assign target value) s x u ∧ LabelWord x u word) s t := by
  unfold store at h
  split at h
  case h_2 => cases h
  rename_i pointer info
  obtain ⟨_, u, hpointer, hbehind⟩ := ok_bind (x := expr pointer) h
  obtain ⟨saved, v, hsaved, hbehind⟩ := ok_bind hbehind
  obtain ⟨_, w, hcopied, hbehind⟩ := ok_bind hbehind
  obtain ⟨_, x, hvalue, hrest⟩ := ok_bind hbehind
  have hkeeps : Opens Nowhere u w :=
    ((allocate_shut 1 info.site).run u _ v hsaved).closed
      ((shut_rules.copyRange _ _ _).run v _ w hcopied)
  have hthrough : Shut (patched (wholeField (register saved) destinationField) immediate 0
      >>= fun _ => release s.mark) := (patched_shut _ _ _).bind fun _ => release_shut _
  have hcode := ((expr_opens _ hpointer).closed hkeeps).trans
    ((expr_opens _ hvalue).closed (hthrough.run x _ t hrest))
  refine hcode.congr fun word => ?_
  constructor
  · rintro (hlabel | hlabel)
    · exact ⟨pointer, s, .pointer, hlabel⟩
    · exact ⟨value, w, .stored hpointer hsaved hcopied, hlabel⟩
  · rintro ⟨y, z, hasks, hlabel⟩
    cases hasks with
    | pointer => exact .inl hlabel
    | stored hpointer' hsaved' hcopied' =>
        cases hpointer.symm.trans hpointer'
        cases hsaved.symm.trans hsaved'
        cases hcopied.symm.trans hcopied'
        exact .inr hlabel
    | condition hparts _ => cases hparts

/-- Raw words leave those open that mention a label. -/
theorem rawWords_opens (h : rawWords values s = .ok ⟨⟩ t) : Opens (Defers (.words values) s) s t := by
  obtain ⟨v, hstrings, hpieces, hposition⟩ := run_strings (Expr.listStrings values) (s := s)
  obtain ⟨ws, hencodes, rfl⟩ := words_laid ((run_bind hstrings).symm.trans h)
  obtain ⟨hlength, hencodes⟩ := List.forall₂_iff_get.mp hencodes
  have hfirst : v.position = s.firstWord values := hposition
  have hstubs : Opens Nowhere s v := by
    refine ⟨_, hpieces, by rw [hposition, size_stubs], fun word => ?_⟩
    rw [patchesFrom_eq_nil (hasSymbol_stubs _ _)]
    exact ⟨nofun, False.elim⟩
  refine hstubs.behind (.emit fun word => ?_)
  rw [mem_patchesFrom_wordPieces, hfirst]
  constructor
  · rintro ⟨i, hi, hsymbol, rfl⟩
    have hencoded := hencodes i (hlength ▸ hi) hi
    simp only [List.get_eq_getElem] at hencoded
    generalize hw : ws[i] = w at hencoded hsymbol ⊢
    cases hencoded with
    | deferred hlabel => exact .word _ hlabel
    | known _ _ => cases hsymbol
  · intro hdefers
    cases hdefers with
    | @word _ _ i hi hlabel =>
        have hencoded := hencodes i hi (hlength ▸ hi)
        simp only [List.get_eq_getElem] at hencoded
        refine ⟨i, hlength ▸ hi, ?_⟩
        generalize ws[i] = w at hencoded ⊢
        cases hencoded with
        | deferred _ => exact ⟨rfl, rfl⟩
        | known hknown _ => cases hknown.symm.trans hlabel
    | label hasks _ _ =>
        cases hasks with
        | condition hparts _ => cases hparts
    | jump hparts _ | taken hparts _ _ | otherwise hparts _ _ => cases hparts

/-- A statement with no other inside leaves open what it defers. -/
theorem simple_opens (hsimple : isSimple act = true) (h : action act s = .ok ⟨⟩ t) :
    Opens (Defers act s) s t := by
  cases act with
  | nothing =>
      rw [action] at h
      cases h
      refine (Opens.same rfl rfl).congr fun word => defers_nothing rfl nofun fun x u hasks => ?_
      cases hasks with
      | condition hparts _ => cases hparts
  | evaluate value =>
      rw [action] at h
      refine (expr_opens _ h).congr fun word => defers_value rfl nofun fun x u => ⟨?_, ?_⟩
      · intro hasks
        cases hasks with
        | evaluate => exact ⟨rfl, rfl⟩
        | condition hparts _ => cases hparts
      · rintro ⟨rfl, rfl⟩
        exact .evaluate
  | goto target =>
      refine (goto_opens h).congr fun word => defers_value rfl nofun fun x u => ⟨?_, ?_⟩
      · intro hasks
        cases hasks with
        | goto => exact ⟨rfl, rfl⟩
        | condition hparts _ => cases hparts
      · rintro ⟨rfl, rfl⟩
        exact .goto
  | define v value =>
      refine (define_opens h).congr fun word => defers_value rfl nofun fun x u => ⟨?_, ?_⟩
      · intro hasks
        cases hasks with
        | define => exact ⟨rfl, rfl⟩
        | condition hparts _ => cases hparts
      · rintro ⟨rfl, rfl⟩
        exact .define
  | reserve v =>
      refine ((reserve_shut v).run s _ t h).congr fun word =>
        defers_nothing rfl nofun fun x u hasks => ?_
      cases hasks with
      | condition hparts _ => cases hparts
  | assign target value =>
      rw [action] at h
      refine (store_opens h).congr fun word => Iff.symm ?_
      exact defers_asked rfl nofun
  | words values =>
      rw [action] at h
      exact rawWords_opens h
  | place _ | block _ | branch _ _ _ | loop _ _ _ => cases hsimple

/-- The statements inside a block have their own words. -/
theorem not_defers_block {body : List Stmt} : ¬ Defers (.block body) s word := by
  have hnone : Nowhere word ↔ Defers (.block body) s word := by
    refine defers_nothing rfl nofun fun x u hasks => ?_
    cases hasks with
    | condition hparts _ => cases hparts
  exact hnone.mpr

/-- So have the statements of a file. -/
theorem not_defers_place {file : Program} : ¬ Defers (.place file) s word := by
  have hnone : Nowhere word ↔ Defers (.place file) s word := by
    refine defers_nothing rfl nofun fun x u hasks => ?_
    cases hasks with
    | condition hparts _ => cases hparts
  exact hnone.mpr

end Simple

/-! ## Traces

The induction is on the trace, with one case for each kind of item.  The event of a statement
stands in front of those of its parts, so the words that it defers are accounted for there and not
again inside. -/

section Trace

variable {depth : Nat} {scope around : List Variable} {items : List Item} {s t u : State}
  {log log' : List Event} {e : Event} {st : Stmt} {code : Glue} {word : Patch}

/-- Labels in front of code leave nothing open. -/
theorem opens_labelAll (labels : List Label) {M : Patch → Prop}
    (h : Opens M (s.labelAll labels) t) : Opens M s t := by
  obtain ⟨hpieces, hposition, -, -⟩ := labelAll_rest labels s
  exact (Opens.same hpieces hposition).behind h

theorem itemsOpen_nil : ¬ ItemsOpen [] s word := by
  rintro ⟨front, code, behind, u, hitems, -⟩
  cases front <;> cases hitems

/-- The code in front, and then the items behind it. -/
theorem itemsOpen_glue (hrun : code.emit s = .ok ⟨⟩ t) :
    ItemsOpen (.glue code :: items) s word ↔ code.Opens s word ∨ ItemsOpen items t word := by
  constructor
  · rintro ⟨_ | ⟨item, front⟩, code', behind, u, hitems, hfront, hopen⟩
    · cases hitems
      cases hfront
      exact .inl hopen
    · cases hitems
      rw [run_glue front hrun] at hfront
      exact .inr ⟨front, code', behind, u, rfl, hfront, hopen⟩
  · rintro (hopen | ⟨front, code', behind, u, rfl, hfront, hopen⟩)
    · exact ⟨[], code, items, s, rfl, rfl, hopen⟩
    · exact ⟨.glue code :: front, code', behind, u, rfl, (run_glue front hrun).trans hfront, hopen⟩

/-- A statement is not part of the code around it. -/
theorem itemsOpen_stmt (hrun : stmt st s = .ok ⟨⟩ t) :
    ItemsOpen (.stmt st :: items) s word ↔ ItemsOpen items t word := by
  constructor
  · rintro ⟨_ | ⟨item, front⟩, code, behind, u, hitems, hfront, hopen⟩
    · cases hitems
    · cases hitems
      rw [run_emitAll_stmt front hrun] at hfront
      exact ⟨front, code, behind, u, rfl, hfront, hopen⟩
  · rintro ⟨front, code, behind, u, rfl, hfront, hopen⟩
    exact ⟨.stmt st :: front, code, behind, u, rfl, (run_emitAll_stmt front hrun).trans hfront, hopen⟩

/-- There is no code between statements in a row. -/
theorem not_itemsOpen_map (ss : List Stmt) : ¬ ItemsOpen (ss.map .stmt) s word := by
  rintro ⟨front, code, behind, u, hitems, -⟩
  have hmem : Item.glue code ∈ ss.map Item.stmt := by
    rw [hitems]
    simp
  obtain ⟨st, -, hst⟩ := List.mem_map.mp hmem
  cases hst

theorem deferred_nil : ¬ Deferred [] word := fun ⟨_, he, _⟩ => nomatch he

/-- A word is deferred in the first part or in the second. -/
theorem deferred_append : Deferred (log ++ log') word ↔ Deferred log word ∨ Deferred log' word := by
  simp only [Deferred, List.mem_append, or_and_right, exists_or]

theorem deferred_starts : Deferred (⟨.starts around st, depth, s⟩ :: log) word ↔
    Defers st.action (s.labelAll st.labels) word ∨ Deferred log word := by
  constructor
  · rintro ⟨e, he, around', st', hmoment, hdefers⟩
    rcases List.mem_cons.mp he with rfl | he
    · cases hmoment
      exact .inl hdefers
    · exact .inr ⟨e, he, around', st', hmoment, hdefers⟩
  · rintro (hdefers | ⟨e, he, around', st', hmoment, hdefers⟩)
    · exact ⟨_, List.mem_cons_self, around, st, rfl, hdefers⟩
    · exact ⟨e, List.mem_cons_of_mem _ he, around', st', hmoment, hdefers⟩

/-- Only where a statement starts words are left open. -/
theorem deferred_cons (h : ∀ around st, e.moment ≠ .starts around st) :
    Deferred (e :: log) word ↔ Deferred log word := by
  constructor
  · rintro ⟨e', he, around, st, hmoment, hdefers⟩
    rcases List.mem_cons.mp he with rfl | he
    · exact absurd hmoment (h around st)
    · exact ⟨e', he, around, st, hmoment, hdefers⟩
  · rintro ⟨e', he, hrest⟩
    exact ⟨e', List.mem_cons_of_mem _ he, hrest⟩

theorem deferred_ends : Deferred (⟨.ends st, depth, s⟩ :: log) word ↔ Deferred log word :=
  deferred_cons nofun

theorem deferred_enters {file : Program} :
    Deferred (⟨.enters file, depth, s⟩ :: log) word ↔ Deferred log word := deferred_cons nofun

theorem deferred_leaves {file : Program} :
    Deferred (⟨.leaves file, depth, s⟩ :: log) word ↔ Deferred log word := deferred_cons nofun

/-- Only statements that start defer words. -/
theorem deferred_glue : Deferred (code.events depth s ++ log) word ↔ Deferred log word := by
  cases code with
  | place role serial => exact deferred_cons nofun
  | point _ | branch _ _ _ | jump _ => rfl

/-- Code of a statement with the code of the items behind it. -/
theorem Opens.statement {M : Patch → Prop} (hstmt : stmt st s = .ok ⟨⟩ t) (h : Opens M s t)
    (hrest : Opens (fun word => ItemsOpen items t word ∨ Deferred log word) t u) :
    Opens (fun word => ItemsOpen (.stmt st :: items) s word ∨ M word ∨ Deferred log word) s u := by
  refine (h.trans hrest).congr fun word => ?_
  rw [itemsOpen_stmt hstmt, or_left_comm]

/-- A trace leaves open the words of the code between its items and those that its statements defer,
and no others. -/
theorem Trace.opens (h : Trace depth scope items s log t) :
    Opens (fun word => ItemsOpen items s word ∨ Deferred log word) s t := by
  induction h with
  | done =>
      refine (Opens.same rfl rfl).congr fun word => ?_
      exact ⟨False.elim, fun h => h.elim itemsOpen_nil deferred_nil⟩
  | glue hrun _ ih =>
      refine ((glue_opens hrun).trans ih).congr fun word => ?_
      rw [itemsOpen_glue hrun, deferred_glue, or_assoc]
  | @simple _ _ labels act site _ s _ _ _ hsimple hrun _ ih =>
      have hstmt := (run_stmt labels act site s).trans hrun
      have hopen := opens_labelAll labels (simple_opens hsimple hrun)
      refine (hopen.statement hstmt ih).congr fun word => ?_
      rw [deferred_starts, deferred_ends]
      rfl
  | @compound _ _ labels act site inner _ s _ _ log log' hparts hinner _ ih ih' =>
      -- the words of the code around the inner statements are those of the statement itself
      rw [← State.serial_labelAll labels] at hparts
      have hstmt := (run_stmt labels act site s).trans ((run_parts hparts).trans hinner.run)
      have hopen := (opens_labelAll labels ih).congr fun word =>
        or_congr_left (defers_of_parts hparts)
      refine (hopen.statement hstmt ih').congr fun word => ?_
      rw [deferred_starts, deferred_append, deferred_ends, or_assoc]
      rfl
  | @block _ _ labels body site _ s t u log log' hinner _ ih ih' =>
      have hbody := hinner.run
      rw [emitAll_map_stmt] at hbody
      have hstmt := (run_stmt labels _ site s).trans (run_block body hbody)
      rw [State.mark_labelAll] at hstmt
      have hreleased : Opens Nowhere t (t.released s.mark) := .same rfl rfl
      have hopen : Opens (fun word => Defers (.block body) (s.labelAll labels) word ∨
          Deferred log word) s (t.released s.mark) :=
        ((opens_labelAll labels ih).closed hreleased).congr fun _ =>
          or_congr_left (iff_of_false (not_itemsOpen_map body) not_defers_block)
      refine (hopen.statement hstmt ih').congr fun word => ?_
      rw [deferred_starts, deferred_append, deferred_ends, or_assoc]
      rfl
  | @skip _ _ labels file site _ s _ _ hskip _ ih =>
      rw [← State.skips_labelAll s labels] at hskip
      have hstmt := (run_stmt labels _ site s).trans (run_skip hskip)
      have hopen : Opens Nowhere s (s.labelAll labels) := opens_labelAll labels (.same rfl rfl)
      refine (hopen.statement hstmt ih).congr fun word => ?_
      rw [deferred_starts, deferred_ends]
      exact or_congr_right (or_congr_left (iff_of_false id not_defers_place))
  | @file _ _ labels file site _ s t u w log log' hskip halign hinner _ ih ih' =>
      rw [← State.skips_labelAll s labels] at hskip
      have hstatements := hinner.run
      rw [emitAll_map_stmt] at hstatements
      have hstmt := (run_stmt labels _ site s).trans
        ((run_file hskip).trans ((run_bind halign).trans hstatements))
      have hreached : Opens Nowhere (s.labelAll labels) ((s.labelAll labels).reach file) :=
        .same (pieces_reach _ _) (position_reach _ _)
      have haligned := hreached.closed ((alignTo_shut file.pragmas.align).run _ _ t halign)
      have hopen : Opens (fun word => Defers (.place file) (s.labelAll labels) word ∨
          Deferred log word) s u :=
        (opens_labelAll labels (haligned.behind ih)).congr fun _ =>
          or_congr_left (iff_of_false (not_itemsOpen_map file.statements) not_defers_place)
      refine (hopen.statement hstmt ih').congr fun word => ?_
      rw [deferred_starts, deferred_enters, deferred_append, deferred_leaves, deferred_ends, or_assoc]
      rfl

end Trace

end Emit

end ByteJump
