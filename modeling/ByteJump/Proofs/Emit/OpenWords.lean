import ByteJump.Proofs.Emit.Backpatch
import ByteJump.Proofs.Emit.RawWords
import ByteJump.Proofs.Emit.Rules
import ByteJump.Proofs.Run.Occurrences

set_option autoImplicit false

/-!
# Words that code leaves open

Most words of the code are known when they are laid down.  Those that depend on where labels and
points end up are not: they are laid down as symbols, and written when all code is there.

`Opens M s t` says of two states of emission that code was added between them and that the words left
open in this code are exactly those of which `M` holds, each at its address.  What the parts of code
leave open adds up, so it is enough to know it of the primitives.  These leave nothing open, but for
the jump over the word of a label: as long as an expression mentions no label this is a case of the
rules for emission (`shut_rules`), and an expression in general leaves open the words of its labels
and no others (`expr_opens`), by recursion on the expression.
-/

namespace ByteJump

namespace Assembly

open Memory

/-! ## Symbols among pieces

A word that is a symbol is listed among the patches of its pieces, with its address.  Instructions
with known successors and words with known values are not. -/

theorem Piece.patches_eq_nil {piece : Piece} (h : piece.hasSymbol = false) (start : Nat) :
    piece.patches start = [] := by
  unfold patches
  cases hword : piece.word? with
  | none => rfl
  | some w =>
      have hknown : w.isSymbol = false := by simpa [hasSymbol, hword] using h
      simp [hknown]

/-- Pieces without a symbol are never written over. -/
theorem patchesFrom_eq_nil {pieces : List Piece} (h : ∀ piece ∈ pieces, piece.hasSymbol = false) :
    ∀ start, patchesFrom start pieces = [] := by
  induction pieces with
  | nil => exact fun _ => rfl
  | cons piece rest ih =>
      intro start
      obtain ⟨hpiece, hrest⟩ := List.forall_mem_cons.mp h
      rw [patchesFrom, piece.patches_eq_nil hpiece, ih hrest, List.append_nil]

/-- Copies into an instruction have known successors. -/
theorem hasSymbol_patchPieces (target : Nat) : ∀ (fields : List (Nat × Nat)) (start : Nat),
    ∀ piece ∈ patchPieces target start fields, piece.hasSymbol = false
  | [], _, _, h => nomatch h
  | (_, _) :: rest, start, piece, h => by
      rcases List.mem_cons.mp h with rfl | hrest
      · rfl
      · exact hasSymbol_patchPieces target rest _ piece hrest

theorem hasSymbol_patchedPieces (start : Nat) (fields : List (Nat × Nat)) (source destination : Nat) :
    ∀ piece ∈ patchedPieces start fields source destination, piece.hasSymbol = false := by
  intro piece h
  rcases List.mem_append.mp h with hcopies | hlast
  · exact hasSymbol_patchPieces _ _ _ piece hcopies
  · rw [List.mem_singleton.mp hlast]
    rfl

end Assembly

namespace Emit

open Assembly Memory

variable {α β : Type}

/-- A string is bytes behind a jump over them. -/
theorem hasSymbol_stubs : ∀ (texts : List String) (address : Nat),
    ∀ piece ∈ stubs address texts, piece.hasSymbol = false
  | [], _, _, h => nomatch h
  | text :: texts, address, piece, h => by
      rcases List.mem_append.mp h with hfirst | hrest
      · rcases List.mem_cons.mp hfirst with rfl | hdata
        · rfl
        · rw [List.mem_singleton.mp hdata]
          rfl
      · exact hasSymbol_stubs texts _ piece hrest

/-- Among words in a row those are written last that are symbols. -/
theorem mem_patchesFrom_wordPieces {word : Patch} : ∀ {ws : List Word} {start : Nat},
    word ∈ patchesFrom start (wordPieces ws) ↔
      ∃ i, ∃ h : i < ws.length, ws[i].isSymbol = true ∧ word = ⟨start + 8 * i, ws[i]⟩
  | [], start => by simp [wordPieces, patchesFrom]
  | w :: ws, start => by
      have hfirst : word ∈ Piece.patches start (.word w) ↔
          w.isSymbol = true ∧ word = ⟨start, w⟩ := by
        unfold Piece.patches
        cases hsymbol : w.isSymbol <;> simp [Piece.word?, Piece.wordOffset, hsymbol]
      have hrest : word ∈ patchesFrom (start + 8) (wordPieces ws) ↔ _ := mem_patchesFrom_wordPieces
      have hsplit : patchesFrom start (wordPieces (w :: ws)) =
          Piece.patches start (.word w) ++ patchesFrom (start + 8) (wordPieces ws) := rfl
      rw [hsplit, List.mem_append, hfirst, hrest]
      constructor
      · rintro (⟨hsymbol, rfl⟩ | ⟨i, hi, hsymbol, rfl⟩)
        · exact ⟨0, Nat.zero_lt_succ _, hsymbol, rfl⟩
        · refine ⟨i + 1, Nat.succ_lt_succ hi, hsymbol, ?_⟩
          simp only [List.getElem_cons_succ, Patch.mk.injEq, and_true]
          omega
      · rintro ⟨_ | i, hi, hsymbol, rfl⟩
        · exact .inl ⟨hsymbol, rfl⟩
        · refine .inr ⟨i, Nat.lt_of_succ_lt_succ hi, hsymbol, ?_⟩
          simp only [List.getElem_cons_succ, Patch.mk.injEq, and_true]
          omega

/-! ## Words left open by code -/

/-- Code is added from one state to another, and the words left open in it are those of which `M`
holds. -/
def Opens (M : Patch → Prop) (s t : State) : Prop :=
  ∃ more, t.pieces.toList = s.pieces.toList ++ more ∧ t.position = s.position + size more ∧
    ∀ word, word ∈ patchesFrom s.position more ↔ M word

/-- No word. -/
def Nowhere (_ : Patch) : Prop := False

section Opens

variable {M M' : Patch → Prop} {s t u : State}

/-- Only which words are meant matters. -/
theorem Opens.congr (h : Opens M s t) (hM : ∀ word, M word ↔ M' word) : Opens M' s t := by
  obtain ⟨more, hpieces, hposition, hopen⟩ := h
  exact ⟨more, hpieces, hposition, fun word => (hopen word).trans (hM word)⟩

/-- No code was added. -/
theorem Opens.same (hpieces : t.pieces = s.pieces) (hposition : t.position = s.position) :
    Opens Nowhere s t :=
  ⟨[], by simp [hpieces], by simp [hposition, size], fun _ => ⟨nofun, False.elim⟩⟩

/-- What both parts leave open. -/
theorem Opens.trans (h : Opens M s t) (h' : Opens M' t u) :
    Opens (fun word => M word ∨ M' word) s u := by
  obtain ⟨more, hpieces, hposition, hopen⟩ := h
  obtain ⟨more', hpieces', hposition', hopen'⟩ := h'
  refine ⟨more ++ more', by rw [hpieces', hpieces, List.append_assoc], ?_, fun word => ?_⟩
  · rw [hposition', hposition, size_append, Nat.add_assoc]
  · rw [patchesFrom_append, List.mem_append, ← hposition]
    exact or_congr (hopen word) (hopen' word)

/-- Code behind it leaves nothing open. -/
theorem Opens.closed (h : Opens M s t) (h' : Opens Nowhere t u) : Opens M s u :=
  (h.trans h').congr fun _ => or_iff_left id

/-- Code in front of it leaves nothing open. -/
theorem Opens.behind (h : Opens Nowhere s t) (h' : Opens M t u) : Opens M s u :=
  (h.trans h').congr fun _ => or_iff_right id

/-- The pieces are there, so what they leave open can be read off them. -/
theorem Opens.emit {more : List Piece}
    (h : ∀ word, word ∈ patchesFrom s.position more ↔ M word) : Opens M s (s.emit more) :=
  ⟨more, toList_emit s more, rfl, h⟩

end Opens

/-! ## Code without open words

`Shut` is the case of code with nothing open, for all states at once.  It is closed under the
rules for emission, which the common walk over expressions asks for. -/

/-- Emitting leaves no word open. -/
structure Shut (x : Emitter α) : Prop where
  run : ∀ s a t, x s = .ok a t → Opens Nowhere s t

section Shut

theorem Shut.pure {a : α} : Shut (Pure.pure a) := by
  refine ⟨fun s b t hrun => ?_⟩
  cases hrun
  exact .same rfl rfl

theorem Shut.throw {e : Fault} : Shut (MonadExcept.throw e : Emitter α) := ⟨nofun⟩

/-- Two parts with nothing open have nothing open together. -/
theorem Shut.bind {x : Emitter β} {f : β → Emitter α} (h : Shut x) (hf : ∀ b, Shut (f b)) :
    Shut (x >>= f) := by
  refine ⟨fun s a t hrun => ?_⟩
  obtain ⟨b, u, hx, hfb⟩ := ok_bind hrun
  exact (h.run s b u hx).closed ((hf b).run u a t hfb)

theorem Shut.get {f : State → Emitter α} (h : ∀ s, Shut (f s)) : Shut (MonadState.get >>= f) :=
  ⟨fun s => (h s).run s⟩

theorem Shut.position {f : Nat → Emitter α} (h : ∀ n, Shut (f n)) : Shut (Emit.position >>= f) :=
  ⟨fun s => (h s.position).run s⟩

theorem Shut.update {f : State → State} (h : ∀ s, Opens Nowhere s (f s)) :
    Shut (modify f : Emitter PUnit) := by
  refine ⟨fun s a t hrun => ?_⟩
  cases hrun
  exact h s

/-- Where it is known what is emitted, its pieces can be looked at. -/
theorem Shut.of_emit {x : Emitter α} {a : State → α} {more : State → List Piece}
    (h : ∀ s, x s = .ok (a s) (s.emit (more s)))
    (hmore : ∀ s, ∀ piece ∈ more s, piece.hasSymbol = false) : Shut x := by
  refine ⟨fun s b t hrun => ?_⟩
  rw [h] at hrun
  cases hrun
  refine .emit fun word => ?_
  rw [patchesFrom_eq_nil (hmore s)]
  exact ⟨nofun, False.elim⟩

theorem instruction_shut (source destination next : Nat) :
    Shut (instruction source destination next) := by
  refine .of_emit (run_instruction source destination next) fun s piece hpiece => ?_
  rw [List.mem_singleton.mp hpiece]
  rfl

theorem copy_shut (source destination : Nat) : Shut (copy source destination) := by
  refine .of_emit (run_copy source destination) fun s piece hpiece => ?_
  rw [List.mem_singleton.mp hpiece]
  rfl

/-- The jump has a known successor, so only the data matters. -/
theorem jumpOver_shut {data : List Piece} (hdata : ∀ piece ∈ data, piece.hasSymbol = false) :
    Shut (jumpOver data) :=
  .of_emit (run_jumpOver data) fun _ => List.forall_mem_cons.mpr ⟨rfl, hdata⟩

theorem bytes_shut (data : List UInt8) : Shut (jumpOver [.bytes data]) := by
  refine jumpOver_shut fun piece hpiece => ?_
  rw [List.mem_singleton.mp hpiece]
  rfl

theorem patches_shut (target : Nat) (fields : List (Nat × Nat)) : Shut (patches target fields) :=
  .of_emit (run_patches target fields) fun _ => hasSymbol_patchPieces target fields _

theorem patched_shut (fields : List (Nat × Nat)) (source destination : Nat) :
    Shut (patched fields source destination) :=
  .of_emit (run_patched fields source destination) fun _ => hasSymbol_patchedPieces _ _ _ _

theorem byteConstant_shut (value : UInt8) : Shut (byteConstant value) := by
  unfold byteConstant
  refine .get fun s => ?_
  cases s.byteConstants.lookup value with
  | some address => exact .pure
  | none =>
      refine (bytes_shut [value]).bind fun _ => Shut.bind (.update fun _ => ?_) fun _ => .pure
      exact .same rfl rfl

theorem stringConstant_shut (text : String) : Shut (stringConstant text) := by
  unfold stringConstant
  refine .get fun s => ?_
  cases s.strings.lookup text with
  | some address => exact .pure
  | none =>
      refine (bytes_shut _).bind fun _ => Shut.bind (.update fun _ => ?_) fun _ => .pure
      exact .same rfl rfl

theorem allocate_shut (count : Nat) (site : Location) : Shut (allocate count site) := by
  refine .get fun s => ?_
  dsimp only
  split
  · refine Shut.bind (.update fun _ => ?_) fun _ => .pure
    exact .same rfl rfl
  · exact .throw

theorem release_shut (mark : Nat) : Shut (release mark) := .update fun _ => .same rfl rfl

theorem alignTo_shut (align : Nat) : Shut (alignTo align) := by
  refine .position fun here => ?_
  split
  · exact (bytes_shut _).bind fun _ => .pure
  · exact .pure

theorem select_shut (table jump : Nat) : ∀ count i, Shut (select table jump count i)
  | 0, _ => .pure
  | count + 1, i => by
      rw [select]
      exact .position fun _ => (patched_shut _ _ _).bind fun _ =>
        (instruction_shut _ _ _).bind fun _ => select_shut table jump count (i + 1)

/-- As long as no label is mentioned, no word is left open. -/
theorem shut_rules : Rules (fun e => e.mentionsLabel = false) Shut where
  inherited := ⟨id, id, Bool.or_eq_false_iff.mp⟩
  pure := .pure
  bind := .bind
  mark h _ := .get h
  copy := copy_shut
  patched := patched_shut
  byteConstant := byteConstant_shut
  stringConstant := stringConstant_shut
  release := release_shut
  allocate _ := allocate_shut 1 _
  refuse _ _ := .throw
  register {v _ _} _ h := .get fun s => by
    cases s.bindings.register? v with
    | some r => exact h r
    | none => exact .throw
  word hlabel _ := by cases hlabel
  unresolved hlabel _ := by cases hlabel

theorem widthOf_shut (type : Ty) (site : Location) : Shut (widthOf type site) :=
  shut_rules.widthOf (e := .int 0 ⟨type, site⟩) rfl type

/-- Looking up a width changes nothing. -/
theorem widthOf_ok {type : Ty} {site : Location} {s t : State} {width : Nat}
    (h : widthOf type site s = .ok width t) : type.width = some width ∧ t = s := by
  unfold widthOf at h
  cases hwidth : type.width with
  | none =>
      rw [hwidth] at h
      cases h
  | some w =>
      rw [hwidth] at h
      cases h
      exact ⟨rfl, rfl⟩

theorem logicalNot_shut (width : Nat) (info : Info) : Shut (logicalNot width info.site) :=
  shut_rules.logicalNot (e := .int 0 info) rfl width

end Shut

/-! ## Expressions

The words of an expression are those of the labels among its parts, each behind the state in which
the label is emitted.  In a sum the second operand is emitted behind the first one and behind the
copy that saves it. -/

/-- The word in the code of a label that is part of an expression; it stands behind the jump over
it. -/
def LabelWord (e : Expr) (s : State) (word : Patch) : Prop :=
  ∃ use info l u, Part e s (.label use info) u ∧ use.target = some l ∧
    word = ⟨u.position + instructionSize, .address (.label l) (some info.site)⟩

section Expressions

variable {e left right operand : Expr} {i : Info} {s t u v w : State} {word : Patch}

theorem labelWord_label {use : LabelUse} : LabelWord (.label use i) s word ↔
    ∃ l, use.target = some l ∧
      word = ⟨s.position + instructionSize, .address (.label l) (some i.site)⟩ := by
  constructor
  · rintro ⟨use', info, l, u, hpart, htarget, rfl⟩
    cases hpart
    exact ⟨l, htarget, rfl⟩
  · rintro ⟨l, htarget, rfl⟩
    exact ⟨use, i, l, s, .whole, htarget, rfl⟩

/-- A cast emits the operand first, and no other word behind it. -/
theorem labelWord_cast : LabelWord (.cast operand i) s word ↔ LabelWord operand s word := by
  constructor
  · rintro ⟨use, info, l, u, hpart, hrest⟩
    cases hpart with
    | cast hpart => exact ⟨use, info, l, u, hpart, hrest⟩
  · rintro ⟨use, info, l, u, hpart, hrest⟩
    exact ⟨use, info, l, u, .cast hpart, hrest⟩

theorem labelWord_unary {op : UnaryOp} :
    LabelWord (.unary op operand i) s word ↔ LabelWord operand s word := by
  constructor
  · rintro ⟨use, info, l, u, hpart, hrest⟩
    cases hpart with
    | unary hpart => exact ⟨use, info, l, u, hpart, hrest⟩
  · rintro ⟨use, info, l, u, hpart, hrest⟩
    exact ⟨use, info, l, u, .unary hpart, hrest⟩

/-- The second operand is emitted at the only state behind the register that keeps the first one. -/
theorem labelWord_binary {op : BinaryOp} {saved : Nat} (hleft : expr left s = .ok ⟨⟩ t)
    (hsaved : allocate 1 i.site t = .ok saved u)
    (hcopied : copy immediate (register saved) u = .ok ⟨⟩ v) :
    LabelWord (.binary op left right i) s word ↔ LabelWord left s word ∨ LabelWord right v word := by
  constructor
  · rintro ⟨use, info, l, x, hpart, hrest⟩
    cases hpart with
    | left hpart => exact .inl ⟨use, info, l, x, hpart, hrest⟩
    | right hleft' hsaved' hcopied' hpart =>
        cases hleft.symm.trans hleft'
        cases hsaved.symm.trans hsaved'
        cases hcopied.symm.trans hcopied'
        exact .inr ⟨use, info, l, x, hpart, hrest⟩
  · rintro (⟨use, info, l, x, hpart, hrest⟩ | ⟨use, info, l, x, hpart, hrest⟩)
    · exact ⟨use, info, l, x, .left hpart, hrest⟩
    · exact ⟨use, info, l, x, .right hleft hsaved hcopied hpart, hrest⟩

/-- Where no label is mentioned, there is none among the parts. -/
theorem not_labelWord (h : e.mentionsLabel = false) : ¬ LabelWord e s word := by
  rintro ⟨use, info, l, u, hpart, -⟩
  generalize hlabel : Expr.label use info = x at hpart
  induction hpart with
  | whole =>
      rw [← hlabel] at h
      cases h
  | cast _ ih | unary _ ih => exact ih h hlabel
  | left _ ih => exact ih (Bool.or_eq_false_iff.mp h).1 hlabel
  | right _ _ _ _ ih => exact ih (Bool.or_eq_false_iff.mp h).2 hlabel

/-- The jump over the word of a label leaves the word open. -/
theorem run_labelWord {w : Word} (hsymbol : w.isSymbol = true) {a : Nat}
    (h : jumpOver [.word w] s = .ok a t) :
    Opens (fun word => word = ⟨s.position + instructionSize, w⟩) s t := by
  rw [run_jumpOver] at h
  cases h
  refine .emit fun word => ?_
  simp [patchesFrom, Piece.patches, Piece.word?, Piece.wordOffset, Piece.size, hsymbol,
    show (Word.known (s.position + instructionSize + size [.word w])).isSymbol = false from rfl]

/-- What is emitted leaves the words of labels of an expression open, wherever it starts. -/
def OpensLabels (e : Expr) : Prop :=
  ∀ ⦃s t : State⦄, expr e s = .ok ⟨⟩ t → Opens (LabelWord e s) s t

theorem opensLabels_of_not_mentionsLabel (h : e.mentionsLabel = false) : OpensLabels e := by
  intro s t hrun
  refine ((shut_rules.expr h).run s _ t hrun).congr fun _ => ?_
  exact ⟨False.elim, not_labelWord h⟩

/-- The address of a label is loaded from the word that is jumped over, and loading it leaves nothing
more open. -/
theorem labelUse_opens (use : LabelUse) (info : Info) : OpensLabels (.label use info) := by
  intro s t h
  rw [expr] at h
  cases htarget : use.target with
  | none =>
      rw [htarget] at h
      cases h
  | some l =>
      rw [htarget] at h
      obtain ⟨address, u, hover, hrest⟩ := ok_bind h
      have hload : Shut (copyRange address immediate addressSize >>= fun _ =>
          clearFrom addressSize) :=
        (shut_rules.copyRange _ _ _).bind fun _ => shut_rules.clearFrom _
      refine ((run_labelWord rfl hover).closed (hload.run u _ t hrest)).congr fun word => ?_
      rw [labelWord_label, htarget]
      constructor
      · exact fun h => ⟨l, rfl, h⟩
      · rintro ⟨_, hl, h⟩
        exact Option.some.inj hl ▸ h

/-- The operand, and then code that leaves nothing open. -/
theorem cast_opens (info : Info) (hoperand : OpensLabels operand) :
    OpensLabels (.cast operand info) := by
  intro s t h
  rw [expr] at h
  obtain ⟨_, u, hrun, hrest⟩ := ok_bind h
  have hnarrow : Shut (widthOf info.type info.site >>= fun width =>
      if width < registerSize then clearFrom width else Pure.pure ⟨⟩) := by
    refine (widthOf_shut _ _).bind fun width => ?_
    split
    · exact shut_rules.clearFrom width
    · exact .pure
  exact ((hoperand hrun).closed (hnarrow.run u _ t hrest)).congr fun _ => labelWord_cast.symm

/-- The operand, and then code that leaves nothing open. -/
theorem unary_opens (op : UnaryOp) (info : Info) (hoperand : OpensLabels operand) :
    OpensLabels (.unary op operand info) := by
  intro s t h
  refine Opens.congr ?_ fun _ => labelWord_unary.symm
  cases op with
  | plus =>
      rw [expr] at h
      exact hoperand h
  | not =>
      rw [expr] at h
      obtain ⟨_, u, hrun, hrest⟩ := ok_bind h
      have hnegate : Shut (widthOf operand.type operand.site >>= fun width =>
          logicalNot width info.site) :=
        (widthOf_shut _ _).bind fun width => logicalNot_shut width info
      exact (hoperand hrun).closed (hnegate.run u _ t hrest)
  | deref =>
      rw [expr] at h
      obtain ⟨_, u, hrun, hrest⟩ := ok_bind h
      have hfollow : Shut (patched (wholeField immediate sourceField) 0 immediate >>= fun _ =>
          clearFrom 1) := (patched_shut _ _ _).bind fun _ => shut_rules.clearFrom 1
      exact (hoperand hrun).closed (hfollow.run u _ t hrest)
  | negate | complement =>
      rw [expr] at h
      cases h

/-- Between the operands and behind them nothing is left open, so the words are those of both. -/
theorem binary_opens (op : BinaryOp) (info : Info) (hleft : OpensLabels left)
    (hright : OpensLabels right) : OpensLabels (.binary op left right info) := by
  intro s t h
  rw [expr] at h
  obtain ⟨width, s', hwidth, hbody⟩ := ok_bind h
  by_cases hop : op = .add
  case neg =>
    rw [if_pos hop] at hbody
    cases hbody
  by_cases hone : width = 1
  case neg =>
    rw [if_neg (not_not_intro hop), if_pos hone] at hbody
    cases hbody
  rw [if_neg (not_not_intro hop), if_neg (not_not_intro hone)] at hbody
  obtain ⟨-, rfl⟩ := widthOf_ok hwidth
  obtain ⟨_, u, hfirst, hbehind⟩ := ok_bind (x := expr left) hbody
  obtain ⟨saved, v, hsaved, hbehind⟩ := ok_bind hbehind
  obtain ⟨_, w, hcopied, hbehind⟩ := ok_bind hbehind
  obtain ⟨_, x, hsecond, hrest⟩ := ok_bind hbehind
  have hkeeps : Opens Nowhere u w :=
    ((allocate_shut 1 info.site).run u _ v hsaved).closed ((copy_shut _ _).run v _ w hcopied)
  have hsum : Shut (patched [(register saved, sourceField + 1), (immediate, sourceField)]
      addTable immediate >>= fun _ => clearFrom 1 >>= fun _ => release s'.mark) :=
    (patched_shut _ _ _).bind fun _ => (shut_rules.clearFrom 1).bind fun _ => release_shut _
  refine Opens.congr ?_ fun _ => (labelWord_binary hfirst hsaved hcopied).symm
  exact ((hleft hfirst).closed hkeeps).trans ((hright hsecond).closed (hsum.run x _ t hrest))

/-- An expression leaves the words of its labels open, and no others. -/
theorem expr_opens (e : Expr) : OpensLabels e := by
  cases e with
  | int _ _ | str _ _ | «variable» _ _ => exact opensLabels_of_not_mentionsLabel rfl
  | label use info => exact labelUse_opens use info
  | cast operand info => exact cast_opens info (expr_opens operand)
  | unary op operand info => exact unary_opens op info (expr_opens operand)
  | binary op left right info => exact binary_opens op info (expr_opens left) (expr_opens right)
  | index base indices info =>
      intro s t h
      rw [expr] at h
      cases h

end Expressions

end Emit

end ByteJump
