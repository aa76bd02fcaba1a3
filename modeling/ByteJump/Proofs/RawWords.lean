import ByteJump.Proofs.ConstantValues
import ByteJump.Proofs.Emit.RawWords
import ByteJump.Proofs.ExpressionCode

set_option autoImplicit false

/-!
# Raw words of an image

Raw words are computed at two times: those that depend on labels when all code is laid down, any
others where they stand.  Both ways they are worth the same in the image, what the final addresses of
labels and strings say, and nothing comes between them.
-/

namespace ByteJump

open Assembly Memory

namespace Constant

/-- A value that depends on no label stays what it is where more strings are known. -/
theorem evaluate_mono {env env' : Env}
    (h : ∀ text site v, env.string text site = .ok v → env'.string text site = .ok v) :
    ∀ {e : Expr} {v : Word128}, e.mentionsLabel = false → evaluate env e = .ok v →
      evaluate env' e = .ok v
  | .int .., _, _, hv => hv
  | .str text i, v, _, hv => h text i.site v hv
  | .variable .., _, _, hv | .index .., _, _, hv => by cases hv
  | .label .., _, hlabel, _ => by cases hlabel
  | .cast operand i, v, hlabel, hv => by
      obtain ⟨x, hx, hv⟩ := evaluate_cast.mp hv
      exact evaluate_cast.mpr ⟨x, evaluate_mono h (e := operand) hlabel hx, hv⟩
  | .unary op operand i, v, hlabel, hv => by
      obtain ⟨x, hx, hv⟩ := evaluate_unary.mp hv
      exact evaluate_unary.mpr ⟨x, evaluate_mono h (e := operand) hlabel hx, hv⟩
  | .binary op left right i, v, hlabel, hv => by
      obtain ⟨hleft, hright⟩ := Bool.or_eq_false_iff.mp hlabel
      obtain ⟨x, y, hx, hy, hv⟩ := evaluate_binary.mp hv
      exact evaluate_binary.mpr
        ⟨x, y, evaluate_mono h hleft hx, evaluate_mono h hright hy, hv⟩

end Constant

/-- The tables with no code behind them are linked code. -/
theorem Linked.nonempty : Nonempty Linked := by
  refine ⟨{
    pieces := []
    value := valueOf (Emit.State.start .none).word
    image := fun a =>
      if a < notTable then UInt8.ofNat ((a - addTable) / 256 + (a - addTable) % 256)
      else if a = notTable then UInt8.ofNat Constant.truth
      else 0
    world := ⟨fun _ => 0, fun _ => 0, codeStart, true⟩
    points := fun _ => 0
    known := fun _ => rfl
    label_value := fun _ _ => rfl
    point_value := fun _ _ _ => rfl
    code := fun before piece behind h => by simp at h
    sums := fun a b ha hb => ?_
    nots := fun a ha => ?_
    scratch := rfl
    fits := by decide
    careful := rfl }⟩
  · have htables : addTable + 256 * 256 = notTable := rfl
    have hsum : (a * 256 + b) / 256 + (a * 256 + b) % 256 = a + b := by omega
    rw [if_pos (by omega), Nat.add_assoc, Nat.add_sub_cancel_left, hsum]
  · rw [if_neg (Nat.not_lt.mpr (Nat.le_add_right _ _))]
    exact if_congr Nat.add_eq_left rfl rfl

/-- The statement has raw words that pass a check. -/
def Stmt.hasWords (check : List Expr → Bool) (st : Stmt) : Bool :=
  match st.action with
  | .words values => check values
  | .nothing | .place _ | .evaluate _ | .goto _ | .define .. | .reserve _ | .assign .. | .block _
  | .branch .. | .loop .. => false

/-- A statement with raw words that pass a check has raw words. -/
theorem Stmt.exists_words {check : List Expr → Bool} {st : Stmt} (h : st.hasWords check = true) :
    ∃ values, st.action = .words values ∧ check values = true := by
  obtain ⟨labels, act, site⟩ := st
  cases act with
  | words values => exact ⟨values, rfl, h⟩
  | nothing | place _ | evaluate _ | goto _ | define _ _ | reserve _ | assign _ _ | block _
  | branch _ _ _ | loop _ _ _ => cases h

namespace Emit

/-! ## Words of an image

`HoldsFrom` reads words from an image at an address, and `RawWords` says where those of a
statement begin and what they are worth.  The image is the buffer after the patches are written,
so a word that was laid down as a number is still there and one that was left open has the value
of its expression. -/

/-- From an address on an image holds the low 64 bits of constants, with the final addresses of labels
and strings. -/
def HoldsFrom (image : Image) (t : State) (address : Nat) (values : List Expr) : Prop :=
  ∀ i (h : i < values.length), ∃ v, Constant.evaluate t.env values[i] = .ok v ∧
    image.word? (address + 8 * i) = some (v.toNat % addressSpace)

/-- Raw words that were laid down from one state to another one.  In front of them stand only the
strings in them that had no address, each behind a jump over it.  The words themselves follow one
behind the other, and hold their values in the image. -/
structure RawWords (image : Image) (t : State) (values : List Expr) (s u : State) : Prop where
  run : rawWords values s = .ok ⟨⟩ u
  pieces : ∃ ws : List Word, ws.length = values.length ∧ u.pieces.toList = s.pieces.toList ++
    (stubs s.position (s.unpooled (Expr.listStrings values)) ++ wordPieces ws)
  position : u.position = s.firstWord values + 8 * values.length
  value : HoldsFrom image t (s.firstWord values) values

section Emission

variable {p : Program} {b : Bindings} {log : List Event} {s t u : State} {artifact : Artifact}
  {e : Event} {around : List Variable} {st : Stmt} {values : List Expr}

/-- A piece of the code is one with the halt behind all code. -/
theorem toList_halted {before behind : List Piece} {piece : Piece}
    (hpieces : t.pieces.toList = before ++ piece :: behind) :
    t.halted.pieces.toList =
      before ++ piece :: (behind ++ [.instruction 0 0 (.known t.position)]) := by
  rw [State.halted, toList_emit, hpieces, List.append_assoc, List.cons_append]

/-- A byte of a piece of the code or of the halt. -/
theorem Emission.byte_halted (h : Emission p b log t artifact) {before behind : List Piece}
    {piece : Piece} (hpieces : t.halted.pieces.toList = before ++ piece :: behind) {i : Nat}
    (hi : i < (piece.fill (valueOf t.word)).length) :
    artifact.image.bytes[codeStart + size before + i]? =
      some (piece.fill (valueOf t.word))[i] := by
  obtain ⟨linked, hlink, himage⟩ := h.image
  rw [hpieces] at hlink
  rw [himage, Array.getElem?_append_right, size_preamble, Nat.add_assoc, Nat.add_sub_cancel_left]
  · exact getElem?_of_link hlink hi
  · rw [size_preamble, Nat.add_assoc]
    exact Nat.le_add_right _ _

/-- A byte of a piece of the code. -/
theorem Emission.byte_at (h : Emission p b log t artifact) {before behind : List Piece}
    {piece : Piece} (hpieces : t.pieces.toList = before ++ piece :: behind) {i : Nat}
    (hi : i < (piece.fill (valueOf t.word)).length) :
    artifact.image.bytes[codeStart + size before + i]? =
      some (piece.fill (valueOf t.word))[i] := h.byte_halted (toList_halted hpieces) hi

/-- Eight bytes in a row of a piece of the code or of the halt. -/
theorem Emission.holds_halted (h : Emission p b log t artifact) {before behind : List Piece}
    {piece : Piece} (hpieces : t.halted.pieces.toList = before ++ piece :: behind) {n : Nat}
    {front rest : List UInt8}
    (hfill : piece.fill (valueOf t.word) = front ++ (wordBytes n ++ rest)) :
    Holds artifact.image.bytes.toList (codeStart + size before + front.length) n := by
  intro i hi
  have hbyte : i < (wordBytes n).length := by
    rw [length_wordBytes]
    exact hi
  have hlength : front.length + i < (piece.fill (valueOf t.word)).length := by
    rw [hfill, List.length_append, List.length_append]
    omega
  rw [Array.getElem?_toList, Nat.add_assoc, h.byte_halted hpieces hlength,
    ← List.getElem?_eq_getElem, hfill, List.getElem?_append_right (Nat.le_add_right _ _),
    Nat.add_sub_cancel_left, List.getElem?_append_left hbyte]

/-- Eight bytes in a row of a piece of the code. -/
theorem Emission.holds_inside (h : Emission p b log t artifact) {before behind : List Piece}
    {piece : Piece} (hpieces : t.pieces.toList = before ++ piece :: behind) {n : Nat}
    {front rest : List UInt8}
    (hfill : piece.fill (valueOf t.word) = front ++ (wordBytes n ++ rest)) :
    Holds artifact.image.bytes.toList (codeStart + size before + front.length) n :=
  h.holds_halted (toList_halted hpieces) hfill

/-- The first eight bytes of a piece of the code. -/
theorem Emission.holds_piece (h : Emission p b log t artifact) {before behind : List Piece}
    {piece : Piece} (hpieces : t.pieces.toList = before ++ piece :: behind) {n : Nat}
    {rest : List UInt8} (hfill : piece.fill (valueOf t.word) = wordBytes n ++ rest) :
    Holds artifact.image.bytes.toList (codeStart + size before) n :=
  h.holds_inside hpieces (show _ = [] ++ (wordBytes n ++ rest) from hfill)

/-- A word of the code has a value, and holds it in the image. -/
theorem Emission.word_at (h : Emission p b log t artifact) {before behind : List Piece} {w : Word}
    (hpieces : t.pieces.toList = before ++ .word w :: behind) : ∃ n, t.word w = .ok n ∧
      artifact.image.word? (codeStart + size before) = some (n % addressSpace) := by
  obtain ⟨linked, hlink, -⟩ := h.image
  have hmem : Piece.word w ∈ t.halted.pieces.toList := by
    rw [State.halted, toList_emit, hpieces]
    simp
  obtain ⟨data, hdata⟩ := encode_of_link hlink _ hmem
  obtain ⟨n, hn, -⟩ := Piece.encode_word.mp hdata
  have hword : t.word w = .ok n := hn
  have hfill : (Piece.word w).fill (valueOf t.word) = wordBytes n ++ [] := by
    rw [Piece.fill, valueOf_ok hword, List.append_nil]
  exact ⟨n, hword, word?_of_holds (h.holds_piece hpieces hfill)⟩

/-- A word for a value is worth the low 64 bits of the value in the end. -/
theorem Encodes.value {value : Expr} {w : Word} (h : Encodes s value w)
    (hstrings : ∀ text a, s.strings.lookup text = some a → t.strings.lookup text = some a) {n : Nat}
    (hn : t.word w = .ok n) :
    ∃ v, Constant.evaluate t.env value = .ok v ∧ n = v.toNat % addressSpace := by
  cases h with
  | deferred _ =>
      have hconstant : (Constant.evaluate t.env value).map (fun v => v.toNat % addressSpace) =
          .ok n := hn
      cases hvalue : Constant.evaluate t.env value with
      | error fault =>
          rw [hvalue] at hconstant
          cases hconstant
      | ok v =>
          rw [hvalue] at hconstant
          cases hconstant
          exact ⟨v, rfl, rfl⟩
  | @known v hlabel hvalue =>
      cases hn
      refine ⟨v, Constant.evaluate_mono (fun text site w htext => ?_) hlabel hvalue, rfl⟩
      simp only [State.env] at htext ⊢
      cases hlookup : s.strings.lookup text with
      | none =>
          rw [hlookup] at htext
          cases htext
      | some a =>
          rw [hlookup] at htext
          rw [hstrings text a hlookup]
          exact htext

/-- Where raw words are laid down, they are exact. -/
theorem Emission.rawWords (h : Emission p b log t artifact) (hgood : Good s)
    (hrun : rawWords values s = .ok ⟨⟩ u) (hgrows : Grows u t) :
    RawWords artifact.image t values s u := by
  obtain ⟨v, hstrings, hpieces, hposition⟩ := run_strings (Expr.listStrings values) (s := s)
  have hwords : words values v = .ok ⟨⟩ u := (run_bind hstrings).symm.trans hrun
  obtain ⟨ws, hencodes, rfl⟩ := words_laid hwords
  obtain ⟨hlength, hencodes⟩ := List.forall₂_iff_get.mp hencodes
  have hlaid : (v.emit (wordPieces ws)).pieces.toList = s.pieces.toList ++
      (stubs s.position (s.unpooled (Expr.listStrings values)) ++ wordPieces ws) := by
    rw [toList_emit, hpieces, List.append_assoc]
  have hfirst : v.position = s.firstWord values := hposition
  refine ⟨hrun, ⟨ws, hlength.symm, hlaid⟩, ?_, fun i hi => ?_⟩
  · rw [State.position_emit, size_wordPieces, hfirst, hlength]
  · obtain ⟨more, hmore, -⟩ := hgrows.code
    have hi' : i < ws.length := hlength ▸ hi
    have hword : t.pieces.toList = (s.pieces.toList ++
        (stubs s.position (s.unpooled (Expr.listStrings values)) ++ wordPieces (ws.take i))) ++
          .word ws[i] :: (wordPieces (ws.drop (i + 1)) ++ more) := by
      rw [hmore, hlaid, wordPieces_split hi']
      simp only [List.append_assoc, List.cons_append]
    have haddress : codeStart + size (s.pieces.toList ++
        (stubs s.position (s.unpooled (Expr.listStrings values)) ++ wordPieces (ws.take i))) =
          s.firstWord values + 8 * i := by
      rw [size_append, size_append, size_stubs, size_wordPieces, List.length_take,
        Nat.min_eq_left (Nat.le_of_lt hi'), State.firstWord, hgood.position]
      omega
    obtain ⟨n, hn, hholds⟩ := h.word_at hword
    obtain ⟨x, hx, rfl⟩ := (hencodes i hi hi').value hgrows.strings hn
    refine ⟨x, hx, ?_⟩
    rw [← haddress, hholds, Nat.mod_mod]

/-- Where a statement with raw words starts, they are laid down, and they stay. -/
theorem Emission.lays_rawWords (h : Emission p b log t artifact) (he : e ∈ log)
    (hmoment : e.moment = .starts around st) (hwords : st.action = .words values) :
    ∃ u, ⟨.ends st, e.depth, u⟩ ∈ log ∧
      RawWords artifact.image t values (e.state.labelAll st.labels) u := by
  obtain ⟨L⟩ := Linked.nonempty
  obtain ⟨part, u, hpart, hsub, hgood, hgrows⟩ := h.trace.emits (h.extends L) he hmoment
  obtain ⟨inner, hbounds⟩ := hpart.bounds
  have hrun := hpart.completes (by rw [hwords]; rfl)
  rw [hwords, action] at hrun
  exact ⟨u, hsub (by simp [hbounds]), h.rawWords (hgood.labelAll st.labels) hrun hgrows⟩

end Emission

end Emit

namespace Session

open Emit

/-- Raw words are contiguous and exact.  All statements of an accepted program and of the files it
includes are emitted.  Wherever one with raw words is, the strings in it that have no address yet are
laid down first, each once, then eight bytes for each value; and these hold the low 64 bits of the
value as a constant, with the addresses that labels and strings have in the end. -/
theorem raw_words_exact (source : FileSource) (dirs : List Path)
    (mains : List (Syntax.Program × Path)) (tree : Syntax.Program) (file : Path) (b : Bindings)
    {p : Program} {artifact : Artifact}
    (hresolve : ((afterMains source dirs mains).resolve tree file).1 = .ok p)
    (hgenerate : (p.generate b).1 = .ok artifact) :
    ∃ log t, Emission p b log t artifact ∧ LabelsPlaced p log t artifact.image.layout ∧
      (∀ q, p.Includes q → ∀ st ∈ Stmt.listSubs q.statements, Starts log st) ∧
      ∀ e ∈ log, ∀ around st values, e.moment = .starts around st → st.action = .words values →
        ∃ u, ⟨.ends st, e.depth, u⟩ ∈ log ∧
          RawWords artifact.image t values (e.state.labelAll st.labels) u := by
  obtain ⟨G, turn, hG, hrooted⟩ := rooted_of_resolve hresolve
  obtain ⟨log, t, h⟩ := emission_of_generate hgenerate
  exact ⟨log, t, h, h.labelsPlaced hG hrooted, fun q hq => h.starts (h.includes hG hrooted hq),
    fun e he around st values hmoment hwords => h.lays_rawWords he hmoment hwords⟩

/-- Words that mix strings with labels in front of them, behind them and in an imported file. -/
theorem raw_words_exact_mixed :
    let zero : Syntax.Expr := .int 0 .zero
    let text : String → Syntax.Expr := fun x => .cast (.str x .zero) (.named "n64" .zero) .zero
    let library : Syntax.Program := [.mk [⟨"far", true, .zero⟩] (.evaluate zero) .zero]
    let files : MemoryFiles := [(⟨"src/lib"⟩, library)]
    let tree : Syntax.Program :=
      [.mk [] (.importFile ⟨"lib", .zero⟩) .zero,
        .mk [⟨"here", false, .zero⟩] (.words
          [.binary .add (.label "far" .zero) (text "a") .zero,
            .binary .mul (text "b") (.unary .negate (text "a") .zero) .zero,
            .binary .sub (.label "there" .zero) (.label "here" .zero) .zero]) .zero,
        .mk [⟨"there", false, .zero⟩] (.evaluate zero) .zero]
    ∃ p artifact, ((afterMains files.source [⟨"src"⟩] []).resolve tree ⟨"main"⟩).1 = .ok p ∧
      (p.generate .none).1 = .ok artifact ∧ ∃ log t, Emission p .none log t artifact ∧
        LabelsPlaced p log t artifact.image.layout ∧
        ∃ e ∈ log, ∃ around st values u, e.moment = .starts around st ∧ st.action = .words values ∧
          values.length = 3 ∧ RawWords artifact.image t values (e.state.labelAll st.labels) u := by
  intro zero text library files tree
  have hchecked : runnable (fun p => (Stmt.listSubs p.statements).any
      (Stmt.hasWords fun values => values.length == 3))
      ((afterMains files.source [⟨"src"⟩] []).resolve tree ⟨"main"⟩).1 .none = true := by
    decide +kernel
  obtain ⟨p, artifact, hresolve, hgenerate, hwords, -⟩ := exists_of_runnable hchecked
  obtain ⟨log, t, h, hlabels, hstarts, hexact⟩ := raw_words_exact files.source [⟨"src"⟩] [] tree
    ⟨"main"⟩ .none hresolve hgenerate
  obtain ⟨st, hst, hlength⟩ := List.any_eq_true.mp hwords
  obtain ⟨e, he, around, hmoment⟩ := hstarts p .refl st hst
  obtain ⟨values, haction, hthree⟩ := Stmt.exists_words hlength
  obtain ⟨u, -, hraw⟩ := hexact e he around st values hmoment haction
  exact ⟨p, artifact, hresolve, hgenerate, log, t, h, hlabels, e, he, around, st, values, u, hmoment,
    haction, beq_iff_eq.mp hthree, hraw⟩

end Session

end ByteJump
