import ByteJump.Proofs.Emit.Deferred
import ByteJump.Proofs.Emit.Labels

set_option autoImplicit false

/-!
# Labels and patched words of an image

Labels get their addresses while the code is laid down, and words that depend on them are written
when all of it is there.
-/

namespace ByteJump

namespace Emit

open Assembly Memory

/-- The words of the code that are written last: words of labels, successors of jumps, the halves of
branch tables and raw words that depend on labels. -/
def State.reserved (t : State) : List Patch := patchesFrom codeStart t.pieces.toList

/-- What is laid down before any of these words is written. -/
def State.laidDown (t : State) : List UInt8 :=
  (preamble (t.entry.getD codeStart)).toList ++ blank t.halted.pieces.toList

/-- What a reserved word is worth: the address of its label, that of a point, or the low 64 bits of a
constant. -/
def State.Means (t : State) (log : List Event) (n : Nat) : Word → Prop
  | .known _ => False
  | .address (.label l) _ => t.bindings.address? l = some n
  | .address (.point _ serial) _ =>
      ∃ e, Last (fun e => e.Reaches serial) log e ∧ n = e.state.position
  | .constant value => ∃ v, Constant.evaluate t.env value = .ok v ∧ n = v.toNat % addressSpace

/-- A statement with a label that names the entry starts at the event. -/
def Event.PlacesEntry (e : Event) : Prop := ∃ l, e.Places l ∧ isEntry l = true

/-- Every label of a program and the files it includes has the address at which its statement
started last, and this lies in the code. -/
def LabelsPlaced (p : Program) (log : List Event) (t : State) (layout : Layout) : Prop :=
  ∀ q, p.Includes q → ∀ l ∈ q.ownLabels, ∃ e, Last (fun e => e.Places l) log e ∧
    t.bindings.address? l = some e.state.position ∧ layout.codeStart ≤ e.state.position ∧
    e.state.position ≤ layout.halt

/-- The reserved words are those that the emitted statements defer, each where the code of the
statement has it: the words of all labels in expressions, the successors of the jumps between the parts
of a statement, both words of every branch table, and the raw words that mention labels. -/
def WordsReserved (log : List Event) (t : State) : Prop :=
  ∀ word, word ∈ t.reserved ↔ Deferred log word

/-- The reserved words do not overlap and lie in the code, each holds its value in the image, and no
other byte of it differs from what was laid down. -/
structure WordsWritten (log : List Event) (t : State) (image : Image) : Prop where
  disjoint : t.reserved.Pairwise fun x y => x.address + 8 ≤ y.address
  inside : ∀ word ∈ t.reserved, image.layout.codeStart ≤ word.address ∧
    word.address + 8 ≤ image.layout.halt
  value : ∀ word ∈ t.reserved, ∃ n, t.Means log n word.word ∧
    image.word? word.address = some (n % addressSpace)
  length : image.bytes.toList.length = t.laidDown.length
  others : ∀ i, (∀ word ∈ t.reserved, i < word.address ∨ word.address + 8 ≤ i) →
    image.bytes.toList[i]? = t.laidDown[i]?

/-- The entry word is the address of the first statement with a label that names the entry; without
one it is the start of the code. -/
def EntrySet (log : List Event) (image : Image) : Prop :=
  (∃ e, First Event.PlacesEntry log e ∧
    image.word? entryAddress = some (e.state.position % addressSpace)) ∨
  ((∀ e ∈ log, ¬ e.PlacesEntry) ∧ image.word? entryAddress = some image.layout.codeStart)

section Emission

variable {G : Program → Prop} {turn : Nat} {p : Program} {b : Bindings} {log : List Event}
  {t : State} {artifact : Artifact}

theorem Emission.layout (h : Emission p b log t artifact) :
    artifact.image.layout = ⟨addTable, notTable, codeStart, t.position⟩ := by
  obtain ⟨linked, -, himage⟩ := h.image
  rw [himage]

theorem Emission.position (h : Emission p b log t artifact) :
    t.position = codeStart + size t.pieces.toList := by
  obtain ⟨more, hpieces, hposition, -⟩ := h.passes.whole.spares
  rw [hpieces, hposition]
  rfl

/-- The halt is not patched. -/
theorem reserved_halted (t : State) :
    patchesFrom codeStart t.halted.pieces.toList = t.reserved := by
  unfold State.halted State.reserved
  rw [toList_emit, patchesFrom_append]
  exact List.append_nil _

theorem Emission.patched (h : Emission p b log t artifact) :
    Patched t.word t.reserved t.laidDown artifact.image.bytes.toList := by
  have hfinish := @finish_eq t.halted t.position
  rw [h.finish, reserved_halted] at hfinish
  refine patched_of_backpatch (pairwise_patchesFrom _ _) ?_
  exact hfinish.symm

theorem Emission.wordsReserved (h : Emission p b log t artifact) : WordsReserved log t := by
  obtain ⟨more, hpieces, -, hopen⟩ := h.trace.opens
  have hcode : t.pieces.toList = more := by simpa [State.start] using hpieces
  intro word
  rw [State.reserved, hcode]
  exact (hopen word).trans (or_iff_right (not_itemsOpen_map p.statements))

theorem isSymbol_of_reserved {pieces : List Piece} : ∀ {start : Nat} {patch : Patch},
    patch ∈ patchesFrom start pieces → patch.word.isSymbol = true := by
  induction pieces with
  | nil => exact fun h => nomatch h
  | cons piece rest ih =>
      intro start patch h
      rcases List.mem_append.mp h with h | h
      · unfold Piece.patches at h
        split at h
        · split at h
          · rename_i hsymbol
            rw [List.mem_singleton.mp h]
            exact hsymbol
          · cases h
        · cases h
      · exact ih h

/-- A word with a value means that value. -/
theorem Emission.means (h : Emission p b log t artifact) {w : Word} {n : Nat}
    (hsymbol : w.isSymbol = true) (hvalue : t.word w = .ok n) : t.Means log n w := by
  cases w with
  | known value => cases hsymbol
  | constant value =>
      have hconstant : (Constant.evaluate t.env value).map (fun v => v.toNat % addressSpace) =
          .ok n := hvalue
      cases heval : Constant.evaluate t.env value with
      | error fault =>
          rw [heval] at hconstant
          cases hconstant
      | ok v =>
          rw [heval] at hconstant
          cases hconstant
          exact ⟨v, heval, rfl⟩
  | address target site =>
      have haddress : t.address target site = .ok n := hvalue
      unfold State.address at haddress
      cases target with
      | label l =>
          cases hlookup : t.bindings.address? l with
          | none => simp [hlookup] at haddress
          | some a =>
              simp only [hlookup, Except.ok.injEq] at haddress
              exact haddress ▸ hlookup
      | point role serial =>
          cases hlookup : t.points.lookup serial with
          | none => simp [hlookup] at haddress
          | some a =>
              simp only [hlookup, Except.ok.injEq] at haddress
              subst haddress
              have hpoints : t.points = (log.flatMap Event.points).reverse ++ [] :=
                h.passes.whole.points
              rw [hpoints] at hlookup
              obtain ⟨e, hlast⟩ := exists_last
                (exists_of_lookup ((List.append_nil _).symm ▸ hlookup))
              rw [lookup_last Event.points_value hlast] at hlookup
              cases hlookup
              exact ⟨e, last_congr hlast fun x _ => Event.mem_points, rfl⟩

theorem Emission.wordsWritten (h : Emission p b log t artifact) :
    WordsWritten log t artifact.image := by
  have hpatched := h.patched
  refine ⟨pairwise_patchesFrom _ _, fun word hword => ?_, fun word hword => ?_, hpatched.length,
    hpatched.others⟩
  · rw [h.layout, h.position]
    exact mem_patchesFrom hword
  · obtain ⟨n, hvalue, hholds⟩ := hpatched.words word hword
    exact ⟨n, h.means (isSymbol_of_reserved hword) hvalue, word?_of_holds hholds⟩

theorem Emission.labelsPlaced (hG : Library G) (hrooted : Rooted G (.main turn) p)
    (h : Emission p b log t artifact) : LabelsPlaced p log t artifact.image.layout := by
  intro q hq l hl
  obtain ⟨e, hlast, haddress⟩ := h.address hG hrooted (h.includes hG hrooted hq) hl
  rw [h.layout]
  exact ⟨e, hlast, haddress, (h.taken hlast.mem).position,
    (h.passes.onward e hlast.mem).position_le⟩

/-- The entry word is not patched. -/
theorem Emission.entry_holds (h : Emission p b log t artifact) :
    Holds artifact.image.bytes.toList entryAddress (t.entry.getD codeStart) := by
  intro i hi
  have hcode : addressSize ≤ codeStart := by decide
  rw [h.patched.others, State.laidDown, List.getElem?_append_left, preamble]
  · have hlength : i < (wordBytes (t.entry.getD codeStart)).length := by
      rw [length_wordBytes]
      exact hi
    simp only [entryAddress, Nat.zero_add, Array.toList_append, List.append_assoc]
    rw [List.getElem?_append_left hlength]
  · rw [Array.length_toList, size_preamble, entryAddress]
    omega
  · intro word hword
    have := (mem_patchesFrom hword).1
    rw [entryAddress]
    omega

theorem Emission.entryWord (h : Emission p b log t artifact) :
    artifact.image.word? entryAddress = some (t.entry.getD codeStart % addressSpace) :=
  word?_of_holds h.entry_holds

theorem entry?_eq_some {e : Event} {a : Nat} :
    e.entry? = some a ↔ e.PlacesEntry ∧ a = e.state.position := by
  obtain ⟨moment, depth, state⟩ := e
  cases moment with
  | starts scope st =>
      have hplaces : Event.PlacesEntry ⟨.starts scope st, depth, state⟩ ↔
          st.labels.any isEntry = true := by
        simp [Event.PlacesEntry, Event.Places]
      rw [hplaces, Event.entry?]
      by_cases hany : st.labels.any isEntry = true <;> simp [hany, eq_comm (a := a)]
  | ends st | enters file | leaves file | reaches serial =>
      simp [Event.entry?, Event.PlacesEntry, Event.Places]

theorem Emission.entrySet (h : Emission p b log t artifact) : EntrySet log artifact.image := by
  have hentry : t.entry = log.findSome? Event.entry? := by
    simpa [State.start] using h.passes.whole.entry
  unfold EntrySet
  rw [h.entryWord, h.layout, hentry]
  cases hfind : log.findSome? Event.entry? with
  | none =>
      refine Or.inr ⟨fun e he hplaces => ?_, rfl⟩
      have hnone := List.findSome?_eq_none_iff.mp hfind e he
      rw [entry?_eq_some.mpr ⟨hplaces, rfl⟩] at hnone
      cases hnone
  | some a =>
      obtain ⟨before, e, behind, hlog, he, hbefore⟩ := List.findSome?_eq_some_iff.mp hfind
      obtain ⟨hplaces, rfl⟩ := entry?_eq_some.mp he
      refine Or.inl ⟨e, ⟨before, behind, hlog, hplaces, fun x hx hother => ?_⟩, rfl⟩
      have hnone := hbefore x hx
      rw [entry?_eq_some.mpr ⟨hother, rfl⟩] at hnone
      cases hnone

end Emission

end Emit

namespace Session

open Assembly Emit Memory

/-- In the image of an accepted program every label has the address of the last emission of its
statement.  The words that depend on labels, wherever a statement is emitted that has them, and only
these, were left for the end; they hold their values, and nothing else was written when they were.  A
run starts at the first statement with a label that names the entry. -/
theorem labels_and_words (source : FileSource) (dirs : List Path)
    (mains : List (Syntax.Program × Path)) (tree : Syntax.Program) (file : Path) (b : Bindings)
    {p : Program} {artifact : Artifact}
    (hresolve : ((afterMains source dirs mains).resolve tree file).1 = .ok p)
    (hgenerate : (p.generate b).1 = .ok artifact) :
    ∃ log t, Emission p b log t artifact ∧ LabelsPlaced p log t artifact.image.layout ∧
      WordsReserved log t ∧ WordsWritten log t artifact.image ∧ EntrySet log artifact.image := by
  obtain ⟨G, turn, hG, hrooted⟩ := rooted_of_resolve hresolve
  obtain ⟨log, t, h⟩ := emission_of_generate hgenerate
  exact ⟨log, t, h, h.labelsPlaced hG hrooted, h.wordsReserved, h.wordsWritten, h.entrySet⟩

/-- A condition with a label that names the entry, and a raw word that depends on the label. -/
theorem labels_and_words_branch :
    let tree : Syntax.Program :=
      [.mk [⟨"._start", true, .zero⟩]
          (.branch (.int 1 .zero) (.mk [] (.evaluate (.int 2 .zero)) .zero) none) .zero,
        .mk [] (.words [.label "._start" .zero]) .zero]
    ∃ p artifact, ((afterMains (MemoryFiles.source []) [] []).resolve tree ⟨"main"⟩).1 = .ok p ∧
      (p.generate .none).1 = .ok artifact ∧ ∃ log t, Emission p .none log t artifact ∧
        LabelsPlaced p log t artifact.image.layout ∧ WordsReserved log t ∧
        WordsWritten log t artifact.image ∧ EntrySet log artifact.image := by
  intro tree
  have haccepted : accepted ((afterMains (MemoryFiles.source []) [] []).resolve tree ⟨"main"⟩).1
      .none = true := by decide +kernel
  obtain ⟨p, artifact, hresolve, hgenerate⟩ := exists_of_accepted haccepted
  exact ⟨p, artifact, hresolve, hgenerate, labels_and_words (MemoryFiles.source []) [] [] tree
    ⟨"main"⟩ .none hresolve hgenerate⟩

end Session

end ByteJump
