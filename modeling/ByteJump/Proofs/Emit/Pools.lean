import ByteJump.Proofs.Emit.Backpatch
import ByteJump.Proofs.Emit.Moves
import ByteJump.Proofs.Emit.Segments

set_option autoImplicit false

/-!
# Pools of constants

The constants that emission remembers are the ones it has laid down.  Each has one address, where its
bytes stand as a piece of their own behind a jump over them; so no constant shares a byte with another
one or with anything else, and no address that is written in the end lies in one.

Each move of emission keeps this, so it holds wherever moves lead.

`Pools` is an invariant of states: each constant that is remembered has its stub in the code, the
stubs do not overlap, and all other plain bytes are zeros.  `Pools.move` shows that one move keeps it,
by the three kinds of moves, and `Pools.moves` that all of them do.  So it holds of every state
that emission can get to, also on the way to a fault; `State.ConstantsRight` is what it means for
the buffer.
-/

namespace ByteJump

namespace Emit

open Assembly Memory Relation

/-! ## Pools -/

/-- The addresses and the bytes of the constants that were laid down. -/
def State.pooled (s : State) : List (Nat × List UInt8) :=
  s.byteConstants.map (fun x => (x.2, [x.1])) ++ s.strings.map fun x => (x.2, x.1.toUTF8.toList)

/-- Bytes behind a jump over them, laid down at an address. -/
def dataStub (address : Nat) (data : List UInt8) : List Piece :=
  [.instruction 0 0 (.known (address + instructionSize + data.length)), .bytes data]

/-- Bytes stand at an address, behind a jump over them that leads right behind them. -/
def StubAt (pieces : List Piece) (a : Nat) (data : List UInt8) : Prop :=
  ∃ before behind, pieces = before ++ (dataStub (codeStart + size before) data ++ behind) ∧
    a = codeStart + size before + instructionSize

/-- Two constants share no byte. -/
def Separate (x y : Nat × List UInt8) : Prop := x.1 + x.2.length ≤ y.1 ∨ y.1 + y.2.length ≤ x.1

/-- The constants that are remembered are those that were laid down, each once.  All other plain bytes
are zeros. -/
structure Pools (s : State) : Prop where
  position : s.position = codeStart + size s.pieces.toList
  bytes : (s.byteConstants.map Prod.fst).Nodup
  strings : (s.strings.map Prod.fst).Nodup
  stubs : ∀ x ∈ s.pooled, StubAt s.pieces.toList x.1 x.2
  apart : s.pooled.Pairwise Separate
  others : ∀ a data, PieceAt codeStart s.pieces.toList a (.bytes data) →
    (a, data) ∈ s.pooled ∨ ∃ n, data = List.replicate n 0

section Stubs

variable {pieces more : List Piece} {a : Nat} {data : List UInt8}

/-- A stub stays where it is when code is added. -/
theorem StubAt.left (h : StubAt pieces a data) : StubAt (pieces ++ more) a data := by
  obtain ⟨before, behind, rfl, ha⟩ := h
  exact ⟨before, behind ++ more, by simp, ha⟩

/-- A stub that is laid down stands at the end of the code. -/
theorem stubAt_last (pieces : List Piece) (data : List UInt8) :
    StubAt (pieces ++ dataStub (codeStart + size pieces) data)
      (codeStart + size pieces + instructionSize) data :=
  ⟨pieces, [], by rw [List.append_nil], rfl⟩

/-- The bytes are a piece of their own. -/
theorem StubAt.pieceAt (h : StubAt pieces a data) : PieceAt codeStart pieces a (.bytes data) := by
  obtain ⟨before, behind, rfl, rfl⟩ := h
  refine ⟨before ++ [.instruction 0 0 (.known _)], behind, by simp [dataStub]; rfl, ?_⟩
  simp [size, Piece.size, Nat.add_assoc]

theorem pieceAt_singleton {start : Nat} {piece other : Piece}
    (h : PieceAt start [piece] a other) : a = start ∧ other = piece := by
  obtain ⟨before, behind, heq, ha⟩ := h
  cases before with
  | nil =>
      obtain ⟨rfl, -⟩ := List.cons.inj heq
      exact ⟨ha, rfl⟩
  | cons first before => simp at heq

/-- There are no other bytes in a jump over some. -/
theorem pieceAt_dataStub {start : Nat} {data' : List UInt8}
    (h : PieceAt start (dataStub start data) a (.bytes data')) :
    a = start + instructionSize ∧ data' = data := by
  have hsplit : dataStub start data = [.instruction 0 0 (.known (start + instructionSize +
    data.length))] ++ [.bytes data] := rfl
  rw [hsplit] at h
  rcases pieceAt_append h with hjump | hdata
  · cases (pieceAt_singleton hjump).2
  · obtain ⟨rfl, hsame⟩ := pieceAt_singleton hdata
    cases hsame
    exact ⟨by simp [size, Piece.size], rfl⟩

end Stubs

theorem Separate.symm {x y : Nat × List UInt8} (h : Separate x y) : Separate y x := Or.symm h

section Moves

variable {s t : State}

theorem SameCode.pooled (h : SameCode s t) : t.pooled = s.pooled := by
  rw [State.pooled, h.byteConstants, h.strings, State.pooled]

/-- Moves that leave the code as it is. -/
theorem Pools.same (hs : Pools s) (h : SameCode s t) : Pools t := by
  refine ⟨?_, ?_, ?_, ?_, ?_, ?_⟩
  · rw [h.position, h.pieces]
    exact hs.position
  · rw [h.byteConstants]
    exact hs.bytes
  · rw [h.strings]
    exact hs.strings
  · rw [h.pooled, h.pieces]
    exact hs.stubs
  · rw [h.pooled]
    exact hs.apart
  · rw [h.pooled, h.pieces]
    exact hs.others

/-- A piece without data is no stub. -/
theorem Pools.push (hs : Pools s) {piece : Piece} (hpiece : Inert piece) :
    Pools (s.emit [piece]) := by
  refine ⟨?_, hs.bytes, hs.strings, fun x hx => ?_, hs.apart, fun a data hdata => ?_⟩
  · rw [State.position_emit, toList_emit, size_append, hs.position, Nat.add_assoc]
  · rw [toList_emit]
    exact (hs.stubs x hx).left
  · rw [toList_emit] at hdata
    rcases pieceAt_append hdata with hold | hnew
    · exact hs.others a data hold
    · obtain rfl := List.mem_singleton.mp hnew.mem
      exact Or.inr hpiece

/-- One constant more, with a jump over it. -/
theorem Pools.keep (hs : Pools s) (data : List UInt8)
    (hpieces : t.pieces = (s.emit (dataStub s.position data)).pieces)
    (hposition : t.position = (s.emit (dataStub s.position data)).position)
    (hpooled : t.pooled.Perm ((s.position + instructionSize, data) :: s.pooled))
    (hbytes : (t.byteConstants.map Prod.fst).Nodup) (hstrings : (t.strings.map Prod.fst).Nodup) :
    Pools t := by
  have hlist : t.pieces.toList = s.pieces.toList ++
      dataStub (codeStart + size s.pieces.toList) data := by
    rw [hpieces, toList_emit, hs.position]
  refine ⟨?_, hbytes, hstrings, fun x hx => ?_, ?_, fun a data' hdata => ?_⟩
  · rw [hposition, State.position_emit, hlist, size_append, hs.position, Nat.add_assoc]
  · rw [hlist]
    rcases List.mem_cons.mp (hpooled.mem_iff.mp hx) with rfl | hold
    · rw [hs.position]
      exact stubAt_last _ _
    · exact (hs.stubs x hold).left
  · refine (hpooled.pairwise_iff Separate.symm).mpr (List.pairwise_cons.mpr ⟨fun x hx => ?_, hs.apart⟩)
    have hfits := (hs.stubs x hx).pieceAt.fits.2
    rw [← hs.position] at hfits
    exact Or.inr (Nat.le_trans hfits (Nat.le_add_right _ _))
  · rw [hlist] at hdata
    refine (pieceAt_append hdata).elim (fun hold => ?_) fun hnew => Or.inl ?_
    · exact (hs.others a data' hold).imp_left fun hmem =>
        hpooled.mem_iff.mpr (List.mem_cons_of_mem _ hmem)
    · obtain ⟨rfl, rfl⟩ := pieceAt_dataStub hnew
      rw [← hs.position]
      exact hpooled.mem_iff.mpr List.mem_cons_self

/-- A key that is not found is a new one. -/
theorem nodup_of_lookup {κ : Type} [BEq κ] [LawfulBEq κ] {key : κ} {a : Nat}
    {entries : List (κ × Nat)} (h : entries.lookup key = none)
    (hentries : (entries.map Prod.fst).Nodup) :
    (((key, a) :: entries).map Prod.fst).Nodup := by
  refine List.nodup_cons.mpr ⟨fun hmem => ?_, hentries⟩
  obtain ⟨entry, hentry, hkey⟩ := List.mem_map.mp hmem
  exact bne_iff_ne.mp (List.lookup_eq_none_iff.mp h entry hentry) hkey.symm

/-- A move keeps pools right. -/
theorem Pools.move (hs : Pools s) (h : Move s t) : Pools t := by
  cases h with
  | same hsame => exact hs.same hsame
  | puts hputs =>
      cases hputs with
      | piece hpushes =>
          cases hpushes with
          | piece hpiece => exact hs.push hpiece
      | @byte value hlookup =>
          exact hs.keep [value] rfl rfl (.refl _) (nodup_of_lookup hlookup hs.bytes)
            hs.strings
      | @text text hlookup =>
          have hstub : stub s.position text = dataStub s.position text.toUTF8.toList := by
            simp [stub, dataStub, size, Piece.size]
          refine hs.keep text.toUTF8.toList ?_ ?_ ?_ hs.bytes
            (nodup_of_lookup hlookup hs.strings)
          · rw [← hstub]
            rfl
          · rw [← hstub]
            rfl
          · exact List.perm_middle

/-- Pools are right wherever moves lead. -/
theorem Pools.moves (hs : Pools s) (h : Moves s t) : Pools t := by
  induction h with
  | refl => exact hs
  | tail _ hmove ih => exact ih.move hmove

end Moves

/-! ## What surrounds constants

A patch writes into an address field or into a word, and neither is the data of a constant. -/

/-- What was laid down so far, behind the tables and with zeros for symbols. -/
def State.buffer (s : State) : List UInt8 :=
  (preamble (s.entry.getD codeStart)).toList ++ blank s.pieces.toList

/-- A patch belongs to a piece that is not plain bytes, and lies inside it. -/
theorem piece_of_patch {pieces : List Piece} : ∀ {start : Nat} {patch : Patch},
    patch ∈ patchesFrom start pieces → ∃ a piece, PieceAt start pieces a piece ∧
      (∀ data, piece ≠ .bytes data) ∧ a ≤ patch.address ∧
        patch.address + addressSize ≤ a + piece.size := by
  induction pieces with
  | nil => exact fun h => nomatch h
  | cons first rest ih =>
      intro start patch h
      rcases List.mem_append.mp h with hfirst | hrest
      · refine ⟨start, first, pieceAt_head, ?_, first.mem_patches hfirst⟩
        rintro data rfl
        cases hfirst
      · obtain ⟨a, piece, hpiece, hkind, hinside⟩ := ih hrest
        have hsize : size [first] = first.size := by simp [size]
        rw [← hsize] at hpiece
        exact ⟨a, piece, hpiece.right, hkind, hinside⟩

/-- The bytes of a piece in what was laid down. -/
theorem getElem?_buffer {s : State} {a : Nat} {data : List UInt8}
    (h : PieceAt codeStart s.pieces.toList a (.bytes data)) {i : Nat} (hi : i < data.length) :
    s.buffer[a + i]? = data[i]? := by
  obtain ⟨before, behind, heq, rfl⟩ := h
  have hfront : ((preamble (s.entry.getD codeStart)).toList ++ blank before).length =
      codeStart + size before := by
    rw [List.length_append, length_blank, Array.length_toList, size_preamble]
  have hblank : s.buffer = ((preamble (s.entry.getD codeStart)).toList ++ blank before) ++
      (data ++ blank behind) := by
    simp [State.buffer, heq, blank, Piece.blank]
  rw [hblank, List.getElem?_append_right (by omega), hfront, Nat.add_sub_cancel_left,
    List.getElem?_append_left hi]

/-- The constants of a state are right.  Each byte value and each string has one address, and there its
bytes stand behind a jump that leads right behind them.  No two share a byte.  They lie in the code,
apart from all instructions and words and from all addresses that are written in the end, and so
they are what they were laid down as, however many of these are written. -/
structure State.ConstantsRight (s : State) : Prop where
  bytes : (s.byteConstants.map Prod.fst).Nodup
  strings : (s.strings.map Prod.fst).Nodup
  stub : ∀ x ∈ s.pooled, StubAt s.pieces.toList x.1 x.2
  others : ∀ a data, PieceAt codeStart s.pieces.toList a (.bytes data) →
    (a, data) ∈ s.pooled ∨ ∃ n, data = List.replicate n 0
  apart : s.pooled.Pairwise Separate
  inside : ∀ x ∈ s.pooled, codeStart ≤ x.1 ∧ x.1 + x.2.length ≤ s.position
  outside : ∀ x ∈ s.pooled, ∀ a piece, PieceAt codeStart s.pieces.toList a piece →
    (∀ data, piece ≠ .bytes data) → x.1 + x.2.length ≤ a ∨ a + piece.size ≤ x.1
  reserved : ∀ x ∈ s.pooled, ∀ patch ∈ patchesFrom codeStart s.pieces.toList,
    x.1 + x.2.length ≤ patch.address ∨ patch.address + addressSize ≤ x.1
  holds : ∀ x ∈ s.pooled, ∀ value written rest out,
    patchesFrom codeStart s.pieces.toList = written ++ rest →
    backpatch value written s.buffer = .ok out → ∀ i < x.2.length, out[x.1 + i]? = x.2[i]?

/-- The invariant, read in the buffer. -/
theorem Pools.right {s : State} (h : Pools s) : s.ConstantsRight := by
  have houtside : ∀ x ∈ s.pooled, ∀ a piece, PieceAt codeStart s.pieces.toList a piece →
      (∀ data, piece ≠ .bytes data) → x.1 + x.2.length ≤ a ∨ a + piece.size ≤ x.1 := by
    intro x hx a piece hpiece hkind
    rcases (h.stubs x hx).pieceAt.apart hpiece with ⟨-, hsame⟩ | hapart
    · exact absurd hsame.symm (hkind x.2)
    · exact hapart
  have hreserved : ∀ x ∈ s.pooled, ∀ patch ∈ patchesFrom codeStart s.pieces.toList,
      x.1 + x.2.length ≤ patch.address ∨ patch.address + addressSize ≤ x.1 := by
    intro x hx patch hpatch
    obtain ⟨a, piece, hpiece, hkind, hlow, hhigh⟩ := piece_of_patch hpatch
    have hpiece := houtside x hx a piece hpiece hkind
    omega
  refine ⟨h.bytes, h.strings, h.stubs, h.others, h.apart, fun x hx => ?_, houtside, hreserved, ?_⟩
  · have hfits := (h.stubs x hx).pieceAt.fits
    rw [← h.position] at hfits
    exact hfits
  · intro x hx value written rest out hpatches hwritten i hi
    have hpairwise := pairwise_patchesFrom s.pieces.toList codeStart
    rw [hpatches] at hpairwise
    have hpatched := patched_of_backpatch (List.pairwise_append.mp hpairwise).1 hwritten
    rw [hpatched.others (x.1 + i) fun patch hpatch => ?_]
    · exact getElem?_buffer (h.stubs x hx).pieceAt hi
    · have hapart := hreserved x hx patch (by rw [hpatches]; exact List.mem_append_left _ hpatch)
      omega

end Emit

end ByteJump
