import ByteJump.Proofs.Emit.Blind
import ByteJump.Proofs.Run.Evaluation
import ByteJump.Proofs.Run.Legs

set_option autoImplicit false

/-!
# Code among frozen bytes

What runs between two places of linked code does not depend on what stands around it.  So all other
code may be taken for plain bytes, whatever memory holds there, and then no instruction is known to
write to it: a run changes nothing in code but what its own instructions write to.

What was shown of running emitted code is about linked code as a whole: it is laid out as the
emission says, and nothing writes to it but its own instructions.  For code in the middle of a
program that may write anywhere, this does not hold.  So the code around a stretch is replaced by
the bytes that memory holds there, `frozenPieces`, and the state the stretch was emitted from by
one behind such bytes.  The stretch is emitted to the same pieces there, the machine cannot tell
the difference, and in the replaced program the old lemmas apply.  `Confines` is what comes out of
it for the original program, and `expr_confines` is the case of an expression.
-/

namespace ByteJump

open Assembly Memory

namespace Assembly

/-! ## Bytes as pieces

Frozen bytes are pieces of one byte each.  They are written to by nothing, as they are no
instructions, and the piece at an address among them holds the byte that memory has there. -/

/-- Bytes of memory, a piece for each. -/
def bytePieces (c : Contents) : Nat → Nat → List Piece
  | _, 0 => []
  | a, count + 1 => .bytes [c a] :: bytePieces c (a + 1) count

section BytePieces

variable {c : Contents} {x : Nat} {piece : Piece}

/-- One piece for each byte. -/
theorem size_bytePieces : ∀ count a, size (bytePieces c a count) = count
  | 0, _ => rfl
  | count + 1, a => by
      rw [bytePieces, size_cons, size_bytePieces count, Piece.size, List.length_singleton,
        Nat.add_comm]

/-- Bytes write to nothing. -/
theorem destinations_bytePieces : ∀ count a, destinations (bytePieces c a count) = []
  | 0, _ => rfl
  | count + 1, a => by
      have hrest := destinations_bytePieces count (a + 1)
      simp only [destinations] at hrest ⊢
      rw [bytePieces, List.filterMap_cons, hrest]

theorem bytes_of_pieceAt : ∀ {count a : Nat}, PieceAt a (bytePieces c a count) x piece →
    piece = .bytes [c x]
  | 0, _, ⟨before, behind, h, _⟩ => by
      rw [bytePieces] at h
      simp at h
  | count + 1, a, h => by
      rw [bytePieces, ← List.singleton_append] at h
      rcases pieceAt_append h with ⟨before, behind, heq, rfl⟩ | h
      · cases before with
        | nil =>
            cases heq
            rfl
        | cons first rest => simp at heq
      · exact bytes_of_pieceAt h

theorem pieceAt_bytes : ∀ {count a : Nat}, a ≤ x → x < a + count →
    PieceAt a (bytePieces c a count) x (.bytes [c x])
  | 0, _, hlow, hhigh => by omega
  | count + 1, a, hlow, hhigh => by
      rw [bytePieces]
      rcases Nat.eq_or_lt_of_le hlow with rfl | hless
      · exact pieceAt_head
      · rw [← List.singleton_append]
        refine PieceAt.right ?_
        exact pieceAt_bytes (a := a + 1) (by omega) (by omega)

end BytePieces

/-- Pieces among plain bytes, where the code ends at an address. -/
def frozenPieces (c : Contents) (start stop : Nat) (more : List Piece) : List Piece :=
  bytePieces c codeStart (start - codeStart) ++ more ++
    bytePieces c (start + size more) (stop - (start + size more))

section FrozenPieces

variable {c : Contents} {start stop : Nat} {more : List Piece}

/-- The frozen code takes the place of the whole code. -/
theorem size_frozenPieces (hlow : codeStart ≤ start) (hhigh : start + size more ≤ stop) :
    codeStart + size (frozenPieces c start stop more) = stop := by
  rw [frozenPieces, size_append, size_append, size_bytePieces, size_bytePieces]
  omega

theorem destinations_frozenPieces (c : Contents) (start stop : Nat) :
    destinations (frozenPieces c start stop more) = destinations more := by
  rw [frozenPieces, destinations_append, destinations_append, destinations_bytePieces,
    destinations_bytePieces, List.nil_append, List.append_nil]

/-- A piece among plain bytes is one of the pieces, or a byte outside of them. -/
theorem frozen_cases {x : Nat} {piece : Piece} (hlow : codeStart ≤ start)
    (h : PieceAt codeStart (frozenPieces c start stop more) x piece) :
    PieceAt start more x piece ∨
      piece = .bytes [c x] ∧ ¬ (start ≤ x ∧ x < start + size more) := by
  have hfront : codeStart + size (bytePieces c codeStart (start - codeStart)) = start := by
    rw [size_bytePieces]
    omega
  have hone : (Piece.bytes [c x]).size = 1 := rfl
  unfold frozenPieces at h
  rcases pieceAt_append h with h | h
  · rcases pieceAt_append h with h | h
    · obtain rfl := bytes_of_pieceAt h
      have hfits := h.fits
      exact Or.inr ⟨rfl, by omega⟩
    · rw [hfront] at h
      exact Or.inl h
  · rw [size_append, ← Nat.add_assoc, hfront] at h
    obtain rfl := bytes_of_pieceAt h
    have hfits := h.fits
    exact Or.inr ⟨rfl, by omega⟩

end FrozenPieces

end Assembly

/-! ## Linked code that is frozen

`Held` says what has to be true for this: nothing else in the program writes to the stretch, and
memory shows the code.  The frozen program is linked like the old one, with the same points, the
same end and the same size, so that what is said of places means the same in both. -/

namespace Linked

variable {L : Linked} {c : Contents} {start : Nat} {more : List Piece}

/-- A row of pieces in linked code, to which nothing else writes, in a memory that shows the code. -/
structure Held (L : Linked) (c : Contents) (start : Nat) (more : List Piece) : Prop where
  block : Block L.pieces start more
  closed : Closed codeStart L.pieces
  intact : L.Intact c

/-- The tables in front of the code are those of the image. -/
theorem Held.tables (h : L.Held c start more) {a : Nat} (hlow : addTable ≤ a) (hhigh : a < codeStart) :
    c a = L.image a := by
  refine h.intact a hlow (Nat.lt_of_lt_of_le hhigh codeStart_le_stop) fun hmem => ?_
  rcases h.closed a hmem with h | h <;> omega

theorem Held.fits (h : L.Held c start more) : codeStart ≤ start ∧ start + Assembly.size more ≤ L.stop :=
  h.block.fits

/-- The bytes of the linked code where a row of pieces stands, and what is in memory elsewhere. -/
def around (L : Linked) (c : Contents) (start : Nat) (more : List Piece) : Contents := fun a =>
  if start ≤ a ∧ a < start + Assembly.size more then L.image a else c a

/-- In the tables the bytes are those of the image. -/
theorem Held.around_table (h : L.Held c start more) {a : Nat} (hlow : addTable ≤ a)
    (hhigh : a < codeStart) : L.around c start more a = L.image a := by
  have hcode := h.fits.1
  rw [around, if_neg (by omega), h.tables hlow hhigh]

theorem Held.around_sums (h : L.Held c start more) (a b : Nat) (ha : a < 256) (hb : b < 256) :
    L.around c start more (addTable + a * 256 + b) = UInt8.ofNat (a + b) := by
  rw [h.around_table (by omega) (by simp only [addTable, codeStart]; omega)]
  exact L.sums a b ha hb

theorem Held.around_nots (h : L.Held c start more) (a : Nat) (ha : a < 256) :
    L.around c start more (notTable + a) = if a = 0 then UInt8.ofNat Constant.truth else 0 := by
  have hrange : addTable ≤ notTable + a ∧ notTable + a < codeStart := by
    simp only [addTable, notTable, codeStart]
    omega
  rw [h.around_table hrange.1 hrange.2]
  exact L.nots a ha

theorem Held.around_code (h : L.Held c start more) (before : List Piece) (piece : Piece)
    (behind : List Piece) (hpieces : frozenPieces c start L.stop more = before ++ piece :: behind)
    (i : Nat) (hi : i < (piece.fill L.value).length) :
    L.around c start more (codeStart + Assembly.size before + i) = (piece.fill L.value)[i] := by
  have hat : PieceAt codeStart (frozenPieces c start L.stop more)
      (codeStart + Assembly.size before) piece := ⟨before, behind, hpieces, rfl⟩
  rcases frozen_cases h.fits.1 hat with hown | ⟨rfl, hout⟩
  · have hfits := hown.fits
    have hinside := hi
    rw [Piece.length_fill] at hinside
    obtain ⟨before', behind', hpieces', haddress⟩ := h.block.pieceAt hown
    have hcode := L.code before' piece behind' hpieces' i hi
    rw [← haddress] at hcode
    rw [around, if_pos (by omega), hcode]
  · obtain rfl : i = 0 := Nat.lt_one_iff.mp hi
    rw [Nat.add_zero, around, if_neg hout]
    rfl

/-- Frozen code ends where the code did. -/
theorem Held.size_pieces (h : L.Held c start more) :
    codeStart + Assembly.size (frozenPieces c start L.stop more) = L.stop :=
  size_frozenPieces h.fits.1 h.fits.2

theorem Held.scratch_stop (h : L.Held c start more) :
    L.world.scratch = codeStart + Assembly.size (frozenPieces c start L.stop more) :=
  L.scratch.trans h.size_pieces.symm

theorem Held.fits_stop (h : L.Held c start more) :
    codeStart + Assembly.size (frozenPieces c start L.stop more) + Machine.scratchSize ≤
      addressSpace := by
  rw [h.size_pieces]
  exact L.fits

/-- The linked code with everything but a row of pieces taken for plain bytes. -/
def Held.frozen (h : L.Held c start more) : Linked where
  pieces := frozenPieces c start L.stop more
  value := L.value
  image := L.around c start more
  world := L.world
  points := L.points
  known := L.known
  label_value := L.label_value
  point_value := L.point_value
  code := h.around_code
  sums := h.around_sums
  nots := h.around_nots
  scratch := h.scratch_stop
  fits := h.fits_stop
  careful := L.careful

theorem Held.pieces_frozen (h : L.Held c start more) :
    h.frozen.pieces = frozenPieces c start L.stop more := by
  unfold Held.frozen
  rfl

theorem Held.world_frozen (h : L.Held c start more) : h.frozen.world = L.world := by
  unfold Held.frozen
  rfl

theorem Held.points_frozen (h : L.Held c start more) : h.frozen.points = L.points := by
  unfold Held.frozen
  rfl

theorem Held.stop_frozen (h : L.Held c start more) : h.frozen.stop = L.stop := h.size_pieces

theorem Held.size_frozen (h : L.Held c start more) : h.frozen.size = L.size := by
  unfold Linked.size
  rw [h.stop_frozen]

/-- Memory is what the frozen program was laid out as. -/
theorem Held.intact_frozen (h : L.Held c start more) : h.frozen.Intact c := by
  intro a hlow hhigh hkept
  rw [h.stop_frozen] at hhigh
  have hmore : a ∉ destinations more := by
    rwa [← destinations_frozenPieces c start L.stop]
  show c a = if start ≤ a ∧ a < start + Assembly.size more then L.image a else c a
  split
  · rename_i hin
    exact h.intact a hlow hhigh (h.block.kept hin.1 hin.2 hmore)
  · rfl

/-- What is still as frozen was not changed. -/
theorem Held.eq_of_intact (h : L.Held c start more) {c' : Contents} (hintact : h.frozen.Intact c')
    {a : Nat} (hlow : addTable ≤ a) (hhigh : a < L.stop) (hmore : a ∉ destinations more) :
    c' a = c a := by
  have hkept : a ∉ destinations h.frozen.pieces := by
    show a ∉ destinations (frozenPieces c start L.stop more)
    rwa [destinations_frozenPieces]
  rw [hintact a hlow (by rwa [h.stop_frozen]) hkept,
    h.intact_frozen a hlow (by rwa [h.stop_frozen]) hkept]

/-- An address may be written to in the one program if it may be in the other. -/
theorem Held.open_frozen (h : L.Held c start more) {mark a : Nat} :
    h.frozen.Open mark a ↔ L.Open mark a := by
  constructor
  · intro ha
    exact ⟨ha.immediate, ha.register, h.stop_frozen ▸ ha.code, h.size_frozen ▸ ha.memory⟩
  · intro ha
    exact ⟨ha.immediate, ha.register, h.stop_frozen.symm ▸ ha.code, h.size_frozen.symm ▸ ha.memory⟩

theorem Held.depicts_frozen (h : L.Held c start more) {w : Scene} {mark : Nat} (hw : w.memory = c) :
    h.frozen.Depicts w mark c := by
  intro a ha
  rw [hw]
  have hcode := h.fits.1
  unfold Linked.read
  split
  · rename_i hin
    rcases ha.cases with hdata | ⟨-, hhigh⟩
    · exact absurd hin hdata.not_code
    · exact if_neg (by omega)
  · rfl

end Linked

namespace Emit

open Linked

variable {L : Linked} {s t : State} {c : Contents} {more : List Piece} {w : Scene} {m : Nat}

/-- Code between two states is held in linked code that goes on from the second one. -/
theorem Grows.held (hgood : Good s) (h : Grows s t) (hgood' : Good t) (hleads : Leads L t)
    (hpieces : t.pieces.toList = s.pieces.toList ++ more) (hintact : L.Intact c) :
    L.Held c s.position more := by
  obtain ⟨behind, hbehind, hclosed⟩ := hleads.code
  obtain ⟨own, hown, hposition, -⟩ := h.code
  obtain rfl : own = more := List.append_cancel_left (hown.symm.trans hpieces)
  have hall : Closed codeStart (t.pieces.toList ++ behind) :=
    hgood'.closed.append (by rwa [← hgood'.position])
  refine ⟨⟨s.pieces.toList, behind, by rw [hbehind, hpieces], hgood.position, hgood.closed, ?_⟩,
    by rwa [hbehind], hintact⟩
  rwa [← hposition]

/-- Other pieces may stand before a good state, where they have the bytes that are looked up. -/
theorem Good.over {front : List Piece} (hgood : Good s)
    (hsize : s.position = codeStart + Assembly.size front) (hkept : destinations front = [])
    (hbytes : ∀ value a, s.byteConstants.lookup value = some a → ByteAt front a value) :
    Good (s.over front) := by
  refine ⟨?_, ?_, fun value a ha => ?_, hgood.mark, hgood.points⟩ <;> rw [State.pieces_over]
  · exact hsize
  · unfold Closed
    rw [hkept]
    exact nofun
  · rw [hkept]
    exact ⟨(hgood.bytes value a ha).1, List.not_mem_nil, hbytes value a ha⟩

/-- A good state is good with frozen bytes in front of it. -/
theorem Good.frozen (hgood : Good s) (hleads : Leads L s) (hintact : L.Intact c) :
    Good (s.over (bytePieces c codeStart (s.position - codeStart))) := by
  have hstart : codeStart ≤ s.position := by
    rw [hgood.position]
    exact Nat.le_add_right _ _
  refine hgood.over ?_ (destinations_bytePieces _ _) fun value a ha => ?_
  · rw [size_bytePieces]
    exact (Nat.add_sub_cancel' hstart).symm
  · obtain ⟨hless, -, hbyte⟩ := hgood.bytes value a ha
    have hread := read_byteAt hleads hbyte c
    have hlow : codeStart ≤ a := by
      obtain ⟨before, behind, -, rfl⟩ := hbyte
      exact Nat.le_add_right _ _
    have hvalue : c a = value := by
      rw [← hread, ← eq_read hintact (fun _ _ => rfl) (hleads.steady hgood (hgood.steady ha))]
    rw [← hvalue]
    exact pieceAt_bytes hlow (by omega)

theorem Leads.over {L' : Linked} {front behind : List Piece} (hleads : Leads L t)
    (hpieces : L'.pieces = front ++ behind) (hkept : destinations behind = [])
    (hworld : L'.world = L.world) (hpoints : L'.points = L.points) : Leads L' (t.over front) := by
  refine ⟨⟨behind, by rw [hpieces, State.pieces_over], ?_⟩, ?_, ?_⟩
  · unfold Closed
    rw [hkept]
    exact nofun
  · rw [hworld]
    exact hleads.strings
  · rw [hpoints]
    exact hleads.points

theorem Leads.frozen (hleads : Leads L t) (hheld : L.Held c s.position more) :
    Leads hheld.frozen
      (t.over (bytePieces c codeStart (s.position - codeStart) ++ more)) :=
  hleads.over hheld.pieces_frozen (destinations_bytePieces _ _) hheld.world_frozen
    hheld.points_frozen

/-- A run from one place to another changes the immediate register, registers from the mark on, and
the fields that the pieces in between write to. -/
structure Confines (L : Linked) (mark : Nat) (more : List Piece) (v : Nat) (c c' : Contents) : Prop where
  value : c'.number immediate registerSize = v
  other : ∀ a, a < L.size → c' a ≠ c a → immediate ≤ a ∧ a < immediate + registerSize ∨
    register mark ≤ a ∧ a < addTable ∨ codeStart ≤ a ∧ a ∈ destinations more

/-- What an expression computes does not depend on the pieces before it. -/
theorem expr_computes_over {e : Expr} (L : Linked) (front : List Piece) (hserves : Serves L w m e)
    (hslots : ∀ v, w.slot v = s.bindings.register? v) (hm : m ≤ s.mark) :
    Exec (expr e) (s.over front) fun _ t => ∃ v, e.value w = some v ∧
      ((∀ a ∈ e.reads w, L.Open m a) → ∀ d, L.Depicts w m d →
        Does L (s.over front) t d (Yields s.mark v d)) := by
  have hexec : Exec (expr e) (s.over front) fun _ t => Computes L w m e (s.over front) t :=
    expr_computes L hserves hslots hm
  exact hexec.mono fun _ _ _ _ hend => hend.value

/-- In any memory that shows linked code the code of an expression computes its value, and changes
nothing but the immediate register, registers from the mark on, and fields of its own code. -/
theorem expr_confines {e : Expr} (hgood : Good s) (hrun : expr e s = .ok ⟨⟩ t) (hleads : Leads L t)
    (hserves : Serves L w m e) (hslots : ∀ v, w.slot v = s.bindings.register? v) (hm : m ≤ s.mark)
    (hpieces : t.pieces.toList = s.pieces.toList ++ more) (hintact : L.Intact w.memory) :
    ∃ v, e.value w = some v ∧ ((∀ a ∈ e.reads w, L.Open m a) →
      ∃ k c', Climbs L.size k w.memory s.position c' t.position ∧
        Confines L s.mark more v w.memory c') := by
  obtain ⟨hgood', hgrows, hcomputes⟩ := (expr_computes L hserves hslots hm).run hgood _ t hrun
  obtain ⟨v, hv, -⟩ := hcomputes.value
  refine ⟨v, hv, fun hreads => ?_⟩
  have hheld := hgrows.held hgood hgood' hleads hpieces hintact
  obtain ⟨own, hown, hagain⟩ := (expr_blind e).run s _ t hrun
  obtain rfl : own = more := List.append_cancel_left (hown.symm.trans hpieces)
  -- the code runs as well where all pieces around it are plain bytes
  have hserves' : Serves hheld.frozen w m e := by
    refine ⟨hserves.vars, ?_, ?_⟩ <;> rw [hheld.world_frozen]
    · exact hserves.labels
    · exact hserves.strings
  obtain ⟨-, -, v', hv', hdoes⟩ := (expr_computes_over hheld.frozen _ hserves' hslots hm).run
    (hgood.frozen (hleads.before hgrows) hintact) _ _ (hagain _)
  obtain rfl := Option.some.inj (hv.symm.trans hv')
  obtain ⟨k, c', d', hclimbs, hintact', hshows', hyields⟩ :=
    (hdoes (fun a ha => hheld.open_frozen.mpr (hreads a ha)) w.memory
      (hheld.depicts_frozen rfl)).run (hleads.frozen hheld) w.memory hheld.intact_frozen fun _ _ => rfl
  have hsize := hheld.size_frozen
  have hstop := hheld.stop_frozen
  rw [hsize, State.position_over, State.position_over] at hclimbs
  have hdata : ∀ a, hheld.frozen.IsData a ↔ L.IsData a := by
    intro a
    unfold Linked.IsData
    rw [hsize, hstop]
  have hsame : c'.number immediate registerSize = v := by
    rw [← hyields.value]
    refine Contents.number_congr fun i hi => hshows' _ ((hdata _).mpr (isData_of_lt ?_))
    simp only [immediate, addTable, registerSize] at hi ⊢
    omega
  refine ⟨k, c', hclimbs, hsame, fun a ha hne => ?_⟩
  -- a byte that changed without being allowed to is either code or data
  by_contra hout
  simp only [not_or, not_and] at hout
  refine hne ?_
  by_cases hcode : addTable ≤ a ∧ a < L.stop
  · refine hheld.eq_of_intact hintact' hcode.1 hcode.2 fun hmem => ?_
    rcases Nat.lt_or_ge a codeStart with hless | hge
    · have hmem' : a ∈ destinations L.pieces := by
        obtain ⟨before, behind, hblock, -⟩ := hheld.block
        rw [hblock, destinations_append, destinations_append]
        exact List.mem_append_left _ (List.mem_append_right _ hmem)
      rcases hheld.closed a hmem' with h | h <;> omega
    · exact hout.2.2 hge hmem
  · have hlow : L.IsData a := by
      unfold Linked.IsData
      omega
    rw [hshows' a ((hdata a).mpr hlow)]
    refine hyields.other a ?_ ?_
    · have := hout.1
      omega
    · have := hout.2.1
      omega

end Emit

end ByteJump
