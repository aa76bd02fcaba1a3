import ByteJump.Proofs.Emit.Flows
import ByteJump.Proofs.ImageTrace
import ByteJump.Proofs.RawWords

set_option autoImplicit false

/-!
# Sums of addresses in a trace

A trace reads three fields of the instruction at an address, and tells whether the instruction goes
on behind itself, so it computes sums of addresses.  Inside an image all of these are addresses.
Outside an image they need not be: a trace gets there through raw words only, which may name any
address, and it ends there.

`Computes image address sum` lists the sums that are computed at an address, and `Overflows` says
that one of them is no address.  At an address with a whole instruction none overflows, which is a
bound on the size of the image.  So the question is where a trace may stand.  Code without raw
words flows: a trace starts at a landing, and behind an instruction at a landing there is another
landing, or the halt.  With raw words a trace may be led anywhere, and the last part shows on an
image how it then ends.
-/

namespace ByteJump

open Assembly Memory

namespace Image

/-! ## Sums -/

/-- What is computed from an address that a trace shows: where the other fields of its instruction
stand, and where an instruction that copies would go on behind itself. -/
inductive Computes (image : Image) (address : Nat) : Nat → Prop
  | destination : Computes image address (address + destinationField)
  | next : Computes image address (address + nextField)
  | behind (hholds : image.Holds address) (hmoves : image.nextAt address ≠ address)
      (hcopies : ¬ (image.field address sourceField = 0 ∧
        image.field address destinationField = 0)) :
      Computes image address (address + instructionSize)

/-- One of the sums is no address. -/
def Overflows (image : Image) (address : Nat) : Prop :=
  ∃ sum, image.Computes address sum ∧ addressSpace ≤ sum

/-- The instruction at an address, read with sums that go around behind the last address. -/
def instructionAround? (image : Image) (address : Nat) : Option (Nat × Nat × Nat) := do
  let source ← image.word? (advance address sourceField)
  let destination ← image.word? (advance address destinationField)
  let next ← image.word? (advance address nextField)
  return (source, destination, next)

section Sums

variable {image : Image} {address sum : Nat}

/-- Inside an image no sum is larger than the image. -/
theorem Computes.le_size (h : image.Computes address sum) (hholds : image.Holds address) :
    sum ≤ image.size := by
  simp only [Holds, instructionSize] at hholds
  cases h with
  | destination =>
      simp only [destinationField]
      omega
  | next =>
      simp only [nextField]
      omega
  | behind => exact hholds

/-- All sums at an instruction are addresses inside the image. -/
theorem not_overflows_of_holds (hsize : image.size < addressSpace) (hholds : image.Holds address) :
    ¬ image.Overflows address := by
  rintro ⟨sum, hsum, hlarge⟩
  have hle := hsum.le_size hholds
  omega

/-- The field of the successor decides. -/
theorem overflows_iff (hsize : image.size < addressSpace) :
    image.Overflows address ↔ addressSpace ≤ address + nextField := by
  refine ⟨fun ⟨sum, hsum, hlarge⟩ => ?_, fun hlarge => ⟨_, .next, hlarge⟩⟩
  cases hsum with
  | destination =>
      simp only [destinationField] at hlarge
      simp only [nextField]
      omega
  | next => exact hlarge
  | behind hholds => exact absurd hlarge (Nat.not_le.mpr (Nat.lt_of_le_of_lt hholds hsize))

/-- No word reaches beyond the image. -/
theorem word?_eq_none (h : image.size < address + addressSize) : image.word? address = none := by
  rw [word?, Bytes.word?, Bytes.number?]
  exact if_neg (Nat.not_le.mpr h)

/-- Sums that go around read no other instruction. -/
theorem instructionAround?_eq (hsize : image.size < addressSpace) (haddress : address < addressSpace) :
    image.instructionAround? address = image.instruction? address := by
  have hsource : advance address sourceField = address + sourceField := Nat.mod_eq_of_lt haddress
  rw [instructionAround?, instruction?, hsource]
  by_cases hdestination : address + destinationField < addressSpace
  · rw [advance, Nat.mod_eq_of_lt hdestination]
    by_cases hnext : address + nextField < addressSpace
    · rw [advance, Nat.mod_eq_of_lt hnext]
    · -- the destination ends behind the last address
      have hnone : image.word? (address + destinationField) = none := by
        refine word?_eq_none ?_
        simp only [nextField] at hnext
        simp only [destinationField, addressSize]
        omega
      simp [hnone]
  · -- the source ends behind the last address
    have hnone : image.word? (address + sourceField) = none := by
      refine word?_eq_none ?_
      simp only [destinationField] at hdestination
      simp only [sourceField, addressSize]
      omega
    simp [hnone]

/-- Every address that is reached fits into a word. -/
theorem visit_lt (image : Image) (k : Nat) : image.visit k < addressSpace := by
  cases k with
  | zero =>
      show (image.word? entryAddress).getD 0 < addressSpace
      rw [word?, Bytes.word?, Bytes.number?]
      split
      · rw [Option.getD_some, Machine.number_contents]
        exact Contents.number_lt _ 8 entryAddress
      · decide
  | succ k =>
      rw [visit_succ, nextAt, field, Machine.number_contents]
      exact Contents.number_lt _ addressSize _

/-- The next address is the word in the field for it. -/
theorem nextAt_of_word? {n : Nat} (h : image.word? (address + nextField) = some n) :
    image.nextAt address = n := by
  rw [word?, Bytes.word?, Bytes.number?] at h
  split at h
  · exact Option.some.inj h
  · cases h

end Sums

end Image

/-- No statement of the program or of a file it includes has raw words. -/
def Program.Wordless (p : Program) : Prop :=
  ∀ q, p.Includes q → ∀ st ∈ Stmt.listSubs q.statements, ∀ values, st.action ≠ .words values

namespace Emit

/-! ## Code without raw words -/

section Emission

variable {p : Program} {b : Bindings} {log : List Event} {t : State} {artifact : Artifact} {a : Nat}

/-- The halt stands behind the code, inside the image. -/
theorem Emission.position_lt (h : Emission p b log t artifact) :
    t.position < artifact.image.size := by
  rw [h.size_halt, h.layout]
  exact Nat.lt_add_of_pos_right (by decide)

/-- The statements are emitted one behind the other, and all of them flow. -/
theorem Emission.flowing (h : Emission p b log t artifact) (hwords : p.Wordless)
    (hsize : artifact.image.size < addressSpace) : Flowing t := by
  have hposition := h.position_lt
  refine (h.trace.flowsOn (pointed_map _) fun st hst => ?_).flowing (by omega) (flowing_start b)
  obtain ⟨q, hq, hmem⟩ := h.includes_of_starts hst
  exact hwords q hq st hmem

/-- The successor of an instruction in the image is the value of its word. -/
theorem Emission.nextAt_of_piece (h : Emission p b log t artifact) {before behind : List Piece}
    {source destination : Nat} {next : Word}
    (hpieces : t.halted.pieces.toList = before ++ .instruction source destination next :: behind) :
    artifact.image.nextAt (codeStart + size before) = valueOf t.word next % addressSpace := by
  have hfill : (Piece.instruction source destination next).fill (valueOf t.word) =
      (wordBytes source ++ wordBytes destination) ++ (wordBytes (valueOf t.word next) ++ []) := by
    rw [List.append_nil]
    rfl
  have hholds := h.holds_halted hpieces hfill
  rw [List.length_append, length_wordBytes, length_wordBytes] at hholds
  exact Image.nextAt_of_word? (word?_of_holds hholds)

/-- The halt goes on at itself. -/
theorem Emission.nextAt_halt (h : Emission p b log t artifact)
    (hsize : artifact.image.size < addressSpace) :
    artifact.image.nextAt t.position = t.position := by
  have hposition := h.position_lt
  have hnext := h.nextAt_of_piece (toList_emit t [.instruction 0 0 (.known t.position)])
  rw [← h.position, valueOf_ok rfl] at hnext
  rw [hnext, Nat.mod_eq_of_lt (by omega)]

/-- An instruction is in the image wherever one is expected. -/
theorem Emission.holds_of_landing (h : Emission p b log t artifact)
    (ha : Landing t.pieces.toList a) : artifact.image.Holds a := by
  have hle := ha.le
  rw [← h.position] at hle
  rw [Image.Holds, h.size_halt, h.layout]
  exact Nat.add_le_add_right hle _

theorem Emission.landing_lt (h : Emission p b log t artifact)
    (hsize : artifact.image.size < addressSpace) (ha : Landing t.pieces.toList a) :
    a < addressSpace := by
  have hholds := h.holds_of_landing ha
  simp only [Image.Holds, instructionSize] at hholds
  omega

/-- The entry is the start of the code or a label. -/
theorem Emission.landing_entry (h : Emission p b log t artifact) (hflowing : Flowing t)
    (hsize : artifact.image.size < addressSpace) :
    Landing t.pieces.toList artifact.image.entry := by
  have hentry : Landing t.pieces.toList (t.entry.getD codeStart) := by
    cases hentry : t.entry with
    | none => exact hflowing.flows.landing
    | some a => exact hflowing.entry a hentry
  rw [Image.entry, h.entryWord, Option.getD_some, Nat.mod_eq_of_lt (h.landing_lt hsize hentry)]
  exact hentry

/-- Where a trace goes on, the next instruction is expected as well. -/
theorem Emission.landing_next (h : Emission p b log t artifact) (hflowing : Flowing t)
    (hsize : artifact.image.size < addressSpace) (ha : Landing t.pieces.toList a)
    (hon : ¬ artifact.image.Stops a) : Landing t.pieces.toList (artifact.image.nextAt a) := by
  rcases ha.onward with hend | ⟨before, source, destination, next, rest, behind, hpieces, haddress,
    hnext, hbehind⟩
  · rw [← h.position] at hend
    exact absurd (.inr (.inl (hend ▸ h.nextAt_halt hsize))) hon
  have hvalue := h.nextAt_of_piece (toList_halted hpieces)
  rw [← haddress] at hvalue
  cases hnext with
  | behind =>
      rw [hvalue, valueOf_ok rfl, Nat.mod_eq_of_lt (h.landing_lt hsize hbehind)]
      exact hbehind
  | unknown => exact absurd (.inr (.inr hvalue)) hon
  | @point role serial site =>
      cases hlookup : t.points.lookup serial with
      | none =>
          have hzero : valueOf t.word (.address (.point role serial) site) = 0 := by
            simp only [valueOf, State.word, State.address, hlookup]
          rw [hzero] at hvalue
          exact absurd (.inr (.inr hvalue)) hon
      | some address =>
          have hword : t.word (.address (.point role serial) site) = .ok address := by
            simp only [State.word, State.address, hlookup]
          have hpoint := hflowing.points _ (mem_of_lookup hlookup)
          rw [hvalue, valueOf_ok hword, Nat.mod_eq_of_lt (h.landing_lt hsize hpoint)]
          exact hpoint

/-- A trace of code without raw words stays in the code. -/
theorem Emission.landing_visit (h : Emission p b log t artifact) (hflowing : Flowing t)
    (hsize : artifact.image.size < addressSpace) {count : Nat}
    (hon : ∀ k, k + 1 < count → ¬ artifact.image.Stops (artifact.image.visit k)) :
    ∀ k < count, Landing t.pieces.toList (artifact.image.visit k) := by
  intro k
  induction k with
  | zero => exact fun _ => h.landing_entry hflowing hsize
  | succ k ih =>
      intro hk
      rw [Image.visit_succ]
      exact h.landing_next hflowing hsize (ih (by omega)) (hon k hk)

end Emission

/-! ## Two programs -/

/-- The program is accepted, and its code is three words, two zeros and a given number. -/
def laysWords (n : Nat) : Except Fault Program → Bool
  | .ok p =>
      match stmts p.statements (.start .none) with
      | .ok _ t =>
          match t.pieces.toList, t.entry with
          | [.word (.known 0), .word (.known 0), .word (.known m)], none =>
              m == n && (p.generate .none).1.isOk
          | _, _ => false
      | .error .. => false
  | .error _ => false

/-- The entry of such a program is the start of the words, and the number is its successor. -/
theorem exists_of_laysWords {n : Nat} {resolved : Except Fault Program}
    (h : laysWords n resolved = true) : ∃ p artifact, resolved = .ok p ∧
      (p.generate .none).1 = .ok artifact ∧ artifact.image.size = codeStart + 2 * instructionSize ∧
      artifact.image.entry = codeStart ∧ artifact.image.nextAt codeStart = n % addressSpace := by
  unfold laysWords at h
  split at h
  case h_2 => cases h
  rename_i p
  split at h
  case h_2 => cases h
  rename_i t hrun
  split at h
  case h_2 => cases h
  rename_i m hpieces hentry
  simp only [Bool.and_eq_true, beq_iff_eq] at h
  obtain ⟨rfl, hok⟩ := h
  cases hgenerate : (p.generate .none).1 with
  | error fault =>
      rw [hgenerate] at hok
      cases hok
  | ok artifact =>
      obtain ⟨log, u, hemission⟩ := emission_of_generate hgenerate
      have hend := hemission.trace.run
      rw [emitAll_map_stmt, hrun] at hend
      cases hend
      have hsplit : t.pieces.toList =
          [.word (.known 0), .word (.known 0)] ++ .word (.known m) :: [] := hpieces
      have hfill : (Piece.word (.known m)).fill (valueOf t.word) = wordBytes m ++ [] :=
        (List.append_nil _).symm
      have hword := hemission.holds_piece hsplit hfill
      refine ⟨p, artifact, rfl, hgenerate, ?_, ?_, Image.nextAt_of_word? (word?_of_holds hword)⟩
      · rw [hemission.size_halt, hemission.layout, hemission.position, hpieces]
        rfl
      · rw [Image.entry, hemission.entryWord, hentry]
        rfl

/-- The program is a single expression. -/
def evaluates (p : Program) : Bool :=
  match p.statements with
  | [.mk _ (.evaluate _) _] => true
  | _ => false

theorem wordless_of_evaluates {p : Program} (h : evaluates p = true) : p.Wordless := by
  unfold evaluates at h
  split at h
  case h_2 => cases h
  rename_i labels value site hstatements
  intro q hq st hst values
  have hfiles : p.files = [] := by
    rw [Program.files, hstatements]
    rfl
  obtain rfl : q = p := by
    cases hq.cases_head with
    | inl heq => exact heq.symm
    | inr hfirst =>
        obtain ⟨file, hfile, -⟩ := hfirst
        rw [hfiles] at hfile
        cases hfile
  rw [hstatements] at hst
  obtain rfl : st = .mk labels (.evaluate value) site := List.mem_singleton.mp hst
  intro heq
  cases heq

end Emit

namespace Image

open Emit Text

/-! ## Sums along a trace

Each line of a trace stands for an address that was visited, and the sums of that line are those
computed there. -/

/-- What is computed from the first `count` addresses that a trace shows.  Inside the image no sum is
larger than the image.  A sum is no address exactly where the field of the successor would stand behind
the last one; there the trace ends outside the image, and so it does with sums that go around. -/
structure SumsAlong (image : Image) (count : Nat) : Prop where
  inside : ∀ k < count, image.Holds (image.visit k) →
    ∀ sum, image.Computes (image.visit k) sum → sum ≤ image.size
  overflows : ∀ k < count,
    (image.Overflows (image.visit k) ↔ addressSpace ≤ image.visit k + nextField)
  last : ∀ k < count, image.Overflows (image.visit k) → k + 1 = count ∧
    image.lineAt (image.visit k) = hex8 (image.visit k) ++ ": <outside image>"
  around : ∀ k < count,
    image.instructionAround? (image.visit k) = image.instruction? (image.visit k)

theorem Traced.sumsAlong {image : Image} {limit count : Nat} {lines : List String}
    (h : image.Traced limit 0 count lines) (hsize : image.size < addressSpace) :
    image.SumsAlong count where
  inside k _ hholds sum hsum := hsum.le_size hholds
  overflows k _ := overflows_iff hsize
  last k hk hoverflows := by
    have hout : ¬ image.Holds (image.visit k) :=
      fun hholds => not_overflows_of_holds hsize hholds hoverflows
    refine ⟨?_, if_neg hout⟩
    by_contra hne
    exact h.on k (Nat.zero_le k) (by omega) (.inl hout)
  around k _ := instructionAround?_eq hsize (visit_lt image k)

/-- Sums of addresses in the trace of a program.  Every sum is an address, but for those at an address
outside the image that only raw words can lead to, and there the trace ends; without raw words it stays
in the image. -/
theorem trace_sums (p : Program) (b : Bindings) {artifact : Artifact}
    (hgenerate : (p.generate b).1 = .ok artifact) (hsize : artifact.image.size < addressSpace)
    (limit : Nat) : ∃ count ≤ limit,
      artifact.image.trace limit =
        (List.range count).map (fun k => artifact.image.lineAt (artifact.image.visit k)) ∧
      artifact.image.SumsAlong count ∧
      (p.Wordless → ∀ k < count, artifact.image.Holds (artifact.image.visit k) ∧
        ¬ artifact.image.Overflows (artifact.image.visit k)) := by
  obtain ⟨log, t, h⟩ := emission_of_generate hgenerate
  have hshown : artifact.image.Shown [] 0 := fun address =>
    ⟨fun h => absurd h List.not_mem_nil, fun ⟨j, hj, _⟩ => absurd hj (Nat.not_lt_zero j)⟩
  obtain ⟨count, htraced⟩ := traceFrom_traced artifact.image limit 0 [] hshown
  refine ⟨count, htraced.bound, ?_, htraced.sumsAlong hsize, fun hwords k hk => ?_⟩
  · rw [List.range_eq_range', ← htraced.lines]
    rfl
  · have hon : ∀ k, k + 1 < count → ¬ artifact.image.Stops (artifact.image.visit k) :=
      fun k hk => htraced.on k (Nat.zero_le k) (by omega)
    have hholds := h.holds_of_landing (h.landing_visit (h.flowing hwords hsize) hsize hon k hk)
    exact ⟨hholds, not_overflows_of_holds hsize hholds⟩

/-- A trace that goes on from the entry shows a second address. -/
theorem one_lt_length_trace {image : Image} (limit : Nat) (h : ¬ image.Stops image.entry) :
    1 < (image.trace (limit + 2)).length := by
  have hnew : image.nextAt image.entry ∉ [image.entry] := by
    rw [List.mem_singleton]
    exact fun heq => h (.inr (.inl heq))
  rw [trace, traceFrom_succ image (limit + 1) List.not_mem_nil, if_neg h,
    traceFrom_succ image limit hnew, List.length_cons, List.length_cons]
  omega

/-- Raw words that lead to the last address, where both sums are no addresses; and a program without
raw words. -/
theorem trace_sums_last :
    let zero : Syntax.Expr := .int 0 .zero
    let resolved := fun tree : Syntax.Program =>
      ((Session.afterMains (MemoryFiles.source []) [] []).resolve tree ⟨"main"⟩).1
    (∃ p artifact,
      resolved [.mk [] (.words [zero, zero, .int 0xffffffffffffffff .zero]) .zero] = .ok p ∧
      (p.generate .none).1 = .ok artifact ∧ artifact.image.size < addressSpace ∧
      ∃ count ≤ 5, artifact.image.trace 5 =
          (List.range count).map (fun k => artifact.image.lineAt (artifact.image.visit k)) ∧
        artifact.image.SumsAlong count ∧ 1 < count ∧
        artifact.image.Overflows (artifact.image.visit 1) ∧
        artifact.image.lineAt (artifact.image.visit 1) = "ffffffffffffffff: <outside image>") ∧
    ∃ p artifact, resolved [.mk [] (.evaluate zero) .zero] = .ok p ∧
      (p.generate .none).1 = .ok artifact ∧ artifact.image.size < addressSpace ∧ p.Wordless ∧
      ∃ count ≤ 5, artifact.image.trace 5 =
          (List.range count).map (fun k => artifact.image.lineAt (artifact.image.visit k)) ∧
        ∀ k < count, artifact.image.Holds (artifact.image.visit k) := by
  intro zero resolved
  constructor
  · have hcheck : laysWords 0xffffffffffffffff
        (resolved [.mk [] (.words [zero, zero, .int 0xffffffffffffffff .zero]) .zero]) = true := by
      decide +kernel
    obtain ⟨p, artifact, hresolve, hgenerate, hlength, hentry, hnext⟩ := exists_of_laysWords hcheck
    have hsize : artifact.image.size < addressSpace := by
      rw [hlength]
      decide
    have hlast : artifact.image.visit 1 = 0xffffffffffffffff := by
      rw [visit_succ]
      show artifact.image.nextAt artifact.image.entry = _
      rw [hentry, hnext]
      rfl
    have hon : ¬ artifact.image.Stops artifact.image.entry := by
      rw [hentry, Stops, hnext, Holds, hlength]
      decide
    obtain ⟨count, hcount, htrace, hsums, -⟩ := trace_sums p .none hgenerate hsize 5
    have hmore : 1 < count := by
      have hlong := one_lt_length_trace 3 hon
      rwa [htrace, List.length_map, List.length_range] at hlong
    have hoverflows : artifact.image.Overflows (artifact.image.visit 1) := by
      rw [hsums.overflows 1 hmore, hlast]
      decide
    have hline := (hsums.last 1 hmore hoverflows).2
    rw [hlast] at hline
    refine ⟨p, artifact, hresolve, hgenerate, hsize, count, hcount, htrace, hsums, hmore, hoverflows,
      ?_⟩
    rw [hlast, hline]
    decide +kernel
  · have hcheck : runnable evaluates (resolved [.mk [] (.evaluate zero) .zero]) .none = true := by
      decide +kernel
    obtain ⟨p, artifact, hresolve, hgenerate, hevaluates, hfits⟩ := exists_of_runnable hcheck
    have hsize : artifact.image.size < addressSpace :=
      Nat.lt_of_lt_of_le (Nat.lt_add_of_pos_right (by decide)) hfits
    have hwordless := wordless_of_evaluates hevaluates
    obtain ⟨count, hcount, htrace, -, hinside⟩ := trace_sums p .none hgenerate hsize 5
    exact ⟨p, artifact, hresolve, hgenerate, hsize, hwordless, count, hcount, htrace,
      fun k hk => (hinside hwordless k hk).1⟩

end Image

end ByteJump
