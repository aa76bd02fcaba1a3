import ByteJump.Proofs.InstructionLines
import ByteJump.Proofs.LabelLayout
import Mathlib.Logic.Function.Iterate

set_option autoImplicit false

/-!
# What a trace shows

A trace goes from the entry from successor to successor and shows each address once.  It goes on as
long as the limit lets it, up to an instruction that has no other successor yet, an address outside
the image, or an address that was shown.
-/

namespace ByteJump

open Text Memory

namespace Image

/-! ## Instructions in an image -/

/-- The instruction at an address lies in the image with all its fields. -/
def Holds (image : Image) (address : Nat) : Prop := address + instructionSize ≤ image.size

instance (image : Image) (address : Nat) : Decidable (image.Holds address) :=
  inferInstanceAs (Decidable (_ ≤ _))

/-- A field of the instruction at an address. -/
def field (image : Image) (address offset : Nat) : Nat :=
  Bytes.number image.bytes (address + offset) addressSize

/-- The successor of the instruction at an address. -/
def nextAt (image : Image) (address : Nat) : Nat := image.field address nextField

/-- The line for an address. -/
def lineAt (image : Image) (address : Nat) : String :=
  if image.Holds address then
    image.layout.showInstruction address (image.field address sourceField)
      (image.field address destinationField) (image.nextAt address)
  else hex8 address ++ ": <outside image>"

theorem instruction?_of_holds {image : Image} {address : Nat} (h : image.Holds address) :
    image.instruction? address = some (image.field address sourceField,
      image.field address destinationField, image.nextAt address) := by
  simp only [Holds, instructionSize, size] at h
  have hsource : address + sourceField + 8 ≤ image.bytes.size := by
    simp only [sourceField]
    omega
  have hdestination : address + destinationField + 8 ≤ image.bytes.size := by
    simp only [destinationField]
    omega
  have hnext : address + nextField + 8 ≤ image.bytes.size := by
    simp only [nextField]
    omega
  simp only [instruction?, word?, Bytes.word?, Bytes.number?, if_pos hsource, if_pos hdestination,
    if_pos hnext]
  rfl

theorem instruction?_of_not_holds {image : Image} {address : Nat} (h : ¬ image.Holds address) :
    image.instruction? address = none := by
  have hnext : ¬ address + nextField + 8 ≤ image.bytes.size := by
    simp only [Holds, instructionSize, size] at h
    simp only [nextField]
    omega
  simp [instruction?, word?, Bytes.word?, Bytes.number?, if_neg hnext]

/-! ## Traces -/

/-- The address that is reached from the entry after some instructions. -/
def visit (image : Image) (k : Nat) : Nat := image.nextAt^[k] image.entry

/-- From an address a trace does not go on: it is outside the image, or the instruction there has no
other successor yet. -/
def Stops (image : Image) (address : Nat) : Prop :=
  ¬ image.Holds address ∨ image.nextAt address = address ∨ image.nextAt address = 0

instance (image : Image) (address : Nat) : Decidable (image.Stops address) :=
  inferInstanceAs (Decidable (_ ∨ _ ∨ _))

/-- A new address gets its line, and the trace goes on behind it or stops. -/
theorem traceFrom_succ (image : Image) (limit : Nat) {seen : List Nat} {address : Nat}
    (h : address ∉ seen) :
    image.traceFrom (limit + 1) seen address = image.lineAt address ::
      if image.Stops address then []
      else image.traceFrom limit (address :: seen) (image.nextAt address) := by
  rw [traceFrom, if_neg h, lineAt]
  by_cases hholds : image.Holds address
  · have hstops : image.Stops address ↔
        image.nextAt address = address ∨ image.nextAt address = 0 :=
      or_iff_right fun hout => hout hholds
    rw [instruction?_of_holds hholds, if_pos hholds]
    simp only [hstops]
  · rw [instruction?_of_not_holds hholds, if_neg hholds, if_pos (.inl hholds)]

/-- The lines show what is visited from the `first` address on, up to where the trace has to end. -/
structure Traced (image : Image) (limit first count : Nat) (lines : List String) : Prop where
  lines : lines = (List.range' first count).map fun k => image.lineAt (image.visit k)
  bound : count ≤ limit
  new : ∀ k, first ≤ k → k < first + count → ∀ j < k, image.visit j ≠ image.visit k
  on : ∀ k, first ≤ k → k + 1 < first + count → ¬ image.Stops (image.visit k)
  ends : count < limit → (∃ j < first + count, image.visit j = image.visit (first + count)) ∨
    ∃ last, first ≤ last ∧ first + count = last + 1 ∧ image.Stops (image.visit last)

theorem visit_succ (image : Image) (k : Nat) :
    image.visit (k + 1) = image.nextAt (image.visit k) :=
  Function.iterate_succ_apply' _ _ _

/-- No line at all. -/
theorem Traced.nil {image : Image} {limit first : Nat}
    (h : 0 < limit → ∃ j < first, image.visit j = image.visit first) :
    image.Traced limit first 0 [] where
  lines := rfl
  bound := Nat.zero_le _
  new k hle hlt := absurd hlt (Nat.not_lt.mpr hle)
  on k hle hlt := by omega
  ends hlimit := .inl (h hlimit)

/-- A last line. -/
theorem Traced.last {image : Image} {limit first : Nat}
    (hnew : ∀ j < first, image.visit j ≠ image.visit first) (h : image.Stops (image.visit first)) :
    image.Traced (limit + 1) first 1 [image.lineAt (image.visit first)] where
  lines := rfl
  bound := Nat.succ_le_succ (Nat.zero_le _)
  new k hle hlt := by
    obtain rfl : k = first := by omega
    exact hnew
  on k hle hlt := by omega
  ends _ := .inr ⟨first, Nat.le_refl _, rfl, h⟩

/-- A line in front of the others. -/
theorem Traced.cons {image : Image} {limit first count : Nat} {lines : List String}
    (hnew : ∀ j < first, image.visit j ≠ image.visit first)
    (hon : ¬ image.Stops (image.visit first)) (h : image.Traced limit (first + 1) count lines) :
    image.Traced (limit + 1) first (count + 1) (image.lineAt (image.visit first) :: lines) where
  lines := by rw [h.lines, List.range'_succ, List.map_cons]
  bound := Nat.succ_le_succ h.bound
  new k hle hlt := by
    rcases Nat.eq_or_lt_of_le hle with rfl | hlt'
    · exact hnew
    · exact h.new k hlt' (by omega)
  on k hle hlt := by
    rcases Nat.eq_or_lt_of_le hle with rfl | hlt'
    · exact hon
    · exact h.on k hlt' (by omega)
  ends hlimit := by
    have hcount : first + (count + 1) = first + 1 + count := by omega
    rw [hcount]
    rcases h.ends (by omega) with hseen | ⟨last, hle, hlast, hstops⟩
    · exact .inl hseen
    · exact .inr ⟨last, by omega, hlast, hstops⟩

/-- The addresses that were shown are the first ones that are visited. -/
def Shown (image : Image) (seen : List Nat) (count : Nat) : Prop :=
  ∀ address, address ∈ seen ↔ ∃ j < count, image.visit j = address

theorem Shown.cons {image : Image} {seen : List Nat} {count : Nat} (h : image.Shown seen count) :
    image.Shown (image.visit count :: seen) (count + 1) := by
  intro address
  rw [List.mem_cons, h]
  constructor
  · rintro (rfl | ⟨j, hj, rfl⟩)
    · exact ⟨count, Nat.lt_succ_self _, rfl⟩
    · exact ⟨j, Nat.lt_succ_of_lt hj, rfl⟩
  · rintro ⟨j, hj, rfl⟩
    rcases Nat.eq_or_lt_of_le (Nat.le_of_lt_succ hj) with rfl | hj
    · exact .inl rfl
    · exact .inr ⟨j, hj, rfl⟩

theorem traceFrom_traced (image : Image) : ∀ (limit first : Nat) (seen : List Nat),
    image.Shown seen first →
    ∃ count, image.Traced limit first count (image.traceFrom limit seen (image.visit first))
  | 0, first, seen, _ => ⟨0, .nil fun h => absurd h (Nat.lt_irrefl 0)⟩
  | limit + 1, first, seen, hshown => by
      by_cases hmem : image.visit first ∈ seen
      · rw [traceFrom, if_pos hmem]
        exact ⟨0, .nil fun _ => (hshown _).mp hmem⟩
      have hnew : ∀ j < first, image.visit j ≠ image.visit first :=
        fun j hj heq => hmem ((hshown _).mpr ⟨j, hj, heq⟩)
      rw [traceFrom_succ image limit hmem]
      by_cases hstops : image.Stops (image.visit first)
      · rw [if_pos hstops]
        exact ⟨1, .last hnew hstops⟩
      · rw [if_neg hstops, ← visit_succ]
        obtain ⟨count, hrest⟩ := traceFrom_traced image limit (first + 1) _ hshown.cons
        exact ⟨count + 1, hrest.cons hnew hstops⟩

/-- A trace shows the addresses that are visited from the entry on, one to a line and none twice, as
many as the limit lets it but nothing behind an address it stops at and no address again.  And in
the layout of a generated image a line that does not say that its instruction halts tells the
instruction. -/
theorem trace_faithful :
    (∀ (image : Image) (limit : Nat), ∃ count ≤ limit,
      image.trace limit = (List.range count).map (fun k => image.lineAt (image.visit k)) ∧
      (∀ k < count, ∀ j < k, image.visit j ≠ image.visit k) ∧
      (∀ k, k + 1 < count → ¬ image.Stops (image.visit k)) ∧
      (count < limit → ∃ last, count = last + 1 ∧
        (image.Stops (image.visit last) ∨ ∃ j < count, image.visit j = image.visit count))) ∧
    ∀ (p : Program) (b : Bindings) (artifact : Artifact), (p.generate b).1 = .ok artifact →
      ∀ address source destination next address' source' destination' next' : Nat,
        next ≠ address → next' ≠ address' →
        artifact.image.layout.showInstruction address source destination next =
          artifact.image.layout.showInstruction address' source' destination' next' →
        address = address' ∧ source = source' ∧ destination = destination' ∧ next = next' := by
  refine ⟨fun image limit => ?_, fun p b artifact hgenerate => ?_⟩
  · have hshown : image.Shown [] 0 := fun address =>
      ⟨fun h => absurd h List.not_mem_nil, fun ⟨j, hj, _⟩ => absurd hj (Nat.not_lt_zero j)⟩
    obtain ⟨count, h⟩ := traceFrom_traced image limit 0 [] hshown
    refine ⟨count, h.bound, ?_, fun k hk => h.new k (Nat.zero_le k) (by omega),
      fun k hk => h.on k (Nat.zero_le k) (by omega), fun hlimit => ?_⟩
    · rw [List.range_eq_range', ← h.lines]
      rfl
    · rcases h.ends hlimit with ⟨j, hj, heq⟩ | ⟨last, -, hlast, hstops⟩
      · rw [Nat.zero_add] at hj heq
        exact ⟨count - 1, by omega, .inr ⟨j, hj, heq⟩⟩
      · exact ⟨last, by omega, .inl hstops⟩
  · intro address source destination next address' source' destination' next' hnext hnext' heq
    obtain ⟨log, t, h⟩ := Emit.emission_of_generate hgenerate
    have htables : artifact.image.layout.HasTables := by
      rw [h.layout]
      exact ⟨rfl, rfl⟩
    exact Layout.showInstruction_injective htables hnext hnext' heq

/-- The image of a program without statements, and a line for a copy into the immediate register
that goes on right behind. -/
theorem trace_faithful_empty :
    ∃ p artifact,
      ((Session.afterMains (MemoryFiles.source []) [] []).resolve [] ⟨"main"⟩).1 = .ok p ∧
      (p.generate .none).1 = .ok artifact ∧
      (∃ count ≤ 2, artifact.image.trace 2 =
        (List.range count).map fun k => artifact.image.lineAt (artifact.image.visit k)) ∧
      codeStart = 131328 ∧ Memory.addTable = 65536 ∧ immediate = 16 ∧
        advance codeStart instructionSize = 131352 := by
  have haccepted : Emit.accepted
      ((Session.afterMains (MemoryFiles.source []) [] []).resolve [] ⟨"main"⟩).1 .none = true := by
    decide +kernel
  obtain ⟨p, artifact, hresolve, hgenerate⟩ := Emit.exists_of_accepted haccepted
  obtain ⟨count, hcount, htrace, -⟩ := trace_faithful.1 artifact.image 2
  exact ⟨p, artifact, hresolve, hgenerate, ⟨count, hcount, htrace⟩,
    trace_faithful.2 p .none artifact hgenerate codeStart Memory.addTable immediate
      (advance codeStart instructionSize) 131328 65536 16 131352 (by decide) (by decide) rfl⟩

end Image

end ByteJump
