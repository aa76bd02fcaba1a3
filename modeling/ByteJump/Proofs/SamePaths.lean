import ByteJump.FileTree

set_option autoImplicit false

/-!
# Spellings of one path

Paths that have the same components lead to the same file, so a source that tells files apart by
where their paths lead gives them one identity.  This holds of files in memory, where a path stands
for itself, and of trees of directories, where it stands for its canonical path.
-/

namespace ByteJump

/-! ## Identities -/

/-- Paths with the same components, of a file in one source and a file in the other, have
identities with the same components. -/
def FileSource.Agrees (a b : FileSource) : Prop :=
  ∀ p q, a.contains p = true → b.contains q = true → p.key = q.key →
    (a.identity p).key = (b.identity q).key

/-- Files in memory are told apart by the components of their paths, whatever is in them. -/
theorem MemoryFiles.agrees (files others : MemoryFiles) : files.source.Agrees others.source :=
  fun _ _ _ _ h => h

/-! ## Steps -/

namespace Path

/-- The steps of a path that lead away from where they start. -/
def steps (p : Path) : List (List Char) := (pieces p.text.toList).filter fun piece => !isIdle piece

theorem head?_of_pieces {cs : List Char} {c : Char} {piece : List Char} {rest : List (List Char)}
    (h : pieces cs = (c :: piece) :: rest) : cs.head? = some c := by
  cases cs with
  | nil => cases h
  | cons d cs =>
      rw [pieces] at h
      split at h
      · cases h
      · split at h <;> cases h <;> rfl

theorem not_isAbsolute_of_pieces {p : Path} {rest : List (List Char)}
    (h : pieces p.text.toList = ['.'] :: rest) : p.isAbsolute = false := by
  rw [isAbsolute, head?_of_pieces h]
  rfl

/-- The key of a path is where it starts, whether it says so with a dot, and its steps. -/
theorem key_eq (p : Path) : p.key =
    ⟨p.isAbsolute, (if (pieces p.text.toList).head? = some ['.'] then ["."] else []) ++
      p.steps.map String.ofList⟩ := by
  unfold key steps
  dsimp only
  split
  · rename_i rest hpieces
    rw [not_isAbsolute_of_pieces hpieces, hpieces]
    rfl
  · rename_i hpieces
    rw [if_neg, List.nil_append]
    intro hhead
    cases hps : pieces p.text.toList with
    | nil => simp [hps] at hhead
    | cons piece rest =>
        rw [hps] at hhead
        cases hhead
        exact hpieces rest hps

theorem ofList_ne_dot {p : Path} {text : String} (h : text ∈ p.steps.map String.ofList) :
    text ≠ "." := by
  obtain ⟨piece, hpiece, rfl⟩ := List.mem_map.mp h
  intro hdot
  have hpiece := (List.mem_filter.mp hpiece).2
  rw [String.ofList_injective (hdot.trans (show "." = String.ofList ['.'] from rfl))] at hpiece
  cases hpiece

/-- Paths with the same components start in the same place and take the same steps. -/
theorem steps_of_key {p q : Path} (h : p.key = q.key) :
    p.isAbsolute = q.isAbsolute ∧ p.steps = q.steps := by
  rw [key_eq, key_eq] at h
  injection h with habsolute hcomponents
  refine ⟨habsolute, ?_⟩
  have hmap : p.steps.map String.ofList = q.steps.map String.ofList := by
    split at hcomponents <;> split at hcomponents
    · simpa using hcomponents
    · rw [List.nil_append] at hcomponents
      have hdot : "." ∈ q.steps.map String.ofList := by simp [← hcomponents]
      exact absurd rfl (ofList_ne_dot hdot)
    · rw [List.nil_append] at hcomponents
      have hdot : "." ∈ p.steps.map String.ofList := by simp [hcomponents]
      exact absurd rfl (ofList_ne_dot hdot)
    · simpa using hcomponents
  exact (List.map_inj_right fun _ _ h => String.ofList_injective h).mp hmap

end Path

/-! ## Trees -/

namespace FileTree

variable {tree : FileTree}

theorem next_idle {place : List String} {step : List Char} (h : Path.isIdle step = true) :
    next place step = place := if_pos h

/-- Idle steps lead nowhere. -/
theorem foldl_next_filter (steps : List (List Char)) (place : List String) :
    (steps.filter fun step => !Path.isIdle step).foldl next place = steps.foldl next place := by
  induction steps generalizing place with
  | nil => rfl
  | cons step steps ih =>
      cases hidle : Path.isIdle step with
      | true => rw [List.filter_cons_of_neg (by simp [hidle]), ih, List.foldl_cons, next_idle hidle]
      | false => rw [List.filter_cons_of_pos (by simp [hidle]), List.foldl_cons, List.foldl_cons, ih]

/-- What is followed to its end leads where its steps lead. -/
theorem eq_of_follow {steps : List (List Char)} {place names : List String}
    (h : tree.follow place steps = some names) : names = (steps.foldl next place).reverse := by
  induction steps generalizing place with
  | nil => exact (Option.some.inj h).symm
  | cons step steps ih =>
      rw [follow] at h
      split at h
      · exact ih h
      · cases h

/-- A property that holds of a place by which the steps come holds of one by which they come
without idle steps, and the other way round. -/
theorem any_places_filter (f : List String → Bool) (steps : List (List Char))
    (place : List String) :
    (places place (steps.filter fun step => !Path.isIdle step)).any f = (places place steps).any f := by
  induction steps generalizing place with
  | nil => rfl
  | cons step steps ih =>
      cases hidle : Path.isIdle step with
      | true =>
          have hfirst : f place.reverse = true → (places place steps).any f = true := by
            intro hf
            refine List.any_eq_true.mpr ⟨place.reverse, ?_, hf⟩
            cases steps <;> simp [places]
          rw [List.filter_cons_of_neg (by simp [hidle]), ih, places, List.any_cons, next_idle hidle]
          cases hf : f place.reverse with
          | true => simp [hfirst hf]
          | false => simp
      | false =>
          rw [List.filter_cons_of_pos (by simp [hidle]), places, places, List.any_cons,
            List.any_cons, ih]

theorem start_of_key {p q : Path} (h : p.key = q.key) : tree.start p = tree.start q := by
  rw [start, start, (Path.steps_of_key h).1]

/-- Where a path leads to depends on its components, if it leads anywhere. -/
theorem place_of_locate {p : Path} {place : List String} {entry : Entry}
    (h : tree.locate p = some (place, entry)) :
    place = (p.steps.foldl next (tree.start p)).reverse := by
  unfold locate at h
  split at h
  · cases h
  · obtain ⟨names, hnames, h⟩ := Option.bind_eq_some_iff.mp h
    obtain ⟨entry', _, h⟩ := Option.bind_eq_some_iff.mp h
    cases h
    rw [eq_of_follow hnames, Path.steps, foldl_next_filter]

theorem located_of_contains {p : Path} (h : tree.source.contains p = true) :
    ∃ place entry, tree.locate p = some (place, entry) := by
  obtain ⟨contents, hcontents⟩ := Option.isSome_iff_exists.mp h
  unfold contents? at hcontents
  split at hcontents
  · cases hcontents
  · split at hcontents
    · rename_i place _ hlocate
      exact ⟨place, _, hlocate⟩
    · cases hcontents

/-- A tree gives paths of one file with the same components one identity. -/
theorem agrees (tree : FileTree) : tree.source.Agrees tree.source := by
  intro p q hp hq hkey
  obtain ⟨place, entry, hplace⟩ := located_of_contains hp
  obtain ⟨place', entry', hplace'⟩ := located_of_contains hq
  have hsame : place = place' := by
    rw [place_of_locate hplace, place_of_locate hplace', start_of_key hkey,
      (Path.steps_of_key hkey).2]
  have hroute : ((tree.route p).any fun passed => (canonical passed).isTooLong) =
      (tree.route q).any fun passed => (canonical passed).isTooLong := by
    rw [route, route, ← any_places_filter, ← any_places_filter _ (Path.pieces q.text.toList),
      start_of_key hkey]
    exact congrArg (fun steps => (places (tree.start q) steps).any _) (Path.steps_of_key hkey).2
  have hcanonical : tree.canonical? p = tree.canonical? q := by
    unfold canonical?
    rw [hplace, hplace', hsame]
    show (if _ then _ else _) = (if _ then _ else _)
    rw [hroute]
  show ((tree.canonical? p).getD p).key = ((tree.canonical? q).getD q).key
  rw [hcanonical]
  cases tree.canonical? q with
  | some path => rfl
  | none => exact hkey

end FileTree

end ByteJump
