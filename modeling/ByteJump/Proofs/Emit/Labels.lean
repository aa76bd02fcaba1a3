import ByteJump.Proofs.Emit.Emission
import Mathlib.Logic.Relation

set_option autoImplicit false

/-!
# Labels in a trace

All statements of a program and of the files it includes are emitted, and their labels are placed
where they start.  A label keeps the address of the last emission of its statement.

An address is a look-up in what the events have bound, and the newest binding comes first.  So the
address of a label is the position of the last event that places it; the section on first and last
events provides the words for this.  Then it is shown that there is such an event for each label
of each file that the program includes: every file is entered, and every statement of a file that
is entered starts.
-/

namespace ByteJump

/-- A file is part of a program: it is the program itself, or a part of the program imports it. -/
def Program.Includes (p q : Program) : Prop :=
  Relation.ReflTransGen (fun p q => q ∈ p.files) p q

namespace Emit

open Assembly Memory

/-! ## First and last events -/

/-- An event has a property, and none behind it has. -/
def Last (P : Event → Prop) (log : List Event) (e : Event) : Prop :=
  ∃ before behind, log = before ++ e :: behind ∧ P e ∧ ∀ x ∈ behind, ¬ P x

/-- An event has a property, and none in front of it has. -/
def First (P : Event → Prop) (log : List Event) (e : Event) : Prop :=
  ∃ before behind, log = before ++ e :: behind ∧ P e ∧ ∀ x ∈ before, ¬ P x

section Ends

variable {P : Event → Prop} {log : List Event} {e : Event}

/-- The last event is one of them. -/
theorem Last.mem (h : Last P log e) : e ∈ log := by
  obtain ⟨before, behind, rfl, -⟩ := h
  simp

/-- The last event has the property. -/
theorem Last.holds (h : Last P log e) : P e := by
  obtain ⟨before, behind, -, he, -⟩ := h
  exact he

/-- If some event has a property, there is a last one. -/
theorem exists_last (h : ∃ e ∈ log, P e) : ∃ e, Last P log e := by
  induction log with
  | nil =>
      obtain ⟨e, he, -⟩ := h
      cases he
  | cons x log ih =>
      by_cases hrest : ∃ e ∈ log, P e
      · obtain ⟨e, before, behind, rfl, he, hbehind⟩ := ih hrest
        exact ⟨e, x :: before, behind, rfl, he, hbehind⟩
      · obtain ⟨e, he, hholds⟩ := h
        rcases List.mem_cons.mp he with rfl | he
        · exact ⟨e, [], log, rfl, hholds, fun y hy hother => hrest ⟨y, hy, hother⟩⟩
        · exact absurd ⟨e, he, hholds⟩ hrest

theorem last_congr {Q : Event → Prop} (h : Last P log e) (hPQ : ∀ x ∈ log, P x ↔ Q x) :
    Last Q log e := by
  obtain ⟨before, behind, rfl, he, hbehind⟩ := h
  refine ⟨before, behind, rfl, (hPQ e (by simp)).mp he, fun x hx hother => ?_⟩
  exact hbehind x hx ((hPQ x (by simp [hx])).mpr hother)

end Ends

/-! ## Addresses -/

section Lookup

variable {κ : Type} [BEq κ] [LawfulBEq κ] {entries : Event → List (κ × Nat)} {log : List Event}
  {old : List (κ × Nat)} {key : κ} {e : Event}

/-- All entries in front have the same value. -/
theorem lookup_of_values {front : List (κ × Nat)} {value : Nat} (hvalue : ∀ x ∈ front, x.2 = value)
    (hkey : ∃ x ∈ front, x.1 = key) : (front ++ old).lookup key = some value := by
  induction front with
  | nil =>
      obtain ⟨x, hx, -⟩ := hkey
      cases hx
  | cons x front ih =>
      obtain ⟨other, value'⟩ := x
      obtain rfl : value' = value := hvalue _ List.mem_cons_self
      rw [List.cons_append, List.lookup_cons]
      by_cases hother : key = other
      · rw [hother, beq_self_eq_true]
      · rw [beq_false_of_ne hother]
        refine ih (fun y hy => hvalue y (List.mem_cons_of_mem _ hy)) ?_
        obtain ⟨y, hy, hkey⟩ := hkey
        rcases List.mem_cons.mp hy with rfl | hy
        · exact absurd hkey.symm hother
        · exact ⟨y, hy, hkey⟩

/-- The entries of all events, the newest first: a key has the value of the last event that has an
entry for it. -/
theorem lookup_last (hvalue : ∀ e, ∀ x ∈ entries e, x.2 = e.state.position)
    (h : Last (fun e => ∃ x ∈ entries e, x.1 = key) log e) :
    ((log.flatMap entries).reverse ++ old).lookup key = some e.state.position := by
  obtain ⟨before, behind, rfl, ⟨x, hx, hkey⟩, hbehind⟩ := h
  rw [List.flatMap_append, List.flatMap_cons, List.reverse_append, List.reverse_append,
    List.append_assoc, List.append_assoc, lookup_append_of_ne, lookup_of_values]
  · exact fun y hy => hvalue e y (List.mem_reverse.mp hy)
  · exact ⟨x, List.mem_reverse.mpr hx, hkey⟩
  · intro y hy heq
    obtain ⟨e', he', hy⟩ := List.mem_flatMap.mp (List.mem_reverse.mp hy)
    exact hbehind e' he' ⟨y, hy, heq⟩

/-- A key that has a value has an entry. -/
theorem exists_of_lookup {value : Nat} (h : (log.flatMap entries).reverse.lookup key = some value) :
    ∃ e ∈ log, ∃ x ∈ entries e, x.1 = key := by
  obtain ⟨front, rest, hlist, -⟩ := List.lookup_eq_some_iff.mp h
  have hmem : (key, value) ∈ (log.flatMap entries).reverse := by simp [hlist]
  obtain ⟨e, he, hx⟩ := List.mem_flatMap.mp (List.mem_reverse.mp hmem)
  exact ⟨e, he, _, hx, rfl⟩

end Lookup

/-- A statement that carries the label starts at the event. -/
def Event.Places (e : Event) (l : Label) : Prop :=
  ∃ scope st, e.moment = .starts scope st ∧ l ∈ st.labels

/-- A point is placed at the event. -/
def Event.Reaches (e : Event) (serial : Nat) : Prop := e.moment = .reaches serial

/-- What an event binds is bound to the position of its state. -/
theorem Event.addresses_value (e : Event) : ∀ x ∈ e.addresses, x.2 = e.state.position := by
  intro x hx
  unfold Event.addresses at hx
  split at hx
  · obtain ⟨l, -, rfl⟩ := List.mem_map.mp hx
    rfl
  all_goals cases hx

/-- A point is placed at the position of the state. -/
theorem Event.points_value (e : Event) : ∀ x ∈ e.points, x.2 = e.state.position := by
  intro x hx
  unfold Event.points at hx
  split at hx
  · rw [List.mem_singleton.mp hx]
  all_goals cases hx

theorem Event.mem_addresses {e : Event} {id : DeclId} :
    (∃ x ∈ e.addresses, x.1 = id) ↔
      ∃ scope st l, e.moment = .starts scope st ∧ l ∈ st.labels ∧ l.id = id := by
  obtain ⟨moment, depth, state⟩ := e
  cases moment <;> simp [Event.addresses]

theorem Event.mem_points {e : Event} {serial : Nat} :
    (∃ x ∈ e.points, x.1 = serial) ↔ e.Reaches serial := by
  obtain ⟨moment, depth, state⟩ := e
  cases moment <;> simp [Event.points, Event.Reaches]

/-! ## Parts of a program

A file that is skipped was entered before.  So by induction on the log every file that is imported
by an emitted one is emitted. -/

section Parts

variable {G : Program → Prop} {turn : Nat} {p q : Program} {b : Bindings} {log : List Event}
  {t : State} {artifact : Artifact}

/-- The code of a file is part of what was emitted. -/
def Emitted (p : Program) (log : List Event) (q : Program) : Prop := q = p ∨ Enters log q

/-- All statements of a file start while it is emitted. -/
theorem Emission.starts (h : Emission p b log t artifact) (hq : Emitted p log q) :
    ∀ st ∈ Stmt.listSubs q.statements, Starts log st := by
  intro st hst
  rw [← flatMap_subs_map] at hst
  rcases hq with rfl | ⟨e, he, henters⟩
  · exact h.trace.starts st hst
  · obtain ⟨before, behind, rfl⟩ := List.append_of_mem he
    obtain ⟨start, inner, u, later, rfl, -, htrace⟩ := h.trace.copied _ _ _ q rfl henters
    exact (htrace.starts st hst).mono fun x hx => by simp [hx]

/-- A file that is placed already when it is imported was entered before. -/
theorem Emission.entered_of_skips (hG : Library G) (hrooted : Rooted G (.main turn) p)
    (h : Emission p b log t artifact) {e : Event} (he : e ∈ log) (hq : G q)
    (hskips : e.state.skips q = true) : Enters log q := by
  obtain ⟨before, behind, rfl⟩ := List.append_of_mem he
  have hplaced := ((h.passes.upTo before e behind rfl)).placed
  have hkey : q.file.key ∈ e.state.placed := by
    unfold State.skips at hskips
    rw [Bool.and_eq_true] at hskips
    exact List.contains_iff_mem.mp hskips.2
  have hmem : q.file.key ∈ before.flatMap Event.placed := by
    simpa [hplaced, State.start] using hkey
  obtain ⟨e', he', hkey'⟩ := List.mem_flatMap.mp hmem
  unfold Event.placed at hkey'
  split at hkey'
  · rename_i other hmoment
    split at hkey'
    · cases hkey'
    · have henters : Enters (before ++ e :: behind) other := ⟨e', by simp [he'], hmoment⟩
      have hother := (h.trace.enters_below hG hrooted.hosts other henters).1
      rwa [hG.unique q other hq hother (List.mem_singleton.mp hkey')]
  all_goals cases hkey'

/-- A file that an emitted file imports is emitted. -/
theorem Emission.imported (hG : Library G) (hrooted : Rooted G (.main turn) p)
    (h : Emission p b log t artifact) (hq : Emitted p log q) {file : Program}
    (hfile : file ∈ q.files) : Emitted p log file := by
  have hGfile : G file := by
    rcases hq with rfl | henters
    · exact hrooted.files file hfile
    · exact hG.closed q (h.trace.enters_below hG hrooted.hosts q henters).1 file hfile
  rw [Program.files, Stmt.listFiles_eq] at hfile
  obtain ⟨st, hst, hplace⟩ := List.mem_flatMap.mp hfile
  have hplace : st.action = .place file := by
    cases haction : st.action with
    | place other =>
        rw [haction] at hplace
        rw [List.mem_singleton.mp hplace]
    | nothing | evaluate _ | goto _ | define _ _ | reserve _ | assign _ _ | block _
    | branch _ _ _ | loop _ _ _ | words _ =>
        rw [haction] at hplace
        cases hplace
  obtain ⟨e, he, scope, hmoment⟩ := h.starts hq st hst
  rcases h.trace.skips_or_enters he hmoment hplace with hskips | henters
  · exact Or.inr (h.entered_of_skips hG hrooted he hGfile hskips)
  · exact Or.inr henters

/-- All parts of a program are emitted. -/
theorem Emission.includes (hG : Library G) (hrooted : Rooted G (.main turn) p)
    (h : Emission p b log t artifact) (hq : p.Includes q) : Emitted p log q := by
  induction hq with
  | refl => exact Or.inl rfl
  | tail _ hfile ih => exact h.imported hG hrooted ih hfile

/-- A statement that starts is one of the program or of a file that the program includes. -/
theorem Emission.includes_of_starts (h : Emission p b log t artifact) {st : Stmt}
    (hst : Starts log st) : ∃ q, p.Includes q ∧ st ∈ Stmt.listSubs q.statements := by
  obtain ⟨around, hst⟩ := hst.startsIn
  rcases h.trace.origin around st hst with hmem | ⟨q, henters, hmem⟩
  · refine ⟨p, .refl, ?_⟩
    rw [Item.places_map] at hmem
    rw [← Stmt.snd_listPlaces p.statements []]
    exact List.mem_map_of_mem hmem
  · refine ⟨q, h.trace.enters_of (fun file hfile other hother => hfile.tail hother) ?_ q henters, ?_⟩
    · intro st hst file hplace
      rw [flatMap_subs_map] at hst
      exact .single (mem_files hst hplace)
    · rw [← Stmt.snd_listPlaces q.statements []]
      exact List.mem_map_of_mem hmem

/-- A label with the identity of one of an emitted file is that label. -/
theorem Emission.label_eq (hG : Library G) (hrooted : Rooted G (.main turn) p)
    (h : Emission p b log t artifact) (hq : Emitted p log q) {l l' : Label} {st : Stmt}
    (hl : l ∈ q.ownLabels) (hst : Starts log st) (hl' : l' ∈ st.labels) (hid : l'.id = l.id) :
    st ∈ Stmt.listSubs q.statements ∧ l' = l := by
  rcases hq with rfl | henters
  · exact hrooted.own_label hG h.trace hst hl hl' hid
  · have hGq := (h.trace.enters_below hG hrooted.hosts q henters).1
    have hunit := (hG.named q hGq).labels l hl
    rcases h.trace.source hG hrooted.hosts hst with hmem | ⟨other, -, ⟨hother, -⟩, hmem⟩
    · rw [flatMap_subs_map] at hmem
      have hmain := hrooted.named.labels l' (mem_ownLabels hmem hl')
      rw [hid, hunit] at hmain
      cases hmain
    · have hunit' := (hG.named other hother).labels l' (mem_ownLabels hmem hl')
      rw [hid, hunit] at hunit'
      obtain rfl := hG.unique q other hGq hother (FileUnit.library.inj hunit')
      exact ⟨hmem, (hG.rooted hother).label_eq hl (mem_ownLabels hmem hl') hid⟩

/-- A label of an emitted file has the address at which it was placed last. -/
theorem Emission.address_last (hG : Library G) (hrooted : Rooted G (.main turn) p)
    (h : Emission p b log t artifact) (hq : Emitted p log q) {l : Label} (hl : l ∈ q.ownLabels)
    {e : Event} (hlast : Last (fun e => e.Places l) log e) :
    t.bindings.address? l = some e.state.position := by
  have hsame : ∀ x ∈ log, x.Places l ↔ ∃ y ∈ x.addresses, y.1 = l.id := by
    intro x hx
    rw [Event.mem_addresses]
    constructor
    · rintro ⟨scope, st, hmoment, hmem⟩
      exact ⟨scope, st, l, hmoment, hmem, rfl⟩
    · rintro ⟨scope, st, l', hmoment, hl', hid⟩
      obtain ⟨-, rfl⟩ := h.label_eq hG hrooted hq hl ⟨x, hx, scope, hmoment⟩ hl' hid
      exact ⟨scope, st, hmoment, hl'⟩
  unfold Bindings.address?
  rw [h.passes.whole.addresses]
  exact lookup_last Event.addresses_value (last_congr hlast hsame)

/-- A label of an emitted file is placed, and has the address at which it was placed last. -/
theorem Emission.address (hG : Library G) (hrooted : Rooted G (.main turn) p)
    (h : Emission p b log t artifact) (hq : Emitted p log q) {l : Label} (hl : l ∈ q.ownLabels) :
    ∃ e, Last (fun e => e.Places l) log e ∧ t.bindings.address? l = some e.state.position := by
  have hlabels := hl
  rw [Program.ownLabels, Stmt.listLabels_eq] at hlabels
  obtain ⟨st, hst, hlabel⟩ := List.mem_flatMap.mp hlabels
  obtain ⟨first, hfirst, scope, hmoment⟩ := h.starts hq st hst
  obtain ⟨e, hlast⟩ := exists_last (P := fun e => e.Places l) ⟨first, hfirst, scope, st, hmoment,
    hlabel⟩
  exact ⟨e, hlast, h.address_last hG hrooted hq hl hlast⟩

end Parts

end Emit

end ByteJump
