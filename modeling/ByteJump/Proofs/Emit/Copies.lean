import ByteJump.Proofs.Emit.Labels

set_option autoImplicit false

/-!
# Copies of files in a trace

Each time the code of a file is placed a copy of it is emitted, in which every label of the file is
placed once.  Nothing of a file is emitted outside its copies, so behind the last one its labels
stay where they are.

A copy is a stretch of the log between the entering of a file and its leaving, together with what
is emitted in between.  The first half counts labels: in a copy, the labels of the file are placed
in the order of its text, and no others of its unit are, because files inside are of other units.
So each label is placed once in a copy, as labels of a file have different identities.  The second
half cuts the log of a program: either no event touches the file, or there is a copy of it behind
which none does. -/

namespace ByteJump

namespace Emit

open Assembly Memory

variable {G : Program → Prop} {depth : Nat} {scope : List Variable} {items : List Item}
  {s t : State} {log log' : List Event} {q : Program}

/-! ## Labels in one copy -/

theorem labels_stmt_cons {labels : List Label} {act : Action} {site : Location} :
    ((Item.stmt (.mk labels act site) :: items).flatMap Item.subs).flatMap Stmt.labels =
      labels ++ (act.subs.flatMap Stmt.labels ++ (items.flatMap Item.subs).flatMap Stmt.labels) := by
  rw [List.flatMap_cons, Item.subs, Stmt.subs, List.cons_append, List.flatMap_cons,
    List.flatMap_append]
  rfl

/-- The labels that are placed at an event. -/
def Event.labels (e : Event) : List Label :=
  match e.moment with
  | .starts _ st => st.labels
  | .ends _ | .enters _ | .leaves _ | .reaches _ => []

/-- An event places the labels it lists. -/
theorem Event.places_iff {e : Event} {l : Label} : e.Places l ↔ l ∈ e.labels := by
  obtain ⟨moment, depth, state⟩ := e
  cases moment <;> simp [Event.Places, Event.labels]

/-- Code between statements places points and no labels. -/
theorem Glue.labels (code : Glue) (depth : Nat) (s : State) :
    (code.events depth s).flatMap Event.labels = [] := by
  cases code <;> rfl

/-- The labels among some that belong to a unit. -/
def labelsOf (unit : FileUnit) (labels : List Label) : List Label :=
  labels.filter fun l => l.id.unit = unit

/-- Labels of a unit are picked one by one. -/
theorem labelsOf_append (unit : FileUnit) (labels labels' : List Label) :
    labelsOf unit (labels ++ labels') = labelsOf unit labels ++ labelsOf unit labels' :=
  List.filter_append ..

/-- All labels are of the unit. -/
theorem labelsOf_eq {unit : FileUnit} {labels : List Label} (h : ∀ l ∈ labels, l.id.unit = unit) :
    labelsOf unit labels = labels :=
  List.filter_eq_self.mpr fun l hl => decide_eq_true (h l hl)

theorem labelsOf_nil {unit : FileUnit} {labels : List Label} (h : ∀ l ∈ labels, l.id.unit ≠ unit) :
    labelsOf unit labels = [] :=
  List.filter_eq_nil_iff.mpr fun l hl => by simpa using h l hl

/-- While a file is emitted, labels of its own are placed and labels of smaller files. -/
theorem Rooted.labels_outside {unit : FileUnit} {p : Program} (hG : Library G)
    (h : Rooted G unit p) (htrace : Trace depth scope (p.statements.map .stmt) s log t) :
    ∀ l ∈ log.flatMap Event.labels, l.id.unit = unit ∨
      ∃ r, G r ∧ sizeOf r < sizeOf p ∧ l.id.unit = .library r.file.key := by
  intro l hl
  obtain ⟨e, he, hl⟩ := List.mem_flatMap.mp hl
  obtain ⟨around, st, hmoment, hl⟩ := Event.places_iff.mpr hl
  rcases htrace.source hG h.hosts ⟨e, he, around, hmoment⟩ with hst | ⟨r, -, ⟨hr, hsize⟩, hst⟩
  · rw [flatMap_subs_map] at hst
    exact Or.inl (h.named.labels l (mem_ownLabels hst hl))
  · exact Or.inr ⟨r, hr, hsize, (hG.named r hr).labels l (mem_ownLabels hst hl)⟩

/-- A statement of a unit: its labels belong to the unit, and the file it places is a smaller one of
other units. -/
structure OfUnit (G : Program → Prop) (unit : FileUnit) (st : Stmt) : Prop where
  labels : ∀ l ∈ st.labels, l.id.unit = unit
  files : ∀ file, st.action = .place file → G file ∧
    ∀ r, G r → sizeOf r ≤ sizeOf file → FileUnit.library r.file.key ≠ unit

theorem Rooted.ofUnit {unit : FileUnit} {p : Program} (h : Rooted G unit p) :
    ∀ st ∈ (p.statements.map Item.stmt).flatMap Item.subs, OfUnit G unit st := by
  intro st hst
  have hhosts := h.hosts st hst
  rw [flatMap_subs_map] at hst
  refine ⟨fun l hl => h.named.labels l (mem_ownLabels hst hl), fun file hplace => ?_⟩
  obtain ⟨hfile, hsize⟩ := hhosts file hplace
  exact ⟨hfile, fun r hr hle => h.outside r hr (Nat.lt_of_le_of_lt hle hsize)⟩

/-- The labels of a statement that starts, those placed inside it and those placed behind it. -/
theorem labelsOf_starts {unit : FileUnit} {st : Stmt} {e : Event} (inner rest : List Event)
    (hmoment : e.moment = .starts scope st) (hown : ∀ l ∈ st.labels, l.id.unit = unit) :
    labelsOf unit ((e :: (inner ++ rest)).flatMap Event.labels) =
      st.labels ++ (labelsOf unit (inner.flatMap Event.labels) ++
        labelsOf unit (rest.flatMap Event.labels)) := by
  have he : e.labels = st.labels := by
    rw [Event.labels, hmoment]
  rw [List.flatMap_cons, List.flatMap_append, labelsOf_append, labelsOf_append, he,
    labelsOf_eq hown]

/-- The labels of the unit that items belong to are placed in the order of the text. -/
theorem Trace.labels_of_unit (hG : Library G) {unit : FileUnit}
    (h : Trace depth scope items s log t) :
    (∀ st ∈ items.flatMap Item.subs, OfUnit G unit st) →
      labelsOf unit (log.flatMap Event.labels) =
        (items.flatMap Item.subs).flatMap Stmt.labels := by
  induction h with
  | done => exact fun _ => rfl
  | @glue depth _ code _ s _ _ _ _ _ ih =>
      intro hunit
      rw [List.flatMap_append, code.labels]
      exact ih hunit
  | @simple depth scope labels act site items s t u log hsimple _ _ ih =>
      intro hunit
      have hown := (hunit _ (mem_subs_cons.mpr (Or.inl rfl))).labels
      have hrest := ih fun st hst => hunit st (mem_subs_cons.mpr (Or.inr (Or.inr hst)))
      rw [labels_stmt_cons, (subs_of_simple hsimple).1, ← hrest]
      exact labelsOf_starts [] _ rfl hown
  | @compound depth scope labels act site inner items s t u log log' hparts _ _ ih ih' =>
      intro hunit
      have hown := (hunit _ (mem_subs_cons.mpr (Or.inl rfl))).labels
      rw [parts_subs hparts] at ih
      have hinner := ih fun st hst => hunit st (mem_subs_cons.mpr (Or.inr (Or.inl hst)))
      have hrest := ih' fun st hst => hunit st (mem_subs_cons.mpr (Or.inr (Or.inr hst)))
      rw [labels_stmt_cons, ← hinner, ← hrest]
      exact labelsOf_starts log _ rfl hown
  | @block depth scope labels body site items s t u log log' _ _ ih ih' =>
      intro hunit
      have hown := (hunit _ (mem_subs_cons.mpr (Or.inl rfl))).labels
      rw [flatMap_subs_map] at ih
      have hinner := ih fun st hst => hunit st (mem_subs_cons.mpr (Or.inr (Or.inl hst)))
      have hrest := ih' fun st hst => hunit st (mem_subs_cons.mpr (Or.inr (Or.inr hst)))
      rw [labels_stmt_cons, Action.subs, ← hinner, ← hrest]
      exact labelsOf_starts log _ rfl hown
  | @skip depth scope labels file site items s u log _ _ ih =>
      intro hunit
      have hown := (hunit _ (mem_subs_cons.mpr (Or.inl rfl))).labels
      have hrest := ih fun st hst => hunit st (mem_subs_cons.mpr (Or.inr (Or.inr hst)))
      rw [labels_stmt_cons, Action.subs, ← hrest]
      exact labelsOf_starts [] _ rfl hown
  | @file depth scope labels file site items s t u w log log' _ _ hinner _ _ ih' =>
      intro hunit
      have hstmt := hunit _ (mem_subs_cons.mpr (Or.inl rfl))
      obtain ⟨hfile, hothers⟩ := hstmt.files file rfl
      -- an imported file places labels of other units only
      have hnone : labelsOf unit (log.flatMap Event.labels) = [] := by
        refine labelsOf_nil fun l hl heq => ?_
        rcases (hG.rooted hfile).labels_outside hG hinner l hl with hl | ⟨r, hr, hsize, hl⟩
        · exact hothers file hfile (Nat.le_refl _) (hl.symm.trans heq)
        · exact hothers r hr (Nat.le_of_lt hsize) (hl.symm.trans heq)
      have hrest := ih' fun st hst => hunit st (mem_subs_cons.mpr (Or.inr (Or.inr hst)))
      rw [labels_stmt_cons, Action.subs, ← hrest]
      refine (labelsOf_starts (⟨.enters file, depth, s.labelAll labels⟩ :: log) _ rfl
        hstmt.labels).trans ?_
      show labels ++ (labelsOf unit (log.flatMap Event.labels) ++ _) = _
      rw [hnone]
      rfl

/-- Each label of a file is placed once while the file is emitted. -/
theorem Rooted.places_once {unit : FileUnit} {p : Program} (hG : Library G)
    (h : Rooted G unit p) (htrace : Trace depth scope (p.statements.map .stmt) s log t) {l : Label}
    (hl : l ∈ p.ownLabels) {x y : Event} (hx : x ∈ log) (hy : y ∈ log) (hplaces : x.Places l)
    (hplaces' : y.Places l) : x = y := by
  have hlabels := htrace.labels_of_unit hG h.ofUnit
  rw [flatMap_subs_map, ← Stmt.listLabels_eq] at hlabels
  have hnodup : (log.flatMap fun e => labelsOf unit e.labels).Nodup := by
    have hown : p.ownLabels.Nodup := List.Nodup.of_map _ h.named.nodupLabels
    rw [Program.ownLabels, ← hlabels, labelsOf, List.filter_flatMap] at hown
    exact hown
  have hmem : ∀ e : Event, e.Places l → l ∈ labelsOf unit e.labels := fun e he =>
    List.mem_filter.mpr ⟨Event.places_iff.mp he, decide_eq_true (h.named.labels l hl)⟩
  by_contra hne
  have hsymm : Std.Symm (Function.onFun List.Disjoint fun e : Event => labelsOf unit e.labels) :=
    ⟨fun _ _ h _ hl hl' => h hl' hl⟩
  exact (List.nodup_flatMap.mp hnodup).2.forall hx hy hne (hmem x hplaces) (hmem y hplaces')

/-! ## Copies -/

/-- A copy of a file somewhere among events: the file is entered, its statements are emitted from the
state `start` to the state `last`, and it is left. -/
structure Copy (log : List Event) (q : Program) where
  before : List Event
  first : Event
  start : State
  inner : List Event
  last : State
  later : List Event
  log_eq : log = before ++ first :: (inner ++ ⟨.leaves q, first.depth, last⟩ :: later)
  enters : first.moment = .enters q
  trace : Trace first.depth [] (q.statements.map .stmt) start inner last

namespace Copy

/-- More events in front of a copy. -/
def after (front : List Event) (c : Copy log q) : Copy (front ++ log) q where
  before := front ++ c.before
  first := c.first
  start := c.start
  inner := c.inner
  last := c.last
  later := c.later
  log_eq := by simp [c.log_eq]
  enters := c.enters
  trace := c.trace

/-- More events behind a copy. -/
def andThen (behind : List Event) (c : Copy log q) : Copy (log ++ behind) q where
  before := c.before
  first := c.first
  start := c.start
  inner := c.inner
  last := c.last
  later := c.later ++ behind
  log_eq := by simp [c.log_eq]
  enters := c.enters
  trace := c.trace

/-- What happens in a copy happens in the course of the whole. -/
theorem inner_subset (c : Copy log q) : c.inner ⊆ log := by
  intro x hx
  rw [c.log_eq]
  simp [hx]

/-- A copy starts with the first statement of the file. -/
theorem starts_first (c : Copy log q) {st : Stmt} {rest : List Stmt}
    (h : q.statements = st :: rest) : ⟨.starts [] st, c.first.depth, c.start⟩ ∈ c.inner := by
  have htrace := c.trace
  rw [h, List.map_cons] at htrace
  obtain ⟨later, hlater⟩ := htrace.begins
  exact hlater ▸ List.mem_cons_self

end Copy

/-- An import that is not skipped emits a copy. -/
theorem Trace.copy {labels : List Label} {site : Location}
    (h : Trace depth scope (.stmt (.mk labels (.place q) site) :: items) s log t)
    (hskip : s.skips q = false) :
    ∃ c : Copy log q, alignTo q.pragmas.align ((s.labelAll labels).reach q) = .ok ⟨⟩ c.start := by
  cases h with
  | simple hsimple _ _ => cases hsimple
  | compound hparts _ _ => cases hparts
  | skip hskip' _ =>
      rw [hskip] at hskip'
      cases hskip'
  | file _ halign htrace _ => exact ⟨⟨[_], _, _, _, _, _, rfl, rfl, htrace⟩, halign⟩

/-- The file is entered at the event, or one of its labels is placed there. -/
def Event.Touches (e : Event) (q : Program) : Prop :=
  e.moment = .enters q ∨ ∃ l ∈ q.ownLabels, e.Places l

/-- Nothing of a file happens at the events, or what happens last is in a copy. -/
def InCopies (q : Program) (log : List Event) : Prop :=
  (∀ e ∈ log, ¬ e.Touches q) ∨ ∃ c : Copy log q, ∀ e ∈ c.later, ¬ e.Touches q

/-- The last event that touches the file is in the second part, or nothing there touches it. -/
theorem InCopies.append (h : InCopies q log) (h' : InCopies q log') : InCopies q (log ++ log') := by
  rcases h' with hnone' | ⟨c, hlater⟩
  · rcases h with hnone | ⟨c, hlater⟩
    · exact Or.inl (List.forall_mem_append.mpr ⟨hnone, hnone'⟩)
    · exact Or.inr ⟨c.andThen log', List.forall_mem_append.mpr ⟨hlater, hnone'⟩⟩
  · exact Or.inr ⟨c.after log, hlater⟩

/-- An event that does not touch the file changes nothing. -/
theorem InCopies.cons {e : Event} (he : ¬ e.Touches q) (h : InCopies q log) :
    InCopies q (e :: log) := by
  have hone : InCopies q [e] := Or.inl fun x hx => by rwa [List.mem_singleton.mp hx]
  exact hone.append h

/-- What starts is no statement of the file. -/
theorem not_touches_starts {st : Stmt} {e : Event} (hmoment : e.moment = .starts scope st)
    (h : ∀ l ∈ st.labels, l ∉ q.ownLabels) : ¬ e.Touches q := by
  rintro (henters | ⟨l, hl, hplaces⟩)
  · rw [hmoment] at henters
    cases henters
  · rw [Event.places_iff, Event.labels, hmoment] at hplaces
    exact h l hplaces hl

/-- Only where a statement starts labels are placed. -/
theorem not_touches_of_labels {e : Event} (hlabels : e.labels = [])
    (hmoment : e.moment ≠ .enters q) : ¬ e.Touches q := by
  rintro (henters | ⟨l, hl, hplaces⟩)
  · exact hmoment henters
  · rw [Event.places_iff, hlabels] at hplaces
    cases hplaces

/-- The end of a statement places nothing. -/
theorem not_touches_ends {st : Stmt} {depth : Nat} {u : State} :
    ¬ (⟨.ends st, depth, u⟩ : Event).Touches q :=
  not_touches_of_labels rfl (by simp)

/-- A statement with none of the labels of a file. -/
structure Apart (G : Program → Prop) (q : Program) (st : Stmt) : Prop where
  labels : ∀ l ∈ st.labels, l ∉ q.ownLabels
  files : ∀ file, st.action = .place file → G file

/-- Nothing of a file happens outside its copies, among items with none of its labels. -/
theorem Trace.inCopies (hG : Library G) (hq : G q) (h : Trace depth scope items s log t) :
    (∀ st ∈ items.flatMap Item.subs, Apart G q st) → InCopies q log := by
  induction h with
  | done => exact fun _ => Or.inl (by simp)
  | @glue depth _ code _ s _ _ _ _ _ ih =>
      intro hapart
      refine InCopies.append (Or.inl fun e he => ?_) (ih hapart)
      cases code <;> simp only [Glue.events, List.mem_singleton, List.not_mem_nil] at he
      rw [he]
      exact not_touches_of_labels rfl (by simp)
  | simple _ _ _ ih =>
      intro hapart
      have hfirst := hapart _ (mem_subs_cons.mpr (Or.inl rfl))
      refine .cons (not_touches_starts rfl hfirst.labels) (.cons ?_ (ih fun st hst => ?_))
      · exact not_touches_ends
      · exact hapart st (mem_subs_cons.mpr (Or.inr (Or.inr hst)))
  | compound hparts _ _ ih ih' =>
      intro hapart
      have hfirst := hapart _ (mem_subs_cons.mpr (Or.inl rfl))
      rw [parts_subs hparts] at ih
      have hinner := ih fun st hst => hapart st (mem_subs_cons.mpr (Or.inr (Or.inl hst)))
      have hrest := ih' fun st hst => hapart st (mem_subs_cons.mpr (Or.inr (Or.inr hst)))
      refine .cons (not_touches_starts rfl hfirst.labels) (hinner.append (.cons ?_ hrest))
      exact not_touches_ends
  | block _ _ ih ih' =>
      intro hapart
      have hfirst := hapart _ (mem_subs_cons.mpr (Or.inl rfl))
      rw [flatMap_subs_map] at ih
      have hinner := ih fun st hst => hapart st (mem_subs_cons.mpr (Or.inr (Or.inl hst)))
      have hrest := ih' fun st hst => hapart st (mem_subs_cons.mpr (Or.inr (Or.inr hst)))
      refine .cons (not_touches_starts rfl hfirst.labels) (hinner.append (.cons ?_ hrest))
      exact not_touches_ends
  | skip _ _ ih =>
      intro hapart
      have hfirst := hapart _ (mem_subs_cons.mpr (Or.inl rfl))
      refine .cons (not_touches_starts rfl hfirst.labels) (.cons ?_ (ih fun st hst => ?_))
      · exact not_touches_ends
      · exact hapart st (mem_subs_cons.mpr (Or.inr (Or.inr hst)))
  | @file depth scope labels file site items s t u w log log' _ _ htrace _ ih ih' =>
      intro hapart
      have hfirst := hapart _ (mem_subs_cons.mpr (Or.inl rfl))
      have hfile := hfirst.files file rfl
      have hrest := ih' fun st hst => hapart st (mem_subs_cons.mpr (Or.inr (Or.inr hst)))
      have hends : InCopies q (⟨.ends (.mk labels (.place file) site), depth, u⟩ :: log') :=
        .cons not_touches_ends hrest
      refine .cons (not_touches_starts rfl hfirst.labels) ?_
      by_cases hkey : file.file.key = q.file.key
      · -- this is a copy of the file, and the last one unless there is one behind it
        obtain rfl := hG.unique file q hfile hq hkey
        rcases hends with hnone | ⟨c, hlater⟩
        · exact Or.inr ⟨⟨[], _, t, log, u, _, rfl, rfl, htrace⟩, hnone⟩
        · have hlog : (⟨.enters file, depth, s.labelAll labels⟩ :: (log ++
              ⟨.leaves file, depth, u⟩ :: ⟨.ends (.mk labels (.place file) site), depth, u⟩ ::
                log')) = (⟨.enters file, depth, s.labelAll labels⟩ :: (log ++
              [⟨.leaves file, depth, u⟩])) ++
                (⟨.ends (.mk labels (.place file) site), depth, u⟩ :: log') := by simp
          rw [hlog]
          exact Or.inr ⟨c.after _, hlater⟩
      · -- another file: its labels are its own, and copies inside it count as well
        have hinner : InCopies q log := ih fun st hst => by
          rw [flatMap_subs_map] at hst
          refine ⟨fun l hl hown => hkey ?_, fun other hplace => ?_⟩
          · have hunit := (hG.named file hfile).labels l (mem_ownLabels hst hl)
            rw [(hG.named q hq).labels l hown] at hunit
            exact (FileUnit.library.inj hunit).symm
          · exact hG.closed file hfile other (mem_files hst hplace)
        refine .cons (not_touches_of_labels rfl fun henters => ?_) (hinner.append (.cons ?_ hends))
        · cases henters
          exact hkey rfl
        · exact not_touches_of_labels rfl (by simp)

/-- A file that is entered has a last copy. -/
theorem Emission.lastCopy {turn : Nat} {p : Program} {b : Bindings} {artifact : Artifact}
    (hG : Library G) (hrooted : Rooted G (.main turn) p) (h : Emission p b log t artifact)
    (henters : Enters log q) : ∃ c : Copy log q, ∀ e ∈ c.later, ¬ e.Touches q := by
  have hq := (h.trace.enters_below hG hrooted.hosts q henters).1
  have hcopies := h.trace.inCopies hG hq fun st hst => by
    rw [flatMap_subs_map] at hst
    refine ⟨fun l hl hown => ?_, fun other hplace => hrooted.files other (mem_files hst hplace)⟩
    have hunit := hrooted.named.labels l (mem_ownLabels hst hl)
    rw [(hG.named q hq).labels l hown] at hunit
    cases hunit
  rcases hcopies with hnone | hcopy
  · obtain ⟨e, he, hmoment⟩ := henters
    exact absurd (Or.inl hmoment) (hnone e he)
  · exact hcopy

end Emit

end ByteJump
