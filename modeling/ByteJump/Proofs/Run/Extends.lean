import ByteJump.Proofs.Emit.Inside
import ByteJump.Proofs.Run.Growth

set_option autoImplicit false

/-!
# Code along a trace

Along a trace code only grows.  The points that are still to come have numbers that are in use, and
each is placed once; so where a point is placed it stays, and every state on the way is good.

A point is numbered when a statement begins and placed somewhere inside it.  Between the two the
rest of the trace still has to place it: `pending` lists such numbers of the items that are left,
and `Awaits` says that each of them is in use, not placed yet, and listed once.  This is the
invariant of the induction on traces.  From it `Trace.extends` derives that code grows from each
state of the trace to all later ones, so that what was shown of code at one state holds in the
image.
-/

namespace ByteJump

namespace Emit

open Assembly Memory Linked

/-! ## Points to come

Every step of a trace either takes a new number, places the first one that is pending, or leaves
both alone.  So there is one lemma for each of these. -/

/-- The points that items place themselves. -/
def pending : List Item → List Nat
  | [] => []
  | .glue (.place _ serial) :: items => serial :: pending items
  | .glue (.point _) :: items | .glue (.branch ..) :: items | .glue (.jump _) :: items
  | .stmt _ :: items => pending items

/-- Where there are so many points, items place only points that there are by then, each once. -/
def Numbered : Nat → List Item → Prop
  | _, [] => True
  | n, .glue (.point _) :: items => Numbered (n + 1) items
  | n, .glue (.place _ serial) :: items => serial ≤ n ∧ serial ∉ pending items ∧ Numbered n items
  | n, .glue (.branch ..) :: items | n, .glue (.jump _) :: items => Numbered n items
  | n, .stmt _ :: items => (∀ serial ∈ pending items, serial ≤ n) ∧ Numbered n items

/-- The points that items place are not placed yet. -/
structure Awaits (s : State) (items : List Item) : Prop where
  numbered : Numbered s.serial items
  unplaced : ∀ serial ∈ pending items, s.points.lookup serial = none

section Awaits

variable {s t : State} {items : List Item}

/-- Numbers in use stay in use. -/
theorem Numbered.mono : ∀ {items : List Item} {n m : Nat}, Numbered n items → n ≤ m →
    Numbered m items
  | [], _, _, _, _ => trivial
  | .glue (.point _) :: items, n, m, h, hle => by
      have hitems : Numbered (n + 1) items := h
      have hmono : Numbered (m + 1) items := hitems.mono (Nat.succ_le_succ hle)
      exact hmono
  | .glue (.place ..) :: _, _, _, ⟨hserial, hfresh, h⟩, hle =>
      ⟨Nat.le_trans hserial hle, hfresh, h.mono hle⟩
  | .glue (.branch ..) :: items, n, m, h, hle | .glue (.jump _) :: items, n, m, h, hle => by
      have hitems : Numbered n items := h
      have hmono : Numbered m items := hitems.mono hle
      exact hmono
  | .stmt _ :: _, _, _, ⟨hpending, h⟩, hle =>
      ⟨fun serial hserial => Nat.le_trans (hpending serial hserial) hle, h.mono hle⟩

theorem pending_map (body : List Stmt) : pending (body.map .stmt ++ items) = pending items := by
  induction body with
  | nil => rfl
  | cons _ body ih => exact ih

/-- Statements in front of items place none of the points of the items. -/
theorem numbered_map {n : Nat} (hpending : ∀ serial ∈ pending items, serial ≤ n)
    (h : Numbered n items) (body : List Stmt) : Numbered n (body.map .stmt ++ items) := by
  induction body with
  | nil => exact h
  | cons _ body ih =>
      refine ⟨fun serial hserial => hpending serial ?_, ih⟩
      rw [← pending_map body]
      exact hserial

/-- The points of a condition or a loop are new. -/
theorem pending_parts {n : Nat} {act : Action} {inner : List Item} (h : parts n act = some inner) :
    ∃ news, pending (inner ++ items) = news ++ pending items ∧ ∀ serial ∈ news, n < serial := by
  cases act with
  | branch condition taken otherwise =>
      cases otherwise <;> cases h
      · exact ⟨[n + 1, n + 2], rfl, by simp⟩
      · exact ⟨[n + 1, n + 3, n + 2], rfl, by simp⟩
  | loop condition body bodyFirst =>
      cases bodyFirst <;> cases h
      · exact ⟨[n + 1, n + 2, n + 3], rfl, by simp⟩
      · exact ⟨[n + 1, n + 2], rfl, by simp⟩
  | nothing | place _ | evaluate _ | goto _ | define _ _ | reserve _ | assign _ _ | block _
  | words _ => cases h

theorem numbered_parts {n : Nat} {act : Action} {inner : List Item} (h : parts n act = some inner)
    (hpending : ∀ serial ∈ pending items, serial ≤ n) (hitems : Numbered n items) :
    Numbered n (inner ++ items) := by
  have hnew : ∀ k, n < k → k ∉ pending items := fun k hk hmem => by
    have hle := hpending k hmem
    omega
  have hless : ∀ k, n ≤ k → ∀ serial ∈ pending items, serial ≤ k := fun k hk serial hserial =>
    Nat.le_trans (hpending serial hserial) hk
  cases act with
  | branch condition taken otherwise =>
      cases otherwise <;> cases h
      · have hitems' : Numbered (n + 1 + 1) items := hitems.mono (by omega)
        simpa [Numbered, pending, hnew, hitems'] using hless (n + 1 + 1) (by omega)
      · have hitems' : Numbered (n + 1 + 1 + 1) items := hitems.mono (by omega)
        simpa [Numbered, pending, hnew, hitems'] using hless (n + 1 + 1 + 1) (by omega)
  | loop condition body bodyFirst =>
      cases bodyFirst <;> cases h
      · have hitems' : Numbered (n + 1 + 1 + 1) items := hitems.mono (by omega)
        simpa [Numbered, pending, hnew, hitems'] using hless (n + 1 + 1 + 1) (by omega)
      · have hitems' : Numbered (n + 1 + 1) items := hitems.mono (by omega)
        simpa [Numbered, pending, hnew, hitems'] using hless (n + 1 + 1) (by omega)
  | nothing | place _ | evaluate _ | goto _ | define _ _ | reserve _ | assign _ _ | block _
  | words _ => cases h

theorem Awaits.of_eq (h : Awaits s items) (hpoints : t.points = s.points)
    (hserial : t.serial = s.serial) : Awaits t items :=
  ⟨hserial ▸ h.numbered, hpoints ▸ h.unplaced⟩

/-- Code that takes no numbers and places no points. -/
theorem Awaits.adds (h : Awaits s items) (hadds : Adds s t) : Awaits t items :=
  h.of_eq hadds.kept.points hadds.kept.serial

theorem Awaits.labelAll (h : Awaits s items) (labels : List Label) :
    Awaits (s.labelAll labels) items :=
  h.of_eq (labelAll_rest labels s).2.2.2 (s.serial_labelAll labels)

theorem Awaits.reach (h : Awaits s items) (file : Program) : Awaits (s.reach file) items := by
  unfold State.reach
  split
  · exact h
  · exact h.of_eq rfl rfl

/-- A new point is numbered and from now on pending. -/
theorem Awaits.point {role : String} (h : Awaits s (.glue (.point role) :: items)) :
    Awaits s.counted items := ⟨h.numbered, h.unplaced⟩

/-- The first pending point is placed. -/
theorem Awaits.place {role : String} {serial : Nat}
    (h : Awaits s (.glue (.place role serial) :: items)) : Awaits (s.pointed serial) items := by
  obtain ⟨-, hfresh, hnumbered⟩ := h.numbered
  refine ⟨hnumbered, fun other hother => ?_⟩
  have hne : other ≠ serial := fun heq => hfresh (heq ▸ hother)
  rw [lookup_pointed hne]
  exact h.unplaced other (List.mem_cons_of_mem _ hother)

/-- Behind a statement the same points are to come. -/
theorem Awaits.behind {st : Stmt} (h : Awaits s (.stmt st :: items)) : Awaits s items :=
  ⟨h.numbered.2, h.unplaced⟩

/-- The parts of a statement have points of their own, numbered behind all others. -/
theorem Awaits.inside {st : Stmt} {act : Action} {inner : List Item}
    (h : Awaits s (.stmt st :: items)) (hgood : Good s) (hparts : parts s.serial act = some inner) :
    Awaits s (inner ++ items) := by
  obtain ⟨hpending, hnumbered⟩ := h.numbered
  obtain ⟨news, hnews, hless⟩ : ∃ news, pending (inner ++ items) = news ++ pending items ∧
      ∀ serial ∈ news, s.serial < serial := pending_parts hparts
  refine ⟨numbered_parts hparts hpending hnumbered, fun serial hserial => ?_⟩
  rw [hnews] at hserial
  rcases List.mem_append.mp hserial with hnew | hold
  · exact hgood.lookup_none (hless serial hnew)
  · exact h.unplaced serial hold

theorem Awaits.body {st : Stmt} (h : Awaits s (.stmt st :: items)) (body : List Stmt) :
    Awaits s (body.map .stmt ++ items) := by
  refine ⟨numbered_map h.numbered.1 h.numbered.2 body, ?_⟩
  rw [pending_map]
  exact h.unplaced

end Awaits

/-! ## Simple statements

A simple statement has no point of its own.  Its code grows by itself, whatever is pending. -/

section Simple

variable {s t : State}

/-- A value kept in a register for a new variable. -/
theorem keep_grows (L : Linked) (v : Variable) : Exec (do
    let r ← allocate 1 v.site
    modify fun s => { s with bindings := s.bindings.bind v r }
    copyRange immediate (register r) registerSize) s
      fun _ t => t.points = s.points ∧ t.serial = s.serial := by
  refine (allocate_exec 1 v.site).bind fun r u _ _ hallocate => ?_
  obtain ⟨hstill, rfl, hmark, hcount⟩ := hallocate
  refine .bound ((save_exec L (by omega) (Nat.le_refl _)).mono fun _ t _ _ hsave => ?_)
  exact ⟨hsave.1.points.trans hstill.kept.points, hsave.1.serial.trans hstill.kept.serial⟩

/-- An action with no statement inside leaves the points as they are. -/
theorem simple_grows (L : Linked) {act : Action} (hsimple : isSimple act = true) :
    Exec (action act) s fun _ t => t.points = s.points ∧ t.serial = s.serial := by
  cases act with
  | nothing =>
      rw [action]
      exact .pure ⟨rfl, rfl⟩
  | evaluate value =>
      rw [action]
      exact (expr_grows L value).mono fun _ _ _ _ h => ⟨h.1.kept.points, h.1.kept.serial⟩
  | goto target =>
      rw [action]
      refine (expr_grows L target).bind fun _ u _ _ htarget => ?_
      refine jump_grows.mono fun _ t _ _ hjump => ?_
      have hkept := htarget.1.kept.trans hjump.kept
      exact ⟨hkept.points, hkept.serial⟩
  | define v value =>
      rw [action]
      refine (expr_grows L value).bind fun _ u _ _ hvalue => ?_
      exact (keep_grows L v).mono fun _ t _ _ hkeep =>
        ⟨hkeep.1.trans hvalue.1.kept.points, hkeep.2.trans hvalue.1.kept.serial⟩
  | reserve v =>
      rw [action]
      cases v.count with
      | none => exact .throw
      | some count =>
          refine (allocate_exec count v.site).bind fun r u _ _ hallocate => ?_
          obtain ⟨hstill, rfl, -⟩ := hallocate
          exact .from (y := Pure.pure ⟨⟩) rfl (fun hgood => hgood.bound v s.mark)
            (.bound u v s.mark) (.pure ⟨hstill.kept.points, hstill.kept.serial⟩)
  | assign target value =>
      rw [action]
      unfold store
      refine .good fun hgood => ?_
      split
      case h_2 => exact .throw
      rename_i pointer info
      refine .get ((expr_grows L pointer).bind fun _ u₁ _ _ hpointer => ?_)
      refine (allocate_exec 1 info.site).bind fun r u₂ _ _ hallocate => ?_
      obtain ⟨hstill, rfl, hmark, hcount⟩ := hallocate
      have hfree : u₁.mark < registerCount := by omega
      refine (save_exec L hfree (by decide)).bind fun _ u₃ _ _ hsave => ?_
      refine (expr_grows L value).bind fun _ u₄ _ _ hvalue => ?_
      refine (storeThrough_exec L hfree).bind fun _ u₅ _ _ hstore => ?_
      refine (release_exec hgood.mark).mono fun _ t _ _ hrelease => ?_
      have hkept := ((hpointer.1.kept.trans hstill.kept).trans hsave.1).trans hvalue.1.kept
      have hkept' := (hkept.trans hstore.1).trans hrelease.1.kept
      exact ⟨hkept'.points, hkept'.serial⟩
  | words values =>
      rw [action]
      exact (rawWords_grows L values).mono fun _ _ _ _ h => ⟨h.kept.points, h.kept.serial⟩
  | place _ | block _ | branch _ _ _ | loop _ _ _ => cases hsimple

end Simple

/-! ## Traces -/

section Trace

variable {depth : Nat} {scope : List Variable} {items : List Item} {s t : State}
  {log : List Event}

/-- Code grows from each event on to the last state. -/
structure Extends (log : List Event) (s t : State) : Prop where
  good : Good t
  grows : Grows s t
  event : ∀ e ∈ log, Good e.state ∧ Grows e.state t

theorem Extends.refl (h : Good s) : Extends [] s s := ⟨h, .refl s, nofun⟩

/-- What is behind the first part is in front of the second one. -/
theorem Extends.trans {log' : List Event} {u : State} (h : Extends log s u)
    (h' : Extends log' u t) : Extends (log ++ log') s t :=
  ⟨h'.good, h.grows.trans h'.grows, List.forall_mem_append.mpr
    ⟨fun e he => ⟨(h.event e he).1, (h.event e he).2.trans h'.grows⟩, h'.event⟩⟩

/-- Code that notes no event. -/
theorem Extends.of_grows (hgood : Good t) (hgrows : Grows s t) : Extends [] s t :=
  ⟨hgood, hgrows, nofun⟩

/-- An event at the state where code starts to grow. -/
theorem Extends.cons {moment : Moment} (hgood : Good s) (h : Extends log s t) :
    Extends (⟨moment, depth, s⟩ :: log) s t :=
  ⟨h.good, h.grows, List.forall_mem_cons.mpr ⟨⟨hgood, h.grows⟩, h.event⟩⟩

/-- Giving registers back keeps a state good. -/
theorem Good.released {mark : Nat} (h : Good s) (hmark : mark ≤ registerCount) :
    Good (s.released mark) := ⟨h.position, h.closed, h.bytes, hmark, h.points⟩

theorem Grows.released (s : State) (mark : Nat) : Grows s (s.released mark) :=
  .of_eq rfl rfl rfl fun _ _ h => h

/-- The code around statements. -/
theorem Glue.extends (L : Linked) {code : Glue} (hrun : code.emit s = .ok ⟨⟩ t) (hgood : Good s)
    (h : Awaits s (.glue code :: items)) : Extends [] s t ∧ Awaits t items := by
  cases code with
  | point role =>
      cases hrun
      have hcounted : Good s.counted := ⟨hgood.position, hgood.closed, hgood.bytes, hgood.mark,
        fun n hn => Nat.le_succ_of_le (hgood.points n hn)⟩
      exact ⟨.of_grows hcounted (.of_eq rfl rfl rfl fun _ _ h => h), h.point⟩
  | place role serial =>
      cases hrun
      have hfresh := h.unplaced serial List.mem_cons_self
      exact ⟨.of_grows (hgood.pointed h.numbered.1) (.pointed hfresh), h.place⟩
  | branch condition taken otherwise =>
      obtain ⟨hgood', hgrows, hadds⟩ :=
        (branch_grows L condition taken otherwise).run hgood _ t hrun
      exact ⟨.of_grows hgood' hgrows, Awaits.adds ⟨h.numbered, h.unplaced⟩ hadds⟩
  | jump target =>
      obtain ⟨hgood', hgrows, hjump⟩ := (jumpTo_jumps L target).run hgood _ t hrun
      exact ⟨.of_grows hgood' hgrows, Awaits.adds ⟨h.numbered, h.unplaced⟩ ⟨hjump.kept, hjump.mark⟩⟩

/-- Along a trace code only grows, and what is to come behind it is still to come. -/
theorem Trace.extends (L : Linked) (h : Trace depth scope items s log t) :
    ∀ {later : List Item}, Good s → Awaits s (items ++ later) →
      Extends log s t ∧ Awaits t later := by
  induction h with
  | done => exact fun hgood hawaits => ⟨.refl hgood, hawaits⟩
  | @glue depth scope code items s t u log hrun _ ih =>
      intro later hgood hawaits
      obtain ⟨hglue, hawaits'⟩ := Glue.extends L hrun hgood hawaits
      obtain ⟨hrest, hlater⟩ := ih hglue.good hawaits'
      refine ⟨?_, hlater⟩
      cases code with
      | place role serial => exact (hglue.trans hrest).cons hgood
      | point _ | branch _ _ _ | jump _ => exact hglue.trans hrest
  | @simple depth scope labels act site items s t u log hsimple hrun _ ih =>
      intro later hgood hawaits
      obtain ⟨hgood', hgrows, hpoints, hserial⟩ :=
        (simple_grows L hsimple).run (hgood.labelAll labels) _ t hrun
      obtain ⟨hrest, hlater⟩ := ih hgood' ((hawaits.behind.labelAll labels).of_eq hpoints hserial)
      have hstart := Extends.of_grows hgood' ((Grows.labelAll s labels).trans hgrows)
      exact ⟨(hstart.trans (hrest.cons hgood')).cons hgood, hlater⟩
  | @compound depth scope labels act site inner items s t u log log' hparts _ _ ih ih' =>
      intro later hgood hawaits
      have hlabels := hgood.labelAll labels
      obtain ⟨hinner, hawaits'⟩ := ih hlabels ((hawaits.inside hgood hparts).labelAll labels)
      obtain ⟨hrest, hlater⟩ := ih' hinner.good hawaits'
      have hstart := Extends.of_grows hlabels (Grows.labelAll s labels)
      exact ⟨(hstart.trans (hinner.trans (hrest.cons hinner.good))).cons hgood, hlater⟩
  | @block depth scope labels body site items s t u log log' _ _ ih ih' =>
      intro later hgood hawaits
      have hlabels := hgood.labelAll labels
      obtain ⟨hinner, hawaits'⟩ := ih hlabels ((hawaits.body body).labelAll labels)
      have hreleased := hinner.good.released hgood.mark
      obtain ⟨hrest, hlater⟩ := ih' hreleased (hawaits'.of_eq rfl rfl)
      have hstart := Extends.of_grows hlabels (Grows.labelAll s labels)
      have hend := Extends.of_grows hreleased (Grows.released t s.mark)
      exact ⟨(hstart.trans (hinner.trans (hend.trans (hrest.cons hreleased)))).cons hgood, hlater⟩
  | @skip depth scope labels file site items s u log _ _ ih =>
      intro later hgood hawaits
      have hlabels := hgood.labelAll labels
      obtain ⟨hrest, hlater⟩ := ih hlabels (hawaits.behind.labelAll labels)
      have hstart := Extends.of_grows hlabels (Grows.labelAll s labels)
      exact ⟨(hstart.trans (hrest.cons hlabels)).cons hgood, hlater⟩
  | @file depth scope labels file site items s t u w log log' _ halign _ _ ih ih' =>
      intro later hgood hawaits
      have hlabels := hgood.labelAll labels
      obtain ⟨hgood', hgrows, heffect⟩ := (alignTo_exec L file.pragmas.align).run
        (hlabels.reach file) _ t halign
      have hbody := (hawaits.body file.statements).labelAll labels
      obtain ⟨hinner, hawaits'⟩ := ih hgood' ((hbody.reach file).adds heffect.adds)
      obtain ⟨hrest, hlater⟩ := ih' hinner.good hawaits'
      have hstart := Extends.of_grows hlabels (Grows.labelAll s labels)
      have henter := Extends.of_grows hgood' ((Grows.reach _ file).trans hgrows)
      refine ⟨(hstart.trans ((henter.trans (hinner.trans ?_)).cons hlabels)).cons hgood, hlater⟩
      exact (hrest.cons hinner.good).cons hinner.good

end Trace

end Emit

end ByteJump
