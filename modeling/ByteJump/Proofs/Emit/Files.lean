import ByteJump.Proofs.Emit.Inside
import ByteJump.Proofs.Resolve.NamedFiles
import Mathlib.Data.List.Nodup

set_option autoImplicit false

/-!
# Files in a trace

A file never imports itself, not even through others, since the files it imports are parts of it.
So what is emitted on the way through a file belongs to the file or to files with other paths, and
its own labels and variables are placed and bound by its own statements only.
-/

namespace ByteJump

namespace Emit

open Assembly Memory Resolve

/-! ## Libraries -/

/-- Resolved files, no two of one path, with all that they import. -/
structure Library (G : Program → Prop) : Prop where
  closed : ∀ q, G q → ∀ file ∈ q.files, G file
  unique : ∀ q q', G q → G q' → q.file.key = q'.file.key → q = q'
  named : ∀ q, G q → q.Named (.library q.file.key)

/-- The files that are kept. -/
def Imported (I : Imports) (q : Program) : Prop := I.lookup q.file.key = some q

theorem library_of_imports {I : Imports} (hsound : I.Sound) (hnamed : I.Named) :
    Library (Imported I) where
  closed q hq file hfile := (hsound _ _ hq).2.files file hfile
  unique q q' hq hq' hkey := by
    have hsame : I.lookup q.file.key = some q' := hkey ▸ hq'
    exact Option.some.inj ((Eq.symm hq).trans hsame)
  named q hq := hnamed _ _ hq

/-- A file whose declarations belong to a unit that no file it imports has. -/
structure Rooted (G : Program → Prop) (unit : FileUnit) (p : Program) : Prop where
  named : p.Named unit
  files : ∀ file ∈ p.files, G file
  outside : ∀ q, G q → sizeOf q < sizeOf p → FileUnit.library q.file.key ≠ unit

section Rooted

variable {G : Program → Prop} {unit : FileUnit} {p : Program}

theorem Library.rooted (hG : Library G) (hp : G p) : Rooted G (.library p.file.key) p := by
  refine ⟨hG.named p hp, hG.closed p hp, fun q hq hsize heq => ?_⟩
  have hsame := hG.unique q p hq hp (FileUnit.library.inj heq)
  rw [hsame] at hsize
  exact Nat.lt_irrefl _ hsize

theorem Rooted.of_main {turn : Nat} (hnamed : p.Named (.main turn)) (hfiles : ∀ file ∈ p.files, G file) :
    Rooted G (.main turn) p := ⟨hnamed, hfiles, fun _ _ _ => nofun⟩

/-! ## Statements that belong to a file -/

/-- A statement of a file that places another one. -/
theorem mem_files {st : Stmt} {ss : List Stmt} {file : Program} (hst : st ∈ Stmt.listSubs ss)
    (hplace : st.action = .place file) : file ∈ Stmt.listFiles ss := by
  rw [Stmt.listFiles_eq]
  exact List.mem_flatMap.mpr ⟨st, hst, by rw [hplace]; exact List.mem_singleton.mpr rfl⟩

variable {depth : Nat} {scope : List Variable} {items : List Item} {s t : State} {log : List Event}

/-- The statements among some items place only files of the library that are smaller than `n`. -/
def Hosts (G : Program → Prop) (n : Nat) (items : List Item) : Prop :=
  ∀ st ∈ items.flatMap Item.subs, ∀ file, st.action = .place file → G file ∧ sizeOf file < n

theorem Rooted.hosts (h : Rooted G unit p) : Hosts G (sizeOf p) (p.statements.map .stmt) := by
  intro st hst file hplace
  rw [flatMap_subs_map] at hst
  have hfile := mem_files hst hplace
  exact ⟨h.files file hfile, Program.sizeOf_files hfile⟩

/-- All files that are entered are smaller than `n` as well. -/
theorem Trace.enters_below {n : Nat} (hG : Library G) (h : Trace depth scope items s log t)
    (hitems : Hosts G n items) : ∀ file, Enters log file → G file ∧ sizeOf file < n := by
  refine h.enters_of (fun file hfile other hother => ?_) hitems
  exact ⟨hG.closed file hfile.1 other hother,
    Nat.lt_trans (Program.sizeOf_files hother) hfile.2⟩

/-- A statement that starts is one of the items, or one of a smaller file of the library. -/
theorem Trace.source {n : Nat} (hG : Library G) (h : Trace depth scope items s log t)
    (hitems : Hosts G n items) {st : Stmt} (hst : Starts log st) :
    st ∈ items.flatMap Item.subs ∨ ∃ q, Enters log q ∧ (G q ∧ sizeOf q < n) ∧
      st ∈ Stmt.listSubs q.statements := by
  obtain ⟨around, hst⟩ := hst.startsIn
  rcases h.origin around st hst with hmem | ⟨q, henters, hmem⟩
  · refine Or.inl ?_
    rw [← Item.snd_places items scope]
    exact List.mem_map_of_mem hmem
  · refine Or.inr ⟨q, henters, h.enters_below hG hitems q henters, ?_⟩
    rw [← Stmt.snd_listPlaces q.statements []]
    exact List.mem_map_of_mem hmem

/-- A statement that starts was made where the variables in scope were visible, when the file was
resolved or one that is entered. -/
theorem Rooted.made (hG : Library G) (h : Rooted G unit p)
    (htrace : Trace depth [] (p.statements.map .stmt) s log t) {around : List Variable} {st : Stmt}
    (hst : StartsIn log around st) : ∃ q, (q = p ∨ Enters log q) ∧ MadeIn q around st := by
  rcases htrace.origin around st hst with hmem | ⟨q, henters, hmem⟩
  · rw [Item.places_map] at hmem
    exact ⟨p, Or.inl rfl, h.named.made _ hmem⟩
  · obtain ⟨hq, -⟩ := htrace.enters_below hG h.hosts q henters
    exact ⟨q, Or.inr henters, (hG.named q hq).made _ hmem⟩

theorem mem_ownLabels {st : Stmt} {q : Program} {l : Label}
    (hst : st ∈ Stmt.listSubs q.statements) (hl : l ∈ st.labels) : l ∈ q.ownLabels := by
  rw [Program.ownLabels, Stmt.listLabels_eq]
  exact List.mem_flatMap.mpr ⟨st, hst, hl⟩

theorem Rooted.label_eq (h : Rooted G unit p) {l l' : Label} (hl : l ∈ p.ownLabels)
    (hl' : l' ∈ p.ownLabels) (hid : l'.id = l.id) : l' = l :=
  List.inj_on_of_nodup_map h.named.nodupLabels hl' hl hid

/-- A label with the identity of one of a file stands in the file, wherever it is placed while the
file is emitted. -/
theorem Rooted.own_label (hG : Library G) (h : Rooted G unit p)
    (htrace : Trace depth scope (p.statements.map .stmt) s log t) {st : Stmt}
    (hst : Starts log st) {l l' : Label} (hl : l ∈ p.ownLabels) (hl' : l' ∈ st.labels)
    (hid : l'.id = l.id) : st ∈ Stmt.listSubs p.statements ∧ l' = l := by
  rcases htrace.source hG h.hosts hst with hmem | ⟨q, -, ⟨hq, hsize⟩, hmem⟩
  · rw [flatMap_subs_map] at hmem
    exact ⟨hmem, h.label_eq hl (mem_ownLabels hmem hl') hid⟩
  · have hunit := (hG.named q hq).labels l' (mem_ownLabels hmem hl')
    rw [hid, h.named.labels l hl] at hunit
    exact absurd hunit.symm (h.outside q hq hsize)

end Rooted

end Emit

end ByteJump
