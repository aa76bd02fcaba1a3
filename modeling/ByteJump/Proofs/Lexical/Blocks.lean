import ByteJump.Proofs.Lexical.Uses
import ByteJump.Scopes

set_option autoImplicit false

/-!
# Blocks and their labels

What the name of a label means is told by the blocks around a use: the innermost block that declares
the name counts, and in it the last declaration in the order of the text.  A block declares the
labels that stand in it at statements and commands and those that it imports, but none of the blocks
inside it; an unbraced branch or loop body is no block.

The scopes of a file are its blocks in the order in which they begin.
-/

namespace ByteJump

/-! ## Labels of a block -/

mutual

/-- The labels that a statement declares in the block it stands in, in the order of the text. -/
def Stmt.blockLabels : Stmt → List Label
  | .mk labels action _ => labels ++ Action.blockLabels action

/-- The labels that statements declare in the block they stand in. -/
def Stmt.listBlockLabels : List Stmt → List Label
  | [] => []
  | s :: ss => Stmt.blockLabels s ++ Stmt.listBlockLabels ss

/-- The labels that a statement that may be absent declares in the block it stands in. -/
def Stmt.optionBlockLabels : Option Stmt → List Label
  | some s => Stmt.blockLabels s
  | none => []

/-- The labels that an action declares in the block it stands in; a file exports the last of its
labels first. -/
def Action.blockLabels : Action → List Label
  | .place file => file.exports.labels.reverse
  | .branch _ taken otherwise => Stmt.blockLabels taken ++ Stmt.optionBlockLabels otherwise
  | .loop _ body _ => Stmt.blockLabels body
  | .block _ | .nothing | .evaluate _ | .goto _ | .define .. | .reserve _ | .assign ..
  | .words _ => []

end

/-- The last of some labels with a name. -/
def Label.last (labels : List Label) (name : String) : Option Label :=
  labels.reverse.find? fun label => label.name = name

/-- The label that a name means inside blocks, given the labels of each, the innermost first. -/
def Label.meaning (around : List (List Label)) (name : String) : Option Label :=
  around.findSome? fun labels => Label.last labels name

/-! ## Uses and what they mean -/

/-- A use of a label, and the label that it means, if there is one. -/
structure Occurrence where
  name : String
  site : Location
  label : Option Label

/-- Uses of labels that stand in the same block. -/
def Occurrence.within (around : List (List Label)) (uses : List (LabelUse × Location)) :
    List Occurrence :=
  uses.map fun use => ⟨use.1.name, use.2, Label.meaning around use.1.name⟩

mutual

/-- The uses of labels in a statement with what they mean, given the labels of the blocks around
it. -/
def Stmt.occurrences (around : List (List Label)) : Stmt → List Occurrence
  | .mk _ action _ => Action.occurrences around action

/-- The uses of labels in statements with what they mean. -/
def Stmt.listOccurrences (around : List (List Label)) : List Stmt → List Occurrence
  | [] => []
  | s :: ss => Stmt.occurrences around s ++ Stmt.listOccurrences around ss

/-- The uses of labels in a statement that may be absent, with what they mean. -/
def Stmt.optionOccurrences (around : List (List Label)) : Option Stmt → List Occurrence
  | some s => Stmt.occurrences around s
  | none => []

/-- The uses of labels in an action with what they mean. -/
def Action.occurrences (around : List (List Label)) : Action → List Occurrence
  | .nothing | .place _ | .reserve _ => []
  | .evaluate value | .goto value | .define _ value => Occurrence.within around value.uses
  | .assign target value =>
      Occurrence.within around target.uses ++ Occurrence.within around value.uses
  | .block body => Stmt.listOccurrences (Stmt.listBlockLabels body :: around) body
  | .branch condition taken otherwise =>
      Occurrence.within around condition.uses ++
        (Stmt.occurrences around taken ++ Stmt.optionOccurrences around otherwise)
  | .loop condition body _ =>
      Occurrence.within around condition.uses ++ Stmt.occurrences around body
  | .words values => Occurrence.within around (Expr.listUses values)

end

/-- The uses of labels in a file with what they mean; the whole file is a block. -/
def Stmt.fileOccurrences (ss : List Stmt) : List Occurrence :=
  Stmt.listOccurrences [Stmt.listBlockLabels ss] ss

/-! ## Numbers of scopes -/

mutual

/-- How many blocks begin in a statement. -/
def Stmt.blocks : Stmt → Nat
  | .mk _ action _ => Action.blocks action

/-- How many blocks begin in statements. -/
def Stmt.listBlocks : List Stmt → Nat
  | [] => 0
  | s :: ss => Stmt.blocks s + Stmt.listBlocks ss

/-- How many blocks begin in a statement that may be absent. -/
def Stmt.optionBlocks : Option Stmt → Nat
  | some s => Stmt.blocks s
  | none => 0

/-- How many blocks begin in an action. -/
def Action.blocks : Action → Nat
  | .block body => Stmt.listBlocks body + 1
  | .branch _ taken otherwise => Stmt.blocks taken + Stmt.optionBlocks otherwise
  | .loop _ body _ => Stmt.blocks body
  | .nothing | .place _ | .evaluate _ | .goto _ | .define .. | .reserve _ | .assign ..
  | .words _ => 0

end

/-- A use that stands in a scope. -/
def LabelUse.moved (scope : Nat) (use : LabelUse) : LabelUse := { use with scope := scope }

/-- A use of which only the name is known. -/
def LabelUse.loose (use : LabelUse) : LabelUse := ⟨use.name, 0, none⟩

mutual

/-- A statement that stands in a scope, where the next block gets the number `next`. -/
def Stmt.number (scope next : Nat) : Stmt → Stmt
  | .mk labels action site => .mk labels (Action.number scope next action) site

/-- Statements that stand in a scope. -/
def Stmt.listNumber (scope next : Nat) : List Stmt → List Stmt
  | [] => []
  | s :: ss => Stmt.number scope next s :: Stmt.listNumber scope (next + s.blocks) ss

/-- A statement that may be absent and stands in a scope. -/
def Stmt.optionNumber (scope next : Nat) : Option Stmt → Option Stmt
  | some s => some (Stmt.number scope next s)
  | none => none

/-- An action that stands in a scope. -/
def Action.number (scope next : Nat) : Action → Action
  | .nothing => .nothing
  | .place file => .place file
  | .evaluate value => .evaluate (value.mapUses (.moved scope))
  | .goto target => .goto (target.mapUses (.moved scope))
  | .define v value => .define v (value.mapUses (.moved scope))
  | .reserve v => .reserve v
  | .assign target value => .assign (target.mapUses (.moved scope)) (value.mapUses (.moved scope))
  | .block body => .block (Stmt.listNumber next (next + 1) body)
  | .branch condition taken otherwise =>
      .branch (condition.mapUses (.moved scope)) (Stmt.number scope next taken)
        (Stmt.optionNumber scope (next + taken.blocks) otherwise)
  | .loop condition body bodyFirst =>
      .loop (condition.mapUses (.moved scope)) (Stmt.number scope next body) bodyFirst
  | .words values => .words (Expr.listMapUses (.moved scope) values)

end

mutual

/-- Where a use stands does not matter for what is left of it when only its name is kept. -/
theorem Stmt.loose_number : ∀ (s : Stmt) (scope next : Nat),
    (s.number scope next).mapUses .loose = s.mapUses .loose
  | .mk _ action _, scope, next => by
      rw [Stmt.number, Stmt.mapUses, Stmt.mapUses, Action.loose_number action]

theorem Stmt.loose_listNumber : ∀ (ss : List Stmt) (scope next : Nat),
    Stmt.listMapUses .loose (Stmt.listNumber scope next ss) = Stmt.listMapUses .loose ss
  | [], _, _ => rfl
  | s :: ss, scope, next => by
      rw [Stmt.listNumber, Stmt.listMapUses, Stmt.listMapUses, Stmt.loose_number s,
        Stmt.loose_listNumber ss]

theorem Stmt.loose_optionNumber : ∀ (s : Option Stmt) (scope next : Nat),
    Stmt.optionMapUses .loose (Stmt.optionNumber scope next s) = Stmt.optionMapUses .loose s
  | some s, scope, next => by
      rw [Stmt.optionNumber, Stmt.optionMapUses, Stmt.optionMapUses, Stmt.loose_number s]
  | none, _, _ => rfl

theorem Action.loose_number : ∀ (a : Action) (scope next : Nat),
    (a.number scope next).mapUses .loose = a.mapUses .loose
  | .nothing, _, _ | .place _, _, _ | .reserve _, _, _ => rfl
  | .evaluate _, _, _ | .goto _, _, _ | .define _ _, _, _ | .assign _ _, _, _ => by
      simp only [Action.number, Action.mapUses, Expr.mapUses_mapUses]
      rfl
  | .block body, scope, next => by
      rw [Action.number, Action.mapUses, Action.mapUses, Stmt.loose_listNumber body]
  | .branch condition taken otherwise, scope, next => by
      rw [Action.number, Action.mapUses, Action.mapUses, Expr.mapUses_mapUses,
        Stmt.loose_number taken, Stmt.loose_optionNumber otherwise]
      rfl
  | .loop condition body _, scope, next => by
      rw [Action.number, Action.mapUses, Action.mapUses, Expr.mapUses_mapUses,
        Stmt.loose_number body]
      rfl
  | .words values, scope, next => by
      rw [Action.number, Action.mapUses, Action.mapUses, Expr.listMapUses_listMapUses]
      rfl

end

/-! ## Scopes of a file -/

/-- What a scope says about labels: those it declares by their names, the last first, and the scopes
around it, itself first. -/
structure Scopes.Outline where
  labels : List (String × Label)
  chain : List Nat

/-- What a scope says about labels. -/
def Scopes.Frame.outline (frame : Scopes.Frame) : Scopes.Outline := ⟨frame.labels, frame.chain⟩

/-- Labels that are declared one after the other, by their names, the last first. -/
def Label.table (labels : List Label) : List (String × Label) :=
  labels.reverse.map fun label => (label.name, label)

theorem Label.table_append (ls ms : List Label) :
    Label.table (ls ++ ms) = Label.table ms ++ Label.table ls := by
  rw [Label.table, List.reverse_append, List.map_append]
  rfl

theorem Label.lookup_table (labels : List Label) (name : String) :
    (Label.table labels).lookup name = Label.last labels name := by
  unfold Label.table Label.last
  induction labels.reverse with
  | nil => rfl
  | cons label rest ih =>
      rw [List.map_cons, List.lookup_cons, List.find?_cons, ih]
      by_cases h : label.name = name
      · simp [h]
      · rw [beq_false_of_ne (Ne.symm h)]
        simp [h]

mutual

/-- The scopes of the blocks that begin in a statement, given the scopes around it and the number of
the next one. -/
def Stmt.scopes (chain : List Nat) (next : Nat) : Stmt → List Scopes.Outline
  | .mk _ action _ => Action.scopes chain next action

/-- The scopes of the blocks that begin in statements. -/
def Stmt.listScopes (chain : List Nat) (next : Nat) : List Stmt → List Scopes.Outline
  | [] => []
  | s :: ss => Stmt.scopes chain next s ++ Stmt.listScopes chain (next + s.blocks) ss

/-- The scopes of the blocks that begin in a statement that may be absent. -/
def Stmt.optionScopes (chain : List Nat) (next : Nat) : Option Stmt → List Scopes.Outline
  | some s => Stmt.scopes chain next s
  | none => []

/-- The scopes of the blocks that begin in an action. -/
def Action.scopes (chain : List Nat) (next : Nat) : Action → List Scopes.Outline
  | .block body =>
      ⟨Label.table (Stmt.listBlockLabels body), next :: chain⟩ ::
        Stmt.listScopes (next :: chain) (next + 1) body
  | .branch _ taken otherwise =>
      Stmt.scopes chain next taken ++ Stmt.optionScopes chain (next + taken.blocks) otherwise
  | .loop _ body _ => Stmt.scopes chain next body
  | .nothing | .place _ | .evaluate _ | .goto _ | .define .. | .reserve _ | .assign ..
  | .words _ => []

end

mutual

@[simp] theorem Stmt.length_scopes : ∀ (s : Stmt) (chain : List Nat) (next : Nat),
    (s.scopes chain next).length = s.blocks
  | .mk _ action _, chain, next => Action.length_scopes action chain next

@[simp] theorem Stmt.length_listScopes : ∀ (ss : List Stmt) (chain : List Nat) (next : Nat),
    (Stmt.listScopes chain next ss).length = Stmt.listBlocks ss
  | [], _, _ => rfl
  | s :: ss, chain, next => by
      rw [Stmt.listScopes, List.length_append, Stmt.length_scopes s, Stmt.length_listScopes ss,
        Stmt.listBlocks]

@[simp] theorem Stmt.length_optionScopes : ∀ (s : Option Stmt) (chain : List Nat) (next : Nat),
    (Stmt.optionScopes chain next s).length = Stmt.optionBlocks s
  | some s, chain, next => Stmt.length_scopes s chain next
  | none, _, _ => rfl

@[simp] theorem Action.length_scopes : ∀ (a : Action) (chain : List Nat) (next : Nat),
    (a.scopes chain next).length = a.blocks
  | .block body, chain, next => by
      rw [Action.scopes, List.length_cons, Stmt.length_listScopes body, Action.blocks]
  | .branch _ taken otherwise, chain, next => by
      rw [Action.scopes, List.length_append, Stmt.length_scopes taken,
        Stmt.length_optionScopes otherwise, Action.blocks]
  | .loop _ body _, chain, next => Stmt.length_scopes body chain next
  | .nothing, _, _ | .place _, _, _ | .evaluate _, _, _ | .goto _, _, _ | .define .., _, _
  | .reserve _, _, _ | .assign .., _, _ | .words _, _, _ => rfl

end

/-! ## What scopes say is what blocks say -/

namespace Scopes

/-- The outlines of all scopes. -/
def outlines (s : Scopes) : List Outline := s.frames.toList.map Frame.outline

theorem getElem?_outlines (s : Scopes) (i : Nat) :
    s.outlines[i]? = s.frames[i]?.map Frame.outline := by
  rw [outlines, List.getElem?_map, Array.getElem?_toList]

/-- A scope with a given outline: its own labels are looked at before those of the scopes around
it. -/
theorem findLabel_of_outline {s : Scopes} {scope : Nat} {around : List Nat} {labels : List Label}
    (h : s.outlines[scope]? = some ⟨Label.table labels, scope :: around⟩) (name : String) :
    s.findLabel scope name = (Label.last labels name).or (s.findIn Frame.labels around name) := by
  rw [getElem?_outlines] at h
  obtain ⟨frame, hframe, houtline⟩ := Option.map_eq_some_iff.mp h
  have hlabels : frame.labels = Label.table labels := congrArg Outline.labels houtline
  have hchain : frame.chain = scope :: around := congrArg Outline.chain houtline
  rw [findLabel, findIn, chain, hframe]
  dsimp only
  rw [hchain, List.findSome?_cons, hframe]
  dsimp only
  rw [hlabels, Label.lookup_table]
  cases Label.last labels name <;> rfl

theorem chain_of_outline {s : Scopes} {scope : Nat} {outline : Outline}
    (h : s.outlines[scope]? = some outline) : s.chain scope = outline.chain := by
  rw [getElem?_outlines] at h
  obtain ⟨frame, hframe, rfl⟩ := Option.map_eq_some_iff.mp h
  rw [chain, hframe]
  rfl

/-- A use with the label that is found from the scope it stands in. -/
def occurrence (s : Scopes) (use : LabelUse × Location) : Occurrence :=
  ⟨use.1.name, use.2, s.findLabel use.1.scope use.1.name⟩

/-- The name of a label means in a scope what it means inside some blocks. -/
def Says (s : Scopes) (scope : Nat) (around : List (List Label)) : Prop :=
  ∀ name, s.findLabel scope name = Label.meaning around name

/-- Inside a block. -/
theorem Says.block {s : Scopes} {scope next : Nat} {around : List (List Label)}
    {labels : List Label} (h : s.Says scope around)
    (houtline : s.outlines[next]? = some ⟨Label.table labels, next :: s.chain scope⟩) :
    s.Says next (labels :: around) := by
  intro name
  rw [findLabel_of_outline houtline, show s.findIn Frame.labels (s.chain scope) name = _ from h name]
  unfold Label.meaning
  rw [List.findSome?_cons]
  cases Label.last labels name <;> rfl

/-- Outside all blocks. -/
theorem Says.outermost {s : Scopes} {scope : Nat} {labels : List Label}
    (houtline : s.outlines[scope]? = some ⟨Label.table labels, [scope]⟩) :
    s.Says scope [labels] := by
  intro name
  rw [findLabel_of_outline houtline]
  unfold Label.meaning
  rw [List.findSome?_cons]
  cases Label.last labels name <;> rfl

theorem Says.uses {s : Scopes} {scope : Nat} {around : List (List Label)} (h : s.Says scope around)
    (uses : List (LabelUse × Location)) :
    (uses.map fun use => (use.1.moved scope, use.2)).map s.occurrence =
      Occurrence.within around uses := by
  rw [List.map_map, Occurrence.within]
  refine List.map_congr_left fun use _ => ?_
  exact congrArg (Occurrence.mk use.1.name use.2) (h use.1.name)

theorem Says.expr {s : Scopes} {scope : Nat} {around : List (List Label)} (h : s.Says scope around)
    (e : Expr) : (e.mapUses (.moved scope)).uses.map s.occurrence =
      Occurrence.within around e.uses := by
  rw [Expr.uses_mapUses]
  exact h.uses e.uses

end Scopes

mutual

/-- In scopes that contain those of a statement, each use of a label in it finds the label that its
name means in the blocks around the use. -/
theorem Stmt.occurrences_number {t : Scopes} {scope : Nat} :
    ∀ (s : Stmt) {around : List (List Label)} (front back : List Scopes.Outline),
      t.Says scope around →
      t.outlines = front ++ s.scopes (t.chain scope) front.length ++ back →
      (s.number scope front.length).uses.map t.occurrence = s.occurrences around
  | .mk _ action _, _, front, back, hagree, h =>
      Action.occurrences_number action front back hagree h

theorem Stmt.listOccurrences_number {t : Scopes} {scope : Nat} :
    ∀ (ss : List Stmt) {around : List (List Label)} (front back : List Scopes.Outline),
      t.Says scope around →
      t.outlines = front ++ Stmt.listScopes (t.chain scope) front.length ss ++ back →
      (Stmt.listUses (Stmt.listNumber scope front.length ss)).map t.occurrence =
        Stmt.listOccurrences around ss
  | [], _, _, _, _, _ => rfl
  | s :: ss, around, front, back, hagree, h => by
      rw [Stmt.listScopes] at h
      have hfirst := Stmt.occurrences_number s front
        (Stmt.listScopes (t.chain scope) (front.length + s.blocks) ss ++ back) hagree
        (by rw [h]; simp only [List.append_assoc])
      have hrest := Stmt.listOccurrences_number ss
        (front ++ s.scopes (t.chain scope) front.length) back hagree
        (by rw [h, List.length_append, Stmt.length_scopes]; simp only [List.append_assoc])
      rw [List.length_append, Stmt.length_scopes] at hrest
      rw [Stmt.listNumber, Stmt.listUses, List.map_append, hfirst, hrest, Stmt.listOccurrences]

theorem Stmt.optionOccurrences_number {t : Scopes} {scope : Nat} :
    ∀ (s : Option Stmt) {around : List (List Label)} (front back : List Scopes.Outline),
      t.Says scope around →
      t.outlines = front ++ Stmt.optionScopes (t.chain scope) front.length s ++ back →
      (Stmt.optionUses (Stmt.optionNumber scope front.length s)).map t.occurrence =
        Stmt.optionOccurrences around s
  | some s, _, front, back, hagree, h => Stmt.occurrences_number s front back hagree h
  | none, _, _, _, _, _ => rfl

theorem Action.occurrences_number {t : Scopes} {scope : Nat} :
    ∀ (a : Action) {around : List (List Label)} (front back : List Scopes.Outline),
      t.Says scope around →
      t.outlines = front ++ a.scopes (t.chain scope) front.length ++ back →
      (a.number scope front.length).uses.map t.occurrence = a.occurrences around
  | .nothing, _, _, _, _, _ | .place _, _, _, _, _, _ | .reserve _, _, _, _, _, _ => rfl
  | .evaluate value, _, _, _, hagree, _ | .goto value, _, _, _, hagree, _
  | .define _ value, _, _, _, hagree, _ => hagree.expr value
  | .assign target value, _, _, _, hagree, _ => by
      rw [Action.number, Action.uses, List.map_append, hagree.expr target, hagree.expr value,
        Action.occurrences]
  | .block body, around, front, back, hagree, h => by
      rw [Action.scopes] at h
      have houtline : t.outlines[front.length]? =
          some ⟨Label.table (Stmt.listBlockLabels body), front.length :: t.chain scope⟩ := by
        rw [h, List.append_assoc, List.getElem?_append_right (Nat.le_refl _), Nat.sub_self]
        rfl
      have hbody := Stmt.listOccurrences_number body
        (front ++ [⟨Label.table (Stmt.listBlockLabels body), front.length :: t.chain scope⟩]) back
        (hagree.block houtline) (by
          rw [h, Scopes.chain_of_outline houtline]
          simp only [List.append_assoc, List.length_append, List.length_singleton, List.cons_append,
            List.nil_append])
      rw [List.length_append, List.length_singleton] at hbody
      rw [Action.number, Action.uses, hbody, Action.occurrences]
  | .branch condition taken otherwise, around, front, back, hagree, h => by
      rw [Action.scopes] at h
      have htaken := Stmt.occurrences_number taken front
        (Stmt.optionScopes (t.chain scope) (front.length + taken.blocks) otherwise ++ back) hagree
        (by rw [h]; simp only [List.append_assoc])
      have hother := Stmt.optionOccurrences_number otherwise
        (front ++ taken.scopes (t.chain scope) front.length) back hagree
        (by rw [h, List.length_append, Stmt.length_scopes]; simp only [List.append_assoc])
      rw [List.length_append, Stmt.length_scopes] at hother
      rw [Action.number, Action.uses, List.map_append, List.map_append, hagree.expr condition,
        htaken, hother, Action.occurrences]
  | .loop condition body _, around, front, back, hagree, h => by
      have hbody := Stmt.occurrences_number body front back hagree h
      rw [Action.number, Action.uses, List.map_append, hagree.expr condition, hbody,
        Action.occurrences]
  | .words values, _, _, _, hagree, _ => by
      rw [Action.number, Action.uses, Expr.listUses_listMapUses, hagree.uses, Action.occurrences]

end

end ByteJump
