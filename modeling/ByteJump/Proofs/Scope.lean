import ByteJump.Proofs.Proper

set_option autoImplicit false

/-!
# Statements inside statements

A statement may hold others, and these declare variables of their own.  The variables in scope at a
statement of a file are those that statements in front of it declare, in the same block or in one
around it.  The branches of a condition and the body of a loop that is no block declare in the scope
they stand in.
-/

namespace ByteJump

/-! ## All statements of a file -/

mutual

/-- A statement and those inside it, in the order of the text. -/
def Stmt.subs : Stmt → List Stmt
  | .mk labels action site => .mk labels action site :: Action.subs action

/-- Statements and those inside them. -/
def Stmt.listSubs : List Stmt → List Stmt
  | [] => []
  | s :: ss => Stmt.subs s ++ Stmt.listSubs ss

/-- A statement that may be absent, and those inside it. -/
def Stmt.optionSubs : Option Stmt → List Stmt
  | some s => Stmt.subs s
  | none => []

/-- The statements inside an action. -/
def Action.subs : Action → List Stmt
  | .block body => Stmt.listSubs body
  | .branch _ taken otherwise => Stmt.subs taken ++ Stmt.optionSubs otherwise
  | .loop _ body _ => Stmt.subs body
  | .nothing | .place _ | .evaluate _ | .goto _ | .define .. | .reserve _ | .assign ..
  | .words _ => []

end

/-- The labels at a statement itself. -/
def Stmt.labels : Stmt → List Label
  | .mk labels _ _ => labels

/-- What a statement does. -/
def Stmt.action : Stmt → Action
  | .mk _ action _ => action

/-- The variable that an action itself declares. -/
def Action.declared? : Action → Option Variable
  | .define v _ | .reserve v => some v
  | .nothing | .place _ | .evaluate _ | .goto _ | .assign .. | .block _ | .branch .. | .loop ..
  | .words _ => none

/-- How many registers an action itself takes for its variable. -/
def Action.slots : Action → Nat
  | .define .. => 1
  | .reserve v => v.count.getD 0
  | .nothing | .place _ | .evaluate _ | .goto _ | .assign .. | .block _ | .branch .. | .loop ..
  | .words _ => 0

/-- The variable that an action itself declares, with the registers it takes. -/
def Action.own (a : Action) : List (Variable × Nat) := a.declared?.toList.map fun v => (v, a.slots)

/-- The variable that a statement itself declares, with the registers it takes. -/
def Stmt.own (s : Stmt) : List (Variable × Nat) := s.action.own

/-- How many registers a variable takes. -/
def Variable.slots (v : Variable) : Nat := v.count.getD 1

mutual

theorem Stmt.ownLabels_eq : ∀ s : Stmt, s.ownLabels = s.subs.flatMap Stmt.labels
  | .mk labels action _ => by
      rw [Stmt.ownLabels, Stmt.subs, List.flatMap_cons, Action.ownLabels_eq action]
      rfl

theorem Stmt.listLabels_eq : ∀ ss : List Stmt,
    Stmt.listLabels ss = (Stmt.listSubs ss).flatMap Stmt.labels
  | [] => rfl
  | s :: ss => by
      rw [Stmt.listLabels, Stmt.listSubs, List.flatMap_append, Stmt.ownLabels_eq s,
        Stmt.listLabels_eq ss]

theorem Stmt.optionLabels_eq : ∀ s : Option Stmt,
    Stmt.optionLabels s = (Stmt.optionSubs s).flatMap Stmt.labels
  | some s => Stmt.ownLabels_eq s
  | none => rfl

theorem Action.ownLabels_eq : ∀ a : Action, a.ownLabels = a.subs.flatMap Stmt.labels
  | .block body => Stmt.listLabels_eq body
  | .branch _ taken otherwise => by
      rw [Action.ownLabels, Action.subs, List.flatMap_append, Stmt.ownLabels_eq taken,
        Stmt.optionLabels_eq otherwise]
  | .loop _ body _ => Stmt.ownLabels_eq body
  | .nothing | .place _ | .evaluate _ | .goto _ | .define .. | .reserve _ | .assign ..
  | .words _ => rfl

end

/-- The file that an action itself places. -/
def Action.file? : Action → Option Program
  | .place file => some file
  | .nothing | .evaluate _ | .goto _ | .define .. | .reserve _ | .assign .. | .block _ | .branch ..
  | .loop .. | .words _ => none

mutual

theorem Stmt.files_eq : ∀ s : Stmt, s.files = s.subs.flatMap fun s => s.action.file?.toList
  | .mk _ action _ => by
      rw [Stmt.files, Stmt.subs, List.flatMap_cons, Stmt.action]
      exact Action.files_eq action

theorem Stmt.listFiles_eq : ∀ ss : List Stmt,
    Stmt.listFiles ss = (Stmt.listSubs ss).flatMap fun s => s.action.file?.toList
  | [] => rfl
  | s :: ss => by
      rw [Stmt.listFiles, Stmt.listSubs, List.flatMap_append, Stmt.files_eq s,
        Stmt.listFiles_eq ss]

theorem Stmt.optionFiles_eq : ∀ s : Option Stmt,
    Stmt.optionFiles s = (Stmt.optionSubs s).flatMap fun s => s.action.file?.toList
  | some s => Stmt.files_eq s
  | none => rfl

theorem Action.files_eq : ∀ a : Action,
    a.files = a.file?.toList ++ a.subs.flatMap fun s => s.action.file?.toList
  | .block body => Stmt.listFiles_eq body
  | .branch _ taken otherwise => by
      rw [Action.files, Action.subs, List.flatMap_append, Stmt.files_eq taken,
        Stmt.optionFiles_eq otherwise]
      rfl
  | .loop _ body _ => Stmt.files_eq body
  | .nothing | .place _ | .evaluate _ | .goto _ | .define .. | .reserve _ | .assign ..
  | .words _ => rfl

end

/-! ## Sizes -/

mutual

/-- A file that a statement imports is smaller than the statement. -/
theorem Stmt.sizeOf_files : ∀ (s : Stmt), ∀ file ∈ s.files, sizeOf file < sizeOf s
  | .mk _ action _, file, h => by
      have haction := Action.sizeOf_files action file h
      simp only [Stmt.mk.sizeOf_spec]
      omega

theorem Stmt.sizeOf_listFiles : ∀ (ss : List Stmt), ∀ file ∈ Stmt.listFiles ss,
    sizeOf file < sizeOf ss
  | [], _, h => nomatch h
  | s :: ss, file, h => by
      simp only [List.cons.sizeOf_spec]
      rcases List.mem_append.mp h with h | h
      · have := Stmt.sizeOf_files s file h
        omega
      · have := Stmt.sizeOf_listFiles ss file h
        omega

theorem Stmt.sizeOf_optionFiles : ∀ (s : Option Stmt), ∀ file ∈ Stmt.optionFiles s,
    sizeOf file < sizeOf s
  | none, _, h => nomatch h
  | some s, file, h => by
      have := Stmt.sizeOf_files s file h
      simp only [Option.some.sizeOf_spec]
      omega

theorem Action.sizeOf_files : ∀ (a : Action), ∀ file ∈ a.files, sizeOf file < sizeOf a
  | .place other, file, h => by
      obtain rfl := List.mem_singleton.mp h
      simp only [Action.place.sizeOf_spec]
      omega
  | .block body, file, h => by
      have := Stmt.sizeOf_listFiles body file h
      simp only [Action.block.sizeOf_spec]
      omega
  | .branch _ taken otherwise, file, h => by
      simp only [Action.branch.sizeOf_spec]
      rcases List.mem_append.mp h with h | h
      · have := Stmt.sizeOf_files taken file h
        omega
      · have := Stmt.sizeOf_optionFiles otherwise file h
        omega
  | .loop _ body _, file, h => by
      have := Stmt.sizeOf_files body file h
      simp only [Action.loop.sizeOf_spec]
      omega
  | .nothing, _, h | .evaluate _, _, h | .goto _, _, h | .define .., _, h | .reserve _, _, h
  | .assign .., _, h | .words _, _, h => nomatch h

end

/-- A file is larger than those it imports. -/
theorem Program.sizeOf_files {p file : Program} (h : file ∈ Stmt.listFiles p.statements) :
    sizeOf file < sizeOf p := by
  cases p with
  | mk path statements exports pragmas =>
      have := Stmt.sizeOf_listFiles statements file h
      simp only [Program.mk.sizeOf_spec]
      omega

/-! ## Variables in scope -/

mutual

/-- The variables in scope behind a statement, the newest first, where some are in front of it. -/
def Stmt.scope (around : List Variable) : Stmt → List Variable
  | .mk _ action _ => Action.scope around action

/-- The variables in scope behind statements. -/
def Stmt.listScope (around : List Variable) : List Stmt → List Variable
  | [] => around
  | s :: ss => Stmt.listScope (Stmt.scope around s) ss

/-- The variables in scope behind a statement that may be absent. -/
def Stmt.optionScope (around : List Variable) : Option Stmt → List Variable
  | some s => Stmt.scope around s
  | none => around

/-- The variables in scope behind an action. -/
def Action.scope (around : List Variable) : Action → List Variable
  | .define v _ | .reserve v => v :: around
  | .branch _ taken otherwise => Stmt.optionScope (Stmt.scope around taken) otherwise
  | .loop _ body _ => Stmt.scope around body
  | .nothing | .place _ | .evaluate _ | .goto _ | .assign .. | .block _ | .words _ => around

end

mutual

/-- A variable in scope behind a statement was in scope in front of it, or is declared inside. -/
theorem Stmt.mem_scope : ∀ (st : Stmt) {around : List Variable} {v : Variable},
    v ∈ st.scope around → v ∈ around ∨ ∃ n, (v, n) ∈ st.subs.flatMap Stmt.own
  | .mk labels act site, around, v, h => by
      rcases Action.mem_scope act h with h | ⟨n, h⟩
      · exact Or.inl h
      · refine Or.inr ⟨n, ?_⟩
        rw [Stmt.subs, List.flatMap_cons]
        exact h

theorem Stmt.mem_listScope : ∀ (ss : List Stmt) {around : List Variable} {v : Variable},
    v ∈ Stmt.listScope around ss → v ∈ around ∨ ∃ n, (v, n) ∈ (Stmt.listSubs ss).flatMap Stmt.own
  | [], _, _, h => Or.inl h
  | s :: ss, around, v, h => by
      rcases Stmt.mem_listScope ss h with h | ⟨n, h⟩
      · refine (Stmt.mem_scope s h).imp id fun ⟨n, h⟩ => ⟨n, ?_⟩
        rw [Stmt.listSubs, List.flatMap_append]
        exact List.mem_append_left _ h
      · refine Or.inr ⟨n, ?_⟩
        rw [Stmt.listSubs, List.flatMap_append]
        exact List.mem_append_right _ h

theorem Stmt.mem_optionScope : ∀ (s : Option Stmt) {around : List Variable} {v : Variable},
    v ∈ Stmt.optionScope around s →
      v ∈ around ∨ ∃ n, (v, n) ∈ (Stmt.optionSubs s).flatMap Stmt.own
  | none, _, _, h => Or.inl h
  | some s, _, _, h => Stmt.mem_scope s h

theorem Action.mem_scope : ∀ (act : Action) {around : List Variable} {v : Variable},
    v ∈ act.scope around → v ∈ around ∨ ∃ n, (v, n) ∈ act.own ++ act.subs.flatMap Stmt.own
  | .define w value, around, v, h => by
      rcases List.mem_cons.mp h with rfl | h
      · exact Or.inr ⟨1, List.mem_cons_self⟩
      · exact Or.inl h
  | .reserve w, around, v, h => by
      rcases List.mem_cons.mp h with rfl | h
      · exact Or.inr ⟨v.count.getD 0, List.mem_cons_self⟩
      · exact Or.inl h
  | .branch _ taken otherwise, around, v, h => by
      rcases Stmt.mem_optionScope otherwise h with h | ⟨n, h⟩
      · refine (Stmt.mem_scope taken h).imp id fun ⟨n, h⟩ => ⟨n, ?_⟩
        rw [Action.subs, List.flatMap_append]
        exact List.mem_append_right _ (List.mem_append_left _ h)
      · refine Or.inr ⟨n, ?_⟩
        rw [Action.subs, List.flatMap_append]
        exact List.mem_append_right _ (List.mem_append_right _ h)
  | .loop _ body _, around, v, h => Stmt.mem_scope body h
  | .nothing, _, _, h | .place _, _, _, h | .evaluate _, _, _, h | .goto _, _, _, h
  | .assign .., _, _, h | .block _, _, _, h | .words _, _, _, h => Or.inl h

end

/-! ## Places of statements -/

mutual

/-- A statement and those inside it, each with the variables in scope in front of it. -/
def Stmt.places (around : List Variable) : Stmt → List (List Variable × Stmt)
  | .mk labels action site => (around, .mk labels action site) :: Action.places around action

/-- Statements and those inside them, with the variables in scope in front of them. -/
def Stmt.listPlaces (around : List Variable) : List Stmt → List (List Variable × Stmt)
  | [] => []
  | s :: ss => Stmt.places around s ++ Stmt.listPlaces (Stmt.scope around s) ss

/-- A statement that may be absent and those inside it, with the variables in scope. -/
def Stmt.optionPlaces (around : List Variable) : Option Stmt → List (List Variable × Stmt)
  | some s => Stmt.places around s
  | none => []

/-- The statements inside an action, with the variables in scope in front of them. -/
def Action.places (around : List Variable) : Action → List (List Variable × Stmt)
  | .block body => Stmt.listPlaces around body
  | .branch _ taken otherwise =>
      Stmt.places around taken ++ Stmt.optionPlaces (Stmt.scope around taken) otherwise
  | .loop _ body _ => Stmt.places around body
  | .nothing | .place _ | .evaluate _ | .goto _ | .define .. | .reserve _ | .assign ..
  | .words _ => []

end

mutual

theorem Stmt.snd_places : ∀ (s : Stmt) (around : List Variable),
    (s.places around).map Prod.snd = s.subs
  | .mk labels action site, around => by
      rw [Stmt.places, Stmt.subs, List.map_cons, Action.snd_places action]

theorem Stmt.snd_listPlaces : ∀ (ss : List Stmt) (around : List Variable),
    (Stmt.listPlaces around ss).map Prod.snd = Stmt.listSubs ss
  | [], _ => rfl
  | s :: ss, around => by
      rw [Stmt.listPlaces, Stmt.listSubs, List.map_append, Stmt.snd_places s,
        Stmt.snd_listPlaces ss]

theorem Stmt.snd_optionPlaces : ∀ (s : Option Stmt) (around : List Variable),
    (Stmt.optionPlaces around s).map Prod.snd = Stmt.optionSubs s
  | none, _ => rfl
  | some s, around => Stmt.snd_places s around

theorem Action.snd_places : ∀ (a : Action) (around : List Variable),
    (a.places around).map Prod.snd = a.subs
  | .block body, around => Stmt.snd_listPlaces body around
  | .branch _ taken otherwise, around => by
      rw [Action.places, Action.subs, List.map_append, Stmt.snd_places taken,
        Stmt.snd_optionPlaces otherwise]
  | .loop _ body _, around => Stmt.snd_places body around
  | .nothing, _ | .place _, _ | .evaluate _, _ | .goto _, _ | .define .., _ | .reserve _, _
  | .assign .., _ | .words _, _ => rfl

end

/-- The variables of a file that are in no block. -/
def Program.variables (p : Program) : List Variable := Stmt.listScope [] p.statements

end ByteJump
