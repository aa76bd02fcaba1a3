import ByteJump.Proofs.Resolve.Visits
import ByteJump.Proofs.ResolvedProgram

set_option autoImplicit false

/-!
# Names of declarations

The variables of a file differ from each other in their identities, and so do its labels.  All of
them belong to the unit of the file, so those of different files differ as well.

The scopes that a file is resolved in agree with the text of its statements: what is visible behind
a statement is what `Stmt.scope` says, given what is visible in front of it.

Identities are numbers that are given out in order, so that all that was declared in a part of a
file has numbers between those at its two ends.  `Numbered` says this of a list of identities, and
lists of neighbouring parts can be appended.  `Names` is the invariant for a part: its variables
and labels are numbered in this way, and what is visible behind it is `scope` of what was visible
in front.  The walk over the resolver shows it for every statement, and the last pass, which binds
label uses, keeps it, as `Alike` says.  Imported files have units of their own.
-/

namespace ByteJump

/-! ## Numbers -/

/-- The declarations are those of a unit with numbers from `low` on and below `high`, no two of
them alike. -/
structure Numbered (unit : FileUnit) (low high : Nat) (ids : List DeclId) : Prop where
  le : low ≤ high
  mem : ∀ id ∈ ids, id.unit = unit ∧ low ≤ id.number ∧ id.number < high
  nodup : ids.Nodup

section Numbered

variable {unit : FileUnit} {low middle high : Nat} {ids ids' : List DeclId}

/-- No declarations are numbered between any two numbers. -/
theorem Numbered.none (h : low ≤ high) : Numbered unit low high [] :=
  ⟨h, nofun, List.nodup_nil⟩

/-- Neighbouring stretches of numbers do not overlap. -/
theorem Numbered.append (h : Numbered unit low middle ids) (h' : Numbered unit middle high ids') :
    Numbered unit low high (ids ++ ids') := by
  have hle := h.le
  have hle' := h'.le
  refine ⟨Nat.le_trans hle hle', fun id hid => ?_, ?_⟩
  · rcases List.mem_append.mp hid with hid | hid
    · obtain ⟨hunit, hlow, hhigh⟩ := h.mem id hid
      exact ⟨hunit, hlow, by omega⟩
    · obtain ⟨hunit, hlow, hhigh⟩ := h'.mem id hid
      exact ⟨hunit, by omega, hhigh⟩
  · refine List.nodup_append.mpr ⟨h.nodup, h'.nodup, fun id hid other hother heq => ?_⟩
    subst heq
    have hbelow := (h.mem id hid).2.2
    have habove := (h'.mem id hother).2.1
    omega

/-- The next declaration. -/
theorem Numbered.one (unit : FileUnit) (n : Nat) : Numbered unit n (n + 1) [⟨unit, n⟩] := by
  refine ⟨Nat.le_succ n, fun id hid => ?_, by simp⟩
  obtain rfl := List.mem_singleton.mp hid
  exact ⟨rfl, Nat.le_refl n, Nat.lt_succ_self n⟩

end Numbered

/-- The labels and variables of a file belong to a unit, no two are alike, and each variable takes
as many registers as it has elements; each statement was made where the variables in scope were
visible. -/
structure Program.Named (unit : FileUnit) (p : Program) : Prop where
  labels : ∀ l ∈ p.ownLabels, l.id.unit = unit
  vars : ∀ x ∈ (Stmt.listSubs p.statements).flatMap Stmt.own,
    x.1.id.unit = unit ∧ x.1.slots = x.2
  nodupLabels : (p.ownLabels.map fun l => l.id).Nodup
  nodupVars : (((Stmt.listSubs p.statements).flatMap Stmt.own).map fun x => x.1.id).Nodup
  made : ∀ x ∈ Stmt.listPlaces [] p.statements, Resolve.MadeIn p x.1 x.2

/-! ## Binding

Binding replaces label uses and leaves declarations where they are, so a bound statement declares
the same variables and labels in the same order. -/

/-- Both statements declare the same. -/
structure Stmt.Alike (s bound : Stmt) : Prop where
  own : bound.subs.flatMap Stmt.own = s.subs.flatMap Stmt.own
  scope : ∀ around, bound.scope around = s.scope around

/-- Both lists of statements declare the same. -/
structure Stmt.ListAlike (ss bound : List Stmt) : Prop where
  own : (Stmt.listSubs bound).flatMap Stmt.own = (Stmt.listSubs ss).flatMap Stmt.own
  scope : ∀ around, Stmt.listScope around bound = Stmt.listScope around ss

/-- Both statements that may be absent declare the same. -/
structure Stmt.OptionAlike (s bound : Option Stmt) : Prop where
  own : (Stmt.optionSubs bound).flatMap Stmt.own = (Stmt.optionSubs s).flatMap Stmt.own
  scope : ∀ around, Stmt.optionScope around bound = Stmt.optionScope around s

/-- Both actions declare the same. -/
structure Action.Alike (a bound : Action) : Prop where
  own : bound.own = a.own
  subs : bound.subs.flatMap Stmt.own = a.subs.flatMap Stmt.own
  scope : ∀ around, bound.scope around = a.scope around

/-- An expression is bound first. -/
theorem Binds.anyExpr {α : Type} {find : LabelFinder} {e : Expr} {f : Expr → Except Fault α}
    {post : α → Prop} (h : ∀ bound, Binds (f bound) post) : Binds (Expr.bind find e >>= f) post :=
  (Expr.bind_fills find e).bind fun bound _ => h bound

mutual

/-- A bound statement declares what the statement did. -/
theorem Stmt.bind_alike (find : LabelFinder) : ∀ s, Binds (Stmt.bind find s) (Stmt.Alike s)
  | .mk labels action site => by
      rw [Stmt.bind]
      refine (Action.bind_alike find action).bind fun a ha => ⟨?_, ha.scope⟩
      rw [Stmt.subs, Stmt.subs, List.flatMap_cons, List.flatMap_cons, ha.subs]
      exact congrArg (· ++ _) ha.own

theorem Stmt.bindList_alike (find : LabelFinder) :
    ∀ ss, Binds (Stmt.bindList find ss) (Stmt.ListAlike ss)
  | [] => ⟨rfl, fun _ => rfl⟩
  | s :: ss => by
      rw [Stmt.bindList]
      refine (Stmt.bind_alike find s).bind fun x hx => ?_
      refine (Stmt.bindList_alike find ss).bind fun xs hxs => ⟨?_, fun around => ?_⟩
      · rw [Stmt.listSubs, Stmt.listSubs, List.flatMap_append, List.flatMap_append, hx.own, hxs.own]
      · rw [Stmt.listScope, Stmt.listScope, hx.scope, hxs.scope]

theorem Stmt.bindOption_alike (find : LabelFinder) :
    ∀ s, Binds (Stmt.bindOption find s) (Stmt.OptionAlike s)
  | none => ⟨rfl, fun _ => rfl⟩
  | some s => by
      rw [Stmt.bindOption]
      exact (Stmt.bind_alike find s).bind fun x hx => ⟨hx.own, hx.scope⟩

/-- One case for each action. -/
theorem Action.bind_alike (find : LabelFinder) :
    ∀ a, Binds (Action.bind find a) (Action.Alike a)
  | .nothing | .place _ | .reserve _ => ⟨rfl, rfl, fun _ => rfl⟩
  | .evaluate _ | .goto _ | .define _ _ => by
      rw [Action.bind]
      exact Binds.anyExpr fun _ => ⟨rfl, rfl, fun _ => rfl⟩
  | .assign _ _ => by
      rw [Action.bind]
      exact Binds.anyExpr fun _ => Binds.anyExpr fun _ => ⟨rfl, rfl, fun _ => rfl⟩
  | .block body => by
      rw [Action.bind]
      exact (Stmt.bindList_alike find body).bind fun ss hss => ⟨rfl, hss.own, fun _ => rfl⟩
  | .branch _ taken otherwise => by
      rw [Action.bind]
      refine Binds.anyExpr fun e => (Stmt.bind_alike find taken).bind fun s hs => ?_
      refine (Stmt.bindOption_alike find otherwise).bind fun o ho => ⟨rfl, ?_, fun around => ?_⟩
      · rw [Action.subs, Action.subs, List.flatMap_append, List.flatMap_append, hs.own, ho.own]
      · rw [Action.scope, Action.scope, hs.scope, ho.scope]
  | .loop _ body _ => by
      rw [Action.bind]
      exact Binds.anyExpr fun e => (Stmt.bind_alike find body).bind fun s hs =>
        ⟨rfl, hs.own, hs.scope⟩
  | .words values => by
      rw [Action.bind]
      exact (Expr.bindList_fills find values).bind fun es _ => ⟨rfl, rfl, fun _ => rfl⟩

end

namespace Resolve

/-- Every kept import belongs to the unit of its path. -/
def Imports.Named (I : Imports) : Prop :=
  ∀ key p, I.lookup key = some p → p.Named (.library key)

variable {c : Context} {α β : Type}

/-- Part of a file was resolved that declares some variables and labels, and makes what is visible
into `scope` of it. -/
structure Names (c : Context) (s : State) (own : List (Variable × Nat)) (labels : List Label)
    (scope : List Variable → List Variable) (t : State) (J : Imports) : Prop where
  le : s.declared ≤ t.declared
  labels : Numbered c.unit s.declared t.declared (labels.map fun l => l.id)
  vars : Numbered c.unit s.declared t.declared (own.map fun x => x.1.id)
  slots : ∀ x ∈ own, x.1.slots = x.2
  grown : Scopes.Grown s.scopes t.scopes
  visible : t.scopes.visible = scope s.scopes.visible
  imports : J.Named

section Names

variable {s t u : State} {own own' : List (Variable × Nat)} {labels labels' : List Label}
  {scope scope' : List Variable → List Variable} {I J K : Imports}

/-- Neighbouring parts of a file declare one behind the other. -/
theorem Names.trans (h : Names c s own labels scope t J) (h' : Names c t own' labels' scope' u K) :
    Names c s (own ++ own') (labels ++ labels') (fun around => scope' (scope around)) u K where
  le := Nat.le_trans h.le h'.le
  labels := by
    rw [List.map_append]
    exact h.labels.append h'.labels
  vars := by
    rw [List.map_append]
    exact h.vars.append h'.vars
  slots x hx := (List.mem_append.mp hx).elim (h.slots x) (h'.slots x)
  grown := h.grown.trans h'.grown
  visible := by rw [h'.visible, h.visible]
  imports := h'.imports

/-- Nothing is declared, though numbers may be used up, and the scopes may change if what is visible
stays the same. -/
theorem Names.none (hle : s.declared ≤ t.declared) (hgrown : Scopes.Grown s.scopes t.scopes)
    (hvisible : t.scopes.visible = s.scopes.visible) (hJ : J.Named) :
    Names c s [] [] id t J :=
  ⟨hle, .none hle, .none hle, nofun, hgrown, hvisible, hJ⟩

theorem Names.refl (hs : s.scopes.Ok) (hI : I.Named) : Names c s [] [] id s I :=
  .none (Nat.le_refl _) (.refl hs) rfl hI

/-- What comes behind a part that was resolved. -/
theorem Ends.named {x : Resolving α} {own' : α → List (Variable × Nat)}
    {labels' : α → List Label} {scope' : α → List Variable → List Variable}
    (h : Names c s own labels scope t J)
    (hx : Ends x (fun a u K => Names c t (own' a) (labels' a) (scope' a) u K)
      (fun _ K => K.Named) t J) :
    Ends x (fun a u K => Names c s (own ++ own' a) (labels ++ labels' a)
      (fun around => scope' a (scope around)) u K) (fun _ K => K.Named) t J :=
  hx.mono (fun _ _ _ h' => h.trans h') fun _ _ h => h

end Names

/-- The next declaration gets the next number. -/
theorem Ends.declareNext {g : DeclId → Resolving α} {post : α → State → Imports → Prop}
    {raise : Fault → Imports → Prop} {s : State} {I : Imports}
    (h : Ends (g ⟨c.unit, s.declared⟩) post raise { s with declared := s.declared + 1 } I) :
    Ends (Resolve.declare c >>= g) post raise s I :=
  Ends.bind h

/-! ## Declarations -/

section Parts

variable {s : State} {I : Imports}

/-- By induction on the declarations; each takes the next number. -/
theorem declareLabels_names : ∀ (decls : List Syntax.LabelDecl) {s : State}, s.scopes.Ok → I.Named →
    Ends (declareLabels c decls) (fun ls t J => Names c s [] ls id t J) (fun _ J => J.Named) s I
  | [], s, hs, hI => by
      rw [declareLabels]
      exact Ends.pure (.refl hs hI)
  | decl :: decls, s, hs, hI => by
      rw [declareLabels]
      refine Ends.declareNext (Ends.updated ?_)
      dsimp only
      have hgrown := Scopes.grown_defineLabel hs
        ⟨⟨c.unit, s.declared⟩, decl.name, decl.exported, c.locate decl.span⟩
      have hvisible := Scopes.visible_defineLabel hs
        ⟨⟨c.unit, s.declared⟩, decl.name, decl.exported, c.locate decl.span⟩
      have hrest : ∀ t : State, t.declared = s.declared + 1 → t.scopes = s.scopes.defineLabel
          ⟨⟨c.unit, s.declared⟩, decl.name, decl.exported, c.locate decl.span⟩ →
          Ends (do
            let labels ← declareLabels c decls
            return ⟨⟨c.unit, s.declared⟩, decl.name, decl.exported, c.locate decl.span⟩ :: labels)
          (fun ls t J => Names c s [] ls id t J) (fun _ J => J.Named) t I := by
        intro t hdeclared hscopes
        have hone : Names c s [] [⟨⟨c.unit, s.declared⟩, decl.name, decl.exported,
            c.locate decl.span⟩] id t I := by
          refine ⟨by omega, ?_, .none (by omega), by simp, hscopes ▸ hgrown, ?_, hI⟩
          · rw [hdeclared]
            exact .one _ _
          · rw [hscopes]
            exact hvisible
        refine (Ends.named hone
          (declareLabels_names decls hone.grown.ok hI)).andThen ?_
        exact fun ls u K h => Ends.pure h
      split
      · exact Ends.updated (hrest _ rfl rfl)
      · exact hrest _ rfl rfl

theorem Names.defineType (h : Names c s [] [] id s I) (name : String) (type : Ty) {t : State}
    (hdeclared : s.declared ≤ t.declared) (hscopes : t.scopes = s.scopes.defineType name type) :
    Names c s [] [] id t I := by
  refine .none hdeclared ?_ ?_ h.imports
  · rw [hscopes]
    exact Scopes.grown_defineType h.grown.ok name type
  · rw [hscopes]
    exact Scopes.visible_defineType h.grown.ok name type

theorem defineStruct_names (depth : Nat) (name : String) (fields : List Syntax.Field)
    (hs : s.scopes.Ok) (hI : I.Named) :
    Ends (defineStruct c depth name fields) (fun _ t J => Names c s [] [] id t J)
      (fun _ J => J.Named) s I := by
  unfold defineStruct
  refine Ends.look (structFields_looks name fields [] s) (fun _ => hI) fun fields' _ => ?_
  refine Ends.declareNext (Ends.updated ?_)
  split
  · exact Ends.update (Names.defineType (.refl hs hI) _ _ (Nat.le_succ _) rfl)
  · exact Ends.pure (Names.defineType (.refl hs hI) _ _ (Nat.le_succ _) rfl)

/-- A pragma declares nothing. -/
theorem pragma_names (depth : Nat) (name : String) (value : Option Syntax.Expr) (site : Location)
    (hs : s.scopes.Ok) (hI : I.Named) :
    Ends (pragma c depth name value site) (fun _ t J => Names c s [] [] id t J)
      (fun _ J => J.Named) s I := by
  have hsame : ∀ p, Names c s [] [] id { s with pragmas := p } I := fun _ =>
    .none (Nat.le_refl _) (.refl hs) rfl hI
  unfold pragma
  split
  · exact Ends.fail hI
  split
  · exact Ends.look (alignment_looks value site s) (fun _ => hI) fun n _ => Ends.update (hsame _)
  split
  · cases value with
    | some value => exact Ends.fail hI
    | none => exact Ends.update (hsame _)
  · exact Ends.fail hI

/-! ## Imports

An import brings labels and types into scope, and no variables.  The labels belong to the unit of
the file they were declared in. -/

theorem grown_foldr_defineType (structs : List StructDef) {scopes : Scopes} (h : scopes.Ok) :
    Scopes.Grown scopes (structs.foldr (fun d s => s.defineType d.name d.type) scopes) ∧
      (structs.foldr (fun d s => s.defineType d.name d.type) scopes).visible = scopes.visible := by
  induction structs with
  | nil => exact ⟨.refl h, rfl⟩
  | cons d structs ih =>
      obtain ⟨hgrown, hvisible⟩ := ih
      exact ⟨hgrown.trans (Scopes.grown_defineType hgrown.ok _ _),
        (Scopes.visible_defineType hgrown.ok _ _).trans hvisible⟩

/-- Taking in exports changes the open frame only. -/
theorem grown_merged (exports : Exports) {scopes : Scopes} (h : scopes.Ok) :
    Scopes.Grown scopes (merged exports scopes) ∧
      (merged exports scopes).visible = scopes.visible := by
  unfold merged
  obtain ⟨hstructs, hvisible⟩ := grown_foldr_defineType exports.structs h
  induction exports.labels with
  | nil => exact ⟨hstructs, hvisible⟩
  | cons label labels ih =>
      obtain ⟨hgrown, hsame⟩ := ih
      exact ⟨hgrown.trans (Scopes.grown_defineLabel hgrown.ok _),
        (Scopes.visible_defineLabel hgrown.ok _).trans hsame⟩

/-- Importing a file that is neither kept nor active keeps the imports named. -/
def Context.DeliversNamed (c : Context) : Prop :=
  ∀ path I, I.Named → I.lookup path.key = none → path.key ∉ c.active.map Path.key →
    match c.importFile path I with
    | .ok _ J => J.Named
    | .error _ J => J.Named

/-- The imported file has names in its own unit, by hypothesis. -/
theorem importNamed_names (hdelivers : c.DeliversNamed) (name : String) (site : Location)
    (hs : s.scopes.Ok) (hI : I.Named) :
    Ends (importNamed c name site) (fun _ t J => Names c s [] [] id t J) (fun _ J => J.Named)
      s I := by
  refine importNamed_ends (fun _ => hI) (fun _ _ _ => hI) fun path _ hidle => ?_
  have hfound : match importFound c (c.source.identity path) I with
      | .ok _ J => J.Named
      | .error _ J => J.Named := by
    rw [importFound_run]
    cases hlookup : I.lookup (c.source.identity path).key with
    | some p => exact hI
    | none => exact hdelivers _ I hI hlookup hidle
  cases hrun : importFound c (c.source.identity path) I with
  | error e J =>
      rw [hrun] at hfound
      exact hfound
  | ok p J =>
      rw [hrun] at hfound
      obtain ⟨hgrown, hvisible⟩ := grown_merged p.exports hs
      exact Ends.updated (Ends.pure (.none (Nat.le_refl _) hgrown hvisible hfound))

end Parts

/-! ## Statements -/

/-- What the statements in an action declare, and the action itself. -/
def optionOwn (a : Option Action) : List (Variable × Nat) :=
  (a.map fun a => a.own ++ a.subs.flatMap Stmt.own).getD []

/-- The variables in scope behind an action that may be absent. -/
def optionScope (a : Option Action) (around : List Variable) : List Variable :=
  (a.map fun a => a.scope around).getD around

/-- A finished statement declares what its action does. -/
theorem finish_own (labels : List Label) (a : Option Action) (site : Location) :
    (Stmt.optionSubs (finish labels a site)).flatMap Stmt.own = optionOwn a := by
  cases a with
  | some a => rfl
  | none =>
      unfold finish
      dsimp only
      split <;> rfl

theorem finish_scope (labels : List Label) (a : Option Action) (site : Location)
    (around : List Variable) :
    Stmt.optionScope around (finish labels a site) = optionScope a around := by
  cases a with
  | some a => rfl
  | none =>
      unfold finish
      dsimp only
      split <;> rfl

theorem orNothing_own (stx : Syntax.Stmt) (resolved : Option Stmt) :
    (orNothing c stx resolved).subs.flatMap Stmt.own =
      (Stmt.optionSubs resolved).flatMap Stmt.own := by
  cases resolved <;> rfl

theorem orNothing_scope (stx : Syntax.Stmt) (resolved : Option Stmt) (around : List Variable) :
    (orNothing c stx resolved).scope around = Stmt.optionScope around resolved := by
  cases resolved <;> rfl

theorem listSubs_toList_append (first : Option Stmt) (rest : List Stmt) :
    Stmt.listSubs (first.toList ++ rest) = Stmt.optionSubs first ++ Stmt.listSubs rest := by
  cases first <;> rfl

theorem listScope_toList_append (first : Option Stmt) (rest : List Stmt)
    (around : List Variable) : Stmt.listScope around (first.toList ++ rest) =
      Stmt.listScope (Stmt.optionScope around first) rest := by
  cases first <;> rfl

/-- An action without declarations. -/
theorem Names.plain {s : State} {I : Imports} {a : Action} (hs : s.scopes.Ok) (hI : I.Named)
    (hown : a.own = []) (hsubs : a.subs = []) (hlabels : a.ownLabels = [])
    (hscope : ∀ around, a.scope around = around) :
    Names c s (optionOwn (some a)) (optionLabels (some a)) (optionScope (some a)) s I := by
  have hsame := Names.refl (c := c) hs hI
  refine ⟨hsame.le, ?_, ?_, ?_, hsame.grown, ?_, hI⟩
  · simpa [optionLabels, hlabels] using hsame.labels
  · simpa [optionOwn, hown, hsubs] using hsame.vars
  · simp [optionOwn, hown, hsubs]
  · simp [optionScope, hscope]

/-- A variable declared in the open scope. -/
theorem Names.variable {s t : State} {I : Imports} {v : Variable} {n : Nat} (hs : s.scopes.Ok)
    (hI : I.Named) (hid : v.id = ⟨c.unit, s.declared⟩) (hslots : v.slots = n)
    (hdeclared : t.declared = s.declared + 1) (hscopes : t.scopes = s.scopes.defineVariable v) :
    Names c s [(v, n)] [] (fun around => v :: around) t I := by
  refine ⟨by omega, .none (by omega), ?_, ?_, ?_, ?_, hI⟩
  · rw [hdeclared, List.map_singleton, hid]
    exact .one _ _
  · intro x hx
    obtain rfl := List.mem_singleton.mp hx
    exact hslots
  · rw [hscopes]
    exact Scopes.grown_defineVariable hs v
  · rw [hscopes]
    exact Scopes.visible_defineVariable hs v

/-- The array takes the next number and is visible from here on. -/
theorem reserve_names (name : Syntax.Name) (count : Nat) (element : Ty) {s : State} {I : Imports}
    (hs : s.scopes.Ok) (hI : I.Named) :
    Ends (do
        let id ← declare c
        let v : Variable :=
          ⟨id, name.text, .array element count, some count, c.locate name.span⟩
        updateScopes fun scopes => scopes.defineVariable v
        return some (.reserve v))
      (fun a t J => Names c s (optionOwn a) (optionLabels a) (optionScope a) t J)
      (fun _ J => J.Named) s I :=
  Ends.declareNext (Ends.updated (Ends.pure (Names.variable hs hI rfl rfl rfl rfl)))

/-- Something is looked at first. -/
theorem Ends.lookNamed {x : Resolving β} {g : β → Resolving α} {Q : β → Prop}
    {post : α → State → Imports → Prop} {s : State} {I : Imports} (hI : I.Named)
    (h : Looks x Q s) (hg : ∀ b, Ends (g b) post (fun _ J => J.Named) s I) :
    Ends (x >>= g) post (fun _ J => J.Named) s I :=
  Ends.look h (fun _ => hI) fun b _ => hg b

/-! ## Actions made of statements

What a block, a condition or a loop declares is what the statements in it do, and only a block hides
it from the statements behind. -/

/-- What the block declares is not visible behind it. -/
theorem Names.block {s t : State} {J : Imports} {ss : List Stmt} (hs : s.scopes.Ok)
    (h : Names c { s with scopes := s.scopes.push } ((Stmt.listSubs ss).flatMap Stmt.own)
      (Stmt.listLabels ss) (fun around => Stmt.listScope around ss) t J) :
    Names c s (optionOwn (some (.block ss))) (optionLabels (some (.block ss)))
      (optionScope (some (.block ss))) { t with scopes := t.scopes.pop } J := by
  obtain ⟨hgrown, hvisible⟩ := Scopes.Grown.pop hs h.grown
  exact ⟨h.le, h.labels, h.vars, h.slots, hgrown, hvisible, h.imports⟩

/-- The branches declare one behind the other. -/
theorem Names.branch {s t : State} {J : Imports} {e : Expr} {taken : Syntax.Stmt}
    {r o : Option Stmt}
    (h : Names c s ((Stmt.optionSubs r).flatMap Stmt.own ++ (Stmt.optionSubs o).flatMap Stmt.own)
      (Stmt.optionLabels r ++ Stmt.optionLabels o)
      (fun around => Stmt.optionScope (Stmt.optionScope around r) o) t J) :
    Names c s (optionOwn (some (.branch e (orNothing c taken r) o)))
      (optionLabels (some (.branch e (orNothing c taken r) o)))
      (optionScope (some (.branch e (orNothing c taken r) o))) t J := by
  have hown : optionOwn (some (.branch e (orNothing c taken r) o)) =
      (Stmt.optionSubs r).flatMap Stmt.own ++ (Stmt.optionSubs o).flatMap Stmt.own := by
    rw [← orNothing_own (c := c) taken r, ← List.flatMap_append]
    rfl
  have hlabels : optionLabels (some (.branch e (orNothing c taken r) o)) =
      Stmt.optionLabels r ++ Stmt.optionLabels o := by
    rw [← orNothing_ownLabels (c := c) taken r]
    rfl
  have hscope : optionScope (some (.branch e (orNothing c taken r) o)) = fun around =>
      Stmt.optionScope (Stmt.optionScope around r) o := by
    funext around
    rw [← orNothing_scope (c := c) taken r]
    rfl
  rw [hown, hlabels, hscope]
  exact h

/-- The body of a loop declares once. -/
theorem Names.loop {s t : State} {J : Imports} {e : Expr} {body : Syntax.Stmt} {bodyFirst : Bool}
    {r : Option Stmt}
    (h : Names c s ((Stmt.optionSubs r).flatMap Stmt.own) (Stmt.optionLabels r)
      (fun around => Stmt.optionScope around r) t J) :
    Names c s (optionOwn (some (.loop e (orNothing c body r) bodyFirst)))
      (optionLabels (some (.loop e (orNothing c body r) bodyFirst)))
      (optionScope (some (.loop e (orNothing c body r) bodyFirst))) t J := by
  have hown : optionOwn (some (.loop e (orNothing c body r) bodyFirst)) =
      (Stmt.optionSubs r).flatMap Stmt.own := by
    rw [← orNothing_own (c := c) body r]
    rfl
  have hlabels : optionLabels (some (.loop e (orNothing c body r) bodyFirst)) =
      Stmt.optionLabels r := orNothing_ownLabels (c := c) body r
  have hscope : optionScope (some (.loop e (orNothing c body r) bodyFirst)) = fun around =>
      Stmt.optionScope around r := by
    funext around
    exact orNothing_scope (c := c) body r around
  rw [hown, hlabels, hscope]
  exact h

mutual

/-- Labels first, then what the action declares. -/
theorem stmt_names (hdelivers : c.DeliversNamed) (depth : Nat) :
    ∀ (stx : Syntax.Stmt) {s : State} {I : Imports}, s.scopes.Ok → I.Named →
      Ends (stmt c depth stx) (fun r t J => Names c s ((Stmt.optionSubs r).flatMap Stmt.own)
        (Stmt.optionLabels r) (fun around => Stmt.optionScope around r) t J)
        (fun _ J => J.Named) s I
  | .mk decls command span, s, I, hs, hI => by
      rw [stmt]
      refine (declareLabels_names decls hs hI).andThen ?_
      intro ls t J hls
      refine (Ends.named hls (declareLabels_names (siteLabels command) hls.grown.ok
        hls.imports)).andThen ?_
      intro more u K hmore
      refine (Ends.named hmore (action_names hdelivers depth (c.locate span) command
        hmore.grown.ok hmore.imports)).andThen ?_
      intro a v L ha
      refine Ends.pure ?_
      rw [finish_own, finish_labels]
      simp only [finish_scope]
      exact ha

theorem stmts_names (hdelivers : c.DeliversNamed) (depth : Nat) :
    ∀ (ss : List Syntax.Stmt) {s : State} {I : Imports}, s.scopes.Ok → I.Named →
      Ends (stmts c depth ss) (fun r t J => Names c s ((Stmt.listSubs r).flatMap Stmt.own)
        (Stmt.listLabels r) (fun around => Stmt.listScope around r) t J)
        (fun _ J => J.Named) s I
  | [], s, I, hs, hI => by
      rw [stmts]
      exact Ends.pure (.refl hs hI)
  | stx :: ss, s, I, hs, hI => by
      rw [stmts]
      refine (stmt_names hdelivers depth stx hs hI).andThen ?_
      intro first t J hfirst
      refine (Ends.named hfirst (stmts_names hdelivers depth ss hfirst.grown.ok
        hfirst.imports)).andThen ?_
      intro rest u K hrest
      refine Ends.pure ?_
      rw [listSubs_toList_append, List.flatMap_append, listLabels_toList_append]
      simp only [listScope_toList_append]
      exact hrest

theorem optionalBranch_names (hdelivers : c.DeliversNamed) (depth : Nat) :
    ∀ (stx : Option Syntax.Stmt) {s : State} {I : Imports}, s.scopes.Ok → I.Named →
      Ends (optionalBranch c depth stx) (fun r t J =>
        Names c s ((Stmt.optionSubs r).flatMap Stmt.own) (Stmt.optionLabels r)
          (fun around => Stmt.optionScope around r) t J) (fun _ J => J.Named) s I
  | none, s, I, hs, hI => by
      rw [optionalBranch]
      exact Ends.pure (.refl hs hI)
  | some stx, s, I, hs, hI => by
      rw [optionalBranch]
      refine (stmt_names hdelivers depth stx hs hI).andThen ?_
      intro r t J hr
      refine Ends.pure ?_
      rw [Stmt.optionSubs, Stmt.optionLabels, orNothing_own, orNothing_ownLabels]
      simp only [Stmt.optionScope, orNothing_scope]
      exact hr

/-- One case for each command. -/
theorem action_names (hdelivers : c.DeliversNamed) (depth : Nat) (site : Location) :
    ∀ (command : Syntax.Command) {s : State} {I : Imports}, s.scopes.Ok → I.Named →
      Ends (action c depth site command)
        (fun a t J => Names c s (optionOwn a) (optionLabels a) (optionScope a) t J)
        (fun _ J => J.Named) s I
  | .importFile file, s, I, hs, hI => by
      rw [action]
      refine (importNamed_names hdelivers file.text site hs hI).andThen ?_
      exact fun p t J hp => Ends.pure hp
  | .evaluate value, s, I, hs, hI | .goto value _, s, I, hs, hI => by
      rw [action]
      refine Ends.lookNamed hI (expr_looks c value s) fun e => ?_
      exact Ends.pure (.plain hs hI rfl rfl rfl fun _ => rfl)
  | .define name value, s, I, hs, hI => by
      rw [action]
      refine Ends.lookNamed hI (expr_looks c value s) fun e => ?_
      exact Ends.declareNext (Ends.updated (Ends.pure (Names.variable hs hI rfl rfl rfl rfl)))
  | .defineArray name size element, s, I, hs, hI => by
      rw [action]
      refine Ends.lookNamed hI (count_looks c size s) fun n => ?_
      cases element with
      | none => exact Ends.bind (Ends.pure (reserve_names name n _ hs hI))
      | some element =>
          exact Ends.lookNamed hI (typeExpr_looks c element s) fun type =>
            reserve_names name n type hs hI
  | .assign target value, s, I, hs, hI => by
      rw [action]
      refine Ends.lookNamed hI (expr_looks c target s) fun e => ?_
      refine Ends.lookNamed hI (expr_looks c value s) fun f => ?_
      exact Ends.pure (.plain hs hI rfl rfl rfl fun _ => rfl)
  | .block body, s, I, hs, hI => by
      rw [action]
      refine Ends.updated ((stmts_names hdelivers (depth + 1) body
        (Scopes.ok_push hs) hI).andThen ?_)
      exact fun ss t J hss => Ends.updated (Ends.pure (hss.block hs))
  | .branch test taken otherwise, s, I, hs, hI => by
      rw [action]
      refine Ends.lookNamed hI (condition_looks c test s) fun e => ?_
      refine (stmt_names hdelivers (depth + 1) taken hs hI).andThen fun r t J hr => ?_
      refine (Ends.named hr (optionalBranch_names hdelivers (depth + 1) otherwise
        hr.grown.ok hr.imports)).andThen fun o u K ho => ?_
      exact Ends.pure ho.branch
  | .loop test body bodyFirst, s, I, hs, hI => by
      rw [action]
      refine Ends.lookNamed hI (condition_looks c test s) fun e => ?_
      refine (stmt_names hdelivers (depth + 1) body hs hI).andThen fun r t J hr => ?_
      exact Ends.pure hr.loop
  | .struct name fields, s, I, hs, hI => by
      rw [action]
      refine (defineStruct_names depth name.text fields hs hI).andThen ?_
      exact fun _ t J h => Ends.pure h
  | .words values, s, I, hs, hI => by
      rw [action]
      refine Ends.lookNamed hI (exprList_looks c values s) fun es => ?_
      exact Ends.pure (.plain hs hI rfl rfl rfl fun _ => rfl)
  | .pragma name value, s, I, hs, hI => by
      rw [action]
      refine (pragma_names depth name.text value site hs hI).andThen ?_
      exact fun _ t J h => Ends.pure h

end

end Resolve

end ByteJump
