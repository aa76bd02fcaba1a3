import ByteJump.Proofs.Lexical.Growth
import ByteJump.Proofs.Lexical.SameExpr

set_option autoImplicit false

/-!
# Statements in scopes and in an environment

Statements resolved in scopes are those elaborated in an environment, with each use of a label in
the scope of its block, and the scopes behind them mean what the environment behind them says.  One
rule for each way of putting computations together carries this through a file.

The walk over a file is the same on both sides, but the two states have little in common: frames
that are pushed and popped on one side, an environment that is handed down and replaced on the
other.  `Follows` relates the two runs: the same result up to the scopes of label uses, the same
number of declarations, exports and pragmas, and the same kept imports.  What a part of a file
does to the scopes is `Passes`: the scopes behind it model the environment behind it, and the
labels and inner scopes that were added are listed.  `StmtFollows`, `StmtsFollow` and
`ActionFollows` combine this with the resolved part; their lemmas close a block, a condition and a
loop.
-/

namespace ByteJump

namespace Resolve

open Elaborate (Elaborating Env Tally)

variable {α β γ δ : Type}

/-! ## Two computations side by side

The rules take one step on each side at a time.  The step on the left may be a look at the scopes
where the right one asks the environment. -/

/-- What is collected from a file besides its statements and scopes. -/
def State.tally (s : State) : Tally := ⟨s.declared, s.exports, s.pragmas⟩

/-- The computation in scopes does what the elaboration does: both fail with the same fault, or both
give values, which go together, and collect the same. -/
def Follows (x : Resolving α) (y : Elaborating β) (R : α → State → β → Prop) (s : State)
    (I : Imports) : Prop :=
  match y s.tally I with
  | .ok b J => ∃ a t, x s I = .ok (a, t) J ∧ t.tally = b.2 ∧ R a t b.1
  | .error e J => x s I = .error e J

section Follows

variable {s : State} {I : Imports} {R : α → State → β → Prop}

theorem Follows.pure {a : α} {b : β} (h : R a s b) :
    Follows (Pure.pure a) (Pure.pure b) R s I := ⟨a, s, rfl, rfl, h⟩

/-- Both sides end with the same fault. -/
theorem Follows.fail {e : Fault} : Follows (fail e : Resolving α) (throw e : Elaborating β) R s I :=
  rfl

/-- Both sides go on from states that are related. -/
theorem Follows.bind {x : Resolving γ} {y : Elaborating δ} {Q : γ → State → δ → Prop}
    {f : γ → Resolving α} {g : δ → Elaborating β} (h : Follows x y Q s I)
    (hf : ∀ a t b J, Q a t b → Follows (f a) (g b) R t J) :
    Follows (x >>= f) (y >>= g) R s I := by
  have hright : (y >>= g) s.tally I = EStateM.bind (y s.tally) (fun b => g b.1 b.2) I := rfl
  have hleft : (x >>= f) s I = EStateM.bind (x s) (fun a => f a.1 a.2) I := rfl
  unfold Follows at h ⊢
  rw [hright, hleft]
  unfold EStateM.bind
  cases hy : y s.tally I with
  | ok b J =>
      rw [hy] at h
      obtain ⟨b, tally⟩ := b
      obtain ⟨a, t, hx, rfl, hab⟩ := h
      rw [hx]
      exact hf a t b J hab
  | error e J =>
      rw [hy] at h
      rw [h]

/-- Something is looked at. -/
theorem Follows.read {x : Resolving γ} {r : Except Fault δ} {Q : γ → δ → Prop}
    {f : γ → Resolving α} {g : δ → Elaborating β} (h : Reads x r Q s)
    (hf : ∀ a b, Q a b → Follows (f a) (g b) R s I) :
    Follows (x >>= f) (Elaborate.checked r >>= g) R s I := by
  cases r with
  | ok b =>
      obtain ⟨a, hab, hx⟩ := h
      have hrun : (x >>= f) s I = f a s I := by
        show EStateM.bind (x s) (fun b => f b.1 b.2) I = _
        simp [EStateM.bind, hx]
      have hbehind := hf a b hab
      unfold Follows at hbehind ⊢
      rw [hrun]
      exact hbehind
  | error e =>
      show (x >>= f) s I = .error e I
      show EStateM.bind (x s) (fun b => f b.1 b.2) I = _
      simp only [EStateM.bind, h I]

/-- The next declaration. -/
theorem Follows.declare {c : Context} {f : DeclId → Resolving α} {g : DeclId → Elaborating β}
    (h : Follows (f ⟨c.unit, s.declared⟩) (g ⟨c.unit, s.declared⟩) R
      { s with declared := s.declared + 1 } I) :
    Follows (Resolve.declare c >>= f) (Elaborate.next c >>= g) R s I := h

/-- Scopes change; an elaboration has none. -/
theorem Follows.scopes {change : Scopes → Scopes} {f : PUnit → Resolving α} {y : Elaborating β}
    (h : Follows (f ⟨⟩) y R { s with scopes := change s.scopes } I) :
    Follows (updateScopes change >>= f) y R s I := h

/-- What is collected changes. -/
theorem Follows.update {f : State → State} {g : Tally → Tally} {k : PUnit → Resolving α}
    {l : PUnit → Elaborating β} (hfg : (f s).tally = g s.tally)
    (h : Follows (k ⟨⟩) (l ⟨⟩) R (f s) I) : Follows (modify f >>= k) (modify g >>= l) R s I := by
  have hright : (modify g >>= l) s.tally I = l ⟨⟩ (f s).tally I := by
    rw [hfg]
    rfl
  unfold Follows at h ⊢
  rw [hright]
  exact h

/-- A file is loaded. -/
theorem Follows.load {x : Loading γ} {f : γ → Resolving α} {g : γ → Elaborating β}
    (h : ∀ p J, Follows (f p) (g p) R s J) :
    Follows ((liftM x : Resolving γ) >>= f) ((liftM x : Elaborating γ) >>= g) R s I := by
  refine Follows.bind (Q := fun a t b => a = b ∧ t = s) ?_ ?_
  · unfold Follows
    have hright : (liftM x : Elaborating γ) s.tally I =
        EStateM.bind x (fun a => EStateM.pure (a, s.tally)) I := rfl
    have hleft : (liftM x : Resolving γ) s I = EStateM.bind x (fun a => EStateM.pure (a, s)) I := rfl
    rw [hright, hleft]
    unfold EStateM.bind
    cases x I with
    | ok a J => exact ⟨a, s, rfl, rfl, rfl, rfl⟩
    | error e J => rfl
  · rintro p t _ J ⟨rfl, rfl⟩
    exact h p J

end Follows

/-! ## Parts of a file -/

/-- Part of a file was gone through that declares labels in the open scope and adds scopes; behind it
names mean what an environment says. -/
structure Passes (s t : Scopes) (env : Env) (labels : List Label) (scopes : List Scopes.Outline) :
    Prop where
  evolves : s.Evolves t labels scopes
  models : Models t env

section Passes

variable {s t u : Scopes} {env env' : Env} {labels labels' : List Label}
  {scopes scopes' : List Scopes.Outline}

/-- Nothing has happened. -/
theorem Passes.refl (hs : s.Ok) (h : Models s env) : Passes s s env [] [] :=
  ⟨.refl hs, h⟩

/-- Labels and inner scopes are added up. -/
theorem Passes.trans (h : Passes s t env labels scopes) (h' : Passes t u env' labels' scopes')
    (hs : s.Ok) : Passes s u env' (labels ++ labels') (scopes ++ scopes') :=
  ⟨h.evolves.trans h'.evolves hs, h'.models⟩

/-- The scopes stay in order. -/
theorem Passes.ok (h : Passes s t env labels scopes) : t.Ok := h.evolves.ok

theorem Passes.current (h : Passes s t env labels scopes) : t.current = s.current :=
  h.evolves.current

theorem Passes.size (h : Passes s t env labels scopes) :
    t.frames.size = s.frames.size + scopes.length := h.evolves.size

/-- The new variable hides older ones of its name, in the innermost frame and in the environment.
-/
theorem passes_defineVariable (hs : s.Ok) (h : Models s env) (v : Variable) :
    Passes s (s.defineVariable v) (env.withVariable v) [] [] := by
  refine ⟨Scopes.evolves_defineVariable hs v, ⟨fun name => ?_, fun name => ?_⟩⟩
  · rw [Scopes.findType_defineVariable, h.types]
    rfl
  · rw [Scopes.findVariable_defineVariable hs, h.vars]
    rfl

theorem passes_defineType (hs : s.Ok) (h : Models s env) (name : String) (type : Ty) :
    Passes s (s.defineType name type) (env.withType name type) [] [] := by
  refine ⟨Scopes.evolves_defineType hs name type, ⟨fun other => ?_, fun other => ?_⟩⟩
  · rw [Scopes.findType_defineType hs, h.types]
    rfl
  · rw [Scopes.findVariable_defineType, h.vars]
    rfl

/-- A label does not enter the environment, which knows no labels. -/
theorem passes_defineLabel (hs : s.Ok) (h : Models s env) (label : Label) :
    Passes s (s.defineLabel label) env [label] [] := by
  refine ⟨Scopes.evolves_defineLabel hs label, ⟨fun other => ?_, fun other => ?_⟩⟩
  · rw [Scopes.findType_defineLabel, h.types]
  · rw [Scopes.findVariable_defineLabel, h.vars]

/-- The structs and labels that another file exports are declared. -/
theorem passes_merged (hs : s.Ok) (h : Models s env) (x : Exports) :
    Passes s (merged x s) (env.withStructs x.structs) x.labels.reverse [] := by
  have hstructs : Passes s (x.structs.foldr (fun d s => s.defineType d.name d.type) s)
      (env.withStructs x.structs) [] [] := by
    induction x.structs with
    | nil => exact .refl hs h
    | cons d structs ih => exact ih.trans (passes_defineType ih.ok ih.models d.name d.type) hs
  unfold merged
  induction x.labels with
  | nil => exact hstructs
  | cons label labels ih =>
      rw [List.reverse_cons]
      exact ih.trans (passes_defineLabel ih.ok ih.models label) hs

/-- A new frame is empty, so names mean the same in it. -/
theorem models_push (hs : s.Ok) (h : Models s env) : Models s.push env :=
  ⟨fun name => (Scopes.findOpen_push hs (fun _ => rfl) name).trans (h.types name),
    fun name => (Scopes.findOpen_push hs (fun _ => rfl) name).trans (h.vars name)⟩

/-- A block: behind it names mean what they meant in front of it. -/
theorem Passes.block (hs : s.Ok) (h : Models s env) (hbody : Passes s.push t env' labels scopes) :
    Passes s t.pop env []
      (⟨Label.table labels, s.frames.size :: s.chain s.current⟩ :: scopes) := by
  obtain ⟨hevolves, hsame⟩ := Scopes.Evolves.block hs hbody.evolves
  exact ⟨hevolves, ⟨fun name => (hsame _ name).trans (h.types name),
    fun name => (hsame _ name).trans (h.vars name)⟩⟩

end Passes

/-! ## Declarations and imports -/

section Parts

variable {c : Context} {env : Env}

/-- By induction on the declarations. -/
theorem declareLabels_follows : ∀ (decls : List Syntax.LabelDecl) {s : State} {I : Imports},
    s.scopes.Ok → Models s.scopes env →
      Follows (declareLabels c decls) (Elaborate.labels c decls)
        (fun ls t ls' => ls = ls' ∧ Passes s.scopes t.scopes env ls' []) s I
  | [], s, I, hs, h => by
      rw [declareLabels, Elaborate.labels]
      exact Follows.pure ⟨rfl, .refl hs h⟩
  | decl :: decls, s, I, hs, h => by
      rw [declareLabels, Elaborate.labels]
      refine Follows.declare (Follows.scopes ?_)
      have hone := passes_defineLabel hs h
        ⟨⟨c.unit, s.declared⟩, decl.name, decl.exported, c.locate decl.span⟩
      -- what follows does not depend on whether the label is exported
      have hrest : ∀ t : State, t.scopes = s.scopes.defineLabel
          ⟨⟨c.unit, s.declared⟩, decl.name, decl.exported, c.locate decl.span⟩ →
          Follows (do
              let labels ← declareLabels c decls
              return ⟨⟨c.unit, s.declared⟩, decl.name, decl.exported, c.locate decl.span⟩ :: labels)
            (do
              let rest ← Elaborate.labels c decls
              return ⟨⟨c.unit, s.declared⟩, decl.name, decl.exported, c.locate decl.span⟩ :: rest)
            (fun ls t ls' => ls = ls' ∧ Passes s.scopes t.scopes env ls' []) t I := by
        intro t ht
        refine (declareLabels_follows decls (ht ▸ hone.ok) (ht ▸ hone.models)).bind ?_
        rintro ls u _ J ⟨rfl, hls⟩
        exact Follows.pure ⟨rfl, hone.trans (ht ▸ hls) hs⟩
      dsimp only
      split
      · exact Follows.update rfl (hrest _ rfl)
      · exact hrest _ rfl

/-- Both sides load the file by the same computation, and then take in what it exports. -/
theorem importNamed_follows (name : String) (site : Location) {s : State} {I : Imports}
    (hs : s.scopes.Ok) (h : Models s.scopes env) :
    Follows (importNamed c name site) (Elaborate.imported c name site)
      (fun p t p' => p = p' ∧ Passes s.scopes t.scopes (env.withStructs p'.exports.structs)
        p'.exports.labels.reverse []) s I := by
  unfold importNamed Elaborate.imported
  dsimp only
  cases (c.searchPaths.map fun dir => dir.join name).find? c.source.contains with
  | none => exact Follows.fail
  | some path =>
      dsimp only
      split
      · exact Follows.fail
      · rw [← bind_pure (liftM (importFound c (c.source.identity path)) : Elaborating Program)]
        refine Follows.load (x := importFound c (c.source.identity path)) fun p J => ?_
        exact Follows.scopes (Follows.pure ⟨rfl, passes_merged hs h p.exports⟩)

theorem defineStruct_follows (depth : Nat) (name : String) (fields : List Syntax.Field)
    {s : State} {I : Imports} (hs : s.scopes.Ok) (h : Models s.scopes env) :
    Follows (defineStruct c depth name fields) (Elaborate.struct c depth env name fields)
      (fun _ t env' => Passes s.scopes t.scopes env' [] []) s I := by
  unfold defineStruct Elaborate.struct
  refine Follows.read (structFields_reads h name fields []) ?_
  rintro members _ rfl
  refine Follows.declare (Follows.scopes ?_)
  have hpasses := passes_defineType hs h name (StructDef.type ⟨⟨c.unit, s.declared⟩, name, members⟩)
  dsimp only
  split
  · exact ⟨⟨⟩, _, rfl, rfl, hpasses⟩
  · exact Follows.pure hpasses

/-- The constant in a pragma is the same on both sides. -/
theorem pragma_follows (depth : Nat) (name : String) (value : Option Syntax.Expr)
    (site : Location) {s : State} {I : Imports} (hs : s.scopes.Ok) (h : Models s.scopes env) :
    Follows (pragma c depth name value site) (Elaborate.pragma c depth env name value site)
      (fun _ t _ => Passes s.scopes t.scopes env [] []) s I := by
  have hsame : ∀ change : Pragmas → Pragmas,
      Follows (modify fun s => { s with pragmas := change s.pragmas })
        (modify fun tally => { tally with pragmas := change tally.pragmas })
        (fun _ t _ => Passes s.scopes t.scopes env [] []) s I :=
    fun change => ⟨⟨⟩, { s with pragmas := change s.pragmas }, rfl, rfl, .refl hs h⟩
  unfold pragma Elaborate.pragma
  split
  · exact Follows.fail
  split
  · refine Follows.read (alignment_reads h value site) ?_
    rintro align _ rfl
    exact hsame fun p => { p with align := align }
  split
  · cases value with
    | some value => exact Follows.fail
    | none => exact hsame fun p => { p with multi := true }
  · exact Follows.fail

end Parts

/-! ## Statements -/

/-- The labels that an action that may be absent declares in the block it stands in. -/
def optionBlockLabels (a : Option Action) : List Label := (a.map Action.blockLabels).getD []

/-- The scopes of the blocks that begin in an action that may be absent. -/
def optionScopes (chain : List Nat) (next : Nat) (a : Option Action) : List Scopes.Outline :=
  (a.map (Action.scopes chain next)).getD []

/-- What became of a statement: the elaborated one with its uses of labels in their scopes. -/
structure StmtFollows (s : Scopes) (r : Option Stmt) (t : Scopes) (b : Option Stmt × Env) :
    Prop where
  eq : r = Stmt.optionNumber s.current s.frames.size b.1
  loose : Stmt.optionMapUses .loose b.1 = b.1
  passes : Passes s t b.2 (Stmt.optionBlockLabels b.1)
    (Stmt.optionScopes (s.chain s.current) s.frames.size b.1)

/-- What became of statements. -/
structure StmtsFollow (s : Scopes) (r : List Stmt) (t : Scopes) (b : List Stmt × Env) : Prop where
  eq : r = Stmt.listNumber s.current s.frames.size b.1
  loose : Stmt.listMapUses .loose b.1 = b.1
  passes : Passes s t b.2 (Stmt.listBlockLabels b.1)
    (Stmt.listScopes (s.chain s.current) s.frames.size b.1)

/-- What became of a command. -/
structure ActionFollows (s : Scopes) (r : Option Action) (t : Scopes) (b : Option Action × Env) :
    Prop where
  eq : r = b.1.map (Action.number s.current s.frames.size)
  loose : b.1.map (Action.mapUses .loose) = b.1
  passes : Passes s t b.2 (optionBlockLabels b.1)
    (optionScopes (s.chain s.current) s.frames.size b.1)

section Glue

variable {c : Context} {s t u : Scopes} {env env' : Env}

/-- An action in which no block begins and that declares no labels. -/
theorem ActionFollows.plain {a b : Action} (ha : a = b.number s.current s.frames.size)
    (hb : b.mapUses .loose = b) (hlabels : b.blockLabels = [])
    (hscopes : b.scopes (s.chain s.current) s.frames.size = []) (h : Passes s t env [] []) :
    ActionFollows s (some a) t (some b, env) := by
  refine ⟨by rw [ha]; rfl, by rw [Option.map_some, hb], ?_⟩
  show Passes s t env b.blockLabels (b.scopes _ _)
  rw [hlabels, hscopes]
  exact h

/-- A command of which no action is left. -/
theorem ActionFollows.nothing (h : Passes s t env [] []) : ActionFollows s none t (none, env) :=
  ⟨rfl, rfl, h⟩

/-- Labels and then an action make a statement. -/
theorem ActionFollows.finish {labels : List Label} {r : Option Action} {b : Option Action × Env}
    (hs : s.Ok) (h : Passes s t env labels []) (ha : ActionFollows t r u b) (site : Location) :
    StmtFollows s (Resolve.finish labels r site) u (Resolve.finish labels b.1 site, b.2) := by
  obtain ⟨b, env'⟩ := b
  obtain ⟨rfl, hloose, hpasses⟩ := ha
  have hboth := h.trans hpasses hs
  rw [h.current, h.evolves.chain hs.current, h.size, List.length_nil, Nat.add_zero,
    List.nil_append] at hboth
  rw [h.current, h.size, List.length_nil, Nat.add_zero]
  cases b with
  | some a =>
      refine ⟨rfl, ?_, hboth⟩
      show some (Stmt.mk labels (a.mapUses .loose) site) = _
      rw [Option.some.inj hloose]
      rfl
  | none =>
      unfold Resolve.finish
      dsimp only
      cases labels with
      | nil => exact ⟨rfl, rfl, hboth⟩
      | cons label labels => exact ⟨rfl, rfl, hboth⟩

/-- A branch of which nothing is left does nothing. -/
theorem StmtFollows.orNothing {r : Option Stmt} {b : Option Stmt × Env} (h : StmtFollows s r t b)
    (stx : Syntax.Stmt) :
    Resolve.orNothing c stx r =
        (Resolve.orNothing c stx b.1).number s.current s.frames.size ∧
      (Resolve.orNothing c stx b.1).mapUses .loose = Resolve.orNothing c stx b.1 ∧
      Passes s t b.2 (Resolve.orNothing c stx b.1).blockLabels
        ((Resolve.orNothing c stx b.1).scopes (s.chain s.current) s.frames.size) := by
  obtain ⟨b, env⟩ := b
  obtain ⟨rfl, hloose, hpasses⟩ := h
  cases b with
  | some x => exact ⟨rfl, Option.some.inj hloose, hpasses⟩
  | none => exact ⟨rfl, rfl, hpasses⟩

/-- A statement in front of others. -/
theorem StmtFollows.cons {r : Option Stmt} {b : Option Stmt × Env} {rs : List Stmt}
    {bs : List Stmt × Env} (hs : s.Ok) (h : StmtFollows s r t b) (h' : StmtsFollow t rs u bs) :
    StmtsFollow s (r.toList ++ rs) u (b.1.toList ++ bs.1, bs.2) := by
  obtain ⟨b, env⟩ := b
  obtain ⟨bs, env'⟩ := bs
  obtain ⟨rfl, hloose, hpasses⟩ := h
  obtain ⟨rfl, hloose', hpasses'⟩ := h'
  have hboth := hpasses.trans hpasses' hs
  rw [hpasses.current, hpasses.evolves.chain hs.current, hpasses.size] at hboth
  rw [hpasses.current, hpasses.size]
  dsimp only at *
  rw [Stmt.length_optionScopes] at *
  cases b with
  | some x =>
      refine ⟨rfl, ?_, hboth⟩
      show Stmt.mapUses .loose x :: Stmt.listMapUses .loose bs = _
      rw [Option.some.inj hloose, hloose']
      rfl
  | none => exact ⟨rfl, hloose', hboth⟩

/-- A block: its statements were gone through in a scope of their own, which is closed behind them,
so behind the block names mean what they meant in front of it. -/
theorem ActionFollows.block {rs : List Stmt} {bs : List Stmt × Env} (hs : s.Ok) (h : Models s env)
    (hbody : StmtsFollow s.push rs t bs) :
    ActionFollows s (some (.block rs)) t.pop (some (.block bs.1), env) := by
  obtain ⟨bs, env'⟩ := bs
  obtain ⟨rfl, hloose, hpasses⟩ := hbody
  have hsize : s.push.frames.size = s.frames.size + 1 := Array.size_push ..
  have hchain : s.push.chain s.push.current = s.frames.size :: s.chain s.current :=
    Scopes.chain_push_new
  dsimp only at *
  rw [hsize, hchain] at hpasses
  rw [hsize]
  refine ⟨rfl, ?_, hpasses.block hs h⟩
  show some (Action.block (Stmt.listMapUses .loose bs)) = _
  rw [hloose]

/-- A condition: the second branch is gone through behind the first, in its scopes and its
environment. -/
theorem ActionFollows.branch {e e' : Expr} {taken : Syntax.Stmt} {r o : Option Stmt}
    {b d : Option Stmt × Env} (hs : s.Ok) (he : Placed s.current e e')
    (htaken : StmtFollows s r t b) (hother : StmtFollows t o u d) :
    ActionFollows s (some (.branch e (Resolve.orNothing c taken r) o)) u
      (some (.branch e' (Resolve.orNothing c taken b.1) d.1), d.2) := by
  obtain ⟨heq, hloose, hpasses⟩ := htaken.orNothing (c := c) taken
  obtain ⟨o', env'⟩ := d
  obtain ⟨rfl, hloose', hpasses'⟩ := hother
  have hboth := hpasses.trans hpasses' hs
  rw [hpasses.current, hpasses.evolves.chain hs.current, hpasses.size,
    Stmt.length_scopes] at hboth
  rw [hpasses.current, hpasses.size, Stmt.length_scopes]
  refine ⟨?_, ?_, hboth⟩
  · rw [heq, he.eq]
    rfl
  · rw [Option.map_some, Action.mapUses, he.loose, hloose, hloose']

/-- A loop: what its body declares without a block of its own stays behind it. -/
theorem ActionFollows.loop {e e' : Expr} {body : Syntax.Stmt} {r : Option Stmt}
    {b : Option Stmt × Env} (bodyFirst : Bool) (he : Placed s.current e e')
    (hbody : StmtFollows s r t b) :
    ActionFollows s (some (.loop e (Resolve.orNothing c body r) bodyFirst)) t
      (some (.loop e' (Resolve.orNothing c body b.1) bodyFirst), b.2) := by
  obtain ⟨heq, hloose, hpasses⟩ := hbody.orNothing (c := c) body
  refine ⟨?_, ?_, hpasses⟩
  · rw [heq, he.eq]
    rfl
  · rw [Option.map_some, Action.mapUses, he.loose, hloose]

end Glue

section Statements

variable {c : Context}

/-- The value is resolved in front of the declaration on both sides. -/
theorem define_follows (depth : Nat) (site : Location) (name : Syntax.Name) (value : Syntax.Expr)
    {env : Env} {s : State} {I : Imports} (hs : s.scopes.Ok) (h : Models s.scopes env) :
    Follows (action c depth site (.define name value))
      (Elaborate.action c depth env site (.define name value))
      (fun r t b => ActionFollows s.scopes r t.scopes b) s I := by
  rw [action, Elaborate.action]
  refine Follows.read (expr_reads h value) fun e e' he => ?_
  dsimp only
  -- where uses of labels stand says nothing about the type of the variable
  rw [show e.type = e'.type by rw [he.eq, Expr.type_mapUses]]
  refine Follows.declare (Follows.scopes (Follows.pure ?_))
  exact .plain (congrArg _ he.eq) (congrArg _ he.loose) rfl rfl (passes_defineVariable hs h _)

/-- The array is declared once its size and the type of its elements are known. -/
theorem reserve_follows (name : Syntax.Name) (count : Nat) (element : Ty) {env : Env} {s : State}
    {I : Imports} (hs : s.scopes.Ok) (h : Models s.scopes env) (site : Location) :
    Follows (do
        let id ← declare c
        let v : Variable := ⟨id, name.text, .array element count, some count, site⟩
        updateScopes fun scopes => scopes.defineVariable v
        return some (.reserve v))
      (do
        let id ← Elaborate.next c
        let v : Variable := ⟨id, name.text, .array element count, some count, site⟩
        return (some (.reserve v), env.withVariable v))
      (fun a t b => ActionFollows s.scopes a t.scopes b) s I :=
  Follows.declare (Follows.scopes (Follows.pure
    (.plain rfl rfl rfl rfl (passes_defineVariable hs h _))))

theorem defineArray_follows (depth : Nat) (site : Location) (name : Syntax.Name)
    (size : Syntax.Expr) (element : Option Syntax.TypeExpr) {env : Env} {s : State} {I : Imports}
    (hs : s.scopes.Ok) (h : Models s.scopes env) :
    Follows (action c depth site (.defineArray name size element))
      (Elaborate.action c depth env site (.defineArray name size element))
      (fun r t b => ActionFollows s.scopes r t.scopes b) s I := by
  rw [action, Elaborate.action]
  refine Follows.read (count_reads h size) ?_
  rintro n _ rfl
  cases element with
  | none => exact Follows.bind (Q := fun a t b => t = s ∧ a = b) (Follows.pure ⟨rfl, rfl⟩) (by
      rintro type t _ J ⟨rfl, rfl⟩
      exact reserve_follows name n type hs h _)
  | some element =>
      refine Follows.read (typeExpr_reads h element) ?_
      rintro type _ rfl
      exact reserve_follows name n type hs h _

/-- Both expressions are resolved where the statement stands. -/
theorem assign_follows (depth : Nat) (site : Location) (target value : Syntax.Expr) {env : Env}
    {s : State} {I : Imports} (hs : s.scopes.Ok) (h : Models s.scopes env) :
    Follows (action c depth site (.assign target value))
      (Elaborate.action c depth env site (.assign target value))
      (fun r t b => ActionFollows s.scopes r t.scopes b) s I := by
  rw [action, Elaborate.action]
  refine Follows.read (expr_reads h target) fun e e' he => ?_
  refine Follows.read (expr_reads h value) fun f f' hf => Follows.pure ?_
  refine .plain ?_ ?_ rfl rfl (.refl hs h)
  · rw [he.eq, hf.eq, Action.number]
  · rw [Action.mapUses, he.loose, hf.loose]

mutual

/-- Labels first, then the command. -/
theorem stmt_follows (depth : Nat) : ∀ (stx : Syntax.Stmt) {env : Env} {s : State} {I : Imports},
    s.scopes.Ok → Models s.scopes env →
      Follows (stmt c depth stx) (Elaborate.stmt c depth env stx)
        (fun r t b => StmtFollows s.scopes r t.scopes b) s I
  | .mk decls command span, env, s, I, hs, h => by
      rw [stmt, Elaborate.stmt]
      refine (declareLabels_follows decls hs h).bind ?_
      rintro ls t _ J ⟨rfl, hls⟩
      refine (declareLabels_follows (siteLabels command) hls.ok hls.models).bind ?_
      rintro more u _ K ⟨rfl, hmore⟩
      have hboth := hls.trans hmore hs
      refine (action_follows depth (c.locate span) command hmore.ok hmore.models).bind ?_
      intro a v b L ha
      exact Follows.pure (ha.finish hs hboth _)

/-- The environment behind a statement is the one in front of the next. -/
theorem stmts_follow (depth : Nat) : ∀ (ss : List Syntax.Stmt) {env : Env} {s : State}
    {I : Imports}, s.scopes.Ok → Models s.scopes env →
      Follows (stmts c depth ss) (Elaborate.stmts c depth env ss)
        (fun r t b => StmtsFollow s.scopes r t.scopes b) s I
  | [], env, s, I, hs, h => by
      rw [stmts, Elaborate.stmts]
      exact Follows.pure ⟨rfl, rfl, .refl hs h⟩
  | stx :: ss, env, s, I, hs, h => by
      rw [stmts, Elaborate.stmts]
      refine (stmt_follows depth stx hs h).bind ?_
      intro first t b J hfirst
      refine (stmts_follow depth ss hfirst.passes.ok hfirst.passes.models).bind ?_
      intro rest u bs K hrest
      exact Follows.pure (hfirst.cons hs hrest)

theorem optionalBranch_follows (depth : Nat) : ∀ (stx : Option Syntax.Stmt) {env : Env} {s : State}
    {I : Imports}, s.scopes.Ok → Models s.scopes env →
      Follows (optionalBranch c depth stx) (Elaborate.branch c depth env stx)
        (fun r t b => StmtFollows s.scopes r t.scopes b) s I
  | none, env, s, I, hs, h => by
      rw [optionalBranch, Elaborate.branch]
      exact Follows.pure ⟨rfl, rfl, .refl hs h⟩
  | some stx, env, s, I, hs, h => by
      rw [optionalBranch, Elaborate.branch]
      refine (stmt_follows depth stx hs h).bind ?_
      intro r t b J hr
      obtain ⟨heq, hloose, hpasses⟩ := hr.orNothing (c := c) stx
      exact Follows.pure ⟨congrArg some heq, congrArg some hloose, hpasses⟩

/-- One case for each command. -/
theorem action_follows (depth : Nat) (site : Location) : ∀ (command : Syntax.Command) {env : Env}
    {s : State} {I : Imports}, s.scopes.Ok → Models s.scopes env →
      Follows (action c depth site command) (Elaborate.action c depth env site command)
        (fun r t b => ActionFollows s.scopes r t.scopes b) s I
  | .importFile file, env, s, I, hs, h => by
      rw [action, Elaborate.action]
      refine (importNamed_follows file.text site hs h).bind ?_
      rintro p t _ J ⟨rfl, hp⟩
      exact Follows.pure ⟨rfl, rfl, hp⟩
  | .evaluate value, env, s, I, hs, h | .goto value _, env, s, I, hs, h => by
      rw [action, Elaborate.action]
      refine Follows.read (expr_reads h value) fun e e' he => Follows.pure ?_
      exact .plain (congrArg _ he.eq) (congrArg _ he.loose) rfl rfl (.refl hs h)
  | .define name value, env, s, I, hs, h => define_follows depth site name value hs h
  | .defineArray name size element, env, s, I, hs, h =>
      defineArray_follows depth site name size element hs h
  | .assign target value, env, s, I, hs, h => assign_follows depth site target value hs h
  | .block body, env, s, I, hs, h => by
      rw [action, Elaborate.action]
      refine Follows.scopes ?_
      refine (stmts_follow (depth + 1) body (Scopes.ok_push hs) (models_push hs h)).bind ?_
      intro r t b J hbody
      exact Follows.scopes (Follows.pure (.block hs h hbody))
  | .branch test taken otherwise, env, s, I, hs, h => by
      rw [action, Elaborate.action]
      refine Follows.read (condition_reads h test) fun e e' he => ?_
      refine (stmt_follows (depth + 1) taken hs h).bind ?_
      intro r t b J htaken
      refine (optionalBranch_follows (depth + 1) otherwise htaken.passes.ok
        htaken.passes.models).bind ?_
      intro o u d K hother
      exact Follows.pure (.branch hs he htaken hother)
  | .loop test body bodyFirst, env, s, I, hs, h => by
      rw [action, Elaborate.action]
      refine Follows.read (condition_reads h test) fun e e' he => ?_
      refine (stmt_follows (depth + 1) body hs h).bind ?_
      intro r t b J hbody
      exact Follows.pure (.loop bodyFirst he hbody)
  | .struct name fields, env, s, I, hs, h => by
      rw [action, Elaborate.action]
      refine (defineStruct_follows depth name.text fields hs h).bind ?_
      exact fun _ t env' J ht => Follows.pure (.nothing ht)
  | .words values, env, s, I, hs, h => by
      rw [action, Elaborate.action]
      refine Follows.read (exprList_reads h values) fun es es' hes => Follows.pure ?_
      exact .plain (congrArg _ hes.eq) (congrArg _ hes.loose) rfl rfl (.refl hs h)
  | .pragma name value, env, s, I, hs, h => by
      rw [action, Elaborate.action]
      refine (pragma_follows depth name.text value site hs h).bind ?_
      exact fun _ t _ J ht => Follows.pure (.nothing ht)

end

end Statements

end Resolve

end ByteJump
