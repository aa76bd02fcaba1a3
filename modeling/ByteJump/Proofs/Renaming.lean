import Mathlib.Data.List.Basic
import ByteJump.Resolve.Basic

set_option autoImplicit false

/-!
# Renaming declarations and respelling paths

What a resolved program means does not depend on which unit its declarations are numbered in, nor
on which of its spellings a path is written with.  A renaming changes both throughout a program, a
fault or the scopes of a file.

Declaring and looking up commute with renaming.  Two types stay different under a renaming that
keeps units apart, and the width, the kind and the text of a type do not change at all.

All definitions are maps over the data of a program, and the lemmas are of three kinds.  Those for
types say what does not change at all, and are rules for `simp`.  Those for scopes and exports say
that an operation commutes with renaming, under the hypothesis that renaming keeps units apart
where two identities are compared.  The last ones compose two renamings, so that comparisons can
be chained.
-/

namespace ByteJump

/-! ## Renamings -/

/-- New units for declarations and new spellings for paths. -/
structure Renaming where
  unit : FileUnit → FileUnit
  path : Path → Path

variable (r : Renaming)

/-- A declaration in its new unit. -/
def DeclId.rename (d : DeclId) : DeclId := ⟨r.unit d.unit, d.number⟩

/-- A location whose file is spelled anew. -/
def Location.rename (l : Location) : Location := ⟨r.path l.file, l.span⟩

/-- An object type with the declaration of a struct renamed. -/
def Ty.Object.rename : Ty.Object → Ty.Object
  | .struct id name => .struct (id.rename r) name
  | .word set size => .word set size
  | .string set => .string set
  | .literal set => .literal set

/-- A type with its structs renamed. -/
def Ty.rename : Ty → Ty
  | .object o => .object (o.rename r)
  | .array inner count => .array (rename inner) count

/-- A variable renamed. -/
def Variable.rename (v : Variable) : Variable :=
  ⟨v.id.rename r, v.name, v.type.rename r, v.count, v.site.rename r⟩

/-- A label renamed. -/
def Label.rename (l : Label) : Label := ⟨l.id.rename r, l.name, l.exported, l.site.rename r⟩

/-- The type and the place of an expression renamed. -/
def Info.rename (i : Info) : Info := ⟨i.type.rename r, i.site.rename r⟩

/-- A use of a label with the label it means renamed. -/
def LabelUse.rename (u : LabelUse) : LabelUse := ⟨u.name, u.scope, u.target.map (Label.rename r)⟩

mutual

/-- An expression with everything it refers to renamed. -/
def Expr.rename : Expr → Expr
  | .int value i => .int value (i.rename r)
  | .str text i => .str text (i.rename r)
  | .variable v i => .variable (v.rename r) (i.rename r)
  | .label use i => .label (use.rename r) (i.rename r)
  | .cast operand i => .cast (Expr.rename operand) (i.rename r)
  | .unary op operand i => .unary op (Expr.rename operand) (i.rename r)
  | .binary op left right i => .binary op (Expr.rename left) (Expr.rename right) (i.rename r)
  | .index base indices i => .index (Expr.rename base) (Expr.renameList indices) (i.rename r)

/-- Expressions renamed. -/
def Expr.renameList : List Expr → List Expr
  | [] => []
  | e :: es => Expr.rename e :: Expr.renameList es

end

/-- A struct renamed. -/
def StructDef.rename (d : StructDef) : StructDef :=
  ⟨d.id.rename r, d.name, d.fields.map fun field => (field.1, field.2.rename r)⟩

/-- Exports renamed. -/
def Exports.rename (x : Exports) : Exports :=
  ⟨x.structs.map (StructDef.rename r), x.labels.map (Label.rename r)⟩

mutual

/-- A statement renamed. -/
def Stmt.rename : Stmt → Stmt
  | .mk labels action site =>
      .mk (labels.map (Label.rename r)) (Action.rename action) (site.rename r)

/-- Statements renamed. -/
def Stmt.renameList : List Stmt → List Stmt
  | [] => []
  | s :: ss => Stmt.rename s :: Stmt.renameList ss

/-- A statement that may be absent renamed. -/
def Stmt.renameOption : Option Stmt → Option Stmt
  | some s => some (Stmt.rename s)
  | none => none

/-- An action renamed. -/
def Action.rename : Action → Action
  | .nothing => .nothing
  | .place file => .place (Program.rename file)
  | .evaluate value => .evaluate (value.rename r)
  | .goto target => .goto (target.rename r)
  | .define v value => .define (v.rename r) (value.rename r)
  | .reserve v => .reserve (v.rename r)
  | .assign target value => .assign (target.rename r) (value.rename r)
  | .block body => .block (Stmt.renameList body)
  | .branch condition taken otherwise =>
      .branch (condition.rename r) (Stmt.rename taken) (Stmt.renameOption otherwise)
  | .loop condition body bodyFirst => .loop (condition.rename r) (Stmt.rename body) bodyFirst
  | .words values => .words (Expr.renameList r values)

/-- A resolved file renamed. -/
def Program.rename : Program → Program
  | .mk file statements exports pragmas =>
      .mk (r.path file) (Stmt.renameList statements) (exports.rename r) pragmas

end

/-- A fault with the paths in it spelled anew. -/
def Fault.rename : Fault → Fault
  | .undefined kind name site => .undefined kind name (site.rename r)
  | .typeMismatch expected found site => .typeMismatch expected found (site.rename r)
  | .invalidAccess attempt site => .invalidAccess attempt (site.rename r)
  | .notConstant site => .notConstant (site.rename r)
  | .invalidPragma pragma value site => .invalidPragma pragma value (site.rename r)
  | .misplacedPragma pragma site => .misplacedPragma pragma (site.rename r)
  | .unknownPragma pragma site => .unknownPragma pragma (site.rename r)
  | .importNotFound name searched site =>
      .importNotFound name (searched.map r.path) (site.rename r)
  | .importCycle chain site => .importCycle (chain.map r.path) (site.rename r)
  | .unresolvedLabel name site => .unresolvedLabel name (site.rename r)
  | .duplicateField field struct site => .duplicateField field struct (site.rename r)
  | .unsupportedTarget site => .unsupportedTarget (site.rename r)
  | .unimplemented construct site => .unimplemented construct (site.map (Location.rename r))
  | .divisionByZero site => .divisionByZero (site.rename r)
  | .outOfRegisters limit site => .outOfRegisters limit (site.map (Location.rename r))
  | .load path reason => .load (r.path path) reason
  | .internal what => .internal what
  | .outOfBounds pc address => .outOfBounds pc address
  | .stepLimit limit => .stepLimit limit

/-- A scope renamed. -/
def Scopes.Frame.rename (f : Scopes.Frame) : Scopes.Frame :=
  ⟨f.types.map fun d => (d.1, d.2.rename r), f.vars.map fun d => (d.1, d.2.rename r),
    f.labels.map fun d => (d.1, d.2.rename r), f.chain⟩

/-- Scopes renamed. -/
def Scopes.rename (s : Scopes) : Scopes := ⟨s.frames.map (Scopes.Frame.rename r), s.current⟩

/-- What is known about a file, renamed. -/
def Resolve.State.rename (s : Resolve.State) : Resolve.State :=
  ⟨s.scopes.rename r, s.declared, s.exports.rename r, s.pragmas⟩

variable {r}

/-! ## Types

What the compiler asks a type about does not depend on units. -/

@[simp] theorem Ty.width_rename (t : Ty) : (t.rename r).width = t.width := by
  induction t with
  | object o => cases o <;> rfl
  | array inner count ih => simp [Ty.rename, Ty.width, ih]

@[simp] theorem Ty.text_rename (t : Ty) : (t.rename r).text = t.text := by
  induction t with
  | object o => cases o <;> rfl
  | array inner count ih => simp [Ty.rename, Ty.text, ih]

@[simp] theorem Ty.isInteger_rename (t : Ty) : (t.rename r).isInteger = t.isInteger := by
  cases t with
  | object o => cases o <;> rfl
  | array inner count => rfl

@[simp] theorem Ty.isLiteral_rename (t : Ty) : (t.rename r).isLiteral = t.isLiteral := by
  cases t with
  | object o => cases o <;> rfl
  | array inner count => rfl

@[simp] theorem DeclId.rename_inj (hr : r.unit.Injective) {d e : DeclId} :
    d.rename r = e.rename r ↔ d = e := by
  cases d
  cases e
  simp [DeclId.rename, hr.eq_iff]

/-- Structs are compared by their identities, which stay apart. -/
theorem Ty.Object.beq_rename (hr : r.unit.Injective) (a b : Ty.Object) :
    (a.rename r == b.rename r) = (a == b) := by
  rw [Bool.eq_iff_iff, beq_iff_eq, beq_iff_eq]
  cases a <;> cases b <;> simp [Ty.Object.rename, DeclId.rename_inj hr]

/-- Types that are not the same stay so as long as units are kept apart. -/
theorem Ty.same_rename (hr : r.unit.Injective) (a b : Ty) :
    (a.rename r).same (b.rename r) = a.same b := by
  induction a generalizing b with
  | object a =>
      cases b with
      | object b => exact Ty.Object.beq_rename hr a b
      | array inner count => rfl
  | array inner count ih =>
      cases b with
      | object b => rfl
      | array inner' count' => simp [Ty.rename, Ty.same, ih]

@[simp] theorem Builtins.rename_word (b : Builtins) (size : WordSize) :
    (b.word size).rename r = b.word size := rfl

theorem Builtins.rename_string (b : Builtins) : b.string.rename r = b.string := rfl

theorem Builtins.rename_literal (b : Builtins) : b.literal.rename r = b.literal := rfl

theorem Builtins.rename_address (b : Builtins) : b.address.rename r = b.address := rfl

/-! ## Expressions -/

@[simp] theorem Expr.info_rename (e : Expr) : (e.rename r).info = e.info.rename r := by
  cases e <;> rfl

/-- The type of a renamed expression is the renamed type. -/
@[simp] theorem Expr.type_rename (e : Expr) : (e.rename r).type = e.type.rename r := by
  simp [Expr.type, Info.rename]

@[simp] theorem Expr.site_rename (e : Expr) : (e.rename r).site = e.site.rename r := by
  simp [Expr.site, Info.rename]

/-! ## Scopes

Names are not renamed, so a look-up by name finds the renamed declaration. -/

namespace Scopes

@[simp] theorem current_rename (s : Scopes) : (s.rename r).current = s.current := rfl

@[simp] theorem chain_rename (s : Scopes) (scope : Nat) : (s.rename r).chain scope = s.chain scope := by
  unfold chain rename
  rw [Array.getElem?_map]
  cases s.frames[scope]? with
  | none => rfl
  | some frame => rfl

/-- A new frame has nothing to rename. -/
theorem push_rename (s : Scopes) : (s.rename r).push = s.push.rename r := by
  have hframe : Frame.rename r ⟨[], [], [], s.frames.size :: s.chain s.current⟩ =
      ⟨[], [], [], s.frames.size :: s.chain s.current⟩ := rfl
  have hchain := chain_rename (r := r) s s.current
  simp only [rename] at hchain
  simp only [push, rename, Array.map_push, Array.size_map, hframe, hchain]

theorem pop_rename (s : Scopes) : (s.rename r).pop = s.pop.rename r := by
  unfold pop
  rw [current_rename, chain_rename]
  rcases s.chain s.current with _ | ⟨_, _ | ⟨parent, rest⟩⟩ <;> rfl

theorem modify_rename {change change' : Frame → Frame}
    (h : ∀ f, change' (f.rename r) = (change f).rename r) (s : Scopes) :
    (s.rename r).modify change' = (s.modify change).rename r := by
  simp only [modify, rename]
  congr 1
  apply Array.ext
  · simp
  · intro i hi hi'
    simp only [Array.getElem_modify, Array.getElem_map]
    split
    · exact h _
    · rfl

theorem defineType_rename (s : Scopes) (name : String) (type : Ty) :
    (s.rename r).defineType name (type.rename r) = (s.defineType name type).rename r := by
  apply modify_rename
  intro f
  rfl

theorem defineVariable_rename (s : Scopes) (v : Variable) :
    (s.rename r).defineVariable (v.rename r) = (s.defineVariable v).rename r := by
  apply modify_rename
  intro f
  rfl

theorem defineLabel_rename (s : Scopes) (label : Label) :
    (s.rename r).defineLabel (label.rename r) = (s.defineLabel label).rename r := by
  apply modify_rename
  intro f
  rfl

theorem lookup_map {α β : Type} (f : α → β) (name : String) (l : List (String × α)) :
    (l.map fun d => (d.1, f d.2)).lookup name = (l.lookup name).map f := by
  induction l with
  | nil => rfl
  | cons d l ih =>
      rw [List.map_cons, List.lookup_cons, List.lookup_cons]
      cases name == d.1 with
      | true => rfl
      | false => exact ih

/-- By induction on the chain of scopes. -/
theorem findIn_rename {α : Type} (f : α → α) (select : Frame → List (String × α))
    (h : ∀ g, select (g.rename r) = (select g).map fun d => (d.1, f d.2))
    (s : Scopes) (scopes : List Nat) (name : String) :
    (s.rename r).findIn select scopes name = (s.findIn select scopes name).map f := by
  induction scopes with
  | nil => rfl
  | cons scope scopes ih =>
      unfold findIn at ih ⊢
      rw [List.findSome?_cons, List.findSome?_cons]
      have hframe : (s.rename r).frames[scope]? = s.frames[scope]?.map (Frame.rename r) := by
        simp [rename]
      rw [hframe]
      cases s.frames[scope]? with
      | none => exact ih
      | some g =>
          simp only [Option.map_some, h, lookup_map]
          cases (select g).lookup name with
          | none => exact ih
          | some a => rfl

theorem findType_rename (s : Scopes) (name : String) :
    (s.rename r).findType name = (s.findType name).map (Ty.rename r) := by
  unfold findType
  rw [chain_rename, current_rename]
  exact findIn_rename _ _ (fun _ => rfl) s _ name

theorem findVariable_rename (s : Scopes) (name : String) :
    (s.rename r).findVariable name = (s.findVariable name).map (Variable.rename r) := by
  unfold findVariable
  rw [chain_rename, current_rename]
  exact findIn_rename _ _ (fun _ => rfl) s _ name

/-- The label that is found is renamed. -/
theorem findLabel_rename (s : Scopes) (scope : Nat) (name : String) :
    (s.rename r).findLabel scope name = (s.findLabel scope name).map (Label.rename r) := by
  unfold findLabel
  rw [chain_rename]
  exact findIn_rename _ _ (fun _ => rfl) s _ name

/-- Built-in types have no identity that could be renamed. -/
theorem ofBuiltins_rename (b : Builtins) : (ofBuiltins b).rename r = ofBuiltins b := by
  simp [ofBuiltins, rename, Frame.rename, Builtins.named, b.rename_string, b.rename_address]

end Scopes

/-! ## Exports -/

namespace Exports

/-- An export with the same name is replaced on both sides. -/
theorem addStruct_rename (x : Exports) (d : StructDef) :
    (x.rename r).addStruct (d.rename r) = (x.addStruct d).rename r := by
  simp [addStruct, rename, StructDef.rename, List.filter_map, Function.comp_def]

theorem addLabel_rename (x : Exports) (l : Label) :
    (x.rename r).addLabel (l.rename r) = (x.addLabel l).rename r := by
  simp [addLabel, rename, Label.rename, List.filter_map, Function.comp_def]

end Exports

/-! ## Renaming twice -/

/-- One renaming after another. -/
def Renaming.comp (q r : Renaming) : Renaming := ⟨q.unit ∘ r.unit, q.path ∘ r.path⟩

section Comp

variable {q : Renaming}

@[simp] theorem DeclId.rename_rename (d : DeclId) : (d.rename r).rename q = d.rename (q.comp r) := rfl

@[simp] theorem Location.rename_rename (l : Location) :
    (l.rename r).rename q = l.rename (q.comp r) := rfl

@[simp] theorem Ty.rename_rename (t : Ty) : (t.rename r).rename q = t.rename (q.comp r) := by
  induction t with
  | object o => cases o <;> rfl
  | array inner count ih => simp [Ty.rename, ih]

@[simp] theorem Variable.rename_rename (v : Variable) :
    (v.rename r).rename q = v.rename (q.comp r) := by
  simp [Variable.rename]

@[simp] theorem Label.rename_rename (l : Label) : (l.rename r).rename q = l.rename (q.comp r) := by
  simp [Label.rename]

@[simp] theorem Info.rename_rename (i : Info) : (i.rename r).rename q = i.rename (q.comp r) := by
  simp [Info.rename]

@[simp] theorem LabelUse.rename_rename (u : LabelUse) :
    (u.rename r).rename q = u.rename (q.comp r) := by
  simp [LabelUse.rename, Function.comp_def]

@[simp] theorem Exports.rename_rename (x : Exports) :
    (x.rename r).rename q = x.rename (q.comp r) := by
  simp [Exports.rename, StructDef.rename, Function.comp_def]

mutual

/-- By induction on the expression. -/
theorem Expr.rename_rename : ∀ e : Expr, (e.rename r).rename q = e.rename (q.comp r)
  | .int .. | .str .. | .variable .. | .label .. => by simp [Expr.rename]
  | .cast operand i | .unary op operand i => by
      simp [Expr.rename, Expr.rename_rename operand]
  | .binary op left right i => by
      simp [Expr.rename, Expr.rename_rename left, Expr.rename_rename right]
  | .index base indices i => by
      simp [Expr.rename, Expr.rename_rename base, Expr.renameList_renameList indices]

theorem Expr.renameList_renameList :
    ∀ es, Expr.renameList q (Expr.renameList r es) = Expr.renameList (q.comp r) es
  | [] => rfl
  | e :: es => by
      simp [Expr.renameList, Expr.rename_rename e, Expr.renameList_renameList es]

end

mutual

/-- By induction on the statement. -/
theorem Stmt.rename_rename : ∀ s : Stmt, (s.rename r).rename q = s.rename (q.comp r)
  | .mk labels action site => by
      simp [Stmt.rename, Action.rename_rename action, Function.comp_def]

theorem Stmt.renameList_renameList :
    ∀ ss, Stmt.renameList q (Stmt.renameList r ss) = Stmt.renameList (q.comp r) ss
  | [] => rfl
  | s :: ss => by
      simp [Stmt.renameList, Stmt.rename_rename s, Stmt.renameList_renameList ss]

theorem Stmt.renameOption_renameOption :
    ∀ s, Stmt.renameOption q (Stmt.renameOption r s) = Stmt.renameOption (q.comp r) s
  | none => rfl
  | some s => by simp [Stmt.renameOption, Stmt.rename_rename s]

theorem Action.rename_rename : ∀ a : Action, (a.rename r).rename q = a.rename (q.comp r)
  | .nothing => rfl
  | .place file => by simp [Action.rename, Program.rename_rename file]
  | .evaluate value | .goto value | .define v value => by
      simp [Action.rename, Expr.rename_rename value]
  | .reserve v => by simp [Action.rename]
  | .assign target value => by
      simp [Action.rename, Expr.rename_rename target, Expr.rename_rename value]
  | .block body => by simp [Action.rename, Stmt.renameList_renameList body]
  | .branch condition taken otherwise => by
      simp [Action.rename, Expr.rename_rename condition, Stmt.rename_rename taken,
        Stmt.renameOption_renameOption otherwise]
  | .loop condition body bodyFirst => by
      simp [Action.rename, Expr.rename_rename condition, Stmt.rename_rename body]
  | .words values => by simp [Action.rename, Expr.renameList_renameList values]

theorem Program.rename_rename : ∀ p : Program, (p.rename r).rename q = p.rename (q.comp r)
  | .mk file statements exports pragmas => by
      simp [Program.rename, Renaming.comp, Stmt.renameList_renameList statements]

end

theorem Fault.rename_rename (e : Fault) : (e.rename r).rename q = e.rename (q.comp r) := by
  cases e <;> simp [Fault.rename, Renaming.comp, Function.comp_def, Location.rename] <;> rfl

end Comp

/-! ## Outcomes -/

/-- A result with both its value and its fault renamed. -/
def Renaming.result {α : Type} (r : Renaming) (rename : α → α) (x : Except Fault α) :
    Except Fault α :=
  (x.map rename).mapError (Fault.rename r)

/-- The outcome of a resolution renamed. -/
def Renaming.outcome (r : Renaming) (x : Except Fault Program) : Except Fault Program :=
  r.result (Program.rename r) x

theorem Renaming.outcome_outcome {q : Renaming} (x : Except Fault Program) :
    q.outcome (r.outcome x) = (q.comp r).outcome x := by
  cases x with
  | ok p => exact congrArg Except.ok (Program.rename_rename p)
  | error e => exact congrArg Except.error (Fault.rename_rename e)

end ByteJump
