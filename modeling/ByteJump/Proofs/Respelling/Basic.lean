import ByteJump.Proofs.Renaming
import ByteJump.Emit.Basic

set_option autoImplicit false

/-!
# Respelling names and moving spans

The names of variables, labels, structs and fields serve to tell declarations apart while a file is
resolved, and spans serve to say where a fault is.  A respelling changes both, in a tree as well as
in everything that is made of it.  Identities of declarations, which are numbers, stay.

Names have to stay different, those of builtin types have to stay what they are, and so has the
answer to whether a label names the entry.

The definitions are maps over trees, programs and scopes, like those of a renaming, with spellings
and spans in place of units and paths.  `Faithful` collects what a respelling has to satisfy:
injective on each kind of name, the identity on names of built-in types, and without effect on
what counts as the entry.  Faults carry names and places in their texts, so two faults are
compared by their kind, and `Mirrors` says this of two results.
-/

namespace ByteJump

/-! ## Respellings -/

/-- New names, for each kind of names on its own, and new spans. -/
structure Respelling where
  var : String → String
  label : String → String
  struct : String → String
  field : String → String
  span : Span → Span

/-- The name is that of the entry, dots in front put aside. -/
def Emit.namesEntry (name : String) : Bool :=
  String.ofList (name.toList.dropWhile (· = '.')) = entryName

/-- Different names stay different, a label names the entry as before, and builtin types keep their
names. -/
structure Respelling.Faithful (r : Respelling) : Prop where
  var : r.var.Injective
  label : r.label.Injective
  struct : r.struct.Injective
  field : r.field.Injective
  entry : ∀ name, Emit.namesEntry (r.label name) = Emit.namesEntry name
  builtin : ∀ size : WordSize, r.struct size.name = size.name
  string : r.struct "string" = "string"
  address : r.struct "addr" = "addr"

section Defs

variable (r : Respelling)

/-- A location with its span moved. -/
def Location.respell (l : Location) : Location := ⟨l.file, r.span l.span⟩

/-- An object type with the name of a struct respelled. -/
def Ty.Object.respell : Ty.Object → Ty.Object
  | .struct id name => .struct id (r.struct name)
  | .word set size => .word set size
  | .string set => .string set
  | .literal set => .literal set

/-- A type with its structs respelled. -/
def Ty.respell : Ty → Ty
  | .object o => .object (o.respell r)
  | .array inner count => .array (respell inner) count

/-- A variable respelled. -/
def Variable.respell (v : Variable) : Variable :=
  ⟨v.id, r.var v.name, v.type.respell r, v.count, v.site.respell r⟩

/-- A label respelled. -/
def Label.respell (l : Label) : Label := ⟨l.id, r.label l.name, l.exported, l.site.respell r⟩

/-- The type and the place of an expression respelled. -/
def Info.respell (i : Info) : Info := ⟨i.type.respell r, i.site.respell r⟩

/-- A use of a label respelled. -/
def LabelUse.respell (u : LabelUse) : LabelUse :=
  ⟨r.label u.name, u.scope, u.target.map (Label.respell r)⟩

mutual

/-- An expression respelled. -/
def Expr.respell : Expr → Expr
  | .int value i => .int value (i.respell r)
  | .str text i => .str text (i.respell r)
  | .variable v i => .variable (v.respell r) (i.respell r)
  | .label use i => .label (use.respell r) (i.respell r)
  | .cast operand i => .cast (Expr.respell operand) (i.respell r)
  | .unary op operand i => .unary op (Expr.respell operand) (i.respell r)
  | .binary op left right i => .binary op (Expr.respell left) (Expr.respell right) (i.respell r)
  | .index base indices i => .index (Expr.respell base) (Expr.respellList indices) (i.respell r)

/-- Expressions respelled. -/
def Expr.respellList : List Expr → List Expr
  | [] => []
  | e :: es => Expr.respell e :: Expr.respellList es

end

/-- A struct respelled. -/
def StructDef.respell (d : StructDef) : StructDef :=
  ⟨d.id, r.struct d.name, d.fields.map fun field => (r.field field.1, field.2.respell r)⟩

/-- Exports respelled. -/
def Exports.respell (x : Exports) : Exports :=
  ⟨x.structs.map (StructDef.respell r), x.labels.map (Label.respell r)⟩

mutual

/-- A statement respelled. -/
def Stmt.respell : Stmt → Stmt
  | .mk labels action site =>
      .mk (labels.map (Label.respell r)) (Action.respell action) (site.respell r)

/-- Statements respelled. -/
def Stmt.respellList : List Stmt → List Stmt
  | [] => []
  | s :: ss => Stmt.respell s :: Stmt.respellList ss

/-- A statement that may be absent respelled. -/
def Stmt.respellOption : Option Stmt → Option Stmt
  | some s => some (Stmt.respell s)
  | none => none

/-- An action respelled. -/
def Action.respell : Action → Action
  | .nothing => .nothing
  | .place file => .place (Program.respell file)
  | .evaluate value => .evaluate (value.respell r)
  | .goto target => .goto (target.respell r)
  | .define v value => .define (v.respell r) (value.respell r)
  | .reserve v => .reserve (v.respell r)
  | .assign target value => .assign (target.respell r) (value.respell r)
  | .block body => .block (Stmt.respellList body)
  | .branch condition taken otherwise =>
      .branch (condition.respell r) (Stmt.respell taken) (Stmt.respellOption otherwise)
  | .loop condition body bodyFirst => .loop (condition.respell r) (Stmt.respell body) bodyFirst
  | .words values => .words (Expr.respellList r values)

/-- A resolved file respelled. -/
def Program.respell : Program → Program
  | .mk file statements exports pragmas =>
      .mk file (Stmt.respellList statements) (exports.respell r) pragmas

end

/-- A scope respelled. -/
def Scopes.Frame.respell (f : Scopes.Frame) : Scopes.Frame :=
  ⟨f.types.map fun d => (r.struct d.1, d.2.respell r), f.vars.map fun d => (r.var d.1, d.2.respell r),
    f.labels.map fun d => (r.label d.1, d.2.respell r), f.chain⟩

/-- Scopes respelled. -/
def Scopes.respell (s : Scopes) : Scopes := ⟨s.frames.map (Scopes.Frame.respell r), s.current⟩

/-- What is known about a file, respelled. -/
def Resolve.State.respell (s : Resolve.State) : Resolve.State :=
  ⟨s.scopes.respell r, s.declared, s.exports.respell r, s.pragmas⟩

end Defs

variable {r : Respelling}

/-! ## Types -/

@[simp] theorem Ty.width_respell (t : Ty) : (t.respell r).width = t.width := by
  induction t with
  | object o => cases o <;> rfl
  | array inner count ih => simp [Ty.respell, Ty.width, ih]

@[simp] theorem Ty.isInteger_respell (t : Ty) : (t.respell r).isInteger = t.isInteger := by
  cases t with
  | object o => cases o <;> rfl
  | array inner count => rfl

@[simp] theorem Ty.isLiteral_respell (t : Ty) : (t.respell r).isLiteral = t.isLiteral := by
  cases t with
  | object o => cases o <;> rfl
  | array inner count => rfl

theorem Ty.Object.beq_respell (hr : r.Faithful) (a b : Ty.Object) :
    (a.respell r == b.respell r) = (a == b) := by
  rw [Bool.eq_iff_iff, beq_iff_eq, beq_iff_eq]
  cases a <;> cases b <;> simp [Ty.Object.respell, hr.struct.eq_iff]

/-- Types are compared by the identities of their structs. -/
theorem Ty.same_respell (hr : r.Faithful) (a b : Ty) :
    (a.respell r).same (b.respell r) = a.same b := by
  induction a generalizing b with
  | object a =>
      cases b with
      | object b => exact Ty.Object.beq_respell hr a b
      | array inner count => rfl
  | array inner count ih =>
      cases b with
      | object b => rfl
      | array inner' count' => simp [Ty.respell, Ty.same, ih]

/-! ## Expressions -/

@[simp] theorem Expr.info_respell (e : Expr) : (e.respell r).info = e.info.respell r := by
  cases e <;> rfl

@[simp] theorem Expr.type_respell (e : Expr) : (e.respell r).type = e.type.respell r := by
  simp [Expr.type, Info.respell]

@[simp] theorem Expr.site_respell (e : Expr) : (e.respell r).site = e.site.respell r := by
  simp [Expr.site, Info.respell]

/-! ## Labels -/

/-- A faithful respelling keeps the answer. -/
theorem Emit.isEntry_respell (hr : r.Faithful) (l : Label) :
    Emit.isEntry (l.respell r) = Emit.isEntry l := by
  show (l.exported && Emit.namesEntry (r.label l.name)) = (l.exported && Emit.namesEntry l.name)
  rw [hr.entry]

/-! ## Scopes

A look-up goes by names, so the key has to be respelled by the function that belongs to its kind,
and injectively. -/

namespace Scopes

@[simp] theorem chain_respell (s : Scopes) (scope : Nat) :
    (s.respell r).chain scope = s.chain scope := by
  unfold chain respell
  rw [Array.getElem?_map]
  cases s.frames[scope]? with
  | none => rfl
  | some frame => rfl

theorem push_respell (s : Scopes) : (s.respell r).push = s.push.respell r := by
  have hchain := chain_respell (r := r) s s.current
  simp only [respell] at hchain
  simp only [push, respell, Array.map_push, Array.size_map, hchain]
  rfl

theorem pop_respell (s : Scopes) : (s.respell r).pop = s.pop.respell r := by
  unfold pop
  rw [show (s.respell r).current = s.current from rfl, chain_respell]
  rcases s.chain s.current with _ | ⟨_, _ | ⟨parent, rest⟩⟩ <;> rfl

/-- A change that commutes with respelling. -/
theorem modify_respell {change change' : Frame → Frame}
    (h : ∀ f, change' (f.respell r) = (change f).respell r) (s : Scopes) :
    (s.respell r).modify change' = (s.modify change).respell r := by
  simp only [modify, respell]
  congr 1
  apply Array.ext
  · simp
  · intro i hi hi'
    simp only [Array.getElem_modify, Array.getElem_map]
    split
    · exact h _
    · rfl

theorem defineType_respell (s : Scopes) (name : String) (type : Ty) :
    (s.respell r).defineType (r.struct name) (type.respell r) =
      (s.defineType name type).respell r := by
  apply modify_respell
  intro f
  rfl

theorem defineVariable_respell (s : Scopes) (v : Variable) :
    (s.respell r).defineVariable (v.respell r) = (s.defineVariable v).respell r := by
  apply modify_respell
  intro f
  rfl

theorem defineLabel_respell (s : Scopes) (label : Label) :
    (s.respell r).defineLabel (label.respell r) = (s.defineLabel label).respell r := by
  apply modify_respell
  intro f
  rfl

/-- An injective function of keys finds the same entry. -/
theorem lookup_respell {α β : Type} {key : String → String} (hkey : key.Injective) (f : α → β)
    (name : String) (l : List (String × α)) :
    (l.map fun d => (key d.1, f d.2)).lookup (key name) = (l.lookup name).map f := by
  induction l with
  | nil => rfl
  | cons d l ih =>
      have hbeq : (key name == key d.1) = (name == d.1) := by
        rw [Bool.eq_iff_iff, beq_iff_eq, beq_iff_eq, hkey.eq_iff]
      rw [List.map_cons, List.lookup_cons, List.lookup_cons, hbeq]
      cases name == d.1 with
      | true => rfl
      | false => exact ih

/-- By induction on the chain of scopes. -/
theorem findIn_respell {α : Type} {key : String → String} (hkey : key.Injective) {f : α → α}
    {select : Frame → List (String × α)}
    (h : ∀ g, select (g.respell r) = (select g).map fun d => (key d.1, f d.2))
    (s : Scopes) (scopes : List Nat) (name : String) :
    (s.respell r).findIn select scopes (key name) = (s.findIn select scopes name).map f := by
  induction scopes with
  | nil => rfl
  | cons scope scopes ih =>
      unfold findIn at ih ⊢
      rw [List.findSome?_cons, List.findSome?_cons]
      have hframe : (s.respell r).frames[scope]? = s.frames[scope]?.map (Frame.respell r) := by
        simp [respell]
      rw [hframe]
      cases s.frames[scope]? with
      | none => exact ih
      | some g =>
          simp only [Option.map_some, h, lookup_respell hkey]
          cases (select g).lookup name with
          | none => exact ih
          | some a => rfl

theorem findType_respell (hr : r.Faithful) (s : Scopes) (name : String) :
    (s.respell r).findType (r.struct name) = (s.findType name).map (Ty.respell r) := by
  unfold findType
  rw [chain_respell]
  exact findIn_respell hr.struct (fun _ => rfl) s _ name

theorem findVariable_respell (hr : r.Faithful) (s : Scopes) (name : String) :
    (s.respell r).findVariable (r.var name) = (s.findVariable name).map (Variable.respell r) := by
  unfold findVariable
  rw [chain_respell]
  exact findIn_respell hr.var (fun _ => rfl) s _ name

theorem findLabel_respell (hr : r.Faithful) (s : Scopes) (scope : Nat) (name : String) :
    (s.respell r).findLabel scope (r.label name) =
      (s.findLabel scope name).map (Label.respell r) := by
  unfold findLabel
  rw [chain_respell]
  exact findIn_respell hr.label (fun _ => rfl) s _ name

/-- The names of built-in types stay what they are. -/
theorem ofBuiltins_respell (hr : r.Faithful) (b : Builtins) :
    (ofBuiltins b).respell r = ofBuiltins b := by
  have hnamed : (b.named.map fun d => (r.struct d.1, d.2.respell r)) = b.named := by
    simp only [Builtins.named, List.map_append, List.map_cons, List.map_nil, hr.string, hr.address,
      hr.builtin]
    rfl
  unfold ofBuiltins respell
  simp only [List.map_toArray, List.map_cons, List.map_nil, Frame.respell, hnamed]

end Scopes

/-! ## Exports -/

namespace Exports

/-- The struct of the same name is replaced on both sides. -/
theorem addStruct_respell (hr : r.Faithful) (x : Exports) (d : StructDef) :
    (x.respell r).addStruct (d.respell r) = (x.addStruct d).respell r := by
  have hname : ∀ old : StructDef, ((old.respell r).name != (d.respell r).name) = (old.name != d.name) :=
    fun old => by
      rw [Bool.eq_iff_iff, bne_iff_ne, bne_iff_ne]
      exact not_congr hr.struct.eq_iff
  simp [addStruct, respell, List.filter_map, Function.comp_def, hname]

theorem addLabel_respell (hr : r.Faithful) (x : Exports) (l : Label) :
    (x.respell r).addLabel (l.respell r) = (x.addLabel l).respell r := by
  have hname : ∀ old : Label, ((old.respell r).name != (l.respell r).name) = (old.name != l.name) :=
    fun old => by
      rw [Bool.eq_iff_iff, bne_iff_ne, bne_iff_ne]
      exact not_congr hr.label.eq_iff
  simp [addLabel, respell, List.filter_map, Function.comp_def, hname]

end Exports

/-! ## Results up to the wording of faults -/

/-- Both results are values, the second one the image of the first, or both are faults of one
kind. -/
def Mirrors {α β : Type} (f : α → β) (x : Except Fault α) (y : Except Fault β) : Prop :=
  match x with
  | .ok a => y = .ok (f a)
  | .error e => ∃ e', y = .error e' ∧ e'.kind = e.kind

section Mirrors

variable {α β γ δ : Type}

theorem Mirrors.ok {f : α → β} (a : α) : Mirrors f (.ok a) (.ok (f a)) := rfl

theorem Mirrors.error {f : α → β} {e e' : Fault} (h : e'.kind = e.kind) :
    Mirrors f (.error e) (.error e') := ⟨e', rfl, h⟩

/-- The first fault on one side is the first on the other. -/
theorem Mirrors.bind {g : γ → δ} {f : α → β} {x : Except Fault γ} {y : Except Fault δ}
    {k : γ → Except Fault α} {l : δ → Except Fault β} (h : Mirrors g x y)
    (hk : ∀ c, Mirrors f (k c) (l (g c))) : Mirrors f (x >>= k) (y >>= l) := by
  cases x with
  | ok c =>
      rw [show y = .ok (g c) from h]
      exact hk c
  | error e =>
      obtain ⟨e', rfl, hkind⟩ := h
      exact ⟨e', rfl, hkind⟩

theorem Mirrors.map {x y : Except Fault α} (h : Mirrors id x y) (f : α → β) :
    Mirrors id (x.map f) (y.map f) := by
  cases x with
  | ok a =>
      rw [show y = .ok a from h]
      exact .ok (f a)
  | error e =>
      obtain ⟨e', rfl, hkind⟩ := h
      exact .error hkind

/-- Results that mirror each other have the same kind of fault. -/
theorem Mirrors.kind {x y : Except Fault α} (h : Mirrors id x y) :
    y.mapError Fault.kind = x.mapError Fault.kind := by
  cases x with
  | ok a =>
      rw [show y = .ok a from h]
  | error e =>
      obtain ⟨e', rfl, hkind⟩ := h
      exact congrArg Except.error hkind

end Mirrors

/-! ## Constants

Only labels are looked up by the environment in question; operators compute the same numbers. -/

theorem truncate_mirrors (value : Word128) (type : Ty) (site : Location) :
    Mirrors id (Constant.truncate value type site)
      (Constant.truncate value (type.respell r) (site.respell r)) := by
  unfold Constant.truncate
  rw [Ty.width_respell]
  split
  · exact .error rfl
  · split <;> exact .ok _

theorem unary_mirrors (op : UnaryOp) (value : Word128) (site : Location) :
    Mirrors id (Constant.unary op value site) (Constant.unary op value (site.respell r)) := by
  cases op with
  | deref => exact .error rfl
  | negate | plus | complement | not => exact .ok _

/-- A division by zero is a fault on both sides. -/
theorem binary_mirrors (op : BinaryOp) (a b : Word128) (site : Location) :
    Mirrors id (Constant.binary op a b site) (Constant.binary op a b (site.respell r)) := by
  cases op with
  | div | rem =>
      simp only [Constant.binary]
      split
      · exact .error rfl
      · exact .ok _
  | add | sub | mul | and | or | xor | shiftLeft | shiftRight => exact .ok _

/-- Constants have the same value in two environments that give labels and strings the same. -/
theorem evaluate_mirrors {env env' : Constant.Env}
    (hlabel : ∀ use site, Mirrors id (env.label use site)
      (env'.label (use.respell r) (site.respell r)))
    (hstring : ∀ text site, Mirrors id (env.string text site) (env'.string text (site.respell r))) :
    ∀ e : Expr, Mirrors id (Constant.evaluate env e) (Constant.evaluate env' (e.respell r))
  | .int value _ => .ok value
  | .str text info => hstring text info.site
  | .label use info => hlabel use info.site
  | .variable .. => .error rfl
  | .index .. => .error rfl
  | .cast operand info => by
      rw [Expr.respell, Constant.evaluate, Constant.evaluate]
      exact (evaluate_mirrors hlabel hstring operand).bind fun value => truncate_mirrors value _ _
  | .unary op operand info => by
      rw [Expr.respell, Constant.evaluate, Constant.evaluate]
      exact (evaluate_mirrors hlabel hstring operand).bind fun value => unary_mirrors op value _
  | .binary op left right info => by
      rw [Expr.respell, Constant.evaluate, Constant.evaluate]
      refine (evaluate_mirrors hlabel hstring left).bind fun a => ?_
      exact (evaluate_mirrors hlabel hstring right).bind fun b => binary_mirrors op a b _

end ByteJump
