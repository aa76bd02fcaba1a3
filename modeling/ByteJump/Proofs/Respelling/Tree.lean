import ByteJump.Proofs.ImportGraph
import ByteJump.Proofs.Respelling.Basic

set_option autoImplicit false

/-!
# Respelled trees

The names in a tree respelled and its spans moved.  The names of files and of pragmas are no names of
declarations and stay.  A span is moved by what it is, so two parts with one span still have one
afterwards; trees with spans that have nothing to do with each other are told apart by putting all
spans at one place first.
-/

namespace ByteJump

section Defs

variable (r : Respelling)

namespace Syntax

/-- The declaration of a label respelled. -/
def LabelDecl.respell (d : LabelDecl) : LabelDecl := ⟨r.label d.name, d.exported, r.span d.span⟩

mutual

/-- An expression respelled. -/
def Expr.respell : Expr → Expr
  | .cast operand target span =>
      .cast (Expr.respell operand) (TypeExpr.respell target) (r.span span)
  | .access base accessors span =>
      .access (Expr.respell base) (Accessor.respellList accessors) (r.span span)
  | .int value span => .int value (r.span span)
  | .str text span => .str text (r.span span)
  | .variable name span => .variable (r.var name) (r.span span)
  | .label name span => .label (r.label name) (r.span span)
  | .unary op operand span => .unary op (Expr.respell operand) (r.span span)
  | .binary op left right span =>
      .binary op (Expr.respell left) (Expr.respell right) (r.span span)

/-- A chain of accessors respelled. -/
def Accessor.respellList : List Accessor → List Accessor
  | [] => []
  | .call arguments :: rest => .call (Expr.respellList arguments) :: Accessor.respellList rest
  | .index index :: rest => .index (Expr.respell index) :: Accessor.respellList rest

/-- Expressions respelled. -/
def Expr.respellList : List Expr → List Expr
  | [] => []
  | e :: es => Expr.respell e :: Expr.respellList es

/-- A type respelled. -/
def TypeExpr.respell : TypeExpr → TypeExpr
  | .named name span => .named (r.struct name) (r.span span)
  | .array inner size span => .array (TypeExpr.respell inner) (Expr.respell size) (r.span span)

end

/-- The field of a struct respelled. -/
def Field.respell (f : Field) : Field := ⟨r.field f.name, f.type.respell r, r.span f.span⟩

mutual

/-- A statement respelled. -/
def Stmt.respell : Stmt → Stmt
  | .mk labels command span =>
      .mk (labels.map (LabelDecl.respell r)) (Command.respell command) (r.span span)

/-- Statements respelled. -/
def Stmt.respellList : List Stmt → List Stmt
  | [] => []
  | s :: ss => Stmt.respell s :: Stmt.respellList ss

/-- A branch that may be absent respelled. -/
def Stmt.respellOption : Option Stmt → Option Stmt
  | none => none
  | some s => some (Stmt.respell s)

/-- A command respelled. -/
def Command.respell : Command → Command
  | .importFile file => .importFile ⟨file.text, r.span file.span⟩
  | .evaluate value => .evaluate (value.respell r)
  | .goto target labels => .goto (target.respell r) (labels.map (LabelDecl.respell r))
  | .define name value => .define ⟨r.var name.text, r.span name.span⟩ (value.respell r)
  | .defineArray name size element =>
      .defineArray ⟨r.var name.text, r.span name.span⟩ (size.respell r)
        (element.map (TypeExpr.respell r))
  | .assign target value => .assign (target.respell r) (value.respell r)
  | .block body => .block (Stmt.respellList body)
  | .branch condition taken otherwise =>
      .branch (condition.respell r) (Stmt.respell taken) (Stmt.respellOption otherwise)
  | .loop condition body bodyFirst => .loop (condition.respell r) (Stmt.respell body) bodyFirst
  | .struct name fields =>
      .struct ⟨r.struct name.text, r.span name.span⟩ (fields.map (Field.respell r))
  | .words values => .words (Expr.respellList r values)
  | .pragma name value =>
      .pragma ⟨name.text, r.span name.span⟩ (value.map (Expr.respell r))

end

end Syntax

/-- The respelling with all spans at one place. -/
def Respelling.flat : Respelling := { r with span := fun _ => .zero }

end Defs

/-- The respelling that leaves names and spans as they are. -/
def Respelling.same : Respelling := ⟨id, id, id, id, id⟩

theorem Respelling.same_faithful : Respelling.same.Faithful :=
  ⟨Function.injective_id, Function.injective_id, Function.injective_id, Function.injective_id,
    fun _ => rfl, fun _ => rfl, rfl, rfl⟩

theorem Respelling.Faithful.flat {r : Respelling} (hr : r.Faithful) : r.flat.Faithful :=
  ⟨hr.var, hr.label, hr.struct, hr.field, hr.entry, hr.builtin, hr.string, hr.address⟩

/-- The second tree is the first one with its names respelled, each part at a place of its own. -/
def Syntax.Respells (r : Respelling) (tree tree' : Syntax.Program) : Prop :=
  Stmt.respellList Respelling.same.flat tree' = Stmt.respellList r.flat tree

namespace Syntax

variable {r : Respelling}

@[simp] theorem Stmt.span_respell (s : Stmt) : (s.respell r).span = r.span s.span := by
  cases s
  rfl

/-! ## Imports -/

mutual

theorem Stmt.imports_respell : ∀ s : Stmt, Stmt.imports (s.respell r) = Stmt.imports s
  | .mk _ command _ => by
      rw [Stmt.respell, Stmt.imports, Stmt.imports, Command.imports_respell command]

theorem Stmt.listImports_respell :
    ∀ ss : List Stmt, Stmt.listImports (Stmt.respellList r ss) = Stmt.listImports ss
  | [] => rfl
  | s :: ss => by
      rw [Stmt.respellList, Stmt.listImports, Stmt.listImports, Stmt.imports_respell s,
        Stmt.listImports_respell ss]

theorem Stmt.optionImports_respell :
    ∀ s : Option Stmt, Stmt.optionImports (Stmt.respellOption r s) = Stmt.optionImports s
  | none => rfl
  | some s => Stmt.imports_respell s

theorem Command.imports_respell :
    ∀ c : Command, Command.imports (c.respell r) = Command.imports c
  | .block body => Stmt.listImports_respell body
  | .branch _ taken otherwise => by
      rw [Command.respell, Command.imports, Command.imports, Stmt.imports_respell taken,
        Stmt.optionImports_respell otherwise]
  | .loop _ body _ => Stmt.imports_respell body
  | .importFile .. | .evaluate .. | .goto .. | .define .. | .defineArray .. | .assign ..
  | .struct .. | .words .. | .pragma .. => rfl

end

end Syntax

end ByteJump
