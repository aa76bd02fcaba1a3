import ByteJump.Image.Layout
import ByteJump.Program

set_option autoImplicit false

/-!
# Proper programs

What a resolved program has that not every tree of statements has: each variable is declared before
it is used, in the order of the text, what is tested is a number, an array has a length, and the
label of every use is known.

Declarations are collected over blocks and branches alike, since a register is handed out whether
or not the statement ever runs.  An imported file is a world of its own here; `Stmt.files` says
which ones there are.
-/

namespace ByteJump

/-- The values of a type that can be computed with have at least one byte and fit a register. -/
theorem Ty.width_bounds {type : Ty} (h : type.isInteger = true) {width : Nat}
    (hwidth : type.width = some width) : 1 ≤ width ∧ width ≤ Memory.registerSize := by
  cases type with
  | array inner count => cases h
  | object o =>
      cases o with
      | word set size =>
          cases hwidth
          cases size <;> decide
      | string set | literal set =>
          cases hwidth
          decide
      | struct id name => cases h

/-! ## Expressions -/

mutual

/-- Every variable is one of `vars`, and an operator with one operand applies to a number. -/
def Expr.Proper (vars : Variable → Prop) : Expr → Prop
  | .int .. | .str .. | .label .. => True
  | .variable v _ => vars v
  | .cast operand _ => Expr.Proper vars operand
  | .unary _ operand _ => operand.type.isInteger = true ∧ Expr.Proper vars operand
  | .binary _ left right _ => Expr.Proper vars left ∧ Expr.Proper vars right
  | .index base indices _ => Expr.Proper vars base ∧ Expr.AllProper vars indices

/-- All of several expressions are proper. -/
def Expr.AllProper (vars : Variable → Prop) : List Expr → Prop
  | [] => True
  | e :: es => Expr.Proper vars e ∧ Expr.AllProper vars es

end

mutual

/-- Every use of a label has a target, and that is one of `among`. -/
def Expr.LabelsIn (among : Label → Prop) : Expr → Prop
  | .int .. | .str .. | .variable .. => True
  | .label use _ => ∃ label, use.target = some label ∧ among label
  | .cast operand _ => Expr.LabelsIn among operand
  | .unary _ operand _ => Expr.LabelsIn among operand
  | .binary _ left right _ => Expr.LabelsIn among left ∧ Expr.LabelsIn among right
  | .index base indices _ => Expr.LabelsIn among base ∧ Expr.AllLabelsIn among indices

/-- Every use of a label in several expressions has a target that is one of `among`. -/
def Expr.AllLabelsIn (among : Label → Prop) : List Expr → Prop
  | [] => True
  | e :: es => Expr.LabelsIn among e ∧ Expr.AllLabelsIn among es

end

mutual

theorem Expr.Proper.mono {vars vars' : Variable → Prop} (hvars : ∀ v, vars v → vars' v) :
    ∀ {e : Expr}, e.Proper vars → e.Proper vars'
  | .int .., _ | .str .., _ | .label .., _ => trivial
  | .variable v _, h => hvars v h
  | .cast operand _, h => Expr.Proper.mono (e := operand) hvars h
  | .unary _ operand _, h => ⟨h.1, Expr.Proper.mono (e := operand) hvars h.2⟩
  | .binary _ left right _, h =>
      ⟨Expr.Proper.mono (e := left) hvars h.1, Expr.Proper.mono (e := right) hvars h.2⟩
  | .index base _ _, h => ⟨Expr.Proper.mono (e := base) hvars h.1, Expr.AllProper.mono hvars h.2⟩

theorem Expr.AllProper.mono {vars vars' : Variable → Prop} (hvars : ∀ v, vars v → vars' v) :
    ∀ {es : List Expr}, Expr.AllProper vars es → Expr.AllProper vars' es
  | [], _ => trivial
  | e :: _, h => ⟨Expr.Proper.mono (e := e) hvars h.1, Expr.AllProper.mono hvars h.2⟩

end

/-! ## What statements declare and place -/

mutual

/-- The variables that a statement declares. -/
def Stmt.declared : Stmt → List DeclId
  | .mk _ action _ => Action.declared action

/-- The variables that statements declare. -/
def Stmt.listDeclared : List Stmt → List DeclId
  | [] => []
  | s :: ss => Stmt.declared s ++ Stmt.listDeclared ss

/-- The variables that a statement declares that may be absent. -/
def Stmt.optionDeclared : Option Stmt → List DeclId
  | some s => Stmt.declared s
  | none => []

/-- The variables that an action declares. -/
def Action.declared : Action → List DeclId
  | .define v _ | .reserve v => [v.id]
  | .block body => Stmt.listDeclared body
  | .branch _ taken otherwise => Stmt.declared taken ++ Stmt.optionDeclared otherwise
  | .loop _ body _ => Stmt.declared body
  | .nothing | .place _ | .evaluate _ | .goto _ | .assign .. | .words _ => []

end

mutual

/-- The labels that stand at a statement or inside it. -/
def Stmt.ownLabels : Stmt → List Label
  | .mk labels action _ => labels ++ Action.ownLabels action

/-- The labels that stand at statements or inside them. -/
def Stmt.listLabels : List Stmt → List Label
  | [] => []
  | s :: ss => Stmt.ownLabels s ++ Stmt.listLabels ss

/-- The labels that stand at a statement, or inside it, that may be absent. -/
def Stmt.optionLabels : Option Stmt → List Label
  | some s => Stmt.ownLabels s
  | none => []

/-- The labels that stand inside an action. -/
def Action.ownLabels : Action → List Label
  | .block body => Stmt.listLabels body
  | .branch _ taken otherwise => Stmt.ownLabels taken ++ Stmt.optionLabels otherwise
  | .loop _ body _ => Stmt.ownLabels body
  | .nothing | .place _ | .evaluate _ | .goto _ | .define .. | .reserve _ | .assign ..
  | .words _ => []

end

mutual

/-- The files that a statement imports. -/
def Stmt.files : Stmt → List Program
  | .mk _ action _ => Action.files action

/-- The files that statements import. -/
def Stmt.listFiles : List Stmt → List Program
  | [] => []
  | s :: ss => Stmt.files s ++ Stmt.listFiles ss

/-- The files that a statement imports that may be absent. -/
def Stmt.optionFiles : Option Stmt → List Program
  | some s => Stmt.files s
  | none => []

/-- The files that an action imports. -/
def Action.files : Action → List Program
  | .place file => [file]
  | .block body => Stmt.listFiles body
  | .branch _ taken otherwise => Stmt.files taken ++ Stmt.optionFiles otherwise
  | .loop _ body _ => Stmt.files body
  | .nothing | .evaluate _ | .goto _ | .define .. | .reserve _ | .assign .. | .words _ => []

end

/-! ## Proper statements -/

mutual

/-- A statement is proper where some variables are known. -/
def Stmt.Proper (known : List DeclId) : Stmt → Prop
  | .mk _ action _ => Action.Proper known action

/-- Statements are proper where some variables are known; each knows those that the statements
before it declare. -/
def Stmt.ListProper (known : List DeclId) : List Stmt → Prop
  | [] => True
  | s :: ss => Stmt.Proper known s ∧ Stmt.ListProper (known ++ s.declared) ss

/-- A statement that may be absent is proper where some variables are known. -/
def Stmt.OptionProper (known : List DeclId) : Option Stmt → Prop
  | some s => Stmt.Proper known s
  | none => True

/-- An action is proper where some variables are known. -/
def Action.Proper (known : List DeclId) : Action → Prop
  | .nothing | .place _ => True
  | .evaluate value | .goto value | .define _ value => value.Proper fun v => v.id ∈ known
  | .reserve v => v.count.isSome = true
  | .assign target value =>
      target.Proper (fun v => v.id ∈ known) ∧ value.Proper fun v => v.id ∈ known
  | .block body => Stmt.ListProper known body
  | .branch condition taken otherwise =>
      (condition.type.isInteger = true ∧ condition.Proper fun v => v.id ∈ known) ∧
        Stmt.Proper known taken ∧ Stmt.OptionProper (known ++ taken.declared) otherwise
  | .loop condition body _ =>
      (condition.type.isInteger = true ∧ condition.Proper fun v => v.id ∈ known) ∧
        Stmt.Proper known body
  | .words values => Expr.AllProper (fun v => v.id ∈ known) values

end

mutual

/-- Every use of a label in a statement has a target that is one of `among`. -/
def Stmt.LabelsIn (among : Label → Prop) : Stmt → Prop
  | .mk _ action _ => Action.LabelsIn among action

/-- Every use of a label in statements has a target that is one of `among`. -/
def Stmt.ListLabelsIn (among : Label → Prop) : List Stmt → Prop
  | [] => True
  | s :: ss => Stmt.LabelsIn among s ∧ Stmt.ListLabelsIn among ss

/-- Every use of a label in a statement that may be absent has a target that is one of `among`. -/
def Stmt.OptionLabelsIn (among : Label → Prop) : Option Stmt → Prop
  | some s => Stmt.LabelsIn among s
  | none => True

/-- Every use of a label in an action has a target that is one of `among`. -/
def Action.LabelsIn (among : Label → Prop) : Action → Prop
  | .nothing | .place _ | .reserve _ => True
  | .evaluate value | .goto value | .define _ value => value.LabelsIn among
  | .assign target value => target.LabelsIn among ∧ value.LabelsIn among
  | .block body => Stmt.ListLabelsIn among body
  | .branch condition taken otherwise =>
      condition.LabelsIn among ∧ Stmt.LabelsIn among taken ∧ Stmt.OptionLabelsIn among otherwise
  | .loop condition body _ => condition.LabelsIn among ∧ Stmt.LabelsIn among body
  | .words values => Expr.AllLabelsIn among values

end

mutual

theorem Expr.LabelsIn.mono {among among' : Label → Prop} (h : ∀ l, among l → among' l) :
    ∀ {e : Expr}, e.LabelsIn among → e.LabelsIn among'
  | .int .., _ | .str .., _ | .variable .., _ => trivial
  | .label _ _, ⟨l, htarget, hl⟩ => ⟨l, htarget, h l hl⟩
  | .cast operand _, he | .unary _ operand _, he => Expr.LabelsIn.mono (e := operand) h he
  | .binary _ left right _, he =>
      ⟨Expr.LabelsIn.mono (e := left) h he.1, Expr.LabelsIn.mono (e := right) h he.2⟩
  | .index base _ _, he => ⟨Expr.LabelsIn.mono (e := base) h he.1, Expr.AllLabelsIn.mono h he.2⟩

theorem Expr.AllLabelsIn.mono {among among' : Label → Prop} (h : ∀ l, among l → among' l) :
    ∀ {es : List Expr}, Expr.AllLabelsIn among es → Expr.AllLabelsIn among' es
  | [], _ => trivial
  | e :: _, hes => ⟨Expr.LabelsIn.mono (e := e) h hes.1, Expr.AllLabelsIn.mono h hes.2⟩

end

mutual

theorem Stmt.LabelsIn.mono {among among' : Label → Prop} (h : ∀ l, among l → among' l) :
    ∀ {s : Stmt}, s.LabelsIn among → s.LabelsIn among'
  | .mk _ action _, hs => Action.LabelsIn.mono (a := action) h hs

theorem Stmt.ListLabelsIn.mono {among among' : Label → Prop} (h : ∀ l, among l → among' l) :
    ∀ {ss : List Stmt}, Stmt.ListLabelsIn among ss → Stmt.ListLabelsIn among' ss
  | [], _ => trivial
  | s :: _, hss => ⟨Stmt.LabelsIn.mono (s := s) h hss.1, Stmt.ListLabelsIn.mono h hss.2⟩

theorem Stmt.OptionLabelsIn.mono {among among' : Label → Prop} (h : ∀ l, among l → among' l) :
    ∀ {s : Option Stmt}, Stmt.OptionLabelsIn among s → Stmt.OptionLabelsIn among' s
  | none, _ => trivial
  | some s, hs => Stmt.LabelsIn.mono (s := s) h hs

theorem Action.LabelsIn.mono {among among' : Label → Prop} (h : ∀ l, among l → among' l) :
    ∀ {a : Action}, a.LabelsIn among → a.LabelsIn among'
  | .nothing, _ | .place _, _ | .reserve _, _ => trivial
  | .evaluate _, ha | .goto _, ha | .define _ _, ha => Expr.LabelsIn.mono h ha
  | .assign _ _, ha => ⟨ha.1.mono h, ha.2.mono h⟩
  | .block _, ha => Stmt.ListLabelsIn.mono h ha
  | .branch _ taken _, ha =>
      ⟨ha.1.mono h, Stmt.LabelsIn.mono (s := taken) h ha.2.1, Stmt.OptionLabelsIn.mono h ha.2.2⟩
  | .loop _ body _, ha => ⟨ha.1.mono h, Stmt.LabelsIn.mono (s := body) h ha.2⟩
  | .words _, ha => Expr.AllLabelsIn.mono h ha

end

end ByteJump
