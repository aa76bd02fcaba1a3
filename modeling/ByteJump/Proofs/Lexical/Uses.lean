import ByteJump.Resolve.Label

set_option autoImplicit false

/-!
# Uses of labels

The uses of labels in a file, in the order in which the file is gone through.  Binding them gives
each use the label that the finder knows for it and changes nothing else; if the finder knows none
for some use, the first such use is the fault.

A file is resolved in one walk, and its label uses are bound in a second one, when all labels of
the file are known.  The second walk can be said in one equation: `LabelFinder.settle` takes the
list of uses and the bound program, and gives the program if the finder knows all uses, and the
fault of the first one that it does not know.  `Stmt.bind_eq` and its companions prove this
equation by recursion on the tree, so that all later statements on labels are about the list of
uses and a map over the tree.
-/

namespace ByteJump

/-! ## Uses

An occurrence is a use with its place.  The order is that of the text, since the first use without
a label is the one that is reported. -/

mutual

/-- The uses of labels in an expression, each with the place where it stands. -/
def Expr.uses : Expr → List (LabelUse × Location)
  | .label use i => [(use, i.site)]
  | .int .. | .str .. | .variable .. => []
  | .cast operand _ => Expr.uses operand
  | .unary _ operand _ => Expr.uses operand
  | .binary _ left right _ => Expr.uses left ++ Expr.uses right
  | .index base indices _ => Expr.uses base ++ Expr.listUses indices

/-- The uses of labels in several expressions. -/
def Expr.listUses : List Expr → List (LabelUse × Location)
  | [] => []
  | e :: es => Expr.uses e ++ Expr.listUses es

end

mutual

/-- The uses of labels in a statement; those in a condition come before those in what it is about,
also where the body of a loop runs first. -/
def Stmt.uses : Stmt → List (LabelUse × Location)
  | .mk _ action _ => Action.uses action

/-- The uses of labels in statements. -/
def Stmt.listUses : List Stmt → List (LabelUse × Location)
  | [] => []
  | s :: ss => Stmt.uses s ++ Stmt.listUses ss

/-- The uses of labels in a statement that may be absent. -/
def Stmt.optionUses : Option Stmt → List (LabelUse × Location)
  | some s => Stmt.uses s
  | none => []

/-- The uses of labels in an action; those of an imported file are not among them. -/
def Action.uses : Action → List (LabelUse × Location)
  | .nothing | .place _ | .reserve _ => []
  | .evaluate value | .goto value | .define _ value => Expr.uses value
  | .assign target value => Expr.uses target ++ Expr.uses value
  | .block body => Stmt.listUses body
  | .branch condition taken otherwise =>
      Expr.uses condition ++ (Stmt.uses taken ++ Stmt.optionUses otherwise)
  | .loop condition body _ => Expr.uses condition ++ Stmt.uses body
  | .words values => Expr.listUses values

end

/-! ## Changing uses

A map over uses changes neither types nor places of expressions, and two maps in a row are one. -/

mutual

/-- An expression with each use of a label changed. -/
def Expr.mapUses (f : LabelUse → LabelUse) : Expr → Expr
  | .label use i => .label (f use) i
  | .int value i => .int value i
  | .str text i => .str text i
  | .variable v i => .variable v i
  | .cast operand i => .cast (Expr.mapUses f operand) i
  | .unary op operand i => .unary op (Expr.mapUses f operand) i
  | .binary op left right i => .binary op (Expr.mapUses f left) (Expr.mapUses f right) i
  | .index base indices i => .index (Expr.mapUses f base) (Expr.listMapUses f indices) i

/-- Expressions with each use of a label changed. -/
def Expr.listMapUses (f : LabelUse → LabelUse) : List Expr → List Expr
  | [] => []
  | e :: es => Expr.mapUses f e :: Expr.listMapUses f es

end

mutual

/-- A statement with each use of a label changed. -/
def Stmt.mapUses (f : LabelUse → LabelUse) : Stmt → Stmt
  | .mk labels action site => .mk labels (Action.mapUses f action) site

/-- Statements with each use of a label changed. -/
def Stmt.listMapUses (f : LabelUse → LabelUse) : List Stmt → List Stmt
  | [] => []
  | s :: ss => Stmt.mapUses f s :: Stmt.listMapUses f ss

/-- A statement that may be absent, with each use of a label changed. -/
def Stmt.optionMapUses (f : LabelUse → LabelUse) : Option Stmt → Option Stmt
  | some s => some (Stmt.mapUses f s)
  | none => none

/-- An action with each use of a label changed. -/
def Action.mapUses (f : LabelUse → LabelUse) : Action → Action
  | .nothing => .nothing
  | .place file => .place file
  | .evaluate value => .evaluate (value.mapUses f)
  | .goto target => .goto (target.mapUses f)
  | .define v value => .define v (value.mapUses f)
  | .reserve v => .reserve v
  | .assign target value => .assign (target.mapUses f) (value.mapUses f)
  | .block body => .block (Stmt.listMapUses f body)
  | .branch condition taken otherwise =>
      .branch (condition.mapUses f) (Stmt.mapUses f taken) (Stmt.optionMapUses f otherwise)
  | .loop condition body bodyFirst =>
      .loop (condition.mapUses f) (Stmt.mapUses f body) bodyFirst
  | .words values => .words (Expr.listMapUses f values)

end

section Mapping

variable (f g : LabelUse → LabelUse)

@[simp] theorem Expr.info_mapUses (e : Expr) : (e.mapUses f).info = e.info := by
  cases e <;> rfl

@[simp] theorem Expr.type_mapUses (e : Expr) : (e.mapUses f).type = e.type :=
  congrArg Info.type (e.info_mapUses f)

@[simp] theorem Expr.site_mapUses (e : Expr) : (e.mapUses f).site = e.site :=
  congrArg Info.site (e.info_mapUses f)

mutual

/-- The uses of a changed expression are its uses, changed. -/
theorem Expr.uses_mapUses : ∀ e : Expr,
    (e.mapUses f).uses = e.uses.map fun use => (f use.1, use.2)
  | .label _ _ | .int .. | .str .. | .variable .. => rfl
  | .cast operand _ | .unary _ operand _ => Expr.uses_mapUses operand
  | .binary _ left right _ => by
      rw [Expr.mapUses, Expr.uses, Expr.uses, List.map_append, Expr.uses_mapUses left,
        Expr.uses_mapUses right]
  | .index base indices _ => by
      rw [Expr.mapUses, Expr.uses, Expr.uses, List.map_append, Expr.uses_mapUses base,
        Expr.listUses_listMapUses indices]

theorem Expr.listUses_listMapUses : ∀ es : List Expr,
    Expr.listUses (Expr.listMapUses f es) = (Expr.listUses es).map fun use => (f use.1, use.2)
  | [] => rfl
  | e :: es => by
      rw [Expr.listMapUses, Expr.listUses, Expr.listUses, List.map_append, Expr.uses_mapUses e,
        Expr.listUses_listMapUses es]

end

mutual

/-- The uses of a changed statement are its uses, changed. -/
theorem Stmt.uses_mapUses : ∀ s : Stmt,
    (s.mapUses f).uses = s.uses.map fun use => (f use.1, use.2)
  | .mk _ action _ => Action.uses_mapUses action

theorem Stmt.listUses_listMapUses : ∀ ss : List Stmt,
    Stmt.listUses (Stmt.listMapUses f ss) = (Stmt.listUses ss).map fun use => (f use.1, use.2)
  | [] => rfl
  | s :: ss => by
      rw [Stmt.listMapUses, Stmt.listUses, Stmt.listUses, List.map_append, Stmt.uses_mapUses s,
        Stmt.listUses_listMapUses ss]

theorem Stmt.optionUses_optionMapUses : ∀ s : Option Stmt,
    Stmt.optionUses (Stmt.optionMapUses f s) =
      (Stmt.optionUses s).map fun use => (f use.1, use.2)
  | some s => Stmt.uses_mapUses s
  | none => rfl

theorem Action.uses_mapUses : ∀ a : Action,
    (a.mapUses f).uses = a.uses.map fun use => (f use.1, use.2)
  | .nothing | .place _ | .reserve _ => rfl
  | .evaluate value | .goto value | .define _ value => Expr.uses_mapUses f value
  | .assign target value => by
      rw [Action.mapUses, Action.uses, Action.uses, List.map_append, Expr.uses_mapUses f target,
        Expr.uses_mapUses f value]
  | .block body => Stmt.listUses_listMapUses body
  | .branch condition taken otherwise => by
      rw [Action.mapUses, Action.uses, Action.uses, List.map_append, List.map_append,
        Expr.uses_mapUses f condition, Stmt.uses_mapUses taken,
        Stmt.optionUses_optionMapUses otherwise]
  | .loop condition body _ => by
      rw [Action.mapUses, Action.uses, Action.uses, List.map_append, Expr.uses_mapUses f condition,
        Stmt.uses_mapUses body]
  | .words values => Expr.listUses_listMapUses f values

end

mutual

/-- Two changes in a row. -/
theorem Expr.mapUses_mapUses : ∀ e : Expr, (e.mapUses f).mapUses g = e.mapUses fun use => g (f use)
  | .label _ _ | .int .. | .str .. | .variable .. => rfl
  | .cast operand _ | .unary _ operand _ => by
      simp only [Expr.mapUses, Expr.mapUses_mapUses operand]
  | .binary _ left right _ => by
      simp only [Expr.mapUses, Expr.mapUses_mapUses left, Expr.mapUses_mapUses right]
  | .index base indices _ => by
      simp only [Expr.mapUses, Expr.mapUses_mapUses base, Expr.listMapUses_listMapUses indices]

theorem Expr.listMapUses_listMapUses : ∀ es : List Expr,
    Expr.listMapUses g (Expr.listMapUses f es) = Expr.listMapUses (fun use => g (f use)) es
  | [] => rfl
  | e :: es => by
      simp only [Expr.listMapUses, Expr.mapUses_mapUses e, Expr.listMapUses_listMapUses es]

end

mutual

theorem Stmt.mapUses_mapUses : ∀ s : Stmt, (s.mapUses f).mapUses g = s.mapUses fun use => g (f use)
  | .mk _ action _ => by simp only [Stmt.mapUses, Action.mapUses_mapUses action]

theorem Stmt.listMapUses_listMapUses : ∀ ss : List Stmt,
    Stmt.listMapUses g (Stmt.listMapUses f ss) = Stmt.listMapUses (fun use => g (f use)) ss
  | [] => rfl
  | s :: ss => by
      simp only [Stmt.listMapUses, Stmt.mapUses_mapUses s, Stmt.listMapUses_listMapUses ss]

theorem Stmt.optionMapUses_optionMapUses : ∀ s : Option Stmt,
    Stmt.optionMapUses g (Stmt.optionMapUses f s) = Stmt.optionMapUses (fun use => g (f use)) s
  | some s => by simp only [Stmt.optionMapUses, Stmt.mapUses_mapUses s]
  | none => rfl

theorem Action.mapUses_mapUses : ∀ a : Action,
    (a.mapUses f).mapUses g = a.mapUses fun use => g (f use)
  | .nothing | .place _ | .reserve _ => rfl
  | .evaluate value | .goto value | .define _ value => by
      simp only [Action.mapUses, Expr.mapUses_mapUses]
  | .assign target value => by simp only [Action.mapUses, Expr.mapUses_mapUses]
  | .block body => by simp only [Action.mapUses, Stmt.listMapUses_listMapUses body]
  | .branch condition taken otherwise => by
      simp only [Action.mapUses, Expr.mapUses_mapUses, Stmt.mapUses_mapUses taken,
        Stmt.optionMapUses_optionMapUses otherwise]
  | .loop condition body _ => by
      simp only [Action.mapUses, Expr.mapUses_mapUses, Stmt.mapUses_mapUses body]
  | .words values => by simp only [Action.mapUses, Expr.listMapUses_listMapUses]

end

end Mapping

/-! ## Binding -/

/-- The label that a finder knows for a use. -/
def LabelFinder.label? (find : LabelFinder) (use : LabelUse) : Option Label :=
  find use.scope use.name

/-- A use with the label that a finder knows for it. -/
def LabelFinder.bind (find : LabelFinder) (use : LabelUse) : LabelUse :=
  { use with target := find.label? use }

/-- A value, unless the finder knows no label for one of the uses; then the first such use is the
fault. -/
def LabelFinder.settle {α : Type} (find : LabelFinder) (uses : List (LabelUse × Location)) (a : α) :
    Except Fault α :=
  match uses.find? fun use => (find.label? use.1).isNone with
  | some (use, site) => .error (.unresolvedLabel use.name site)
  | none => .ok a

section Settle

variable {α β : Type} {find : LabelFinder}

/-- Uses that are gone through one part after the other. -/
theorem LabelFinder.settle_bind {x : Except Fault β} {f : β → Except Fault α} {b : β} {a : α}
    {front back : List (LabelUse × Location)} (hx : x = find.settle front b)
    (hf : f b = find.settle back a) : x >>= f = find.settle (front ++ back) a := by
  unfold settle at hx ⊢
  rw [List.find?_append]
  cases hfind : front.find? fun use => (find.label? use.1).isNone with
  | some use =>
      rw [hx, hfind]
      rfl
  | none =>
      rw [hx, hfind, Option.none_or]
      exact hf

theorem LabelFinder.settle_pure {x : Except Fault β} {f : β → α} {b : β}
    {uses : List (LabelUse × Location)} (hx : x = find.settle uses b) :
    (x >>= fun b => pure (f b)) = find.settle uses (f b) := by
  rw [← List.append_nil uses]
  exact settle_bind hx rfl

end Settle

mutual

/-- One case for each kind of expression; parts are settled in order. -/
theorem Expr.bind_eq (find : LabelFinder) : ∀ e : Expr,
    Expr.bind find e = find.settle e.uses (e.mapUses find.bind)
  | .int .. | .str .. | .variable .. => rfl
  | .label use i => by
      cases hlabel : find use.scope use.name <;>
        simp [Expr.bind, Expr.uses, Expr.mapUses, LabelFinder.settle, LabelFinder.bind,
          LabelFinder.label?, hlabel]
  | .cast operand i | .unary op operand i => by
      rw [Expr.bind]
      exact LabelFinder.settle_pure (Expr.bind_eq find operand)
  | .binary op left right i => by
      rw [Expr.bind]
      exact LabelFinder.settle_bind (Expr.bind_eq find left)
        (LabelFinder.settle_pure (Expr.bind_eq find right))
  | .index base indices i => by
      rw [Expr.bind]
      exact LabelFinder.settle_bind (Expr.bind_eq find base)
        (LabelFinder.settle_pure (Expr.bindList_eq find indices))

theorem Expr.bindList_eq (find : LabelFinder) : ∀ es : List Expr,
    Expr.bindList find es = find.settle (Expr.listUses es) (Expr.listMapUses find.bind es)
  | [] => rfl
  | e :: es => by
      rw [Expr.bindList]
      exact LabelFinder.settle_bind (Expr.bind_eq find e)
        (LabelFinder.settle_pure (Expr.bindList_eq find es))

end

mutual

/-- A statement has the uses of its action. -/
theorem Stmt.bind_eq (find : LabelFinder) : ∀ s : Stmt,
    Stmt.bind find s = find.settle s.uses (s.mapUses find.bind)
  | .mk labels action site => by
      rw [Stmt.bind]
      exact LabelFinder.settle_pure (Action.bind_eq find action)

theorem Stmt.bindList_eq (find : LabelFinder) : ∀ ss : List Stmt,
    Stmt.bindList find ss = find.settle (Stmt.listUses ss) (Stmt.listMapUses find.bind ss)
  | [] => rfl
  | s :: ss => by
      rw [Stmt.bindList]
      exact LabelFinder.settle_bind (Stmt.bind_eq find s)
        (LabelFinder.settle_pure (Stmt.bindList_eq find ss))

theorem Stmt.bindOption_eq (find : LabelFinder) : ∀ s : Option Stmt,
    Stmt.bindOption find s = find.settle (Stmt.optionUses s) (Stmt.optionMapUses find.bind s)
  | some s => by
      rw [Stmt.bindOption]
      exact LabelFinder.settle_pure (Stmt.bind_eq find s)
  | none => rfl

/-- One case for each action; a placed file has been bound before. -/
theorem Action.bind_eq (find : LabelFinder) : ∀ a : Action,
    Action.bind find a = find.settle a.uses (a.mapUses find.bind)
  | .nothing | .place _ | .reserve _ => rfl
  | .evaluate value | .goto value | .define _ value => by
      rw [Action.bind]
      exact LabelFinder.settle_pure (Expr.bind_eq find value)
  | .assign target value => by
      rw [Action.bind]
      exact LabelFinder.settle_bind (Expr.bind_eq find target)
        (LabelFinder.settle_pure (Expr.bind_eq find value))
  | .block body => by
      rw [Action.bind]
      exact LabelFinder.settle_pure (Stmt.bindList_eq find body)
  | .branch condition taken otherwise => by
      rw [Action.bind]
      exact LabelFinder.settle_bind (Expr.bind_eq find condition)
        (LabelFinder.settle_bind (Stmt.bind_eq find taken)
          (LabelFinder.settle_pure (Stmt.bindOption_eq find otherwise)))
  | .loop condition body _ => by
      rw [Action.bind]
      exact LabelFinder.settle_bind (Expr.bind_eq find condition)
        (LabelFinder.settle_pure (Stmt.bind_eq find body))
  | .words values => by
      rw [Action.bind]
      exact LabelFinder.settle_pure (Expr.bindList_eq find values)

end

end ByteJump
