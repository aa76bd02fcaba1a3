import ByteJump.Proofs.Lexical.Blocks
import ByteJump.Proofs.Visible

set_option autoImplicit false

/-!
# How scopes grow

While part of a file is gone through, the open scope gets declarations and new scopes are added
behind the old ones; no other scope changes.  So a block leaves behind the scopes of the blocks that
begin in it, and what names mean behind it is what they meant in front of it.

`Evolves s t labels scopes` lists what was added: labels of the open scope and outlines of the new
scopes behind the old ones.  Such lists can be appended, and a block turns the labels of its own
scope into one more outline.  In the end the whole tree of scopes of a file is described by one
list, which is what label uses are bound in.  The first half of the module is about look-ups in
the open scope, which all go along the chain in the same way, whether for types, variables or
labels.
-/

namespace ByteJump.Scopes

variable {s t u : Scopes}

/-! ## Looking up in the open scope -/

section Find

variable {α : Type} {select : Frame → List (String × α)} {change : Frame → Frame} {name : String}

/-- What a name means where a scope is open. -/
def findOpen (s : Scopes) (select : Frame → List (String × α)) (name : String) : Option α :=
  s.findIn select (s.chain s.current) name

/-- Only the frames in the chain matter. -/
theorem findIn_congr {scopes : List Nat}
    (h : ∀ i ∈ scopes, s.frames[i]?.map select = t.frames[i]?.map select) :
    s.findIn select scopes name = t.findIn select scopes name := by
  induction scopes with
  | nil => rfl
  | cons i scopes ih =>
      have hi := h i List.mem_cons_self
      have hrest : s.findIn select scopes name = t.findIn select scopes name :=
        ih fun j hj => h j (List.mem_cons_of_mem _ hj)
      unfold findIn at hrest ⊢
      rw [List.findSome?_cons, List.findSome?_cons, hrest]
      cases hs : s.frames[i]? <;> cases ht : t.frames[i]? <;> rw [hs, ht] at hi <;> simp_all

/-- A change that does not touch the declarations that are looked at. -/
theorem findOpen_modify (hchain : ∀ frame, (change frame).chain = frame.chain)
    (h : ∀ frame, select (change frame) = select frame) :
    (s.modify change).findOpen select name = s.findOpen select name := by
  unfold findOpen
  rw [chain_modify hchain]
  refine findIn_congr fun i _ => ?_
  unfold modify
  rw [Array.getElem?_modify]
  split
  · cases s.frames[i]? with
    | none => rfl
    | some frame => exact congrArg some (h frame)
  · rfl

/-- One more declaration in the open scope. -/
theorem findOpen_declare (hs : s.Ok) (hchain : ∀ frame, (change frame).chain = frame.chain) {a : α}
    {declared : String} (h : ∀ frame, select (change frame) = (declared, a) :: select frame) :
    (s.modify change).findOpen select name =
      if name = declared then some a else s.findOpen select name := by
  obtain ⟨rest, hrest, hbelow⟩ := hs.chain _ hs.current
  have hbehind : (s.modify change).findIn select rest name = s.findIn select rest name := by
    refine findIn_congr fun i hi => ?_
    unfold modify
    rw [Array.getElem?_modify, if_neg (Nat.ne_of_gt (hbelow i hi))]
  obtain ⟨frame, hframe⟩ : ∃ frame, s.frames[s.current]? = some frame :=
    ⟨_, Array.getElem?_eq_getElem hs.current⟩
  have hopen : (s.modify change).frames[s.current]? = some (change frame) := by
    unfold modify
    rw [Array.getElem?_modify, if_pos rfl, hframe]
    rfl
  unfold findOpen
  rw [chain_modify hchain, show (s.modify change).current = s.current from rfl, hrest]
  unfold findIn at hbehind ⊢
  rw [List.findSome?_cons, List.findSome?_cons, hbehind, hopen, hframe]
  dsimp only
  rw [h frame, List.lookup_cons]
  by_cases hname : name = declared
  · rw [if_pos hname, beq_iff_eq.mpr hname]
  · rw [if_neg hname, beq_false_of_ne hname]

/-- Scopes behind the old ones do not matter. -/
theorem findOpen_append (hs : s.Ok) {new : List Frame} (hcurrent : t.current = s.current)
    (hframes : t.frames.toList = s.frames.toList ++ new) :
    t.findOpen select name = s.findOpen select name := by
  have hold : ∀ i < s.frames.size, t.frames[i]? = s.frames[i]? := by
    intro i hi
    rw [← Array.getElem?_toList, hframes, List.getElem?_append_left (by simpa using hi),
      Array.getElem?_toList]
  unfold findOpen
  obtain ⟨rest, hrest, hbelow⟩ := hs.chain _ hs.current
  rw [hcurrent, show t.chain s.current = s.chain s.current by
    unfold chain
    rw [hold _ hs.current]]
  refine findIn_congr fun i hi => congrArg _ (hold i ?_)
  rw [hrest] at hi
  rcases List.mem_cons.mp hi with rfl | hi
  · exact hs.current
  · exact Nat.lt_trans (hbelow i hi) hs.current

end Find

/-- The new type is found first. -/
theorem findType_defineType (hs : s.Ok) (name : String) (type : Ty) (other : String) :
    (s.defineType name type).findType other =
      if other = name then some type else s.findType other := by
  show (s.modify _).findOpen Frame.types other = _
  refine findOpen_declare hs ?_ ?_ <;> exact fun _ => rfl

/-- The new variable is found first. -/
theorem findVariable_defineVariable (hs : s.Ok) (v : Variable) (other : String) :
    (s.defineVariable v).findVariable other =
      if other = v.name then some v else s.findVariable other := by
  show (s.modify _).findOpen Frame.vars other = _
  refine findOpen_declare hs ?_ ?_ <;> exact fun _ => rfl

/-- Types and variables do not hide each other. -/
theorem findVariable_defineType (name : String) (type : Ty) (other : String) :
    (s.defineType name type).findVariable other = s.findVariable other :=
  findOpen_modify (fun _ => rfl) fun _ => rfl

theorem findType_defineVariable (v : Variable) (other : String) :
    (s.defineVariable v).findType other = s.findType other :=
  findOpen_modify (fun _ => rfl) fun _ => rfl

theorem findType_defineLabel (label : Label) (other : String) :
    (s.defineLabel label).findType other = s.findType other :=
  findOpen_modify (fun _ => rfl) fun _ => rfl

theorem findVariable_defineLabel (label : Label) (other : String) :
    (s.defineLabel label).findVariable other = s.findVariable other :=
  findOpen_modify (fun _ => rfl) fun _ => rfl

/-- A new scope declares nothing. -/
theorem findOpen_push (hs : s.Ok) {α : Type} {select : Frame → List (String × α)}
    (hnew : ∀ chain, select ⟨[], [], [], chain⟩ = []) (name : String) :
    s.push.findOpen select name = s.findOpen select name := by
  have hback : ({ s.push with current := s.current } : Scopes).findOpen select name =
      s.findOpen select name := findOpen_append hs rfl Array.toList_push
  rw [← hback]
  unfold findOpen
  rw [show s.push.current = s.frames.size from rfl, chain_push_new]
  have hchain : ({ s.push with current := s.current } : Scopes).chain s.current =
      s.chain s.current := chain_push hs.current
  have hframe : s.push.frames[s.frames.size]? =
      some ⟨[], [], [], s.frames.size :: s.chain s.current⟩ := Array.getElem?_push_size
  rw [hchain]
  unfold findIn
  rw [List.findSome?_cons, hframe]
  dsimp only
  rw [hnew]
  rfl

/-! ## Growth -/

/-- From one state of the scopes to another the open scope gets some labels, which count before
those that it has, new scopes are added, and nothing else happens to labels. -/
structure Evolves (s t : Scopes) (labels : List Label) (scopes : List Outline) : Prop where
  ok : t.Ok
  current : t.current = s.current
  frames : ∃ (change : Frame → Frame) (new : List Frame),
    (∀ frame, (change frame).outline = ⟨Label.table labels ++ frame.labels, frame.chain⟩) ∧
      t.frames.toList = s.frames.toList.modify s.current change ++ new ∧
      new.map Frame.outline = scopes

section Evolves

variable {labels labels' : List Label} {scopes scopes' : List Outline}

/-- Nothing was added. -/
theorem Evolves.refl (hs : s.Ok) : Evolves s s [] [] := by
  refine ⟨hs, rfl, id, [], fun _ => rfl, ?_, rfl⟩
  rw [List.modify_id, List.append_nil]

/-- A change of the open scope that gives it labels. -/
theorem Evolves.modify {change : Frame → Frame} (hs : s.Ok)
    (h : ∀ frame, (change frame).outline = ⟨Label.table labels ++ frame.labels, frame.chain⟩) :
    Evolves s (s.modify change) labels [] := by
  refine ⟨ok_modify (fun frame => congrArg Outline.chain (h frame)) hs, rfl, change, [], h, ?_, rfl⟩
  rw [List.append_nil]
  exact Array.toList_modify

theorem evolves_defineType (hs : s.Ok) (name : String) (type : Ty) :
    Evolves s (s.defineType name type) [] [] := .modify hs fun _ => rfl

theorem evolves_defineVariable (hs : s.Ok) (v : Variable) :
    Evolves s (s.defineVariable v) [] [] := .modify hs fun _ => rfl

/-- The label is added to those of the open scope. -/
theorem evolves_defineLabel (hs : s.Ok) (label : Label) :
    Evolves s (s.defineLabel label) [label] [] := .modify hs fun _ => rfl

/-- There is one more frame for each new scope. -/
theorem Evolves.size (h : Evolves s t labels scopes) :
    t.frames.size = s.frames.size + scopes.length := by
  obtain ⟨change, new, -, hframes, rfl⟩ := h.frames
  rw [← Array.length_toList, hframes, List.length_append, List.length_modify, Array.length_toList,
    List.length_map]

/-- The scopes around a scope stay the same. -/
theorem Evolves.chain (h : Evolves s t labels scopes) {i : Nat} (hi : i < s.frames.size) :
    t.chain i = s.chain i := by
  obtain ⟨change, new, hchange, hframes, -⟩ := h.frames
  have hframe : t.frames[i]? = (s.modify change).frames[i]? := by
    rw [← Array.getElem?_toList, hframes, List.getElem?_append_left (by simpa using hi),
      ← Array.toList_modify, Array.getElem?_toList]
    rfl
  rw [← chain_modify (s := s) (fun frame => congrArg Outline.chain (hchange frame)) i]
  unfold Scopes.chain
  rw [hframe]

theorem modify_append_modify {α : Type} {front back : List α} {i : Nat} (hi : i < front.length)
    (f g : α → α) :
    (front.modify i f ++ back).modify i g = front.modify i (fun a => g (f a)) ++ back := by
  refine List.ext_getElem? fun j => ?_
  rw [List.getElem?_modify]
  rcases Nat.lt_or_ge j front.length with hj | hj
  · rw [List.getElem?_append_left (by simpa using hj), List.getElem?_append_left (by simpa using hj),
      List.getElem?_modify, List.getElem?_modify]
    cases front[j]? <;> simp only [Option.map_eq_map, Option.map_none, Option.map_some]
    split <;> rfl
  · rw [List.getElem?_append_right (by simpa using hj),
      List.getElem?_append_right (by simpa using hj), List.length_modify, List.length_modify]
    simp only [if_neg (show ¬i = j by omega), Option.map_eq_map, Option.map_id']

/-- What was added first comes first. -/
theorem Evolves.trans (h : Evolves s t labels scopes) (h' : Evolves t u labels' scopes')
    (hs : s.Ok) : Evolves s u (labels ++ labels') (scopes ++ scopes') := by
  obtain ⟨change, new, hchange, hframes, rfl⟩ := h.frames
  obtain ⟨change', new', hchange', hframes', rfl⟩ := h'.frames
  refine ⟨h'.ok, h'.current.trans h.current, fun frame => change' (change frame), new ++ new',
    fun frame => ?_, ?_, List.map_append⟩
  · have hfirst := hchange frame
    rw [hchange', show (change frame).labels = _ from congrArg Outline.labels hfirst,
      show (change frame).chain = _ from congrArg Outline.chain hfirst, Label.table_append,
      List.append_assoc]
  · rw [hframes', hframes, h.current, modify_append_modify (by simpa using hs.current),
      List.append_assoc]

/-- A block: behind it the scope around it is open again and has not changed. -/
theorem Evolves.block (hs : s.Ok) (h : Evolves s.push t labels scopes) :
    Evolves s t.pop [] (⟨Label.table labels, s.frames.size :: s.chain s.current⟩ :: scopes) ∧
      ∀ {α : Type} (select : Frame → List (String × α)) (name : String),
        t.pop.findOpen select name = s.findOpen select name := by
  obtain ⟨change, new, hchange, hframes, rfl⟩ := h.frames
  obtain ⟨rest, hrest, -⟩ := hs.chain _ hs.current
  have hsize : s.push.frames.size = s.frames.size + 1 := Array.size_push ..
  have hopen : t.chain t.current = s.frames.size :: s.current :: rest := by
    rw [h.current, h.chain (by rw [hsize]; exact Nat.lt_succ_self _)]
    show s.push.chain s.frames.size = _
    rw [chain_push_new, hrest]
  have hpop : t.pop = { t with current := s.current } := by
    unfold pop
    rw [hopen]
  have hback : t.pop.frames.toList =
      s.frames.toList ++ (change ⟨[], [], [], s.frames.size :: s.chain s.current⟩ :: new) := by
    rw [hpop]
    show t.frames.toList = _
    rw [hframes]
    show (s.frames.push _).toList.modify s.frames.size change ++ new = _
    rw [Array.toList_push, ← Array.length_toList, List.modify_eq_take_drop, List.take_left,
      List.drop_left, List.append_assoc]
    rfl
  have hlt : s.current < t.frames.size := by
    have := h.size
    have := hs.current
    omega
  refine ⟨⟨hpop ▸ ⟨hlt, h.ok.chain⟩, hpop ▸ rfl, id, _, fun _ => rfl,
    by rw [List.modify_id]; exact hback, ?_⟩, fun select name =>
      findOpen_append hs (hpop ▸ rfl) hback⟩
  rw [List.map_cons, hchange]
  simp only [List.append_nil]

end Evolves

end ByteJump.Scopes
