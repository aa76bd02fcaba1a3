import ByteJump.Proofs.Resolve.Sound
import ByteJump.Proofs.Scope

set_option autoImplicit false

/-!
# Visible variables

The variables that a name may mean where a scope is open are those of the scopes in its chain.
While a statement is resolved only the open scope and newer ones change, so behind a block what was
visible in front of it is visible again.

Frames are kept in one array and never removed, so that label uses can be bound behind the walk.
The open scope is an index into it, and the scopes that enclose it are its chain.  `Grown` says
what may happen to this while part of a file is resolved: older frames outside of the open one
stay as they are, and the chain of the open one stays too.  `Grown.visible_eq` is then the
computation of what is visible: new variables of the open frame in front of what was visible
before.
-/

namespace ByteJump

namespace Scopes

/-- The variables that one scope declares, the newest first. -/
def variablesOf (s : Scopes) (scope : Nat) : List Variable :=
  match s.frames[scope]? with
  | some frame => frame.vars.map Prod.snd
  | none => []

/-- The variables that are declared in the open scope and those around it. -/
def visible (s : Scopes) : List Variable := (s.chain s.current).flatMap s.variablesOf

/-- Each scope stands first in its chain, with older ones behind it, and the open one exists. -/
structure Ok (s : Scopes) : Prop where
  current : s.current < s.frames.size
  chain : ∀ i < s.frames.size, ∃ rest, s.chain i = i :: rest ∧ ∀ j ∈ rest, j < i

theorem ok_ofBuiltins (b : Builtins) : (ofBuiltins b).Ok := by
  refine ⟨Nat.zero_lt_one, fun i hi => ?_⟩
  obtain rfl : i = 0 := by
    simp only [ofBuiltins, List.size_toArray, List.length_cons, List.length_nil] at hi
    omega
  exact ⟨[], rfl, by simp⟩

theorem visible_ofBuiltins (b : Builtins) : (ofBuiltins b).visible = [] := rfl

/-- The open scope and newer ones may have changed. -/
structure Grown (s t : Scopes) : Prop where
  ok : t.Ok
  size : s.frames.size ≤ t.frames.size
  current : t.current = s.current
  chain : ∀ i < s.frames.size, t.chain i = s.chain i
  others : ∀ i < s.frames.size, i ≠ s.current → t.variablesOf i = s.variablesOf i

section Grown

variable {s t u : Scopes}

/-- Nothing has happened. -/
theorem Grown.refl (h : s.Ok) : Grown s s :=
  ⟨h, Nat.le_refl _, rfl, fun _ _ => rfl, fun _ _ _ => rfl⟩

/-- What is kept twice is kept. -/
theorem Grown.trans (h : Grown s t) (h' : Grown t u) : Grown s u where
  ok := h'.ok
  size := Nat.le_trans h.size h'.size
  current := h'.current.trans h.current
  chain i hi := (h'.chain i (Nat.lt_of_lt_of_le hi h.size)).trans (h.chain i hi)
  others i hi hne :=
    (h'.others i (Nat.lt_of_lt_of_le hi h.size) (h.current ▸ hne)).trans (h.others i hi hne)

/-! ## Changes of the open scope

Each of these changes one frame, the open one, and adds at most one variable in front of those it
has. -/

theorem chain_modify {change : Frame → Frame} (h : ∀ frame, (change frame).chain = frame.chain)
    (i : Nat) : (s.modify change).chain i = s.chain i := by
  unfold chain modify
  rw [Array.getElem?_modify]
  by_cases hi : s.current = i
  · rw [if_pos hi]
    cases s.frames[i]? with
    | none => rfl
    | some frame => exact h frame
  · rw [if_neg hi]

theorem ok_modify {change : Frame → Frame} (h : ∀ frame, (change frame).chain = frame.chain)
    (hs : s.Ok) : (s.modify change).Ok := by
  have hsize : (s.modify change).frames.size = s.frames.size := Array.size_modify ..
  refine ⟨hsize ▸ hs.current, fun i hi => ?_⟩
  rw [chain_modify h]
  exact hs.chain i (hsize ▸ hi)

/-- A change of the open frame that keeps its chain. -/
theorem Grown.modify {change : Frame → Frame} (h : ∀ frame, (change frame).chain = frame.chain)
    (hs : s.Ok) : Grown s (s.modify change) where
  ok := ok_modify h hs
  size := Nat.le_of_eq (Array.size_modify ..).symm
  current := rfl
  chain i _ := chain_modify h i
  others i _ hne := by
    unfold variablesOf Scopes.modify
    rw [Array.getElem?_modify, if_neg (Ne.symm hne)]

/-- What is visible, split at the open scope. -/
theorem visible_eq (h : s.Ok) : ∃ rest, s.chain s.current = s.current :: rest ∧
    (∀ j ∈ rest, j < s.current) ∧
    s.visible = s.variablesOf s.current ++ rest.flatMap s.variablesOf := by
  obtain ⟨rest, hchain, hrest⟩ := h.chain s.current h.current
  exact ⟨rest, hchain, hrest, by rw [visible, hchain, List.flatMap_cons]⟩

theorem flatMap_variablesOf_congr {scopes : List Nat}
    (h : ∀ i ∈ scopes, t.variablesOf i = s.variablesOf i) :
    scopes.flatMap t.variablesOf = scopes.flatMap s.variablesOf := by
  induction scopes with
  | nil => rfl
  | cons i rest ih =>
      rw [List.flatMap_cons, List.flatMap_cons, h i List.mem_cons_self,
        ih fun j hj => h j (List.mem_cons_of_mem _ hj)]

/-- What is visible behind a change is what the open scope declares then, in front of the rest. -/
theorem Grown.visible_eq (h : Grown s t) (hs : s.Ok) {news : List Variable}
    (hnews : t.variablesOf s.current = news ++ s.variablesOf s.current) :
    t.visible = news ++ s.visible := by
  obtain ⟨rest, hchain, hrest, hvisible⟩ := Scopes.visible_eq hs
  have htail : rest.flatMap t.variablesOf = rest.flatMap s.variablesOf := by
    refine flatMap_variablesOf_congr fun i hi => h.others i ?_ ?_
    · exact Nat.lt_trans (hrest i hi) hs.current
    · exact Nat.ne_of_lt (hrest i hi)
  rw [visible, h.current, h.chain _ hs.current, hchain, List.flatMap_cons, hnews, htail, hvisible,
    List.append_assoc]

theorem variablesOf_modify {change : Frame → Frame} {news : List Variable} (hs : s.Ok)
    (h : ∀ frame, (change frame).vars.map Prod.snd = news ++ frame.vars.map Prod.snd) :
    (s.modify change).variablesOf s.current = news ++ s.variablesOf s.current := by
  obtain ⟨frame, hframe⟩ : ∃ frame, s.frames[s.current]? = some frame :=
    ⟨_, Array.getElem?_eq_getElem hs.current⟩
  unfold variablesOf Scopes.modify
  rw [Array.getElem?_modify, if_pos rfl, hframe]
  exact h frame

theorem visible_modify {change : Frame → Frame} {news : List Variable} (hs : s.Ok)
    (hchain : ∀ frame, (change frame).chain = frame.chain)
    (h : ∀ frame, (change frame).vars.map Prod.snd = news ++ frame.vars.map Prod.snd) :
    (s.modify change).visible = news ++ s.visible :=
  (Grown.modify hchain hs).visible_eq hs (variablesOf_modify hs h)

theorem grown_defineVariable (hs : s.Ok) (v : Variable) : Grown s (s.defineVariable v) :=
  .modify (fun _ => rfl) hs

/-- A new variable is in front of those that were visible. -/
theorem visible_defineVariable (hs : s.Ok) (v : Variable) :
    (s.defineVariable v).visible = v :: s.visible := by
  show (s.modify _).visible = [v] ++ s.visible
  exact visible_modify hs (fun _ => rfl) fun _ => rfl

theorem grown_defineLabel (hs : s.Ok) (label : Label) : Grown s (s.defineLabel label) :=
  .modify (fun _ => rfl) hs

/-- Labels are no variables. -/
theorem visible_defineLabel (hs : s.Ok) (label : Label) :
    (s.defineLabel label).visible = s.visible := by
  show (s.modify _).visible = [] ++ s.visible
  exact visible_modify hs (fun _ => rfl) fun _ => rfl

theorem grown_defineType (hs : s.Ok) (name : String) (type : Ty) :
    Grown s (s.defineType name type) := .modify (fun _ => rfl) hs

/-- Types are no variables. -/
theorem visible_defineType (hs : s.Ok) (name : String) (type : Ty) :
    (s.defineType name type).visible = s.visible := by
  show (s.modify _).visible = [] ++ s.visible
  exact visible_modify hs (fun _ => rfl) fun _ => rfl

/-! ## Blocks

A block opens a frame behind all others, whose chain is itself and then the chain of the scope
around it.  Closing it makes the scope around it the open one again. -/

theorem chain_push {i : Nat} (hi : i < s.frames.size) : s.push.chain i = s.chain i := by
  unfold chain push
  rw [Array.getElem?_push_lt hi, Array.getElem?_eq_getElem hi]

/-- The new frame is in front of those around it. -/
theorem chain_push_new : s.push.chain s.frames.size = s.frames.size :: s.chain s.current := by
  unfold push chain
  simp

theorem variablesOf_push {i : Nat} (hi : i < s.frames.size) :
    s.push.variablesOf i = s.variablesOf i := by
  unfold variablesOf push
  rw [Array.getElem?_push_lt hi, Array.getElem?_eq_getElem hi]

theorem ok_push (hs : s.Ok) : s.push.Ok := by
  have hsize : s.push.frames.size = s.frames.size + 1 := Array.size_push ..
  refine ⟨by rw [hsize]; exact Nat.lt_succ_self _, fun i hi => ?_⟩
  rw [hsize] at hi
  rcases Nat.lt_or_ge i s.frames.size with hold | hnew
  · rw [chain_push hold]
    exact hs.chain i hold
  · obtain rfl : i = s.frames.size := by omega
    rw [chain_push_new]
    obtain ⟨rest, hchain, hrest⟩ := hs.chain _ hs.current
    refine ⟨_, rfl, fun j hj => ?_⟩
    rw [hchain] at hj
    rcases List.mem_cons.mp hj with rfl | hj
    · exact hs.current
    · exact Nat.lt_trans (hrest j hj) hs.current

/-- A new frame declares nothing. -/
theorem visible_push (hs : s.Ok) : s.push.visible = s.visible := by
  obtain ⟨rest, hchain, hrest, hvisible⟩ := visible_eq hs
  have hnone : s.push.variablesOf s.frames.size = [] := by
    unfold variablesOf push
    simp
  have hold : (s.chain s.current).flatMap s.push.variablesOf =
      (s.chain s.current).flatMap s.variablesOf := by
    refine flatMap_variablesOf_congr fun i hi => variablesOf_push ?_
    rw [hchain] at hi
    rcases List.mem_cons.mp hi with rfl | hi
    · exact hs.current
    · exact Nat.lt_trans (hrest i hi) hs.current
  show (s.push.chain s.frames.size).flatMap s.push.variablesOf = _
  rw [chain_push_new, List.flatMap_cons, hnone, List.nil_append, hold]
  rfl

/-- Behind a block the scope around it is open again, and it has not changed. -/
theorem Grown.pop (hs : s.Ok) (h : Grown s.push t) : Grown s t.pop ∧ t.pop.visible = s.visible := by
  have hsize : s.push.frames.size = s.frames.size + 1 := Array.size_push ..
  obtain ⟨rest, hchain, hrest, -⟩ := Scopes.visible_eq hs
  have hopen : t.chain t.current = s.frames.size :: s.current :: rest := by
    rw [h.current, h.chain _ (by rw [hsize]; exact Nat.lt_succ_self _)]
    show s.push.chain s.frames.size = _
    rw [chain_push_new, hchain]
  have hpop : t.pop = { t with current := s.current } := by
    unfold Scopes.pop
    rw [hopen]
  have hold : ∀ i < s.frames.size, i < s.push.frames.size ∧ i ≠ s.push.current := by
    intro i hi
    exact ⟨by omega, Nat.ne_of_lt hi⟩
  have hle := h.size
  have hvariables : ∀ i < s.frames.size, t.variablesOf i = s.variablesOf i := fun i hi =>
    (h.others i (hold i hi).1 (hold i hi).2).trans (variablesOf_push hi)
  have hgrown : Grown s { t with current := s.current } := by
    refine ⟨⟨?_, h.ok.chain⟩, ?_, rfl, fun i hi => ?_, fun i hi _ => hvariables i hi⟩
    · have := hs.current
      show s.current < t.frames.size
      omega
    · show s.frames.size ≤ t.frames.size
      omega
    · exact (h.chain i (hold i hi).1).trans (chain_push hi)
  rw [hpop]
  refine ⟨hgrown, ?_⟩
  have hsame : Scopes.variablesOf { t with current := s.current } s.current =
      [] ++ s.variablesOf s.current := hvariables _ hs.current
  simpa using hgrown.visible_eq hs hsame

end Grown

end Scopes

end ByteJump
