import ByteJump.Proofs.Run.Branch

set_option autoImplicit false

/-!
# Runs of code and their outcomes

Code follows a run of the source from one address on: where the run is done, the code gets to
another address with all that the run knows in the data; where the run needs more rounds, the code
makes at least as many steps as there were rounds.  Of a run that is stuck nothing is said.

A run of the source is counted in rounds of loops, and a run of the machine in steps, so `Follows`
relates the two by a lower bound: as long as the source is done within the rounds it was given,
the machine arrives; if not, it has made at least as many steps.  This is what makes a loop that
does not end in the source one that does not end on the machine.  `Travels` and `Lingers` are the
two ways of saying so for code, and the last section has one lemma for each kind of loop, by
induction on the rounds.
-/

namespace ByteJump

namespace Emit

open Assembly Memory Linked

variable {L : Linked} {s t u : State}

/-! ## Ways through code -/

/-- From one address at least so many steps lead to another, where `Q` holds of the data. -/
structure Travels (L : Linked) (t : State) (low : Nat) (d : Contents) (pc pc' : Nat)
    (Q : Contents → Prop) : Prop where
  run : Leads L t → ∀ c, L.Intact c → L.Shows d c → ∃ k c' d', low ≤ k ∧
    Steps L.size k c pc c' pc' ∧ L.Intact c' ∧ L.Shows d' c' ∧ Q d'

/-- From an address at least so many steps can be made. -/
structure Lingers (L : Linked) (t : State) (low : Nat) (d : Contents) (pc : Nat) : Prop where
  run : Leads L t → ∀ c, L.Intact c → L.Shows d c → ∃ k c' pc', low ≤ k ∧ Steps L.size k c pc c' pc'

section Travels

variable {low low' rounds rounds' pc pc' pc'' : Nat} {d : Contents} {P Q : Contents → Prop}

theorem Travels.nothing (h : Q d) : Travels L t 0 d pc pc Q :=
  ⟨fun _ c hintact hshows => ⟨0, c, d, Nat.le_refl 0, .none c pc, hintact, hshows, h⟩⟩

/-- Lower bounds add up. -/
theorem Travels.trans (h : Travels L t low d pc pc' P)
    (h' : ∀ d', P d' → Travels L t low' d' pc' pc'' Q) : Travels L t (low + low') d pc pc'' Q := by
  refine ⟨fun hleads c hintact hshows => ?_⟩
  obtain ⟨k, c', d', hk, hsteps, hintact', hshows', hP⟩ := h.run hleads c hintact hshows
  obtain ⟨l, c'', d'', hl, hsteps', hend⟩ := (h' d' hP).run hleads c' hintact' hshows'
  exact ⟨k + l, c'', d'', Nat.add_le_add hk hl, hsteps.trans hsteps', hend⟩

theorem Travels.lingers (h : Travels L t low d pc pc' P)
    (h' : ∀ d', P d' → Lingers L t low' d' pc') : Lingers L t (low + low') d pc := by
  refine ⟨fun hleads c hintact hshows => ?_⟩
  obtain ⟨k, c', d', hk, hsteps, hintact', hshows', hP⟩ := h.run hleads c hintact hshows
  obtain ⟨l, c'', pc'', hl, hsteps'⟩ := (h' d' hP).run hleads c' hintact' hshows'
  exact ⟨k + l, c'', pc'', Nat.add_le_add hk hl, hsteps.trans hsteps'⟩

/-- A lower bound may be lowered. -/
theorem Travels.less (h : Travels L t low d pc pc' P) (hless : low' ≤ low) :
    Travels L t low' d pc pc' P := by
  refine ⟨fun hleads c hintact hshows => ?_⟩
  obtain ⟨k, c', d', hk, hend⟩ := h.run hleads c hintact hshows
  exact ⟨k, c', d', Nat.le_trans hless hk, hend⟩

/-- The property at the end is weakened. -/
theorem Travels.mono (h : Travels L t low d pc pc' P) (hPQ : ∀ d', P d' → Q d') :
    Travels L t low d pc pc' Q := by
  refine ⟨fun hleads c hintact hshows => ?_⟩
  obtain ⟨k, c', d', hk, hsteps, hintact', hshows', hP⟩ := h.run hleads c hintact hshows
  exact ⟨k, c', d', hk, hsteps, hintact', hshows', hPQ d' hP⟩

/-- Code that was linked stays when more is emitted. -/
theorem Travels.later (h : Travels L u low d pc pc' P) (hgrows : Grows u t) :
    Travels L t low d pc pc' P := ⟨fun hleads => h.run (hleads.before hgrows)⟩

/-- Straight code is a way from its start to its end. -/
theorem Does.travels (h : Does L s u d Q) (hgrows : Grows u t) :
    Travels L t 0 d s.position u.position Q := by
  refine ⟨fun hleads c hintact hshows => ?_⟩
  obtain ⟨k, c', d', hclimbs, hend⟩ := h.run (hleads.before hgrows) c hintact hshows
  exact ⟨k, c', d', Nat.zero_le k, hclimbs.steps, hend⟩

/-- Code that ends with a jump is a way to where it jumps, of one step at least. -/
theorem Goes.travels (h : Goes L s u d pc Q) (hgrows : Grows u t) :
    Travels L t 1 d s.position pc Q := by
  refine ⟨fun hleads c hintact hshows => ?_⟩
  obtain ⟨k, c', d', hleaps, hend⟩ := h.run (hleads.before hgrows) c hintact hshows
  exact ⟨k + 1, c', d', Nat.le_add_left 1 k, hleaps.steps, hend⟩

/-! ## Outcomes -/

/-- The code from one address to another does what a run of the source with so many rounds does. -/
def Follows (L : Linked) (t : State) (rounds : Nat) (d : Contents) (pc pc' : Nat) :
    Source.Outcome → Prop
  | .done m => Travels L t 0 d pc pc' (Known L registerCount m)
  | .stuck => True
  | .timeout => Lingers L t rounds d pc

variable {o : Source.Outcome}

/-- Fewer rounds are followed if more are. -/
theorem Follows.less (h : Follows L t rounds d pc pc' o) (hless : rounds' ≤ rounds) :
    Follows L t rounds' d pc pc' o := by
  cases o with
  | done m => exact h
  | stuck => trivial
  | timeout =>
      obtain ⟨hrun⟩ := h
      refine ⟨fun hleads c hintact hshows => ?_⟩
      obtain ⟨k, c', pc', hk, hsteps⟩ := hrun hleads c hintact hshows
      exact ⟨k, c', pc', Nat.le_trans hless hk, hsteps⟩

/-- Code that was linked stays when more is emitted. -/
theorem Follows.later (h : Follows L u rounds d pc pc' o) (hgrows : Grows u t) :
    Follows L t rounds d pc pc' o := by
  cases o with
  | done m => exact Travels.later h hgrows
  | stuck => trivial
  | timeout => exact ⟨fun hleads => Lingers.run h (hleads.before hgrows)⟩

/-- Code in front of what follows a run. -/
theorem Travels.follows (h : Travels L t low d pc pc' P)
    (h' : ∀ d', P d' → Follows L t rounds d' pc' pc'' o) :
    Follows L t (low + rounds) d pc pc'' o := by
  cases o with
  | done m => exact (h.trans h').less (Nat.zero_le _)
  | stuck => trivial
  | timeout => exact h.lingers h'

/-- Where the first run is done, the second one starts with what is known then. -/
theorem Follows.andThen {next : Source.Store → Source.Outcome}
    (h : Follows L t rounds d pc pc' o)
    (h' : ∀ m d', Known L registerCount m d' → Follows L t rounds d' pc' pc'' (next m)) :
    Follows L t rounds d pc pc'' (o.andThen next) := by
  cases o with
  | done m =>
      have hboth := Travels.follows h (h' m)
      rwa [Nat.zero_add] at hboth
  | stuck => trivial
  | timeout => exact h

/-- Code behind what follows a run that leaves the data as it is. -/
theorem Follows.goOn (h : Follows L t rounds d pc pc' o)
    (hgo : ∀ d', Travels L t low d' pc' pc'' fun d'' => d'' = d') :
    Follows L t rounds d pc pc'' o := by
  cases o with
  | done m =>
      have hboth := Travels.trans h fun d' hd' => (hgo d').mono (by rintro _ rfl; exact hd')
      exact hboth.less (Nat.zero_le _)
  | stuck => trivial
  | timeout => exact h

end Travels

/-! ## Loops

Both kinds of loop run the same code again.  What is known at the top of the loop is known again
after each round, so the induction applies. -/

section Loops

variable {test : Source.Store → Option (Bool × Source.Store)}
  {body : Nat → Source.Store → Source.Outcome} {top inner back finish : Nat}

/-- A loop that tests first: a test at the top, and a body that leads back to it. -/
theorem follows_repeatWhile
    (htest : ∀ m d b m', Known L registerCount m d → test m = some (b, m') →
      Travels L t 1 d top (if b then inner else finish) (Known L registerCount m'))
    (hbody : ∀ rounds m d, Known L registerCount m d →
      Follows L t rounds d inner back (body rounds m))
    (hback : ∀ d, Travels L t 0 d back top fun d' => d' = d) :
    ∀ rounds m d, Known L registerCount m d →
      Follows L t rounds d top finish (Source.repeatWhile test body rounds m) := by
  intro rounds
  induction rounds with
  | zero => exact fun m d _ => ⟨fun _ c _ _ => ⟨0, c, top, Nat.le_refl 0, .none c top⟩⟩
  | succ rounds ih =>
      intro m d hknown
      rw [Source.repeatWhile]
      cases hm : test m with
      | none => trivial
      | some result =>
          obtain ⟨b, m'⟩ := result
          have hstep := htest m d b m' hknown hm
          cases b with
          | false => exact hstep.less (Nat.zero_le 1)
          | true =>
              rw [Nat.add_comm]
              refine hstep.follows fun d₁ hd₁ => ?_
              refine (((hbody _ m' d₁ hd₁).less (Nat.le_add_left _ _)).goOn hback).andThen ?_
              intro m₂ d₂ hd₂
              exact ih m₂ d₂ hd₂

/-- A loop that tests last: a body that starts at the top, and a test that leads back to it. -/
theorem follows_repeatBody
    (hbody : ∀ rounds m d, Known L registerCount m d →
      Follows L t rounds d top inner (body rounds m))
    (htest : ∀ m d b m', Known L registerCount m d → test m = some (b, m') →
      Travels L t 1 d inner (if b then top else finish) (Known L registerCount m')) :
    ∀ rounds m d, Known L registerCount m d →
      Follows L t rounds d top finish (Source.repeatBody test body rounds m) := by
  intro rounds
  induction rounds with
  | zero => exact fun m d _ => ⟨fun _ c _ _ => ⟨0, c, top, Nat.le_refl 0, .none c top⟩⟩
  | succ rounds ih =>
      intro m d hknown
      rw [Source.repeatBody]
      refine (hbody _ m d hknown).andThen fun m₁ d₁ hd₁ => ?_
      cases hm : test m₁ with
      | none => trivial
      | some result =>
          obtain ⟨b, m'⟩ := result
          have hstep := htest m₁ d₁ b m' hd₁ hm
          cases b with
          | false => exact hstep.less (Nat.zero_le 1)
          | true =>
              rw [Nat.add_comm]
              exact hstep.follows fun d₂ hd₂ => ih m' d₂ hd₂

end Loops

end Emit

end ByteJump
