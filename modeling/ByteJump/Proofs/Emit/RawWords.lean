import ByteJump.Proofs.Emit.Calm
import Mathlib.Data.List.Forall2

set_option autoImplicit false

/-!
# Raw words where they are laid down

In front of raw words stand the strings in them that have no address yet, each behind a jump over it.
Then follows a word for each value.  A value that depends on a label is left to be computed last; any
other is computed at once, when all strings in it have addresses.

Emitting raw words is two loops, one over the strings and one over the values, and there is a
lemma for each.  `run_strings` gives the code of the first loop exactly, as stubs in a row: it
cannot fail, and a string that occurs twice gets its stub the first time.  `words_laid` gives that
of the second one if it ends well: a word for each value, which `Encodes` relates to the value.
-/

namespace ByteJump

namespace Emit

open Assembly Memory

/-! ## Strings

A stub is a jump with the bytes of the string behind it.  Which strings get one depends on those
that have addresses already, so it is told by the state in front of the words. -/

/-- The strings among some that have no address yet, each once, in the order of their first use. -/
def State.unpooled (s : State) (texts : List String) : List String :=
  (texts.filter fun text => (s.strings.lookup text).isNone).eraseDups

/-- The bytes of a string behind a jump over them, laid down at an address. -/
def stub (address : Nat) (text : String) : List Piece :=
  [.instruction 0 0 (.known (address + instructionSize + size [.bytes text.toUTF8.toList])),
    .bytes text.toUTF8.toList]

/-- How many bytes a string takes with the jump over it. -/
def stubSize (text : String) : Nat := instructionSize + text.toUTF8.toList.length

/-- Strings laid down at an address, one behind the other. -/
def stubs : Nat → List String → List Piece
  | _, [] => []
  | address, text :: texts => stub address text ++ stubs (address + stubSize text) texts

/-- A stub is as long as the jump and the bytes. -/
theorem size_stub (address : Nat) (text : String) : size (stub address text) = stubSize text := by
  simp [stub, stubSize, size, Piece.size]

/-- Stubs in a row are as long as all of them together. -/
theorem size_stubs : ∀ (texts : List String) (address : Nat),
    size (stubs address texts) = (texts.map stubSize).sum
  | [], _ => rfl
  | text :: texts, address => by
      rw [stubs, size_append, size_stub, size_stubs texts, List.map_cons, List.sum_cons]

/-- Where the first of some raw words stands. -/
def State.firstWord (s : State) (values : List Expr) : Nat :=
  s.position + ((s.unpooled (Expr.listStrings values)).map stubSize).sum

section Strings

variable {s : State}

/-- Where no strings are used none is missing. -/
theorem State.unpooled_nil (s : State) : s.unpooled [] = [] := rfl

/-- A string with an address needs no other one. -/
theorem State.unpooled_of_pooled {text : String} {a : Nat} (h : s.strings.lookup text = some a)
    (texts : List String) : s.unpooled (text :: texts) = s.unpooled texts := by
  simp [unpooled, h]

/-- A state in which a string was laid down. -/
def State.pooling (s : State) (text : String) : State :=
  { s.emit (stub s.position text) with
    strings := (text, s.position + instructionSize) :: s.strings }

/-- A string without an address is laid down and needs no address any more. -/
theorem State.unpooled_of_fresh {text : String} (h : s.strings.lookup text = none)
    (texts : List String) :
    s.unpooled (text :: texts) = text :: (s.pooling text).unpooled texts := by
  have hnone : ∀ other, ((s.pooling text).strings.lookup other).isNone =
      ((s.strings.lookup other).isNone && !other == text) := by
    intro other
    show (((text, _) :: s.strings).lookup other).isNone = _
    rw [List.lookup_cons]
    cases other == text <;> simp
  unfold unpooled
  rw [List.filter_cons_of_pos (by simp [h]), List.eraseDups_cons, List.filter_filter]
  simp only [hnone, Bool.and_comm]

/-- A string with an address is not laid down again. -/
theorem run_stringConstant_pooled {text : String} {a : Nat} (h : s.strings.lookup text = some a) :
    stringConstant text s = .ok a s := by
  have hget : (get : Emitter State) s = .ok s s := rfl
  unfold stringConstant
  rw [run_bind hget, h]
  rfl

/-- A string without an address is laid down where the code ends. -/
theorem run_stringConstant_fresh {text : String} (h : s.strings.lookup text = none) :
    stringConstant text s = .ok (s.position + instructionSize) (s.pooling text) := by
  have hget : (get : Emitter State) s = .ok s s := rfl
  unfold stringConstant
  rw [run_bind hget, h]
  dsimp only
  rw [run_bind (run_jumpOver _ s)]
  rfl

/-- The strings without an address are laid down one behind the other. -/
theorem run_strings : ∀ (texts : List String) {s : State}, ∃ u,
    (texts.forM fun text => do let _ ← stringConstant text) s = .ok ⟨⟩ u ∧
      u.pieces.toList = s.pieces.toList ++ stubs s.position (s.unpooled texts) ∧
      u.position = s.position + ((s.unpooled texts).map stubSize).sum
  | [], s => ⟨s, rfl, by simp [State.unpooled_nil, stubs], rfl⟩
  | text :: texts, s => by
      have hstep : ∀ {a v}, stringConstant text s = .ok a v →
          ((text :: texts).forM fun text => do let _ ← stringConstant text) s =
            (texts.forM fun text => do let _ ← stringConstant text) v := by
        intro a v hrun
        have hfirst : (do let _ ← stringConstant text) s = .ok ⟨⟩ v := by
          rw [run_bind hrun]
          rfl
        exact run_bind hfirst
      cases hlookup : s.strings.lookup text with
      | some a =>
          rw [hstep (run_stringConstant_pooled hlookup), State.unpooled_of_pooled hlookup]
          exact run_strings texts
      | none =>
          obtain ⟨u, hrun, hpieces, hposition⟩ := run_strings texts (s := s.pooling text)
          have hbehind : (s.pooling text).position = s.position + stubSize text :=
            congrArg (s.position + ·) (size_stub s.position text)
          have hlaid : (s.pooling text).pieces.toList =
              s.pieces.toList ++ stub s.position text := by
            simp [State.pooling, State.emit]
          refine ⟨u, (hstep (run_stringConstant_fresh hlookup)).trans hrun, ?_, ?_⟩
          · rw [hpieces, hlaid, hbehind, State.unpooled_of_fresh hlookup, stubs, List.append_assoc]
          · rw [hposition, hbehind, State.unpooled_of_fresh hlookup, List.map_cons, List.sum_cons,
              Nat.add_assoc]

end Strings

/-! ## Words

The values are computed in the state behind the strings, so all strings in them have addresses.
Words change neither labels nor strings, and so each value is computed in the same environment. -/

/-- The word that is laid down for a value, with labels and strings worth what a state says. -/
inductive Encodes (s : State) : Expr → Word → Prop
  | deferred {value : Expr} (hlabel : value.mentionsLabel = true) : Encodes s value (.constant value)
  | known {value : Expr} {v : Word128} (hlabel : value.mentionsLabel = false)
      (hvalue : Constant.evaluate s.env value = .ok v) :
      Encodes s value (.known (v.toNat % addressSpace))

/-- Words in a row. -/
def wordPieces (ws : List Word) : List Piece := ws.map .word

/-- A word takes eight bytes. -/
theorem size_wordPieces (ws : List Word) : size (wordPieces ws) = 8 * ws.length := by
  induction ws with
  | nil => rfl
  | cons w ws ih =>
      simp only [size, wordPieces, List.map_cons, List.sum_cons, List.length_cons, Piece.size,
        addressSize] at ih ⊢
      rw [ih]
      omega

/-- Any word of a row stands between those in front of it and those behind it. -/
theorem wordPieces_split {ws : List Word} {i : Nat} (h : i < ws.length) :
    wordPieces ws = wordPieces (ws.take i) ++ .word ws[i] :: wordPieces (ws.drop (i + 1)) := by
  have hsplit : ws.take i ++ ws[i] :: ws.drop (i + 1) = ws := by
    rw [← List.drop_eq_getElem_cons h, List.take_append_drop]
  unfold wordPieces
  rw [← List.map_cons, ← List.map_append, hsplit]

section Words

variable {t : State}

/-- A word is pushed for each value. -/
theorem words_laid : ∀ {values : List Expr} {s : State}, words values s = .ok ⟨⟩ t →
    ∃ ws, List.Forall₂ (Encodes s) values ws ∧ t = s.emit (wordPieces ws)
  | [], s, h => by
      cases h
      exact ⟨[], .nil, (State.emit_nil _).symm⟩
  | value :: values, s, h => by
      -- labels and strings are worth the same behind the word
      have hrest : ∀ {w : Word}, Encodes s value w →
          (push (.word w) >>= fun _ => words values) s = .ok ⟨⟩ t →
          ∃ ws, List.Forall₂ (Encodes s) (value :: values) ws ∧ t = s.emit (wordPieces ws) := by
        intro w hw hrun
        rw [run_bind (run_push _ s)] at hrun
        obtain ⟨ws, hws, hend⟩ := words_laid hrun
        refine ⟨w :: ws, .cons hw (hws.imp fun _ _ h => ?_), hend.trans (State.emit_emit s _ _)⟩
        cases h with
        | deferred hlabel => exact .deferred hlabel
        | known hlabel hvalue => exact .known hlabel hvalue
      rw [words] at h
      cases hlabel : value.mentionsLabel with
      | true =>
          rw [if_pos hlabel] at h
          exact hrest (.deferred hlabel) h
      | false =>
          have hget : (get : Emitter State) s = .ok s s := rfl
          rw [if_neg (by simp [hlabel]), run_bind hget] at h
          unfold State.constant at h
          cases hvalue : Constant.evaluate s.env value with
          | error fault =>
              rw [hvalue] at h
              cases h
          | ok v =>
              rw [hvalue] at h
              exact hrest (.known hlabel hvalue) h

end Words

end Emit

end ByteJump
