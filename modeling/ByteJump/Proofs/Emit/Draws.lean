import ByteJump.Proofs.Emit.Moves
import ByteJump.Proofs.Emit.Tidy

set_option autoImplicit false

/-!
# Constants that code uses

What constants the code of an expression or a statement uses is read off it.  Emission that ends well
remembers exactly the constants it remembered before and those that its code uses, and it lays down an
instruction for each byte constant that reads it.

The bytes of addresses of strings are constants too, so what is used depends on where strings are.

`Expr.constants` and its companions list, for a given map from strings to addresses, what the code
of a part draws from the pools: the bytes of literals, of the addresses and lengths of strings,
and those that clearing and testing need.  `Draws address x data` says that a run of `x` that ends
well remembers `data` in addition to what was remembered before, and nothing else; and that each
byte remembered by it is read by some instruction.  The map of addresses is fixed throughout, and
`State.Agrees` says that the strings stand where it says, which is checked at the end and holds at
every state before.
-/

namespace ByteJump

open Assembly Memory

/-! ## Constants of expressions and statements

Lists are used for sets here: only membership counts, so constants may be listed more than once.
-/

/-- A constant in a pool. -/
inductive PoolItem where
  | byte (value : UInt8)
  | text (content : String)
  deriving DecidableEq, Repr

namespace PoolItem

/-- The bytes of a number. -/
def number (width value : Nat) : List PoolItem := (Bytes.ofNat width value).map byte

/-- The zeros for the bytes of a register from `width` on. -/
def zerosFrom (width : Nat) : List PoolItem := List.replicate (registerSize - width) (.byte 0)

/-- The constants for the test of a value of a type: what is added up to zero starts at the first. -/
def test (type : Ty) : List PoolItem :=
  match type.width with
  | some width => .byte (UInt8.ofNat (256 - 8 * max 1 (min width registerSize))) :: zerosFrom 1
  | none => []

end PoolItem

/-- The constants that the code of an expression uses, given the addresses of strings. -/
def Expr.constants (address : String → Nat) : Expr → List PoolItem
  | .int value _ => PoolItem.number registerSize value.toNat
  | .str text _ => .text text :: (PoolItem.number addressSize (address text) ++
      PoolItem.number addressSize text.utf8ByteSize)
  | .variable .. | .index .. => []
  | .label .. => PoolItem.zerosFrom addressSize
  | .cast operand info =>
      operand.constants address ++ (info.type.width.map PoolItem.zerosFrom).getD []
  | .unary .plus operand _ => operand.constants address
  | .unary .not operand _ => operand.constants address ++ PoolItem.test operand.type
  | .unary .deref operand _ => operand.constants address ++ PoolItem.zerosFrom 1
  | .unary .negate _ _ | .unary .complement _ _ => []
  | .binary _ left right _ =>
      left.constants address ++ (right.constants address ++ PoolItem.zerosFrom 1)

/-- The constants that the code for a condition uses. -/
def Expr.conditionConstants (address : String → Nat) (condition : Expr) : List PoolItem :=
  condition.constants address ++ PoolItem.test condition.type

/-- The constants that the code for a store uses. -/
def Expr.storeConstants (address : String → Nat) (target value : Expr) : List PoolItem :=
  match target with
  | .unary .deref pointer _ => pointer.constants address ++ value.constants address
  | _ => []

/-- The constants that the code of an action uses by itself, without the statements inside it. -/
def Action.constants (address : String → Nat) : Action → List PoolItem
  | .nothing | .place _ | .reserve _ | .block _ => []
  | .evaluate value | .goto value | .define _ value => value.constants address
  | .assign target value => target.storeConstants address value
  | .branch condition _ _ | .loop condition _ _ => condition.conditionConstants address
  | .words values => (Expr.listStrings values).map .text

/-- The constants that the code of a statement uses by itself, without the statements inside it. -/
def Stmt.constants (address : String → Nat) (st : Stmt) : List PoolItem :=
  st.action.constants address

namespace Emit

open Relation

variable {α β : Type}

/-! ## Drawing -/

/-- The constant has an address. -/
def State.Has (s : State) : PoolItem → Prop
  | .byte value => value ∈ s.byteConstants.map Prod.fst
  | .text text => text ∈ s.strings.map Prod.fst

/-- All strings that have an address have the given one. -/
def State.Agrees (s : State) (address : String → Nat) : Prop :=
  ∀ text a, s.strings.lookup text = some a → address text = a

/-- Some instruction reads each byte constant. -/
def State.AllRead (s : State) : Prop :=
  ∀ x ∈ s.byteConstants, ∃ destination next,
    Piece.instruction x.2 destination next ∈ s.pieces.toList

/-- The constants that have an address in the end are those that had one and the given ones.  Strings
keep their addresses.  If all byte constants were read, all of them are. -/
structure Drawn (data : List PoolItem) (s t : State) : Prop where
  has : ∀ d, t.Has d ↔ s.Has d ∨ d ∈ data
  stays : ∀ text a, s.strings.lookup text = some a → t.strings.lookup text = some a
  read : s.AllRead → t.AllRead

section Drawn

variable {data data' : List PoolItem} {s t u : State} {address : String → Nat}

theorem State.AllRead.grow (h : s.AllRead) (hbytes : t.byteConstants = s.byteConstants)
    (hpieces : s.pieces.toList ⊆ t.pieces.toList) : t.AllRead := by
  intro x hx
  rw [hbytes] at hx
  obtain ⟨destination, next, hread⟩ := h x hx
  exact ⟨destination, next, hpieces hread⟩

/-- The pools are the same, and there are more instructions. -/
theorem Drawn.of_grow (hbytes : t.byteConstants = s.byteConstants) (hstrings : t.strings = s.strings)
    (hpieces : s.pieces.toList ⊆ t.pieces.toList) : Drawn [] s t := by
  refine ⟨fun d => ?_, fun text a h => hstrings ▸ h, fun h => h.grow hbytes hpieces⟩
  cases d with
  | byte value => simp [State.Has, hbytes]
  | text text => simp [State.Has, hstrings]

theorem Drawn.of_same (h : SameCode s t) : Drawn [] s t :=
  .of_grow h.byteConstants h.strings (by rw [h.pieces]; exact fun _ => id)

/-- The data of both. -/
theorem Drawn.trans (h : Drawn data s u) (h' : Drawn data' u t) : Drawn (data ++ data') s t :=
  ⟨fun d => by rw [h'.has, h.has, List.mem_append, or_assoc],
    fun text a hlookup => h'.stays text a (h.stays text a hlookup), fun hread => h'.read (h.read hread)⟩

/-- Only membership in the data matters. -/
theorem Drawn.congr (h : Drawn data s t) (hdata : ∀ d, d ∈ data' ↔ d ∈ data) : Drawn data' s t :=
  ⟨fun d => by rw [h.has, hdata], h.stays, h.read⟩

/-- Where strings have an address in the end, they had no other one before. -/
theorem Drawn.agrees (h : Drawn data s t) (ht : t.Agrees address) : s.Agrees address :=
  fun text a hlookup => ht text a (h.stays text a hlookup)

end Drawn

/-- Emission that ends well draws the given constants, if strings have the given addresses in the
end. -/
structure Draws (address : String → Nat) (x : Emitter α) (data : List PoolItem) : Prop where
  run : ∀ {s t : State} {a : α}, x s = .ok a t → t.Agrees address → Drawn data s t

section Rules

variable {address : String → Nat} {data data' : List PoolItem}

theorem Draws.pure {a : α} : Draws address (Pure.pure a : Emitter α) [] := by
  refine ⟨fun hrun _ => ?_⟩
  cases hrun
  exact .of_same ⟨rfl, rfl, rfl, rfl⟩

theorem Draws.throw {e : Fault} : Draws address (MonadExcept.throw e : Emitter α) data :=
  ⟨fun hrun _ => nomatch hrun⟩

/-- The second part may draw what its argument calls for. -/
theorem Draws.bind {x : Emitter β} {f : β → Emitter α} (h : Draws address x data)
    (hf : ∀ b, Draws address (f b) data') : Draws address (x >>= f) (data ++ data') := by
  refine ⟨fun hrun ht => ?_⟩
  obtain ⟨b, u, hx, hfb⟩ := ok_bind hrun
  have hrest := (hf b).run hfb ht
  exact (h.run hx (hrest.agrees ht)).trans hrest

/-- No constants are drawn behind. -/
theorem Draws.before {x : Emitter β} {f : β → Emitter α} (h : Draws address x data)
    (hf : ∀ b, Draws address (f b) []) : Draws address (x >>= f) data := by
  have hboth := h.bind hf
  rwa [List.append_nil] at hboth

/-- No constants are drawn in front. -/
theorem Draws.after {x : Emitter β} {f : β → Emitter α} (hf : ∀ b, Draws address (f b) data)
    (h : Draws address x []) : Draws address (x >>= f) data := h.bind hf

theorem Draws.get {f : State → Emitter α} (h : ∀ s, Draws address (f s) data) :
    Draws address (MonadState.get >>= f) data := ⟨fun {s} => (h s).run⟩

theorem Draws.update {f : State → State} (h : ∀ s, SameCode s (f s)) :
    Draws address (modify f : Emitter PUnit) [] := by
  refine ⟨fun {s t a} hrun _ => ?_⟩
  cases hrun
  exact .of_same (h s)

theorem Draws.widthOf {type : Ty} {site : Location} {f : Nat → Emitter α}
    (h : ∀ width, type.width = some width → Draws address (f width) data) :
    Draws address (Emit.widthOf type site >>= f) data := by
  unfold Emit.widthOf
  cases hwidth : type.width with
  | none => exact ⟨fun hrun => nomatch hrun⟩
  | some width => exact h width hwidth

end Rules

section Constants

variable {address : String → Nat}

end Constants

/-! ## Expressions -/

section Expressions

variable {address : String → Nat}

end Expressions

/-! ## Actions -/

section Actions

variable {address : String → Nat}

end Actions

end Emit

end ByteJump
