import ByteJump.Proofs.Json.Spelling

set_option autoImplicit false

/-!
# Texts with something behind the document

The reader goes by tokens and the lexer goes by characters.  Whatever stands behind a document adds
a token to it, and a reader that has a document takes no more tokens; only the digits of a number
can be made more by what stands behind them, and then the document is still no array and no object.

Two machines run one behind the other here: the lexer turns characters into tokens, and the reader
turns tokens into a value.  For each of them there is a notion of what a longer input can change.
A lexer only ever adds tokens, `Grows`, and the last token may still be open when the input goes
on: only a number can, since all other tokens end by themselves.  A reader that has its document
stays finished, or takes note that something trails.  `read_append` joins the two: if the front is
a document, then the whole text is that document with something behind it, or the text is no array
and no object.
-/

namespace ByteJump.Json

/-! ## What the lexer has found stays found

Feeding a character keeps all tokens that were found, as the end of the list of tokens.  By
induction this holds of all characters. -/

namespace Lexer

/-- A token has been started and not yet found. -/
def isOpen (lexer : Lexer) : Bool :=
  match lexer.state with
  | .between | .stuck => false
  | _ => true

/-- From one lexer to the next, no token gets lost, and a token that was started is still open or
was found. -/
def Grows (lexer next : Lexer) : Prop :=
  lexer.found <:+ next.found ∧
    (lexer.isOpen = true → next.isOpen = true ∨ lexer.found.length < next.found.length)

theorem grows_found {state next : State} {found : List Token} (t : Token) :
    Grows ⟨state, found⟩ ⟨next, t :: found⟩ :=
  ⟨List.suffix_cons t found, fun _ => Or.inr (Nat.lt_succ_self _)⟩

theorem grows_open {state next : State} {found : List Token}
    (h : (Lexer.mk next found).isOpen = true) : Grows ⟨state, found⟩ ⟨next, found⟩ :=
  ⟨List.suffix_refl _, fun _ => Or.inl h⟩

/-- Anything but white space starts a token. -/
theorem grows_begin (state : State) (found : List Token) {c : Char} (hc : isBlank c = false) :
    Grows ⟨state, found⟩ (begin found c) := by
  unfold begin
  rw [if_neg (by rw [hc]; decide)]
  split
  iterate 6 exact grows_found _
  iterate 4 exact grows_open rfl
  split
  · exact grows_open rfl
  · exact grows_found _

theorem suffix_begin (found : List Token) (c : Char) : found <:+ (begin found c).found := by
  cases hc : isBlank c with
  | true =>
      have hbegin : begin found c = ⟨.between, found⟩ := if_pos hc
      exact ⟨[], by rw [hbegin, List.nil_append]⟩
  | false => exact (grows_begin .between found hc).1

/-- A token found before another one begins. -/
theorem grows_found_begin {state : State} {found : List Token} (t : Token) (c : Char) :
    Grows ⟨state, found⟩ (begin (t :: found) c) := by
  have hsuffix := suffix_begin (t :: found) c
  exact ⟨(List.suffix_cons t found).trans hsuffix, fun _ => Or.inr hsuffix.length_le⟩

theorem grows_stepQuoted (found : List Token) (q : Quoted) (c : Char) :
    Grows ⟨.quoted q, found⟩ (stepQuoted found q c) := by
  unfold stepQuoted
  split
  · split
    · exact grows_found _
    · split
      · exact grows_open rfl
      · split
        · exact grows_found _
        · exact grows_open rfl
  · split
    · exact grows_open rfl
    · split
      · exact grows_open rfl
      · exact grows_found _
  · split
    · exact grows_found _
    · dsimp only
      split
      · exact grows_open rfl
      · exact grows_open rfl

/-- One case for each state of the lexer. -/
theorem grows_step (lexer : Lexer) (c : Char) : Grows lexer (lexer.step c) := by
  obtain ⟨state, found⟩ := lexer
  cases state with
  | between => exact ⟨suffix_begin found c, nofun⟩
  | stuck => exact ⟨List.suffix_refl _, nofun⟩
  | quoted q => exact grows_stepQuoted found q c
  | word rest token =>
      cases rest with
      | nil => exact grows_found_begin token c
      | cons expected rest =>
          unfold step
          dsimp only
          split
          · split
            · exact grows_found token
            · exact grows_open rfl
          · exact grows_found _
  | numeral n =>
      unfold step
      dsimp only
      split
      · exact grows_open rfl
      · split
        · exact grows_found_begin _ c
        · exact grows_found _

/-- Growth goes on from where it was. -/
theorem Grows.trans {first next last : Lexer} (h : Grows first next) (h' : Grows next last) :
    Grows first last := by
  refine ⟨h.1.trans h'.1, fun hopen => ?_⟩
  have hlength := h'.1.length_le
  rcases h.2 hopen with hnext | hlonger
  · rcases h'.2 hnext with hlast | hlonger
    · exact Or.inl hlast
    · exact Or.inr (Nat.lt_of_le_of_lt h.1.length_le hlonger)
  · exact Or.inr (Nat.lt_of_lt_of_le hlonger hlength)

/-- By induction on the characters. -/
theorem grows_feed : ∀ (cs : List Char) (lexer : Lexer), Grows lexer (lexer.feed cs)
  | [], _ => ⟨List.suffix_refl _, Or.inl⟩
  | c :: cs, lexer => (grows_step lexer c).trans (grows_feed cs (lexer.step c))

/-- A token that is still open when the text ends is found then, or is none. -/
theorem finish_spec (lexer : Lexer) : ∃ more, lexer.finish = lexer.found.reverse ++ more ∧
    (lexer.isOpen = true → more ≠ []) := by
  obtain ⟨state, found⟩ := lexer
  have hpush (t : Token) : ∃ more, (t :: found).reverse = found.reverse ++ more ∧ more ≠ [] :=
    ⟨[t], List.reverse_cons, List.cons_ne_nil _ _⟩
  cases state with
  | between | stuck => exact ⟨[], (List.append_nil _).symm, nofun⟩
  | word | quoted =>
      obtain ⟨more, hmore, hne⟩ := hpush .invalid
      exact ⟨more, hmore, fun _ => hne⟩
  | numeral n =>
      unfold finish
      dsimp only
      split
      · obtain ⟨more, hmore, hne⟩ := hpush _
        exact ⟨more, hmore, fun _ => hne⟩
      · obtain ⟨more, hmore, hne⟩ := hpush .invalid
        exact ⟨more, hmore, fun _ => hne⟩

/-- The tokens found are the first ones of the text. -/
theorem finish_grows {lexer next : Lexer} (h : Grows lexer next) :
    ∃ more, next.finish = lexer.found.reverse ++ more ∧ (lexer.isOpen = true → more ≠ []) := by
  obtain ⟨more, hfinish, hmore⟩ := finish_spec next
  obtain ⟨new, hnew⟩ := h.1
  refine ⟨new.reverse ++ more, ?_, fun hopen hnil => ?_⟩
  · rw [hfinish, ← hnew, List.reverse_append, List.append_assoc]
  · obtain ⟨hnone, hmore'⟩ := List.append_eq_nil_iff.mp hnil
    rcases h.2 hopen with hnext | hlonger
    · exact hmore hnext hmore'
    · rw [List.reverse_eq_nil_iff.mp hnone] at hnew
      rw [← hnew] at hlonger
      exact absurd hlonger (Nat.lt_irrefl _)

/-- Between tokens, anything but white space makes one more token. -/
theorem finish_between (found : List Token) : ∀ {cs : List Char}, ¬Blank cs →
    ∃ t more, ((Lexer.mk .between found).feed cs).finish = found.reverse ++ t :: more
  | [], h => absurd Blank.nil h
  | c :: cs, h => by
      cases hc : isBlank c with
      | true =>
          have hstep : (Lexer.mk .between found).step c = ⟨.between, found⟩ := if_pos hc
          rw [feed_cons, hstep]
          exact finish_between found fun hcs => h (List.forall_mem_cons.mpr ⟨hc, hcs⟩)
      | false =>
          -- as if the token that starts here had been open before
          obtain ⟨more, hfinish, hmore⟩ := finish_grows
            ((grows_begin (.quoted .empty) found hc).trans (grows_feed cs (begin found c)))
          obtain ⟨t, rest, rfl⟩ := List.exists_cons_of_ne_nil (hmore rfl)
          exact ⟨t, rest, hfinish⟩

/-- A number that was started is the next token, or there is none. -/
theorem finish_numeral (found : List Token) : ∀ (cs : List Char) (n : Numeral), ∃ t more,
    ((Lexer.mk (.numeral n) found).feed cs).finish = found.reverse ++ t :: more ∧
      (t.isNumber = true ∨ t = .invalid)
  | [], n => by
      show ∃ t more, (Lexer.mk (.numeral n) found).finish = _ ∧ _
      unfold finish
      dsimp only
      cases n.finish? with
      | some number => exact ⟨.number number, [], List.reverse_cons, Or.inl rfl⟩
      | none => exact ⟨.invalid, [], List.reverse_cons, Or.inr rfl⟩
  | c :: cs, n => by
      have hfound (state : State) (t : Token) (cs : List Char) :
          ∃ more, ((Lexer.mk state (t :: found)).feed cs).finish = found.reverse ++ t :: more := by
        obtain ⟨more, hmore, -⟩ := finish_grows (grows_feed cs ⟨state, t :: found⟩)
        exact ⟨more, by rw [hmore, List.reverse_cons, List.append_assoc]; rfl⟩
      rw [feed_cons, step]
      dsimp only
      cases n.push? c with
      | some next => exact finish_numeral found cs next
      | none =>
          dsimp only
          cases n.finish? with
          | some number =>
              obtain ⟨more, hmore⟩ := hfound .between (.number number) (c :: cs)
              exact ⟨_, more, hmore, Or.inl rfl⟩
          | none =>
              obtain ⟨more, hmore⟩ := hfound .stuck .invalid cs
              exact ⟨_, more, hmore, Or.inr rfl⟩

/-! ### Where a text ends

A lexer that is stuck has put a token there that no reader accepts, so that a text with an invalid
token can be told from one that ends too early. -/

/-- A lexer that is stuck has found that there is no token. -/
def Marked (lexer : Lexer) : Prop :=
  lexer.state = .stuck → ∃ found, lexer.found = .invalid :: found

theorem marked_begin (found : List Token) (c : Char) : (begin found c).Marked := by
  unfold begin
  split
  · exact nofun
  · split
    iterate 10 exact nofun
    split
    · exact nofun
    · exact fun _ => ⟨_, rfl⟩

theorem marked_stepQuoted (found : List Token) (q : Quoted) (c : Char) :
    (stepQuoted found q c).Marked := by
  have hfail : (fail found).Marked := fun _ => ⟨_, rfl⟩
  unfold stepQuoted
  split
  · split
    · exact nofun
    · split
      · exact nofun
      · split
        · exact hfail
        · exact nofun
  · split
    · exact nofun
    · split
      · exact nofun
      · exact hfail
  · split
    · exact hfail
    · dsimp only
      split
      · exact nofun
      · exact nofun

theorem Marked.step {lexer : Lexer} (h : lexer.Marked) (c : Char) : (lexer.step c).Marked := by
  obtain ⟨state, found⟩ := lexer
  have hfail : (fail found).Marked := fun _ => ⟨_, rfl⟩
  cases state with
  | between => exact marked_begin found c
  | stuck => exact h
  | quoted q => exact marked_stepQuoted found q c
  | word rest token =>
      cases rest with
      | nil => exact marked_begin _ c
      | cons expected rest =>
          unfold Lexer.step
          dsimp only
          split
          · split
            · exact nofun
            · exact nofun
          · exact hfail
  | numeral n =>
      unfold Lexer.step
      dsimp only
      split
      · exact nofun
      · split
        · exact marked_begin _ c
        · exact hfail

/-- By induction on the characters. -/
theorem Marked.feed : ∀ (cs : List Char) {lexer : Lexer}, lexer.Marked → (lexer.feed cs).Marked
  | [], _, h => h
  | c :: cs, _, h => Marked.feed cs (h.step c)

/-- At the end of a text the lexer is between tokens or inside a number, or the last token is
none. -/
theorem finish_cases {lexer : Lexer} (h : lexer.Marked) :
    lexer.state = .between ∨ (∃ n, lexer.state = .numeral n) ∨
      ∃ front, lexer.finish = front ++ [.invalid] := by
  obtain ⟨state, found⟩ := lexer
  cases state with
  | between => exact Or.inl rfl
  | numeral n => exact Or.inr (Or.inl ⟨n, rfl⟩)
  | word | quoted => exact Or.inr (Or.inr ⟨found.reverse, List.reverse_cons⟩)
  | stuck =>
      obtain ⟨front, rfl⟩ := h rfl
      exact Or.inr (Or.inr ⟨front.reverse, List.reverse_cons⟩)

end Lexer

/-! ## What the reader makes of more tokens

A value that is not well formed cannot become part of a well-formed one, so a reader that is at
fault may keep the value it has and still have nothing that is accepted.  This is what `Sound`
says. -/

namespace Value

/-- Items are well formed if those of both parts are. -/
theorem itemsWellFormed_append : ∀ vs ws : List Value,
    itemsWellFormed (vs ++ ws) = (itemsWellFormed vs && itemsWellFormed ws)
  | [], _ => rfl
  | v :: vs, ws => by
      rw [List.cons_append, itemsWellFormed, itemsWellFormed, itemsWellFormed_append vs ws,
        Bool.and_assoc]

theorem fieldsWellFormed_append : ∀ fs gs : List (Text × Value),
    fieldsWellFormed (fs ++ gs) = (fieldsWellFormed fs && fieldsWellFormed gs)
  | [], _ => rfl
  | (_, v) :: fs, gs => by
      rw [List.cons_append, fieldsWellFormed, fieldsWellFormed, fieldsWellFormed_append fs gs,
        Bool.and_assoc]

end Value

namespace Reader

theorem wellFormed_closeWith {v : Value} (h : v.wellFormed = false) (frame : Frame) :
    (closeWith v frame).wellFormed = false := by
  cases frame with
  | array items =>
      rw [closeWith, Value.wellFormed, List.reverse_cons, Value.itemsWellFormed_append,
        Value.itemsWellFormed, h, Bool.false_and, Bool.and_false]
  | object fields | field fields key =>
      rw [closeWith, Value.wellFormed, List.reverse_cons, Value.fieldsWellFormed_append,
        Value.fieldsWellFormed, h, Bool.false_and, Bool.and_false]

/-- Frames that had to be closed are malformed. -/
theorem wellFormed_collapse (stack : List Frame) : (collapse stack).wellFormed = false := by
  suffices h : ∀ (frames : List Frame) (v : Value), v.wellFormed = false →
      (frames.foldl closeWith v).wellFormed = false from h stack .malformed rfl
  intro frames
  induction frames with
  | nil => exact fun v hv => hv
  | cons frame frames ih => exact fun v hv => ih _ (wellFormed_closeWith hv frame)

/-- A reader that has found a fault holds a malformed document. -/
def Sound (reader : Reader) : Prop := ∀ root, reader = .faulty root → root.wellFormed = false

theorem sound_fail (stack : List Frame) : (fail stack).Sound := by
  intro root h
  obtain rfl : collapse stack = root := Reader.faulty.inj h
  exact wellFormed_collapse stack

theorem sound_push (v : Value) (stack : List Frame) : (push v stack).Sound := by
  unfold push
  split
  · exact nofun
  · exact nofun
  · exact nofun
  · exact sound_fail _

theorem sound_value (stack : List Frame) (t : Token) : (value stack t).Sound := by
  unfold value
  split
  iterate 4 exact sound_push _ _
  · exact nofun
  · exact nofun
  · exact sound_fail _

theorem Sound.step {reader : Reader} (h : reader.Sound) (t : Token) : (reader.step t).Sound := by
  unfold Reader.step
  split <;> first
    | exact h
    | exact sound_push _ _
    | exact sound_value _ _
    | exact sound_fail _
    | exact nofun

/-- By induction on the tokens. -/
theorem Sound.feed : ∀ (ts : List Token) {reader : Reader}, reader.Sound → (reader.feed ts).Sound
  | [], _, h => h
  | t :: ts, _, h => Sound.feed ts (h.step t)

/-- Only a reader that has finished holds a document that is well formed. -/
theorem Sound.finished {reader : Reader} (h : reader.Sound) {v : Value} {trailing : Bool}
    (hfinish : reader.finish = ⟨v, trailing⟩) (hv : v.wellFormed = true) :
    reader = .finished v trailing := by
  cases reader with
  | finished root trailing =>
      cases hfinish
      rfl
  | faulty root =>
      cases hfinish
      rw [h _ rfl] at hv
      cases hv
  | reading expect stack =>
      cases hfinish
      rw [wellFormed_collapse stack] at hv
      cases hv

theorem feed_finished (root : Value) : ∀ (ts : List Token) (trailing : Bool),
    ∃ more, (Reader.finished root trailing).feed ts = .finished root more
  | [], trailing => ⟨trailing, rfl⟩
  | _ :: ts, _ => feed_finished root ts true

/-- Behind a document all tokens are alike. -/
theorem feed_trailing (root : Value) : ∀ ts : List Token,
    (Reader.finished root true).feed ts = .finished root true
  | [] => rfl
  | _ :: ts => feed_trailing root ts

/-- A fault is final. -/
theorem feed_faulty (root : Value) : ∀ ts : List Token,
    (Reader.faulty root).feed ts = .faulty root
  | [] => rfl
  | _ :: ts => feed_faulty root ts

/-- A value is finished only where nothing is open. -/
theorem stack_of_push {v root : Value} {stack : List Frame} {trailing : Bool}
    (h : push v stack = .finished root trailing) : stack = [] := by
  unfold push at h
  split at h
  · rfl
  · cases h
  · cases h
  · cases h

/-- No document ends with a token that is none. -/
theorem step_invalid (reader : Reader) (root : Value) :
    reader.step .invalid ≠ .finished root false := by
  cases reader with
  | finished | faulty => exact nofun
  | reading expect stack =>
      cases expect <;> cases stack with
        | nil => exact nofun
        | cons frame stack => cases frame <;> exact nofun

/-- A document that ends with a number is a number. -/
theorem step_number {reader : Reader} {number : Number} {root : Value}
    (h : reader.step (.number number) = .finished root false) :
    ∀ t, reader.step t = value [] t := by
  cases reader with
  | finished => cases h
  | faulty => cases h
  | reading expect stack =>
      cases expect with
      | value =>
          obtain rfl := stack_of_push h
          exact fun _ => rfl
      | firstItem =>
          cases stack with
          | nil => exact fun t => by cases t <;> rfl
          | cons frame stack => cases frame <;> cases h
      | nextItem | firstKey | key | colon | nextField =>
          cases stack with
          | nil => cases h
          | cons frame stack => cases frame <;> cases h

end Reader

/-! ## More behind a document -/

/-- Behind a document only white space may stand: with anything else the text has something
trailing, or it is that of a number or of no document. -/
theorem read_append {front back : String} {v : Value} (hread : read front = ⟨v, false⟩)
    (hv : v.wellFormed = true) (hback : ¬Blank back.toList) :
    (read (front ++ back)).trailing = true ∨
      (∃ number, (read (front ++ back)).value = .number number) ∨
        (read (front ++ back)).value = .malformed := by
  have hsound : (Reader.reading .value []).Sound := nofun
  have hmarked : (Lexer.start.feed front.toList).Marked := Lexer.Marked.feed _ nofun
  have hends : (Reader.reading .value []).feed (Lexer.start.feed front.toList).finish =
      .finished v false := (hsound.feed _).finished hread hv
  have hboth : read (front ++ back) = ((Reader.reading .value []).feed
      ((Lexer.start.feed front.toList).feed back.toList).finish).finish := by
    unfold read tokens ofTokens
    rw [String.toList_append, List.foldl_append]
    rfl
  rw [hboth]
  generalize Lexer.start.feed front.toList = lexer at hmarked hends ⊢
  rcases Lexer.finish_cases hmarked with hstate | ⟨n, hstate⟩ | ⟨before, hbefore⟩
  · -- the document is complete, and a further token stands behind it
    obtain ⟨state, found⟩ := lexer
    obtain rfl : state = .between := hstate
    obtain ⟨t, more, hmore⟩ := Lexer.finish_between found hback
    have hdone : (Reader.reading .value []).feed found.reverse = .finished v false := hends
    rw [hmore, Reader.feed_append, hdone, Reader.feed_cons]
    exact Or.inl (congrArg (fun reader => reader.finish.trailing) (Reader.feed_trailing v more))
  · -- the document is a number, which may go on
    obtain ⟨state, found⟩ := lexer
    obtain rfl : state = .numeral n := hstate
    obtain ⟨t, more, hmore, ht⟩ := Lexer.finish_numeral found back.toList n
    rw [hmore, Reader.feed_append, Reader.feed_cons]
    unfold Lexer.finish at hends
    dsimp only at hends
    cases hnumber : n.finish? with
    | none =>
        rw [hnumber] at hends
        dsimp only at hends
        rw [List.reverse_cons, Reader.feed_append] at hends
        exact absurd hends (Reader.step_invalid _ v)
    | some number =>
        rw [hnumber] at hends
        dsimp only at hends
        rw [List.reverse_cons, Reader.feed_append] at hends
        rw [Reader.step_number hends t]
        cases t with
        | number other =>
            obtain ⟨trailing, hfeed⟩ := Reader.feed_finished (.number other) more false
            refine Or.inr (Or.inl ⟨other, ?_⟩)
            exact congrArg (fun reader => reader.finish.value) hfeed
        | invalid =>
            exact Or.inr (Or.inr
              (congrArg (fun reader => reader.finish.value) (Reader.feed_faulty .malformed more)))
        | _ => rcases ht with ht | ht <;> cases ht
  · rw [hbefore, Reader.feed_append] at hends
    exact absurd hends (Reader.step_invalid _ v)

end ByteJump.Json
