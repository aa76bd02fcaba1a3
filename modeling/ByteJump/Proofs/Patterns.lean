import Mathlib.Data.List.Basic

set_option autoImplicit false

/-!
# Patterns with priorities

A pattern is tried at the start of a text, and there may be several ways to go through it.  They come
in an order: of two alternatives the first one is better, and a repetition is either greedy and
rather goes on or lazy and rather stops.  The best way is the one that counts, with what the groups of
the pattern take in it.

Where a pattern begins with a greedy run of characters of a class and what follows cannot begin with
one of them, there is nothing to try: only the longest run lets the rest go on.
-/

namespace ByteJump

/-- A pattern for the start of a text. -/
inductive Pattern where
  | nothing
  /-- one character of a class -/
  | one (accepts : Char → Bool)
  | seq (first second : Pattern)
  /-- rather the first than the second -/
  | either (first second : Pattern)
  /-- any number of times, rather more than fewer if it is greedy -/
  | many (body : Pattern) (greedy : Bool)
  /-- what the body takes is kept under a number -/
  | group (number : Nat) (body : Pattern)

namespace Pattern

/-- A way through a pattern. -/
structure Way where
  taken : List Char
  /-- what groups took, in the order in which they ended -/
  groups : List (Nat × List Char)
  rest : List Char

namespace Way

/-- Nothing is taken. -/
def stay (text : List Char) : Way := ⟨[], [], text⟩

/-- The second way is gone where the first ends. -/
def andThen (w v : Way) : Way := ⟨w.taken ++ v.taken, w.groups ++ v.groups, v.rest⟩

/-- What the way takes is kept. -/
def keep (number : Nat) (w : Way) : Way := { w with groups := w.groups ++ [(number, w.taken)] }

end Way

/-- The ways to go through a body again and again, at most `limit` times.  A turn takes something, so
the length of the text is limit enough. -/
def turns (body : List Char → List Way) (greedy : Bool) : Nat → List Char → List Way
  | 0, text => [.stay text]
  | limit + 1, text =>
      let more := ((body text).filter fun w => !w.taken.isEmpty).flatMap fun w =>
        (turns body greedy limit w.rest).map w.andThen
      if greedy then more ++ [.stay text] else .stay text :: more

/-- The ways through a pattern, the best one first. -/
def ways : Pattern → List Char → List Way
  | .nothing, text => [.stay text]
  | .one _, [] => []
  | .one accepts, c :: text => if accepts c then [⟨[c], [], text⟩] else []
  | .seq first second, text =>
      (ways first text).flatMap fun w => (ways second w.rest).map w.andThen
  | .either first second, text => ways first text ++ ways second text
  | .many body greedy, text => turns (ways body) greedy text.length text
  | .group number body, text => (ways body text).map (Way.keep number)

/-- What the groups take in the best way. -/
def captures? (p : Pattern) (text : List Char) : Option (List (Nat × List Char)) :=
  (p.ways text).head?.map Way.groups

/-! ## Words and runs -/

/-- The characters of a word. -/
def word : List Char → Pattern
  | [] => nothing
  | c :: cs => seq (one (· == c)) (word cs)

/-- Any number of characters of a class, as many as there are. -/
def run (accepts : Char → Bool) : Pattern := many (one accepts) true

/-- At least one character of a class, and as many as there are. -/
def run₁ (accepts : Char → Bool) : Pattern := seq (one accepts) (run accepts)

/-- The pattern cannot begin with a character of the class. -/
def Avoids (p : Pattern) (accepts : Char → Bool) : Prop :=
  ∀ c text, accepts c = true → p.ways (c :: text) = []

section Ways

variable {accepts stop : Char → Bool} {p q : Pattern} {c : Char} {text : List Char} {n : Nat}
  {α : Type}

theorem ways_seq :
    (seq p q).ways text = (p.ways text).flatMap fun w => (q.ways w.rest).map w.andThen := rfl

theorem ways_one_cons :
    (one accepts).ways (c :: text) = if accepts c then [⟨[c], [], text⟩] else [] := rfl

theorem ways_word : ∀ (cs text : List Char), (word cs).ways text =
    if cs.isPrefixOf text then [⟨cs, [], text.drop cs.length⟩] else []
  | [], _ => by simp [word, ways, Way.stay]
  | _ :: _, [] => by simp [word, ways]
  | c :: cs, d :: text => by
      by_cases h : d = c
      · simp [word, ways_seq, ways_one_cons, h, ways_word cs text]
        split <;> simp [Way.andThen]
      · simp [word, ways_seq, ways_one_cons, h, Ne.symm h]

theorem Way.stay_andThen (w : Way) : (Way.stay text).andThen w = w := by
  simp [Way.stay, Way.andThen]

theorem Way.andThen_comp (u v : Way) : u.andThen ∘ v.andThen = (u.andThen v).andThen :=
  funext fun w => by simp [Way.andThen]

/-- The groups of a way come in front of those of the way behind it. -/
theorem captures?_behind (q : Pattern) (text : List Char) (w : Way) :
    ((q.ways text).map w.andThen).head?.map Way.groups =
      (q.captures? text).map (w.groups ++ ·) := by
  simp only [captures?, List.head?_map, Option.map_map]
  rfl

/-! ## Beginnings -/

theorem avoids_one {others : Char → Bool} (h : ∀ c, accepts c = true → others c = false) :
    (one others).Avoids accepts :=
  fun c text hc => by rw [ways_one_cons, h c hc]; rfl

theorem Avoids.seq (h : p.Avoids accepts) : (Pattern.seq p q).Avoids accepts :=
  fun c text hc => by rw [ways_seq, h c text hc]; rfl

theorem Avoids.group (h : p.Avoids accepts) : (Pattern.group n p).Avoids accepts :=
  fun c text hc => by rw [ways, h c text hc]; rfl

/-! ## The longest run -/

/-- What cannot go on in front of a character of the class goes on behind the longest run only. -/
theorem flatMap_turns (f : Way → List α)
    (h : ∀ w c cs, w.rest = c :: cs → accepts c = true → f w = []) :
    ∀ (limit : Nat) (text : List Char), text.length ≤ limit →
      (turns (one accepts).ways true limit text).flatMap f =
        f ⟨text.takeWhile accepts, [], text.dropWhile accepts⟩
  | limit, [], _ => by cases limit <;> simp [turns, ways, Way.stay]
  | limit + 1, c :: cs, hlimit => by
      by_cases hc : accepts c = true
      · have hstay : f (.stay (c :: cs)) = [] := h _ c cs rfl hc
        have hrest := flatMap_turns (fun w => f ((⟨[c], [], cs⟩ : Way).andThen w))
          (fun w d ds hw hd => h _ d ds hw hd) limit cs (Nat.le_of_succ_le_succ hlimit)
        simp only [turns, ways_one_cons, if_pos hc, List.filter_cons, List.filter_nil,
          List.flatMap_append, List.flatMap_cons, List.flatMap_nil, List.append_nil, hstay,
          List.isEmpty_cons, Bool.not_false, if_true, List.flatMap_map, hrest,
          List.takeWhile_cons_of_pos hc, List.dropWhile_cons_of_pos hc]
        rfl
      · simp [turns, ways_one_cons, hc, Way.stay]

theorem flatMap_run (f : Way → List α)
    (h : ∀ w c cs, w.rest = c :: cs → accepts c = true → f w = []) (text : List Char) :
    ((run accepts).ways text).flatMap f =
      f ⟨text.takeWhile accepts, [], text.dropWhile accepts⟩ :=
  flatMap_turns f h text.length text (Nat.le_refl _)

theorem flatMap_run₁ (f : Way → List α)
    (h : ∀ w c cs, w.rest = c :: cs → accepts c = true → f w = []) (text : List Char) :
    ((run₁ accepts).ways text).flatMap f =
      if text.takeWhile accepts = [] then []
      else f ⟨text.takeWhile accepts, [], text.dropWhile accepts⟩ := by
  cases text with
  | nil => simp [run₁, ways]
  | cons c cs =>
      by_cases hc : accepts c = true
      · rw [List.takeWhile_cons_of_pos hc, List.dropWhile_cons_of_pos hc, if_neg (by simp), run₁,
          ways_seq, ways_one_cons, if_pos hc]
        simp only [List.flatMap_cons, List.flatMap_nil, List.append_nil, List.flatMap_map]
        exact flatMap_run (fun w => f ((⟨[c], [], cs⟩ : Way).andThen w))
          (fun w d ds hw hd => h _ d ds hw hd) cs
      · simp [run₁, ways_seq, ways_one_cons, hc]

/-! ## Captures -/

theorem captures?_one (c : Char) (text : List Char) : (seq (one accepts) q).captures? (c :: text) =
    if accepts c then q.captures? text else none := by
  rw [captures?, ways_seq, ways_one_cons]
  split
  · simpa using captures?_behind q text ⟨[c], [], text⟩
  · rfl

/-- A word that what follows cannot begin with is passed over if the text starts with it. -/
theorem captures?_optional {cs : List Char} (hq : ∀ text, q.ways (cs ++ text) = [])
    (text : List Char) : (seq (either (word cs) nothing) q).captures? text =
      q.captures? (if cs.isPrefixOf text then text.drop cs.length else text) := by
  have hstay : ([Way.stay text].flatMap fun w => (q.ways w.rest).map w.andThen) = q.ways text := by
    simp only [List.flatMap_cons, List.flatMap_nil, List.append_nil]
    exact (List.map_congr_left fun w _ => Way.stay_andThen w).trans (List.map_id _)
  rw [captures?, ways_seq, ways, List.flatMap_append, ways_word, ways, hstay]
  by_cases h : cs.isPrefixOf text = true
  · obtain ⟨rest, rfl⟩ := List.isPrefixOf_iff_prefix.mp h
    rw [if_pos h, if_pos h, hq, List.append_nil]
    simpa using captures?_behind q rest ⟨cs, [], rest⟩
  · rw [if_neg h, if_neg h]
    rfl

theorem captures?_run (hq : q.Avoids accepts) (text : List Char) :
    (seq (run accepts) q).captures? text = q.captures? (text.dropWhile accepts) := by
  rw [captures?, ways_seq, flatMap_run _ fun w c cs hw hc => by rw [hw, hq c cs hc]; rfl,
    captures?_behind]
  simp

theorem captures?_run₁ (hq : q.Avoids accepts) (text : List Char) :
    (seq (run₁ accepts) q).captures? text =
      if text.takeWhile accepts = [] then none else q.captures? (text.dropWhile accepts) := by
  rw [captures?, ways_seq, flatMap_run₁ _ fun w c cs hw hc => by rw [hw, hq c cs hc]; rfl]
  split
  · rfl
  · rw [captures?_behind]
    simp

theorem captures?_group_run₁ (hq : q.Avoids accepts) (text : List Char) :
    (seq (group n (run₁ accepts)) q).captures? text =
      if text.takeWhile accepts = [] then none
      else (q.captures? (text.dropWhile accepts)).map ((n, text.takeWhile accepts) :: ·) := by
  rw [captures?, ways_seq, ways, List.flatMap_map,
    flatMap_run₁ _ fun w c cs hw hc => by simp [Way.keep, hw, hq c cs hc]]
  split
  · rfl
  · exact captures?_behind _ _ _

/-! ## The shortest run -/

/-- What can go on in front of certain characters only goes on in front of the first of them. -/
theorem head?_turns (f : Way → List α)
    (hother : ∀ w, (∀ c cs, w.rest = c :: cs → stop c = false) → f w = [])
    (hstop : ∀ w c cs, w.rest = c :: cs → stop c = true → f w ≠ []) :
    ∀ (limit : Nat) (text : List Char), text.length ≤ limit → (∀ c ∈ text, accepts c = true) →
      ((turns (one accepts).ways false limit text).flatMap f).head? =
        (f ⟨text.takeWhile (!stop ·), [], text.dropWhile (!stop ·)⟩).head?
  | limit, [], _, _ => by cases limit <;> simp [turns, ways, Way.stay]
  | limit + 1, c :: cs, hlimit, htext => by
      by_cases hc : stop c = true
      · have hne := hstop (.stay (c :: cs)) c cs rfl hc
        simp only [turns, Bool.false_eq_true, if_false, List.flatMap_cons]
        rw [List.head?_append_of_ne_nil _ hne]
        simp [hc, Way.stay]
      · have hstay : f (.stay (c :: cs)) = [] := hother _ fun d ds hd => by
          cases hd
          exact Bool.not_eq_true _ ▸ hc
        have hrest := head?_turns (fun w => f ((⟨[c], [], cs⟩ : Way).andThen w))
          (fun w hw => hother _ hw) (fun w d ds hw hd => hstop _ d ds hw hd) limit cs
          (Nat.le_of_succ_le_succ hlimit) fun d hd => htext d (List.mem_cons_of_mem _ hd)
        simp only [turns, ways_one_cons, htext c List.mem_cons_self, if_true, List.filter_cons,
          List.filter_nil, List.isEmpty_cons, Bool.not_false, Bool.false_eq_true, if_false,
          List.flatMap_cons, List.flatMap_nil, List.append_nil, hstay, List.nil_append,
          List.flatMap_map, hrest]
        simp [hc, Way.andThen]

/-- A lazy run up to a character that something always follows is the run up to the first of them. -/
theorem captures?_lazy (hq : ∀ text, q.ways text ≠ []) (htext : ∀ c ∈ text, accepts c = true) :
    (seq (group n (many (one accepts) false)) (seq (one stop) q)).captures? text =
      match text.dropWhile (!stop ·) with
      | [] => none
      | _ :: behind => (q.captures? behind).map ((n, text.takeWhile (!stop ·)) :: ·) := by
  have hways : ∀ c cs, stop c = true →
      (seq (one stop) q).ways (c :: cs) = (q.ways cs).map (Way.andThen ⟨[c], [], cs⟩) := by
    intro c cs hc
    simp [ways_seq, ways_one_cons, hc]
  have hother : ∀ w : Way, (∀ c cs, w.rest = c :: cs → stop c = false) →
      ((seq (one stop) q).ways (w.keep n).rest).map (w.keep n).andThen = [] := by
    intro w hw
    cases hrest : w.rest with
    | nil => simp [Way.keep, hrest, ways]
    | cons c cs => simp [Way.keep, hrest, ways_seq, ways_one_cons, hw c cs hrest]
  have hstop : ∀ (w : Way) (c : Char) (cs : List Char), w.rest = c :: cs → stop c = true →
      ((seq (one stop) q).ways (w.keep n).rest).map (w.keep n).andThen ≠ [] := by
    intro w c cs hrest hc
    simp [Way.keep, hrest, hways c cs hc, hq]
  rw [captures?, ways_seq, ways, ways, List.flatMap_map,
    head?_turns _ hother hstop text.length text (Nat.le_refl _) htext]
  cases hdrop : text.dropWhile (!stop ·) with
  | nil => simp [Way.keep, ways]
  | cons c behind =>
      have hc : stop c = true := by
        have hne : text.dropWhile (!stop ·) ≠ [] := by simp [hdrop]
        have hhead := List.head_dropWhile_not (!stop ·) hne
        simpa [hdrop] using hhead
      simp only [Way.keep, hways c behind hc, List.map_map, Way.andThen_comp]
      exact captures?_behind _ _ _

/-! ## As many turns as there are -/

/-- A greedy repetition of a body that there is one way through at most takes turns until there is no
way; `takes` is what turns after turns take. -/
theorem exists_turns {body : List Char → List Way} {takes : List Char → Prop} (hnil : takes [])
    (hbody : ∀ text, body text = [] ∨ ∃ v, body text = [v] ∧ v.taken ≠ [] ∧ v.groups = [] ∧
      text = v.taken ++ v.rest ∧ ∀ more, takes more → takes (v.taken ++ more)) :
    ∀ (limit : Nat) (text : List Char), text.length ≤ limit →
      ∃ w, (turns body true limit text).head? = some w ∧ w.groups = [] ∧
        text = w.taken ++ w.rest ∧ takes w.taken ∧ body w.rest = []
  | limit, text, hlimit => by
      rcases hbody text with hnone | ⟨v, hone, htaken, hgroups, htext, htakes⟩
      · refine ⟨.stay text, ?_, rfl, rfl, hnil, hnone⟩
        cases limit <;> simp [turns, hnone]
      · have hpos : 0 < v.taken.length := List.length_pos_iff.mpr htaken
        have hlength := congrArg List.length htext
        rw [List.length_append] at hlength
        cases limit with
        | zero => omega
        | succ limit =>
            obtain ⟨w, hbest, hnone, hrest, htakesw, hstop⟩ :=
              exists_turns hnil hbody limit v.rest (by omega)
            refine ⟨v.andThen w, ?_, ?_, ?_, htakes _ htakesw, hstop⟩
            · simp [turns, hone, htaken, hbest]
            · simp [Way.andThen, hgroups, hnone]
            · rw [htext, hrest]
              simp [Way.andThen]

end Ways

end Pattern

end ByteJump
