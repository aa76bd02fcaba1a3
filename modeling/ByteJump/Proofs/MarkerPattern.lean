import ByteJump.Proofs.LineOrigins
import ByteJump.Proofs.Patterns
import Mathlib.Data.List.TakeWhile

set_option autoImplicit false

/-!
# The pattern of line markers

A line marker is what the pattern `^#(?:line)?\s*(\d+)\s+"(.*?)"((?:\s+[1-4])*)` finds at the start of
a line: its first group is the number, the second the file and the third the flags.  The
reader of markers takes the longest run of everything, which is the best way through the pattern,
since no piece can begin with what the one in front of it may take.

So a line is a marker if it can be cut into the pieces at all.  The number and the file do not depend
on how; a file name ends at the first quote.

The pattern has choices: how many blanks to take, how many flags, whether the word is there.  Its
meaning is the list of all ways through it, in the order of preference, and a match is the first
one.  The proof shows for each piece that only the longest way can be continued: a run of blanks
is followed by no blank, a number by no digit, and a file name ends at a quote.  So the first way
is the one the reader takes, and if that one fails there is none.
-/

namespace ByteJump

namespace LineMap.Marker

open Text

/-! ## Runs of characters -/

section Runs

variable {accepts : Char → Bool} {front rest : List Char} {c : Char}

/-- A run that is followed by something else ends there. -/
theorem takeWhile_front (hfront : ∀ d ∈ front, accepts d = true) (hc : accepts c = false) :
    (front ++ c :: rest).takeWhile accepts = front := by
  rw [List.takeWhile_append_of_pos hfront, List.takeWhile_cons_of_neg (by simp [hc]),
    List.append_nil]

/-- What follows a run is left. -/
theorem dropWhile_front (hfront : ∀ d ∈ front, accepts d = true) (hc : accepts c = false) :
    (front ++ c :: rest).dropWhile accepts = c :: rest := by
  rw [List.dropWhile_append_of_pos hfront, List.dropWhile_cons_of_neg (by simp [hc])]

/-- Behind a run stands a character that is not of the class. -/
theorem accepts_of_dropWhile {text : List Char} (h : text.dropWhile accepts = c :: rest) :
    accepts c = false := by
  have hne : text.dropWhile accepts ≠ [] := by simp [h]
  simpa [h] using List.head_dropWhile_not accepts hne

end Runs

/-! ## Classes of characters

White space and digits are classes of Unicode, given by ranges.  That no character is in both is
checked on the ranges. -/

/-- The digits that are flags. -/
def isFlag (c : Char) : Bool := '1' ≤ c && c ≤ '4'

/-- There are four flags. -/
theorem isFlag_cases {c : Char} (h : isFlag c = true) : c = '1' ∨ c = '2' ∨ c = '3' ∨ c = '4' := by
  simp only [isFlag, Bool.and_eq_true, decide_eq_true_eq, Char.le_def, UInt32.le_iff_toNat_le] at h
  have hc : c = Char.ofNat c.toNat := (Char.ofNat_toNat c).symm
  have hcases : c.toNat = 49 ∨ c.toNat = 50 ∨ c.toNat = 51 ∨ c.toNat = 52 := by
    have hlow : 49 ≤ c.toNat := h.1
    have hhigh : c.toNat ≤ 52 := h.2
    omega
  rcases hcases with hn | hn | hn | hn <;> rw [hn] at hc <;> simp [hc]

theorem isWhite_of_isFlag {c : Char} (h : isFlag c = true) : isWhite c = false := by
  rcases isFlag_cases h with rfl | rfl | rfl | rfl <;> decide

/-- White space and digits lie in different ranges. -/
theorem ranges_apart : ∀ r ∈ whiteSpace, ∀ s ∈ decimalDigit, r.2 < s.1 ∨ s.2 < r.1 := by
  decide +kernel

/-- A digit is no white space. -/
theorem isWhite_of_isDecimalDigit {c : Char} (h : isDecimalDigit c = true) : isWhite c = false := by
  by_contra hwhite
  rw [Bool.not_eq_false] at hwhite
  obtain ⟨r, hr, hin⟩ := List.any_eq_true.mp hwhite
  obtain ⟨s, hs, hin'⟩ := List.any_eq_true.mp h
  simp only [Bool.and_eq_true, decide_eq_true_eq] at hin hin'
  rcases ranges_apart r hr s hs with happart | happart <;> omega

theorem isDecimalDigit_of_isWhite {c : Char} (h : isWhite c = true) : isDecimalDigit c = false := by
  by_contra hdigit
  rw [Bool.not_eq_false] at hdigit
  rw [isWhite_of_isDecimalDigit hdigit] at h
  cases h

/-! ## Flags -/

/-- A text is made of groups of white space with a flag behind it. -/
inductive Flags : List Char → List Nat → Prop
  | nil : Flags [] []
  | cons {gap text : List Char} {flag : Char} {flags : List Nat} (hgap : gap ≠ [])
      (hwhite : ∀ c ∈ gap, isWhite c = true) (hflag : isFlag flag = true) (h : Flags text flags) :
      Flags (gap ++ flag :: text) ((flag.toNat - '0'.toNat) :: flags)

/-- The flags of the longest text of this kind that a text starts with. -/
def LongestFlags (text : List Char) (flags : List Nat) : Prop :=
  ∃ front rest, text = front ++ rest ∧ Flags front flags ∧
    ∀ front' rest' flags', text = front' ++ rest' → Flags front' flags' → front' <+: front

/-- White space and a character behind it are found in one way. -/
theorem split_unique {gap gap' text text' : List Char} {c c' : Char}
    (h : gap ++ c :: text = gap' ++ c' :: text') (hgap : ∀ d ∈ gap, isWhite d = true)
    (hgap' : ∀ d ∈ gap', isWhite d = true) (hc : isWhite c = false) (hc' : isWhite c' = false) :
    gap = gap' ∧ c = c' ∧ text = text' := by
  have htake := congrArg (List.takeWhile isWhite) h
  rw [takeWhile_front hgap hc, takeWhile_front hgap' hc'] at htake
  subst htake
  obtain ⟨hhead, htail⟩ := List.cons.inj (List.append_cancel_left h)
  exact ⟨rfl, hhead, htail⟩

/-- Of two texts of flags that one text starts with, one starts with the other. -/
theorem Flags.prefix {front front' rest rest' : List Char} {flags flags' : List Nat}
    (h : Flags front flags) (h' : Flags front' flags') (htext : front ++ rest = front' ++ rest')
    (hle : flags.length ≤ flags'.length) : front <+: front' := by
  induction h generalizing front' rest' flags' with
  | nil => exact List.nil_prefix
  | cons hgap hwhite hflag h ih =>
      cases h' with
      | nil => simp at hle
      | cons hgap' hwhite' hflag' h' =>
          simp only [List.append_assoc, List.cons_append] at htext
          obtain ⟨rfl, rfl, hbehind⟩ := split_unique htext hwhite hwhite' (isWhite_of_isFlag hflag)
            (isWhite_of_isFlag hflag')
          have hprefix := ih h' hbehind (Nat.le_of_succ_le_succ hle)
          exact (List.prefix_append_right_inj _).mpr (List.cons_prefix_cons.mpr ⟨rfl, hprefix⟩)

/-- A text that goes on with no flag. -/
def NoFlag (text : List Char) : Prop :=
  ∀ (gap : List Char) (flag : Char) (rest : List Char), gap ≠ [] → (∀ c ∈ gap, isWhite c = true) →
    isFlag flag = true → text ≠ gap ++ flag :: rest

/-- Blanks in front of a flag are passed over. -/
theorem readFlags_white {gap : List Char} (hwhite : ∀ c ∈ gap, isWhite c = true) (hgap : gap ≠ [])
    (ready : Bool) (text : List Char) : readFlags ready (gap ++ text) = readFlags true text := by
  induction gap generalizing ready with
  | nil => exact absurd rfl hgap
  | cons c gap ih =>
      rw [List.cons_append, readFlags, if_pos (hwhite c List.mem_cons_self)]
      cases gap with
      | nil => rfl
      | cons d gap =>
          exact ih (fun e he => hwhite e (List.mem_cons_of_mem _ he)) (List.cons_ne_nil d gap) true

theorem readFlags_flag {flag : Char} (hflag : isFlag flag = true) (text : List Char) :
    readFlags true (flag :: text) = (flag.toNat - '0'.toNat) :: readFlags false text := by
  rw [readFlags, isWhite_of_isFlag hflag]
  simp only [isFlag] at hflag
  simp [hflag]

/-- The flags in front of a text are read first. -/
theorem readFlags_append {front : List Char} {flags : List Nat} (h : Flags front flags)
    (rest : List Char) : readFlags false (front ++ rest) = flags ++ readFlags false rest := by
  induction h with
  | nil => rfl
  | cons hgap hwhite hflag _ ih =>
      rw [List.append_assoc, readFlags_white hwhite hgap, List.cons_append, readFlags_flag hflag, ih]
      rfl

/-- Without a flag there is nothing to read. -/
theorem readFlags_noFlag {text : List Char} (h : NoFlag text) : readFlags false text = [] := by
  have htext := List.takeWhile_append_dropWhile (p := isWhite) (l := text)
  have hwhite : ∀ c ∈ text.takeWhile isWhite, isWhite c = true :=
    fun c hc => List.mem_takeWhile_imp hc
  by_cases hgap : text.takeWhile isWhite = []
  · cases text with
    | nil => rfl
    | cons c text =>
        have hc : isWhite c = false := by
          by_contra hc
          rw [Bool.not_eq_false] at hc
          rw [List.takeWhile_cons_of_pos hc] at hgap
          cases hgap
        simp [readFlags, hc]
  · rw [← htext, readFlags_white hwhite hgap]
    cases hrest : text.dropWhile isWhite with
    | nil => rfl
    | cons flag rest =>
        rw [hrest] at htext
        have hflag : isFlag flag ≠ true := fun hflag => h _ flag rest hgap hwhite hflag htext.symm
        have hother := accepts_of_dropWhile hrest
        simp only [isFlag] at hflag
        simp [readFlags, hother, hflag]

/-- The flags that are read are the longest text of flags that there is. -/
theorem longestFlags_of {front rest : List Char} {flags : List Nat} (h : Flags front flags)
    (hrest : NoFlag rest) : LongestFlags (front ++ rest) (readFlags false (front ++ rest)) := by
  refine ⟨front, rest, rfl, ?_, fun front' rest' flags' htext h' => ?_⟩
  · rw [readFlags_append h, readFlags_noFlag hrest, List.append_nil]
    exact h
  · have hread := readFlags_append h' rest'
    rw [← htext, readFlags_append h, readFlags_noFlag hrest, List.append_nil] at hread
    exact h'.prefix h htext.symm (by simp [hread])

/-! ## Numbers in a text

Flags are read a second time, as numbers between blanks.  This reads the same flags. -/

/-- The words that white space separates. -/
def words (text : List Char) : List (List Char) := (text.splitOnP isWhite).filter (!·.isEmpty)

/-- The words that are numbers of one byte. -/
def bytesOf (text : List Char) : List Nat :=
  (words text).filterMap fun word => (decimalBelow 256 word).toOption

/-- Blanks in front make no word. -/
theorem words_white {gap : List Char} (hwhite : ∀ c ∈ gap, isWhite c = true) (text : List Char) :
    words (gap ++ text) = words text := by
  induction gap with
  | nil => rfl
  | cons c gap ih =>
      have hc := hwhite c List.mem_cons_self
      rw [← ih fun d hd => hwhite d (List.mem_cons_of_mem _ hd)]
      simp [words, List.splitOnP_cons_eq_if_modifyHead, hc]

/-- Behind flags the text ends, or there is white space. -/
theorem words_flag {text : List Char} {flags : List Nat} (h : Flags text flags) {flag : Char}
    (hflag : isFlag flag = true) : words (flag :: text) = [flag] :: words text := by
  have hone : [flag].splitOnP isWhite = [[flag]] :=
    List.splitOnP_eq_singleton fun c hc => by
      rw [List.mem_singleton.mp hc]
      exact isWhite_of_isFlag hflag
  cases h with
  | nil => simp [words, hone]
  | @cons gap text flag' flags hgap hwhite _ _ =>
      obtain ⟨c, gap, rfl⟩ := List.exists_cons_of_ne_nil hgap
      have hc := hwhite c List.mem_cons_self
      have hsplit := List.splitOnP_append_cons (p := isWhite) [flag] (gap ++ flag' :: text) hc
      rw [hone] at hsplit
      have hfront : words (c :: (gap ++ flag' :: text)) = words (gap ++ flag' :: text) := by
        simp [words, List.splitOnP_cons_eq_if_modifyHead, hc]
      rw [List.cons_append, hfront]
      simp only [words, List.singleton_append] at hsplit ⊢
      rw [hsplit]
      simp

theorem decimalBelow_flag {flag : Char} (h : isFlag flag = true) :
    decimalBelow 256 [flag] = .ok (flag.toNat - '0'.toNat) := by
  rcases isFlag_cases h with rfl | rfl | rfl | rfl <;> rfl

/-- Each word of the flags is one digit. -/
theorem bytesOf_flags {text : List Char} {flags : List Nat} (h : Flags text flags) :
    bytesOf text = flags := by
  induction h with
  | nil => rfl
  | cons hgap hwhite hflag h ih =>
      rw [bytesOf, words_white hwhite, words_flag h hflag, List.filterMap_cons,
        decimalBelow_flag hflag]
      simp only [Except.toOption]
      rw [← ih]
      rfl

/-! ## The pattern

The pieces are put together from the back, each with the proof that the piece in front of it ends
where it has to. -/

/-- White space and a flag. -/
def flagPattern : Pattern := .seq (.run₁ isWhite) (.one isFlag)

/-- Flags, as many as there are. -/
def flagsPattern : Pattern := .group 3 (.many flagPattern true)

/-- A name between quotes, as short as it can be, and flags behind it. -/
def filePattern : Pattern :=
  .seq (.one (· == '"')) <| .seq (.group 2 (.many (.one (· != '\n')) false)) <|
    .seq (.one (· == '"')) flagsPattern

/-- A number, white space, and a file. -/
def numberPattern : Pattern :=
  .seq (.group 1 (.run₁ isDecimalDigit)) (.seq (.run₁ isWhite) filePattern)

/-- The pattern of line markers. -/
def pattern : Pattern :=
  .seq (.one (· == '#')) <| .seq (.either (.word ['l', 'i', 'n', 'e']) .nothing) <|
    .seq (.run isWhite) numberPattern

/-- What a group took last. -/
def captured (groups : List (Nat × List Char)) (number : Nat) : List Char :=
  (groups.reverse.lookup number).getD []

/-- The marker that the groups of the pattern tell. -/
def ofCaptures (groups : List (Nat × List Char)) : Marker :=
  ⟨captured groups 1, String.ofList (captured groups 2), bytesOf (captured groups 3)⟩

theorem ways_flagPattern (text : List Char) : flagPattern.ways text =
    match text.takeWhile isWhite, text.dropWhile isWhite with
    | c :: gap, flag :: rest => if isFlag flag then [⟨c :: gap ++ [flag], [], rest⟩] else []
    | _, _ => [] := by
  rw [flagPattern, Pattern.ways_seq, Pattern.flatMap_run₁ _ fun w c cs hw hc => ?_]
  · cases text.takeWhile isWhite with
    | nil => rfl
    | cons c gap =>
        rw [if_neg (List.cons_ne_nil c gap)]
        cases text.dropWhile isWhite with
        | nil => rfl
        | cons flag rest =>
            simp only [Pattern.ways_one_cons]
            split <;> simp [Pattern.Way.andThen]
  · have hc' : isFlag c = false := by
      by_contra hflag
      rw [Bool.not_eq_false] at hflag
      rw [isWhite_of_isFlag hflag] at hc
      cases hc
    simp [hw, Pattern.ways_one_cons, hc']

theorem ways_flagPattern_append {gap rest : List Char} {flag : Char} (hgap : gap ≠ [])
    (hwhite : ∀ c ∈ gap, isWhite c = true) (hflag : isFlag flag = true) :
    flagPattern.ways (gap ++ flag :: rest) = [⟨gap ++ [flag], [], rest⟩] := by
  have hother := isWhite_of_isFlag hflag
  obtain ⟨c, gap, rfl⟩ := List.exists_cons_of_ne_nil hgap
  rw [ways_flagPattern, takeWhile_front hwhite hother, dropWhile_front hwhite hother]
  simp [hflag]

/-- There is a flag, or there is no way. -/
theorem flag_or_none (text : List Char) : flagPattern.ways text = [] ∨
    ∃ gap flag rest, text = gap ++ flag :: rest ∧ gap ≠ [] ∧ (∀ c ∈ gap, isWhite c = true) ∧
      isFlag flag = true := by
  by_cases h : NoFlag text
  · left
    rw [ways_flagPattern]
    have htext := List.takeWhile_append_dropWhile (p := isWhite) (l := text)
    have hwhite : ∀ c ∈ text.takeWhile isWhite, isWhite c = true :=
      fun c hc => List.mem_takeWhile_imp hc
    split
    · rename_i c gap flag rest hgap hrest
      rw [if_neg fun hflag => ?_]
      rw [hgap] at hwhite
      rw [hgap, hrest] at htext
      exact h _ flag rest (List.cons_ne_nil c gap) hwhite hflag htext.symm
    · rfl
  · right
    simp only [NoFlag, not_forall] at h
    obtain ⟨gap, flag, rest, hgap, hwhite, hflag, htext⟩ := h
    exact ⟨gap, flag, rest, not_not.mp htext, hgap, hwhite, hflag⟩

/-- The best way through the flags takes the longest text of flags. -/
theorem captures?_flags (text : List Char) : ∃ front rest flags, text = front ++ rest ∧
    Flags front flags ∧ NoFlag rest ∧ flagsPattern.captures? text = some [(3, front)] := by
  have hturn : ∀ text, flagPattern.ways text = [] ∨ ∃ v, flagPattern.ways text = [v] ∧
      v.taken ≠ [] ∧ v.groups = [] ∧ text = v.taken ++ v.rest ∧
      ∀ more, (∃ flags, Flags more flags) → ∃ flags, Flags (v.taken ++ more) flags := by
    intro text
    rcases flag_or_none text with hnone | ⟨gap, flag, rest, rfl, hgap, hwhite, hflag⟩
    · exact .inl hnone
    · refine .inr ⟨_, ways_flagPattern_append hgap hwhite hflag, by simp, rfl, by simp, ?_⟩
      rintro more ⟨flags, h⟩
      rw [List.append_assoc]
      exact ⟨_, .cons hgap hwhite hflag h⟩
  obtain ⟨w, hbest, hgroups, htext, ⟨flags, hflags⟩, hstop⟩ :=
    Pattern.exists_turns ⟨[], .nil⟩ hturn text.length text (Nat.le_refl _)
  refine ⟨w.taken, w.rest, flags, htext, hflags, ?_, ?_⟩
  · intro gap flag rest hgap hwhite hflag hrest
    rw [hrest, ways_flagPattern_append hgap hwhite hflag] at hstop
    cases hstop
  · rw [Pattern.captures?, flagsPattern, Pattern.ways, Pattern.ways, List.head?_map, hbest]
    simp [Pattern.Way.keep, hgroups]

/-- The reader takes as many flags as there are. -/
theorem longestFlags_readFlags (text : List Char) : LongestFlags text (readFlags false text) := by
  obtain ⟨front, rest, flags, rfl, hflags, hrest, -⟩ := captures?_flags text
  exact longestFlags_of hflags hrest

/-- No flags is always a way. -/
theorem ways_flagsPattern_ne_nil (text : List Char) : flagsPattern.ways text ≠ [] := by
  obtain ⟨front, rest, flags, -, -, -, hcaptures⟩ := captures?_flags text
  intro h
  rw [Pattern.captures?, h] at hcaptures
  cases hcaptures

/-- A file with its flags, behind the number of a marker. -/
theorem readFile_eq {text : List Char} (hline : '\n' ∉ text) (digits : List Char) :
    readFile digits text =
      (filePattern.captures? text).map fun groups => ofCaptures ((1, digits) :: groups) := by
  cases text with
  | nil => rfl
  | cons c text =>
      rw [filePattern, Pattern.captures?_one]
      by_cases hc : c = '"'
      · subst hc
        have htext : ∀ d ∈ text, (d != '\n') = true := fun d hd => by
          simp only [bne_iff_ne, ne_eq]
          rintro rfl
          exact hline (List.mem_cons_of_mem _ hd)
        rw [beq_self_eq_true, if_pos rfl,
          Pattern.captures?_lazy ways_flagsPattern_ne_nil htext, readFile]
        simp only [bne]
        cases hdrop : text.dropWhile (!· == '"') with
        | nil => rfl
        | cons d behind =>
            obtain rfl : d = '"' := by simpa using accepts_of_dropWhile hdrop
            obtain ⟨front, rest, flags, rfl, hflags, hrest, hcaptures⟩ := captures?_flags behind
            simp only [hcaptures, Option.map_some, readFlags_append hflags, readFlags_noFlag hrest,
              List.append_nil]
            simp only [ofCaptures, captured, ← bytesOf_flags hflags]
            rfl
      · rw [if_neg (by simpa using hc)]
        simp [readFile, hc]

theorem filePattern_avoids : filePattern.Avoids isWhite :=
  (Pattern.avoids_one fun c hc => by
    rw [beq_eq_false_iff_ne]
    rintro rfl
    revert hc
    decide).seq

/-- What follows a number starts with a blank. -/
theorem gap_avoids : (Pattern.seq (.run₁ isWhite) filePattern).Avoids isDecimalDigit :=
  (Pattern.avoids_one fun _ => isWhite_of_isDecimalDigit).seq.seq

theorem numberPattern_avoids : numberPattern.Avoids isWhite :=
  (Pattern.avoids_one fun _ => isDecimalDigit_of_isWhite).seq.group.seq

/-- Neither white space nor a number begins like the word. -/
theorem ways_word (text : List Char) :
    (Pattern.seq (.run isWhite) numberPattern).ways (['l', 'i', 'n', 'e'] ++ text) = [] := by
  have hwhite : isWhite 'l' = false := by decide
  have hdigit : isDecimalDigit 'l' = false := by decide
  rw [Pattern.ways_seq, Pattern.flatMap_run _ fun w c cs hw hc => by
    rw [hw, numberPattern_avoids c cs hc]; rfl]
  simp [hwhite, numberPattern, Pattern.run₁, Pattern.ways, hdigit]

theorem dropWord_eq (text : List Char) : dropWord text =
    if ['l', 'i', 'n', 'e'].isPrefixOf text then text.drop 4 else text := by
  unfold dropWord
  split
  · rfl
  · rename_i hother
    rw [if_neg]
    rw [List.isPrefixOf_iff_prefix]
    rintro ⟨rest, rfl⟩
    exact hother rest rfl

/-- The reader of markers finds the best way through the pattern. -/
theorem read?_eq {line : List Char} (hline : '\n' ∉ line) :
    read? line = (pattern.captures? line).map ofCaptures := by
  cases line with
  | nil => rfl
  | cons c rest =>
      rw [pattern, Pattern.captures?_one]
      by_cases hc : c = '#'
      · subst hc
        have hsuffix : (dropWord rest).dropWhile isWhite <:+ rest := by
          refine (List.dropWhile_suffix _).trans ?_
          rw [dropWord_eq]
          split
          · exact List.drop_suffix 4 rest
          · exact List.suffix_rfl
        rw [beq_self_eq_true, if_pos rfl, Pattern.captures?_optional ways_word]
        change _ = Option.map _ (Pattern.captures? _ (if _ then rest.drop 4 else rest))
        rw [← dropWord_eq, Pattern.captures?_run numberPattern_avoids, read?]
        generalize (dropWord rest).dropWhile isWhite = text at hsuffix
        have htext : '\n' ∉ text := fun h => hline (List.mem_cons_of_mem _ (hsuffix.subset h))
        have hfile : '\n' ∉ (text.dropWhile isDecimalDigit).dropWhile isWhite := fun h =>
          htext (((List.dropWhile_suffix _).trans (List.dropWhile_suffix _)).subset h)
        rw [numberPattern, Pattern.captures?_group_run₁ gap_avoids,
          Pattern.captures?_run₁ filePattern_avoids, readFile_eq hfile]
        by_cases hdigits : text.takeWhile isDecimalDigit = []
        · simp [hdigits]
        by_cases hgap : (text.dropWhile isDecimalDigit).takeWhile isWhite = []
        · simp [hgap]
        rw [if_neg hdigits, if_neg hgap, if_neg (by simp [hdigits, hgap]), Option.map_map]
        rfl
      · rw [if_neg (by simpa using hc)]
        simp [read?, hc]

/-! ## Lines that are markers

A cut names the pieces of a line without saying which way through the pattern they belong to. -/

/-- A line cut into the pieces of a marker: a number sign and perhaps the word, white space, a number,
white space, and a name between quotes, in which there may be quotes too. -/
structure Cut (line : List Char) where
  word : List Char
  white : List Char
  digits : List Char
  gap : List Char
  name : List Char
  behind : List Char
  line_eq : line =
    '#' :: (word ++ (white ++ (digits ++ (gap ++ '"' :: (name ++ '"' :: behind)))))
  isWord : word = [] ∨ word = ['l', 'i', 'n', 'e']
  isWhite_white : ∀ c ∈ white, isWhite c = true
  digits_ne : digits ≠ []
  isDecimalDigit_digits : ∀ c ∈ digits, isDecimalDigit c = true
  gap_ne : gap ≠ []
  isWhite_gap : ∀ c ∈ gap, isWhite c = true
  name_line : '\n' ∉ name

namespace Cut

variable {line : List Char} (cut : Cut line)

/-- The line from its number on. -/
def number : List Char := cut.digits ++ (cut.gap ++ '"' :: (cut.name ++ '"' :: cut.behind))

/-- All white space in front of the number is left out, and the word. -/
theorem dropWhile_dropWord :
    (dropWord (cut.word ++ (cut.white ++ cut.number))).dropWhile isWhite = cut.number := by
  obtain ⟨d, digits, hdigits⟩ := List.exists_cons_of_ne_nil cut.digits_ne
  have hd : isDecimalDigit d = true := cut.isDecimalDigit_digits d (by simp [hdigits])
  have hnumber : cut.number = d :: (digits ++ (cut.gap ++ '"' :: (cut.name ++ '"' :: cut.behind))) :=
    by simp [number, hdigits]
  have hword : dropWord (cut.word ++ (cut.white ++ cut.number)) = cut.white ++ cut.number := by
    rcases cut.isWord with hword | hword
    · rw [hword, List.nil_append, dropWord_eq, if_neg]
      intro hprefix
      have hl : ∃ text, cut.white ++ cut.number = 'l' :: text := by
        obtain ⟨text, htext⟩ := List.isPrefixOf_iff_prefix.mp hprefix
        exact ⟨_, htext.symm⟩
      obtain ⟨text, hl⟩ := hl
      cases hwhite : cut.white with
      | nil =>
          rw [hwhite, hnumber] at hl
          cases hl
          revert hd
          decide
      | cons c white =>
          have hc := cut.isWhite_white c (by simp [hwhite])
          rw [hwhite] at hl
          cases hl
          revert hc
          decide
    · rw [hword]
      rfl
  rw [hword, List.dropWhile_append_of_pos cut.isWhite_white, hnumber,
    List.dropWhile_cons_of_neg (by simp [isWhite_of_isDecimalDigit hd])]

theorem takeWhile_number : cut.number.takeWhile isDecimalDigit = cut.digits := by
  obtain ⟨c, gap, hgap⟩ := List.exists_cons_of_ne_nil cut.gap_ne
  have hc := isDecimalDigit_of_isWhite (cut.isWhite_gap c (by simp [hgap]))
  rw [number, hgap, List.cons_append]
  exact takeWhile_front cut.isDecimalDigit_digits hc

theorem dropWhile_number : cut.number.dropWhile isDecimalDigit =
    cut.gap ++ '"' :: (cut.name ++ '"' :: cut.behind) := by
  obtain ⟨c, gap, hgap⟩ := List.exists_cons_of_ne_nil cut.gap_ne
  have hc := isDecimalDigit_of_isWhite (cut.isWhite_gap c (by simp [hgap]))
  rw [number, hgap, List.cons_append]
  exact dropWhile_front cut.isDecimalDigit_digits hc

/-- The name ends at the first quote. -/
theorem exists_file : ∃ file behind : List Char, '"' ∉ file ∧
    cut.name ++ '"' :: cut.behind = file ++ '"' :: behind := by
  have hmem : '"' ∈ cut.name ++ '"' :: cut.behind := by simp
  obtain ⟨file, behind, hname, hfile⟩ := List.eq_append_cons_of_mem hmem
  exact ⟨file, behind, hfile, hname⟩

/-- The marker that is read from a line that can be cut. -/
theorem read?_eq {file behind : List Char} (hfile : '"' ∉ file)
    (hname : cut.name ++ '"' :: cut.behind = file ++ '"' :: behind) :
    read? line = some ⟨cut.digits, String.ofList file, readFlags false behind⟩ := by
  have hquote : isWhite '"' = false := by decide
  have hend : ('"' != '"') = false := rfl
  have hother : ∀ c ∈ file, (c != '"') = true := fun c hc => by
    rw [bne_iff_ne]
    rintro rfl
    exact hfile hc
  have hline : read? line = read? ('#' :: (cut.word ++ (cut.white ++ cut.number))) :=
    congrArg read? cut.line_eq
  rw [hline, read?]
  simp only [cut.dropWhile_dropWord, cut.takeWhile_number, cut.dropWhile_number, hname,
    takeWhile_front cut.isWhite_gap hquote, dropWhile_front cut.isWhite_gap hquote]
  rw [if_neg (by simp [cut.digits_ne, cut.gap_ne]), readFile, dropWhile_front hother hend,
    takeWhile_front hother hend]
  rfl

end Cut

theorem readFile_some {digits text : List Char} {m : Marker} (h : readFile digits text = some m) :
    ∃ name behind : List Char, text = '"' :: (name ++ '"' :: behind) := by
  unfold readFile at h
  split at h
  · rename_i rest
    split at h
    · rename_i behind hdrop
      have hrest := List.takeWhile_append_dropWhile (p := (· != '"')) (l := rest)
      rw [hdrop] at hrest
      exact ⟨_, behind, by rw [hrest]⟩
    · cases h
  · cases h

/-- The word stands there or it does not. -/
theorem exists_word (rest : List Char) : ∃ word,
    (word = [] ∨ word = ['l', 'i', 'n', 'e']) ∧ rest = word ++ dropWord rest := by
  unfold dropWord
  split
  · exact ⟨_, .inr rfl, rfl⟩
  · exact ⟨[], .inl rfl, rfl⟩

/-- A line from which a marker is read can be cut. -/
theorem exists_cut {line : List Char} (hline : '\n' ∉ line) {m : Marker}
    (h : read? line = some m) : Nonempty (Cut line) := by
  unfold read? at h
  split at h
  case h_2 => cases h
  case h_1 rest =>
    obtain ⟨word, hword, hrest⟩ := exists_word rest
    have hwhite := List.takeWhile_append_dropWhile (p := isWhite) (l := dropWord rest)
    dsimp only at h
    generalize (dropWord rest).dropWhile isWhite = text at h hwhite
    have hdigits := List.takeWhile_append_dropWhile (p := isDecimalDigit) (l := text)
    generalize text.dropWhile isDecimalDigit = behind at h hdigits
    have hgap := List.takeWhile_append_dropWhile (p := isWhite) (l := behind)
    split at h
    · cases h
    · rename_i hne
      simp only [Bool.or_eq_true, List.isEmpty_iff, not_or] at hne
      obtain ⟨name, behind', hname⟩ := readFile_some h
      rw [hname] at hgap
      rw [← hgap] at hdigits
      rw [← hdigits] at hwhite
      have htext : '#' :: rest = '#' :: (word ++ ((dropWord rest).takeWhile isWhite ++
          (text.takeWhile isDecimalDigit ++ (behind.takeWhile isWhite ++
            '"' :: (name ++ '"' :: behind'))))) := by
        rw [hwhite, ← hrest]
      refine ⟨⟨word, _, _, _, name, behind', htext, hword, fun c hc => List.mem_takeWhile_imp hc,
        hne.1, fun c hc => List.mem_takeWhile_imp hc, hne.2,
        fun c hc => List.mem_takeWhile_imp hc, fun hmem => hline ?_⟩⟩
      rw [htext]
      simp [hmem]

/-- A line has no line break in it. -/
theorem notMem_of_lines {text : List Char} {lines : List (List Char)} (h : Lines text lines) :
    ∀ line ∈ lines, '\n' ∉ line := by
  induction h with
  | none => simp
  | rest hline _ => simpa using hline
  | feed hline _ _ ih => exact List.forall_mem_cons.mpr ⟨hline, ih⟩
  | returnFeed hline _ ih => exact List.forall_mem_cons.mpr ⟨hline, ih⟩

/-- The reader of markers finds what the best way through the pattern finds, on all lines.  A line is a
marker if it can be cut into the pieces of one; and however it is cut, the number has all digits there
are, the file ends at the first quote behind the one in front of it, and the flags are the longest
row of flags right behind that. -/
theorem markers_recognised :
    (∀ source : String, ∀ line ∈ lines source, '\n' ∉ line) ∧
    ∀ line : List Char, '\n' ∉ line →
      read? line = (pattern.captures? line).map ofCaptures ∧
      ((read? line).isSome = true ↔ Nonempty (Cut line)) ∧
      ∀ cut : Cut line, ∃ (m : Marker) (file behind : List Char), read? line = some m ∧
        m.digits = cut.digits ∧ m.digits = cut.number.takeWhile isDecimalDigit ∧
        cut.name ++ '"' :: cut.behind = file ++ '"' :: behind ∧ '"' ∉ file ∧
        m.file = String.ofList file ∧ LongestFlags behind m.flags := by
  refine ⟨fun source => notMem_of_lines (lines_spec source), fun line hline =>
    ⟨read?_eq hline, ⟨fun h => ?_, fun ⟨cut⟩ => ?_⟩, fun cut => ?_⟩⟩
  · obtain ⟨m, hm⟩ := Option.isSome_iff_exists.mp h
    exact exists_cut hline hm
  · obtain ⟨file, behind, hfile, hname⟩ := cut.exists_file
    rw [cut.read?_eq hfile hname]
    rfl
  · obtain ⟨file, behind, hfile, hname⟩ := cut.exists_file
    exact ⟨_, file, behind, cut.read?_eq hfile hname, rfl, cut.takeWhile_number.symm, hname, hfile,
      rfl, longestFlags_readFlags behind⟩

/-- A line with three quotes: the name could end at the last of them, but it ends at the second. -/
theorem markers_recognised_quotes :
    let line := "#line\t12 \"a\" 1 3x\" 2".toList
    '\n' ∉ line ∧ read? line = (pattern.captures? line).map ofCaptures ∧
      read? line = some ⟨['1', '2'], "a", [1, 3]⟩ ∧
      ∃ cut : Cut line, cut.name = "a\" 1 3x".toList ∧ cut.behind = " 2".toList ∧
        ∃ m file behind, read? line = some m ∧ m.digits = cut.digits ∧ '"' ∉ file ∧
          cut.name ++ '"' :: cut.behind = file ++ '"' :: behind ∧ m.file = String.ofList file ∧
          LongestFlags behind m.flags := by
  intro line
  have hline : '\n' ∉ line := by decide
  obtain ⟨hpattern, -, hcut⟩ := markers_recognised.2 line hline
  let cut : Cut line :=
    ⟨"line".toList, ['\t'], ['1', '2'], [' '], "a\" 1 3x".toList, " 2".toList, by decide, by decide,
      List.all_eq_true.mp (by decide), by decide, List.all_eq_true.mp (by decide), by decide,
      List.all_eq_true.mp (by decide), by decide⟩
  obtain ⟨m, file, behind, hread, hdigits, -, hname, hfile, htext, hflags⟩ := hcut cut
  exact ⟨hline, hpattern, by decide, cut, rfl, rfl, m, file, behind, hread, hdigits, hfile, hname,
    htext, hflags⟩

end LineMap.Marker

end ByteJump
