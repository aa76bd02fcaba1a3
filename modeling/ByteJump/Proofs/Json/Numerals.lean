import ByteJump.Proofs.Json.Lexing

set_option autoImplicit false

/-!
# Texts of numbers

A text of a number is the text of an integer of 64 bits only where it is spelled as the number is
printed: with the least digits, no point and no exponent, and a minus sign only in front of what is
not zero.  Anything else, `-0`, `1.0` and `1e3` among it, is a number of another kind, and so is an
integer that does not fit.

While a number is read its digits go into the significand as long as there is room.  The invariant
is that a number in its integer part that has left nothing out is spelled by its sign and the
digits of its significand.
-/

-- powers of natural numbers are the built-in ones
attribute [local instance (high)] instPowNat

namespace ByteJump.Json

namespace Numeral

/-- What is read from the characters of a number. -/
def run? : List Char → Option Numeral
  | [] => none
  | c :: cs => (start? c).bind fun n => cs.foldlM push? n

/-- The number that a text spells. -/
def number? (cs : List Char) : Option Number := (run? cs).bind finish?

/-- The sign as it is spelled. -/
def signChars (negative : Bool) : List Char := if negative then ['-'] else []

/-- An integer that has left nothing out is spelled by its sign and its digits. -/
def Kept (n : Numeral) : Prop :=
  match n.phase with
  | .sign => n.spelled = ['-'] ∧ n.negative = true ∧ n.full = false ∧ n.significand = 0
  | .zero => n.full = false ∧ n.significand = 0 ∧ n.spelled.reverse = signChars n.negative ++ ['0']
  | .integer => n.full = false → 0 < n.significand ∧ n.significand < significandBound ∧
      n.spelled.reverse = signChars n.negative ++ Nat.toDigits 10 n.significand
  | _ => True

/-! ## Digits -/

/-- A digit is that of its value. -/
theorem exists_digitChar {c : Char} (hc : c.isDigit = true) : ∃ d < 10, c = d.digitChar := by
  simp only [Char.isDigit, Bool.and_eq_true, decide_eq_true_eq, ge_iff_le,
    UInt32.le_iff_toNat_le] at hc
  have hrange : 48 ≤ c.toNat ∧ c.toNat ≤ 57 := hc
  have hdigit : ∀ d < 10, (Nat.digitChar d).toNat = 48 + d := by decide
  refine ⟨c.toNat - 48, by omega, Char.toNat_inj.mp ?_⟩
  rw [hdigit _ (by omega)]
  omega

/-- The value of a digit is the digit. -/
theorem digitValue_of_digitChar {d : Nat} (hd : d < 10) : digitValue d.digitChar = d :=
  (digitChar_lt_ten d hd).2.1

/-- One more digit behind those of a number that is not zero. -/
theorem toDigits_push {n d : Nat} (hn : 0 < n) (hd : d < 10) :
    Nat.toDigits 10 (n * 10 + d) = Nat.toDigits 10 n ++ [d.digitChar] := by
  have hfront : (n * 10 + d) / 10 = n := by omega
  have hlast : (n * 10 + d) % 10 = d := by omega
  rw [Nat.toDigits_of_base_le (by decide) (by omega), hfront, hlast]

/-! ## Steps

A step takes one character.  The phase tells which characters may come next; once a point or an
exponent has come, the text is no integer any more, whatever follows. -/

/-- A number starts with a sign or a digit. -/
theorem Kept.start {n : Numeral} {c : Char} (h : start? c = some n) :
    n.Kept ∧ n.spelled = [c] := by
  unfold start? at h
  split at h
  · rename_i hminus
    subst hminus
    cases h
    exact ⟨⟨rfl, rfl, rfl, rfl⟩, rfl⟩
  · split at h
    · rename_i hzero
      subst hzero
      cases h
      exact ⟨⟨rfl, rfl, rfl⟩, rfl⟩
    · split at h
      · rename_i hzero hdigit
        obtain ⟨d, hd, rfl⟩ := exists_digitChar hdigit
        cases h
        refine ⟨fun _ => ?_, rfl⟩
        have hpos : d ≠ 0 := fun h => hzero ((digitChar_lt_ten d hd).2.2.1.mpr h)
        rw [digitValue_of_digitChar hd]
        refine ⟨Nat.pos_of_ne_zero hpos, Nat.lt_trans hd (by decide), ?_⟩
        rw [Nat.toDigits_of_lt_base hd]
        rfl
      · cases h

/-- A zero behind the sign. -/
theorem Kept.pushZero {n : Numeral} (h : n.Kept) (hphase : n.phase = .sign) :
    (n.pushInteger .zero '0').Kept := by
  rw [Kept, hphase] at h
  obtain ⟨hspelled, hnegative, hfull, hzero⟩ := h
  have hpush : n.pushInteger .zero '0' = { n with phase := .zero, spelled := '0' :: n.spelled } := by
    simp [Numeral.pushInteger, extend?, hfull, hzero, digitValue, significandBound]
  rw [hpush]
  exact ⟨hfull, hzero, by simp [hspelled, hnegative, signChars]⟩

/-- One more digit in the integer part. -/
theorem Kept.pushInteger {n : Numeral} {d : Nat} (h : n.Kept) (hd : d < 10)
    (hphase : n.phase = .integer ∨ n.phase = .sign ∧ d ≠ 0) :
    (n.pushInteger .integer d.digitChar).Kept := by
  have hextend : Numeral.extend?
      { n with phase := .integer, spelled := d.digitChar :: n.spelled } d.digitChar =
        if n.full || significandBound ≤ n.significand * 10 + d then none
        else some (n.significand * 10 + d) := by
    rw [extend?, digitValue_of_digitChar hd]
  rw [Numeral.pushInteger]
  dsimp only
  rw [hextend]
  split
  · rename_i longer hlonger
    split at hlonger
    · cases hlonger
    · rename_i hroom
      cases hlonger
      rw [Bool.not_eq_true, Bool.or_eq_false_iff, decide_eq_false_iff_not] at hroom
      intro hfull
      rcases hphase with hphase | ⟨hphase, hpos⟩
      · rw [Kept, hphase] at h
        obtain ⟨hpos, -, hspelled⟩ := h hfull
        refine ⟨by dsimp only; omega, Nat.lt_of_not_le hroom.2, ?_⟩
        dsimp only
        rw [List.reverse_cons, hspelled, toDigits_push hpos hd, List.append_assoc]
      · rw [Kept, hphase] at h
        obtain ⟨hspelled, hnegative, -, hzero⟩ := h
        refine ⟨by dsimp only; omega, Nat.lt_of_not_le hroom.2, ?_⟩
        dsimp only
        rw [hspelled, hnegative, hzero, Nat.zero_mul, Nat.zero_add, Nat.toDigits_of_lt_base hd]
        rfl
  · intro hnone
    cases hnone

theorem pushInteger_spelled (n : Numeral) (phase : Phase) (c : Char) :
    (n.pushInteger phase c).spelled = c :: n.spelled := by
  unfold pushInteger
  dsimp only
  split <;> rfl

/-- Behind the point there are fraction digits only. -/
theorem pushFraction_phase (n : Numeral) (c : Char) :
    (n.pushFraction c).phase = .fraction ∧ (n.pushFraction c).spelled = c :: n.spelled := by
  unfold pushFraction
  dsimp only
  split <;> exact ⟨rfl, rfl⟩

/-- Behind the integer part nothing is asked. -/
theorem Kept.ofPhase {n : Numeral} (h : n.phase ≠ .sign ∧ n.phase ≠ .zero ∧ n.phase ≠ .integer) :
    n.Kept := by
  obtain ⟨hsign, hzero, hinteger⟩ := h
  unfold Kept
  split
  · exact absurd ‹_› hsign
  · exact absurd ‹_› hzero
  · exact absurd ‹_› hinteger
  · trivial

/-- One more character keeps the invariant. -/
theorem Kept.push {n n' : Numeral} {c : Char} (h : n.Kept) (hpush : n.push? c = some n') :
    n'.Kept ∧ n'.spelled = c :: n.spelled := by
  have hpoint : (n.pushPoint c).Kept ∧ (n.pushPoint c).spelled = c :: n.spelled :=
    ⟨.ofPhase ⟨nofun, nofun, nofun⟩, rfl⟩
  have hfraction : (n.pushFraction c).Kept ∧ (n.pushFraction c).spelled = c :: n.spelled := by
    obtain ⟨hphase, hspelled⟩ := pushFraction_phase n c
    exact ⟨.ofPhase (by rw [hphase]; exact ⟨nofun, nofun, nofun⟩), hspelled⟩
  have hmark : (n.pushMark .mark c).Kept ∧ (n.pushMark .mark c).spelled = c :: n.spelled :=
    ⟨.ofPhase ⟨nofun, nofun, nofun⟩, rfl⟩
  have hmarkSign : (n.pushMark .markSign c).Kept ∧
      (n.pushMark .markSign c).spelled = c :: n.spelled :=
    ⟨.ofPhase ⟨nofun, nofun, nofun⟩, rfl⟩
  have hexponent : (n.pushExponent c).Kept ∧ (n.pushExponent c).spelled = c :: n.spelled :=
    ⟨.ofPhase ⟨nofun, nofun, nofun⟩, rfl⟩
  cases hphase : n.phase <;> simp only [push?, hphase] at hpush
  case sign =>
    split at hpush
    · rename_i hc
      subst hc
      cases hpush
      exact ⟨h.pushZero hphase, pushInteger_spelled n .zero _⟩
    · split at hpush
      · rename_i hzero hdigit
        obtain ⟨d, hd, rfl⟩ := exists_digitChar hdigit
        cases hpush
        have hpos : d ≠ 0 := fun h => hzero ((digitChar_lt_ten d hd).2.2.1.mpr h)
        exact ⟨h.pushInteger hd (Or.inr ⟨hphase, hpos⟩), pushInteger_spelled n .integer _⟩
      · cases hpush
  case integer =>
    split at hpush
    · rename_i hdigit
      obtain ⟨d, hd, rfl⟩ := exists_digitChar hdigit
      cases hpush
      exact ⟨h.pushInteger hd (Or.inl hphase), pushInteger_spelled n .integer _⟩
    · split at hpush
      · cases hpush
        exact hpoint
      · split at hpush
        · cases hpush
          exact hmark
        · cases hpush
  all_goals
    repeat' split at hpush
    all_goals first | cases hpush; assumption | cases hpush

/-- A whole run keeps the invariant. -/
theorem Kept.run {n n' : Numeral} {cs : List Char} (h : n.Kept)
    (hrun : cs.foldlM push? n = some n') :
    n'.Kept ∧ n'.spelled = cs.reverse ++ n.spelled := by
  induction cs generalizing n with
  | nil =>
      cases hrun
      exact ⟨h, rfl⟩
  | cons c cs ih =>
      rw [List.foldlM_cons] at hrun
      obtain ⟨next, hnext, hrest⟩ := Option.bind_eq_some_iff.mp hrun
      obtain ⟨hkept, hspelled⟩ := h.push hnext
      obtain ⟨hkept', hspelled'⟩ := ih hkept hrest
      refine ⟨hkept', ?_⟩
      rw [hspelled', hspelled, List.reverse_cons, List.append_assoc, List.singleton_append]

/-- By induction on the characters. -/
theorem Kept.ofRun {n : Numeral} {cs : List Char} (h : run? cs = some n) :
    n.Kept ∧ n.spelled.reverse = cs := by
  cases cs with
  | nil => cases h
  | cons c cs =>
      obtain ⟨first, hfirst, hrun⟩ := Option.bind_eq_some_iff.mp h
      obtain ⟨hkept, hspelled⟩ := Kept.start hfirst
      obtain ⟨hkept', hspelled'⟩ := hkept.run hrun
      refine ⟨hkept', ?_⟩
      rw [hspelled', hspelled, List.reverse_append, List.reverse_reverse]
      rfl

/-! ## Integers -/

/-- The last character is taken last. -/
theorem run?_append_singleton {cs : List Char} (hne : cs ≠ []) (c : Char) :
    run? (cs ++ [c]) = (run? cs).bind fun n => n.push? c := by
  cases cs with
  | nil => exact absurd rfl hne
  | cons first cs =>
      show ((start? first).bind fun n => (cs ++ [c]).foldlM push? n) = _
      rw [run?, Option.bind_assoc]
      refine congrArg (start? first).bind (funext fun n => ?_)
      rw [List.foldlM_append]
      exact congrArg (Option.bind _) (funext fun n => by rw [List.foldlM_cons]; cases n.push? c <;> rfl)

/-- The digits of a positive number are read to it, behind a minus sign or without one. -/
theorem run?_toDigits (negative : Bool) : ∀ m, 0 < m → m < significandBound →
    ∃ spelled, run? (signChars negative ++ Nat.toDigits 10 m) =
      some ⟨.integer, negative, m, false, 0, false, 0, spelled⟩ := by
  intro m
  induction m using Nat.strongRecOn with
  | ind m ih =>
      intro hpos hm
      by_cases hsmall : m < 10
      · have hcases : m = 1 ∨ m = 2 ∨ m = 3 ∨ m = 4 ∨ m = 5 ∨ m = 6 ∨ m = 7 ∨ m = 8 ∨ m = 9 := by
          omega
        rw [Nat.toDigits_of_lt_base hsmall]
        cases negative <;>
          rcases hcases with rfl | rfl | rfl | rfl | rfl | rfl | rfl | rfl | rfl <;>
            exact ⟨_, rfl⟩
      · obtain ⟨spelled, hrun⟩ := ih (m / 10) (by omega) (by omega) (by omega)
        have hnext : m / 10 * 10 + m % 10 = m := by omega
        have hpush := Lexer.push?_digitChar
          (n := ⟨.integer, negative, m / 10, false, 0, false, 0, spelled⟩) rfl rfl
          (Nat.mod_lt m (by decide)) (by rw [hnext]; exact hm)
        have hne : signChars negative ++ Nat.toDigits 10 (m / 10) ≠ [] := by
          simp [Nat.toDigits_ne_nil]
        rw [← hnext, toDigits_push (by omega) (Nat.mod_lt m (by decide)), ← List.append_assoc,
          run?_append_singleton hne, hrun]
        exact ⟨_, hpush⟩

/-- A whole integer that has left nothing out is spelled by its sign and its digits. -/
theorem Kept.spelled_eq {n : Numeral} (h : n.Kept) (hphase : n.phase = .zero ∨ n.phase = .integer)
    (hfull : n.full = false) :
    n.significand < significandBound ∧
      n.spelled.reverse = signChars n.negative ++ Nat.toDigits 10 n.significand := by
  rcases hphase with hphase | hphase
  · rw [Kept, hphase] at h
    obtain ⟨-, hzero, hspelled⟩ := h
    rw [hzero]
    exact ⟨by decide, hspelled⟩
  · rw [Kept, hphase] at h
    exact (h hfull).2

/-- What a number is known as: only integers that have left nothing out are known by their
value. -/
inductive KnownAs (n : Numeral) : Number → Prop
  | natural (hphase : n.phase = .zero ∨ n.phase = .integer) (hfull : n.full = false)
      (hnegative : n.negative = false) : KnownAs n (.natural (UInt64.ofNat n.significand))
  | negative (hphase : n.phase = .zero ∨ n.phase = .integer) (hfull : n.full = false)
      (hnegative : n.negative = true) (hpos : 0 < n.significand)
      (hle : n.significand ≤ 2 ^ (63 : Nat)) : KnownAs n (.negative n.significand)
  | double : KnownAs n n.double

/-- A number that may end where it does is known as an integer or as another number. -/
theorem knownAs_of_finish? {n : Numeral} {number : Number} (h : n.finish? = some number) :
    n.KnownAs number := by
  by_cases hphase : n.phase = .zero ∨ n.phase = .integer
  · have hfinish : n.finish? =
        if n.full then some n.double
        else if !n.negative then some (.natural (UInt64.ofNat n.significand))
        else if 0 < n.significand ∧ n.significand ≤ 2 ^ (63 : Nat) then
          some (.negative n.significand)
        else some n.double := by
      rcases hphase with hphase | hphase <;> rw [finish?, hphase]
    rw [hfinish] at h
    split at h
    · cases h
      exact .double
    · rename_i hfull
      rw [Bool.not_eq_true] at hfull
      split at h
      · rename_i hnegative
        cases h
        exact .natural hphase hfull (by simpa using hnegative)
      · rename_i hnegative
        split at h
        · rename_i hrange
          cases h
          exact .negative hphase hfull (by simpa using hnegative) hrange.1 hrange.2
        · cases h
          exact .double
  · unfold finish? at h
    split at h
    · exact absurd (Or.inl ‹_›) hphase
    · exact absurd (Or.inr ‹_›) hphase
    · cases h
      exact .double
    · cases h
      exact .double
    · cases h

/-- A text is that of a natural number of 64 bits if it is its digits. -/
theorem number?_eq_natural {cs : List Char} {n : UInt64} :
    number? cs = some (.natural n) ↔ cs = Nat.toDigits 10 n.toNat := by
  constructor
  · intro h
    obtain ⟨last, hrun, hfinish⟩ := Option.bind_eq_some_iff.mp h
    obtain ⟨hkept, rfl⟩ := Kept.ofRun hrun
    cases knownAs_of_finish? hfinish with
    | natural hphase hfull hnegative =>
        obtain ⟨hbound, hspelled⟩ := hkept.spelled_eq hphase hfull
        have hvalue : (UInt64.ofNat last.significand).toNat = last.significand := by
          rw [UInt64.toNat_ofNat']
          exact Nat.mod_eq_of_lt hbound
        rw [hspelled, hnegative, hvalue]
        rfl
  · rintro rfl
    rcases Nat.eq_zero_or_pos n.toNat with hzero | hpos
    · have hn : n = 0 := UInt64.toNat_inj.mp hzero
      subst hn
      rfl
    · obtain ⟨spelled, hrun⟩ := run?_toDigits false n.toNat hpos n.toNat_lt
      rw [signChars, if_neg Bool.false_ne_true, List.nil_append] at hrun
      rw [number?, hrun]
      show some (Number.natural (UInt64.ofNat n.toNat)) = _
      rw [UInt64.ofNat_toNat]

/-- A text is that of a negative number of 64 bits if it is its digits behind a minus sign. -/
theorem number?_eq_negative {cs : List Char} {m : Nat} :
    number? cs = some (.negative m) ↔
      0 < m ∧ m ≤ 2 ^ (63 : Nat) ∧ cs = '-' :: Nat.toDigits 10 m := by
  constructor
  · intro h
    obtain ⟨last, hrun, hfinish⟩ := Option.bind_eq_some_iff.mp h
    obtain ⟨hkept, rfl⟩ := Kept.ofRun hrun
    cases knownAs_of_finish? hfinish with
    | negative hphase hfull hnegative hpos hle =>
        obtain ⟨-, hspelled⟩ := hkept.spelled_eq hphase hfull
        refine ⟨hpos, hle, ?_⟩
        rw [hspelled, hnegative]
        rfl
  · rintro ⟨hpos, hle, rfl⟩
    obtain ⟨spelled, hrun⟩ := run?_toDigits true m hpos (Nat.lt_of_le_of_lt hle (by decide))
    have hcs : '-' :: Nat.toDigits 10 m = signChars true ++ Nat.toDigits 10 m := rfl
    rw [hcs, number?, hrun]
    show (if 0 < m ∧ m ≤ 2 ^ (63 : Nat) then some (Number.negative m) else some _) = _
    rw [if_pos ⟨hpos, hle⟩]

end Numeral

/-! ## Inside a text

In a text the number ends where a character stands that it cannot take, so the lexer gives the
same number as its text on its own. -/

namespace Lexer

/-- A character that starts a number begins one. -/
theorem begin_start {n : Numeral} {c : Char} (h : Numeral.start? c = some n) (found : List Token) :
    begin found c = ⟨.numeral n, found⟩ := by
  have hdigits : ∀ d < 10, Numeral.start? d.digitChar = some n →
      begin found d.digitChar = ⟨.numeral n, found⟩ := by
    intro d hd h
    have hcases : d = 0 ∨ d = 1 ∨ d = 2 ∨ d = 3 ∨ d = 4 ∨ d = 5 ∨ d = 6 ∨ d = 7 ∨ d = 8 ∨ d = 9 := by
      omega
    rcases hcases with rfl | rfl | rfl | rfl | rfl | rfl | rfl | rfl | rfl | rfl <;>
      cases h <;> rfl
  by_cases hminus : c = '-'
  · subst hminus
    cases h
    rfl
  · have hdigit : c.isDigit = true := by
      unfold Numeral.start? at h
      rw [if_neg hminus] at h
      split at h
      · subst_vars
        rfl
      · split at h
        · assumption
        · cases h
    obtain ⟨d, hd, rfl⟩ := Numeral.exists_digitChar hdigit
    exact hdigits d hd h

/-- Inside a number every character goes on with it. -/
theorem feed_foldlM (found : List Token) : ∀ {cs : List Char} {n n' : Numeral},
    cs.foldlM Numeral.push? n = some n' →
      (Lexer.mk (.numeral n) found).feed cs = ⟨.numeral n', found⟩
  | [], _, _, h => by
      cases h
      rfl
  | c :: cs, n, n', h => by
      rw [List.foldlM_cons] at h
      obtain ⟨next, hnext, hrest⟩ := Option.bind_eq_some_iff.mp h
      have hstep : (Lexer.mk (.numeral n) found).step c = ⟨.numeral next, found⟩ := by
        rw [step]
        dsimp only
        rw [hnext]
      rw [feed_cons, hstep]
      exact feed_foldlM found hrest

/-- The text of a number is one token where a brace closes behind it. -/
theorem feed_number {cs : List Char} {number : Number} (h : Numeral.number? cs = some number)
    (found : List Token) :
    (Lexer.mk .between found).feed (cs ++ ['\x7d']) =
      ⟨.between, .closeObject :: .number number :: found⟩ := by
  obtain ⟨n, hrun, hfinish⟩ := Option.bind_eq_some_iff.mp h
  cases cs with
  | nil => cases hrun
  | cons c cs =>
      obtain ⟨first, hfirst, hrest⟩ := Option.bind_eq_some_iff.mp hrun
      have hfeed : (Lexer.mk .between found).feed (c :: cs) = ⟨.numeral n, found⟩ := by
        rw [feed_cons]
        show (begin found c).feed cs = _
        rw [begin_start hfirst, feed_foldlM found hrest]
      have hpush : n.push? '\x7d' = none := by
        cases hphase : n.phase <;> simp [Numeral.push?, hphase]
      rw [feed_append, hfeed]
      show (Lexer.mk (.numeral n) found).step '\x7d' = _
      rw [step]
      dsimp only
      rw [hpush]
      dsimp only
      rw [hfinish]
      rfl

end Lexer

end ByteJump.Json
