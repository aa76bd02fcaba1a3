import ByteJump.Image
import ByteJump.LineMap
import ByteJump.Proofs.Digits
import ByteJump.Proofs.Json.Lexing
import ByteJump.Proofs.Run.Steps

set_option autoImplicit false

/-!
# Images as text

The text of an image has a line for every word, and each line is the one decimal of its word.  Read
back, the words give the bytes of the image again, with the zeros behind them that filled up the
last word.
-/

namespace ByteJump

/-! ## Words of bytes -/

/-- The bytes of the number at an address are the bytes that stand there. -/
theorem Bytes.ofNat_number (memory : Array UInt8) : ∀ (width a : Nat),
    ofNat width (number memory a width) = (List.range width).map fun i => memory.getD (a + i) 0
  | 0, _ => rfl
  | width + 1, a => by
      have hbyte := (memory.getD a 0).toNat_lt
      have hlow : number memory a (width + 1) % 256 = (memory.getD a 0).toNat := by
        rw [number]
        omega
      have hhigh : number memory a (width + 1) / 256 = number memory (a + 1) width := by
        rw [number]
        omega
      rw [ofNat, hlow, hhigh, ofNat_number memory width, UInt8.ofNat_toNat, List.range_succ_eq_map,
        List.map_cons, List.map_map, Nat.add_zero]
      refine congrArg _ (List.map_congr_left fun i _ => ?_)
      rw [Function.comp_apply, Nat.succ_eq_add_one, Nat.add_assoc, Nat.add_comm 1 i]

namespace Image

/-- The bytes of `count` words in a row. -/
theorem flatMap_ofNat_number (bytes : Array UInt8) (count : Nat) :
    ((List.range count).map fun i => Bytes.number bytes (8 * i) 8).flatMap (Bytes.ofNat 8) =
      (List.range (8 * count)).map fun i => bytes.getD i 0 := by
  induction count with
  | zero => rfl
  | succ count ih =>
      rw [List.range_succ, List.map_append, List.flatMap_append, ih, Nat.mul_succ, List.range_add,
        List.map_append, List.map_map, List.map_singleton, List.flatMap_singleton,
        Bytes.ofNat_number]
      rfl

/-- Reading bytes on behind the last one gives zeros. -/
theorem map_getD_range (bytes : Array UInt8) {count : Nat} (h : bytes.size ≤ count) :
    ((List.range count).map fun i => bytes.getD i 0) =
      bytes.toList ++ List.replicate (count - bytes.size) 0 := by
  refine List.ext_getElem (by simp; omega) fun i _ _ => ?_
  rw [List.getElem_map, List.getElem_range, Array.getD_eq_getD_getElem?]
  by_cases hi : i < bytes.size
  · rw [List.getElem_append_left (by simpa using hi), Array.getElem?_eq_getElem hi]
    simp
  · rw [List.getElem_append_right (by simpa using hi),
      Array.getElem?_eq_none (Nat.le_of_not_lt hi)]
    simp

/-- The bytes of the words are the bytes of the image and the zeros that fill up the last word. -/
theorem flatMap_wordsOf (bytes : Array UInt8) :
    (wordsOf bytes).flatMap (Bytes.ofNat 8) =
      bytes.toList ++ List.replicate (8 * ((bytes.size + 7) / 8) - bytes.size) 0 := by
  rw [wordsOf, flatMap_ofNat_number, map_getD_range bytes (by omega)]

theorem lt_of_mem_wordsOf {bytes : Array UInt8} {word : Nat} (h : word ∈ wordsOf bytes) :
    word < addressSpace := by
  obtain ⟨i, -, rfl⟩ := List.mem_map.mp h
  rw [Machine.number_contents]
  exact Contents.number_lt _ 8 (8 * i)

/-! ## Lines of a text -/

theorem cut_append_feed {line : List Char} (hline : '\n' ∉ line) (text : List Char) :
    LineMap.cut (line ++ '\n' :: text) = (line :: (LineMap.cut text).1, (LineMap.cut text).2) := by
  induction line with
  | nil => simp [LineMap.cut]
  | cons c line ih =>
      have hc : c ≠ '\n' := fun hc => hline (hc ▸ List.mem_cons_self)
      have hrest := ih fun hmem => hline (List.mem_cons_of_mem c hmem)
      rw [List.cons_append, LineMap.cut, hrest]
      simp [hc]

/-- The lines of a text that was put together from lines. -/
theorem lines_join {lines : List String}
    (h : ∀ line ∈ lines, '\n' ∉ line.toList ∧ '\r' ∉ line.toList) :
    LineMap.lines (String.join (lines.map fun line => line ++ "\n")) =
      lines.map String.toList := by
  have hcut : LineMap.cut (String.join (lines.map fun line => line ++ "\n")).toList =
      (lines.map String.toList, []) := by
    induction lines with
    | nil => rfl
    | cons line lines ih =>
        have hrest := ih fun other hother => h other (List.mem_cons_of_mem _ hother)
        obtain ⟨hfeed, -⟩ := h line List.mem_cons_self
        have htext : (String.join ((line :: lines).map fun line => line ++ "\n")).toList =
            line.toList ++ '\n' ::
              (String.join (lines.map fun line => line ++ "\n")).toList := by
          simp [String.toList_join]
        rw [htext, cut_append_feed hfeed, hrest]
        rfl
  have hdrop : ∀ line ∈ lines, LineMap.dropReturn line.toList = line.toList := by
    intro line hline
    refine if_neg fun hlast => (h line hline).2 ?_
    exact List.mem_of_getLast? hlast
  rw [LineMap.lines, hcut]
  simp only [List.map_map, List.isEmpty_nil, if_true, List.append_nil]
  exact List.map_congr_left hdrop

/-! ## Decimals -/

/-- A line is the decimal of a number below the bound, without zeros in front. -/
structure IsDecimal (bound : Nat) (line : List Char) : Prop where
  nonempty : line ≠ []
  digits : ∀ c ∈ line, c.isDigit
  front : line.head? = some '0' → line = ['0']
  below : ∃ value < bound, Text.decimalBelow bound line = .ok value

theorem isDecimal_toString {bound n : Nat} (h : n < bound) :
    IsDecimal bound (toString n).toList := by
  have hread := Text.decimalBelow_toString h
  rw [toList_toString] at hread ⊢
  refine ⟨Nat.toDigits_ne_nil, fun c hc => ?_, fun hzero => ?_, n, h, hread⟩
  · exact Nat.isDigit_of_mem_toDigits (by decide) (by decide) hc
  · cases n with
    | zero => rfl
    | succ n => exact absurd hzero (Text.head?_toDigits (by decide) (by decide) (by omega))

theorem ofDigit_ne {c : Char} (h : c.isDigit) : c ≠ '\n' ∧ c ≠ '\r' := by
  constructor <;> rintro rfl <;> exact absurd h (by decide)

/-- The words that the lines of a text spell. -/
def readWords (text : String) : Except Text.DecimalFault (List Nat) :=
  (LineMap.lines text).mapM (Text.decimalBelow addressSpace)

/-- The bytes of the words that the lines of a text spell. -/
def readBytes (text : String) : Except Text.DecimalFault (List UInt8) :=
  (readWords text).map fun words => words.flatMap (Bytes.ofNat 8)

theorem mapM_decimalBelow {words : List Nat} {bound : Nat} (h : ∀ word ∈ words, word < bound) :
    (words.map fun word => (toString word).toList).mapM (Text.decimalBelow bound) =
      .ok words := by
  induction words with
  | nil => rfl
  | cons word words ih =>
      rw [List.map_cons, List.mapM_cons, Text.decimalBelow_toString (h word List.mem_cons_self),
        ih fun other hother => h other (List.mem_cons_of_mem _ hother)]
      rfl

theorem lines_toText (image : Image) :
    LineMap.lines image.toText =
      (wordsOf image.bytes).map fun word => (toString word).toList := by
  rw [toText, lines_join, Image.lines, List.map_map]
  · rfl
  · intro line hline
    obtain ⟨word, hword, rfl⟩ := List.mem_map.mp hline
    have hdigits := (isDecimal_toString (lt_of_mem_wordsOf hword)).digits
    exact ⟨fun hmem => (ofDigit_ne (hdigits _ hmem)).1 rfl,
      fun hmem => (ofDigit_ne (hdigits _ hmem)).2 rfl⟩

theorem readBytes_toText (image : Image) :
    readBytes image.toText =
      .ok (image.bytes.toList ++
        List.replicate (8 * ((image.size + 7) / 8) - image.size) 0) := by
  rw [readBytes, readWords, lines_toText, mapM_decimalBelow fun _ => lt_of_mem_wordsOf,
    Except.map, flatMap_wordsOf]
  rfl

/-- The text of an image has a line for every eight bytes or less, each the decimal of a 64-bit word
without zeros in front, and the words of the lines are the bytes of the image with fewer than eight
zeros behind them.  So images of one size have the same text just if their bytes are the same. -/
theorem toText_lossless (image : Image) :
    (LineMap.lines image.toText).length = (image.size + 7) / 8 ∧
      (∀ line ∈ LineMap.lines image.toText, IsDecimal addressSpace line) ∧
      (∃ padding < 8, readBytes image.toText =
        .ok (image.bytes.toList ++ List.replicate padding 0)) ∧
      ∀ other : Image, other.size = image.size →
        (other.toText = image.toText ↔ other.bytes = image.bytes) := by
  refine ⟨?_, ?_, ⟨_, ?_, readBytes_toText image⟩, fun other hsize => ⟨fun htext => ?_, ?_⟩⟩
  · rw [lines_toText, List.length_map, wordsOf, List.length_map, List.length_range]
    rfl
  · intro line hline
    rw [lines_toText] at hline
    obtain ⟨word, hword, rfl⟩ := List.mem_map.mp hline
    exact isDecimal_toString (lt_of_mem_wordsOf hword)
  · omega
  · have hread := readBytes_toText other
    rw [htext, readBytes_toText image, hsize] at hread
    have hbytes := List.append_cancel_right (Except.ok.inj hread)
    exact Array.toList_inj.mp hbytes.symm
  · intro hbytes
    rw [toText, toText, Image.lines, Image.lines, hbytes]

/-- The last word is filled up with seven zeros. -/
example : (⟨#[1, 1, 0, 0, 0, 0, 0, 0, 7], ⟨0, 0, 0, 0⟩⟩ : Image).toText = "257\n7\n" := by
  decide +kernel

end Image

end ByteJump
