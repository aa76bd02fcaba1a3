import ByteJump.LineMap
import Mathlib.Data.List.Basic

set_option autoImplicit false

/-!
# Where kept lines came from

A line map only has the marks, and the origin of a line is searched for among them.  The same
origins are found by one pass over the source that always knows where the next line comes from: a
marker says so, and every line that is kept moves on to the next line of its file.

The pass and the map agree about every line, also about lines that no text stands on.
-/

namespace ByteJump

namespace LineMap

/-! ## Lines of a text -/

/-- The lines of a text.  Each ends at a line feed, and a carriage return in front of it belongs to
the ending; behind the last line feed there is a line only if there is text. -/
inductive Lines : List Char → List (List Char) → Prop
  | none : Lines [] []
  | rest {line : List Char} (hline : '\n' ∉ line) (htext : line ≠ []) : Lines line [line]
  | feed {line text : List Char} {lines : List (List Char)} (hline : '\n' ∉ line)
      (hreturn : line.getLast? ≠ some '\r') (hlines : Lines text lines) :
      Lines (line ++ '\n' :: text) (line :: lines)
  | returnFeed {line text : List Char} {lines : List (List Char)} (hline : '\n' ∉ line)
      (hlines : Lines text lines) : Lines (line ++ '\r' :: '\n' :: text) (line :: lines)

theorem dropReturn_cases (line : List Char) :
    (dropReturn line = line ∧ line.getLast? ≠ some '\r') ∨ line = dropReturn line ++ ['\r'] := by
  unfold dropReturn
  split
  · rename_i hlast
    exact Or.inr (List.dropLast_append_getLast? _ hlast).symm
  · rename_i hlast
    exact Or.inl ⟨rfl, hlast⟩

/-- One more line in front of a text. -/
theorem Lines.cons {line text : List Char} {lines : List (List Char)} (hline : '\n' ∉ line)
    (h : Lines text lines) : Lines (line ++ '\n' :: text) (dropReturn line :: lines) := by
  rcases dropReturn_cases line with ⟨hdrop, hreturn⟩ | hdrop
  · rw [hdrop]
    exact .feed hline hreturn h
  · have hshort : '\n' ∉ dropReturn line := by
      rw [hdrop] at hline
      exact fun hmem => hline (List.mem_append_left _ hmem)
    have htext : dropReturn line ++ '\r' :: '\n' :: text = line ++ '\n' :: text := by
      rw [List.append_cons, ← hdrop]
    rw [← htext]
    exact .returnFeed hshort h

/-- Nothing of a text is lost when it is cut, and no line feed is left. -/
theorem cut_spec (text : List Char) :
    text = (cut text).1.flatMap (fun line => line ++ ['\n']) ++ (cut text).2 ∧
      (∀ line ∈ (cut text).1, '\n' ∉ line) ∧ '\n' ∉ (cut text).2 := by
  induction text with
  | nil => simp [cut]
  | cons c text ih =>
      obtain ⟨htext, hlines, hlast⟩ := ih
      cases hcut : cut text with
      | mk lines last =>
          rw [hcut] at htext hlines hlast
          simp only [cut, hcut]
          by_cases hc : c = '\n'
          · rw [if_pos hc]
            refine ⟨by simp [hc, ← htext], fun line hline => ?_, hlast⟩
            rcases List.mem_cons.mp hline with rfl | hline
            · exact List.not_mem_nil
            · exact hlines line hline
          · rw [if_neg hc]
            cases lines with
            | nil =>
                refine ⟨by simpa using htext, by simp, fun hmem => ?_⟩
                rcases List.mem_cons.mp hmem with hfeed | hmem
                · exact hc hfeed.symm
                · exact hlast hmem
            | cons line lines =>
                refine ⟨by simpa using htext, fun other hother => ?_, hlast⟩
                rcases List.mem_cons.mp hother with rfl | hother
                · intro hmem
                  rcases List.mem_cons.mp hmem with hfeed | hmem
                  · exact hc hfeed.symm
                  · exact hlines line List.mem_cons_self hmem
                · exact hlines other (List.mem_cons_of_mem _ hother)

theorem lines_of_cut {last : List Char} (hlast : '\n' ∉ last) : ∀ ended : List (List Char),
    (∀ line ∈ ended, '\n' ∉ line) →
    Lines (ended.flatMap (fun line => line ++ ['\n']) ++ last)
      (ended.map dropReturn ++ if last.isEmpty then [] else [last])
  | [], _ => by
      cases last with
      | nil => exact .none
      | cons c cs => exact .rest hlast (List.cons_ne_nil c cs)
  | line :: ended, h => by
      have hrest := lines_of_cut hlast ended fun other hother =>
        h other (List.mem_cons_of_mem _ hother)
      have hcons := hrest.cons (h line List.mem_cons_self)
      simpa using hcons

/-- The lines of a text are found. -/
theorem lines_spec (text : String) : Lines text.toList (lines text) := by
  obtain ⟨htext, hlines, hlast⟩ := cut_spec text.toList
  have h := lines_of_cut hlast _ hlines
  rw [← htext] at h
  exact h

/-! ## One pass over the source -/

/-- The place some lines further down. -/
def Origin.down (o : Origin) (n : Nat) : Origin := { o with line := o.line + n }

/-- The place as 64-bit numbers tell it: behind the last line number comes line 0. -/
def Origin.wrap (o : Origin) : Origin := { o with line := o.line % lineBound }

/-- What one pass over a source knows: where the lines kept so far came from, and where the next one
comes from. -/
structure Pass where
  given : List Origin
  next : Origin
  deriving DecidableEq, Repr

namespace Pass

/-- The source starts with line 1 of the file. -/
def start (file : String) : Pass := ⟨[], ⟨file, 1, []⟩⟩

/-- One more line of the source.  A marker with a number says where the next line comes from, any
other marker says nothing, and a line that is kept gets the place that is known. -/
def step (p : Pass) (line : List Char) : Pass :=
  match Marker.read? line with
  | none => ⟨p.given ++ [p.next], p.next.down 1⟩
  | some marker =>
      match marker.number? with
      | some number => { p with next := ⟨marker.file, number, marker.flags⟩ }
      | none => p

/-- Where the line behind `k` kept lines came from.  Behind all of them the file just goes on. -/
def origin (p : Pass) (k : Nat) : Origin := p.given[k]?.getD (p.next.down (k - p.given.length))

/-- The pass over all lines of a source. -/
def ofSource (source file : String) : Pass := (lines source).foldl step (start file)

theorem origin_of_lt {p : Pass} {k : Nat} (h : k < p.given.length) : p.origin k = p.given[k] := by
  rw [origin, List.getElem?_eq_getElem h, Option.getD_some]

theorem origin_of_le {p : Pass} {k : Nat} (h : p.given.length ≤ k) :
    p.origin k = p.next.down (k - p.given.length) := by
  rw [origin, List.getElem?_eq_none h, Option.getD_none]

/-- A line that is kept changes no origin: it has the one it would have had behind all lines. -/
theorem origin_keep (p : Pass) (k : Nat) :
    (⟨p.given ++ [p.next], p.next.down 1⟩ : Pass).origin k = p.origin k := by
  rcases Nat.lt_trichotomy k p.given.length with h | rfl | h
  · rw [origin_of_lt (by simp; omega), origin_of_lt h, List.getElem_append_left h]
  · rw [origin_of_lt (by simp), origin_of_le (Nat.le_refl _)]
    simp [Origin.down]
  · rw [origin_of_le (by simp; omega), origin_of_le (Nat.le_of_lt h)]
    simp only [Origin.down, List.length_append, List.length_singleton, Origin.mk.injEq, true_and,
      and_true]
    omega

/-- A marker that says where the next line comes from changes all origins from there on. -/
theorem origin_mark (p : Pass) (o : Origin) (k : Nat) :
    ({ p with next := o } : Pass).origin k =
      if p.given.length ≤ k then o.down (k - p.given.length) else p.origin k := by
  split
  · rename_i h
    exact origin_of_le h
  · rename_i h
    have h : k < p.given.length := Nat.lt_of_not_le h
    rw [origin_of_lt h]
    exact origin_of_lt (p := ⟨p.given, o⟩) h

end Pass

/-! ## Marks -/

/-- A mark holds from its line on, and nothing else changes. -/
theorem lookup_mark (map : LineMap) (line : Nat) (origin : Origin) (k : Nat) :
    (map.mark line origin).lookup k =
      if line ≤ k then some (origin.down (k - line)).wrap else map.lookup k := by
  unfold mark lookup
  by_cases hk : line ≤ k
  · rw [if_pos hk]
    split
    · split <;> simp [hk, Origin.down, Origin.wrap]
    · simp [hk, Origin.down, Origin.wrap]
  · rw [if_neg hk]
    split
    · rename_i last old rest hmarks
      split
      · rename_i hlast
        simp [hmarks, hlast, hk]
      · simp [hmarks, hk]
    · rename_i hmarks
      simp [hmarks, hk]

/-- The map answers for every line what the pass says. -/
structure Agrees (p : Preprocessed) (q : Pass) : Prop where
  next : p.next = q.given.length + 1
  zero : p.map.lookup 0 = none
  origin : ∀ k, p.map.lookup (k + 1) = some (q.origin k).wrap

theorem agrees_start (file : String) : Agrees ⟨[], 1, ofFile file⟩ (.start file) where
  next := rfl
  zero := rfl
  origin k := by
    rw [Pass.origin_of_le (Nat.zero_le k)]
    simp [ofFile, lookup, Pass.start, Origin.down, Origin.wrap]

/-- One more line of the source. -/
theorem Agrees.step {p : Preprocessed} {q : Pass} (h : Agrees p q) (line : List Char) :
    Agrees (p.step line) (q.step line) := by
  unfold Preprocessed.step Pass.step
  cases Marker.read? line with
  | none => exact ⟨by simp [h.next], h.zero, fun k => by rw [h.origin, Pass.origin_keep]⟩
  | some marker =>
      cases hnumber : marker.number? with
      | none => simpa only [hnumber] using h
      | some number =>
          simp only [hnumber]
          refine ⟨h.next, ?_, fun k => ?_⟩
          · rw [lookup_mark, if_neg (by have := h.next; omega), h.zero]
          · rw [lookup_mark, h.next, h.origin, Nat.add_sub_add_right,
              Pass.origin_mark q ⟨marker.file, number, marker.flags⟩ k]
            by_cases hk : q.given.length ≤ k
            · rw [if_pos hk, if_pos (Nat.succ_le_succ hk)]
            · rw [if_neg hk, if_neg (by omega)]

/-- All lines of the source. -/
theorem Agrees.foldl {p : Preprocessed} {q : Pass} (h : Agrees p q) (lines : List (List Char)) :
    Agrees (lines.foldl Preprocessed.step p) (lines.foldl Pass.step q) := by
  induction lines generalizing p q with
  | nil => exact h
  | cons line lines ih => exact ih (h.step line)

theorem agrees_preprocess (source file : String) :
    Agrees (preprocess source file) (.ofSource source file) :=
  (agrees_start file).foldl (lines source)

/-! ## Kept lines -/

/-- The line is kept. -/
def isKept (line : List Char) : Bool := (Marker.read? line).isNone

theorem kept_step (p : Preprocessed) (line : List Char) :
    (p.step line).kept = if isKept line then line :: p.kept else p.kept := by
  unfold Preprocessed.step isKept
  cases Marker.read? line with
  | none => rfl
  | some marker =>
      dsimp only
      cases marker.number? <;> rfl

theorem kept_foldl (lines : List (List Char)) (p : Preprocessed) :
    (lines.foldl Preprocessed.step p).kept = (lines.filter isKept).reverse ++ p.kept := by
  induction lines generalizing p with
  | nil => rfl
  | cons line lines ih =>
      rw [List.foldl_cons, ih, kept_step, List.filter_cons]
      split
      · rw [List.reverse_cons, List.append_assoc, List.singleton_append]
      · rfl

/-- The text is that of the lines that are no markers, in order and each with a line feed behind it,
and the origin of every line is the one that a pass over the source finds.  The pass counts lines
without a bound, the map with 64 bits. -/
theorem preprocess_origins (source file : String) :
    Lines source.toList (lines source) ∧
      (preprocess source file).text =
        String.ofList (((lines source).filter isKept).flatMap fun line => line ++ ['\n']) ∧
      (preprocess source file).map.lookup 0 = none ∧
      ∀ k, (preprocess source file).map.lookup (k + 1) =
          some ((Pass.ofSource source file).origin k).wrap ∧
        (((Pass.ofSource source file).origin k).line < lineBound →
          (preprocess source file).map.lookup (k + 1) =
            some ((Pass.ofSource source file).origin k)) := by
  have hagrees := agrees_preprocess source file
  refine ⟨lines_spec source, ?_, hagrees.zero, fun k => ⟨hagrees.origin k, fun hline => ?_⟩⟩
  · unfold Preprocessed.text preprocess
    rw [kept_foldl, List.append_nil, List.reverse_reverse]
  · rw [hagrees.origin, Origin.wrap, Nat.mod_eq_of_lt hline]

/-- Two markers in a row, one that says nothing, and a line behind the end. -/
example :
    let map := (preprocess "a\n# 7 \"b\"\n# 9 \"c\" 1\r\nd\n#99999999999999999999 \"e\"\nf" "m").map
    [0, 1, 2, 3, 4].map map.lookup =
      [none, some ⟨"m", 1, []⟩, some ⟨"c", 9, [1]⟩, some ⟨"c", 10, [1]⟩, some ⟨"c", 11, [1]⟩] := by
  decide +kernel

end LineMap

end ByteJump
