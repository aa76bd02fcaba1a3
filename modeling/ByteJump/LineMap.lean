import ByteJump.LineMap.Marker

set_option autoImplicit false

/-!
# Line maps

Line markers are taken out of a preprocessed text, and a line map remembers which file and line
each kept line came from.  A marker holds for the kept line that follows it; of several markers
before one line the last holds.  A marker whose number is not a 64-bit number in ASCII digits is
taken out and forgotten.
-/

namespace ByteJump

/-- Where a line came from: a file, a line of it, and the flags of the marker that said so. -/
structure LineMap.Origin where
  file : String
  line : Nat
  flags : List Nat
  deriving DecidableEq, Repr

/-- The origins of marked lines, by number of the kept line, last first. -/
structure LineMap where
  marks : List (Nat × LineMap.Origin)
  deriving DecidableEq, Repr

namespace LineMap

/-- Line 1 came from line 1 of the file. -/
def ofFile (file : String) : LineMap := ⟨[(1, ⟨file, 1, []⟩)]⟩

/-- The map with an origin for `line`, which no mark lies behind. -/
def mark (map : LineMap) (line : Nat) (origin : Origin) : LineMap :=
  match map.marks with
  | (last, old) :: rest =>
      if last = line then ⟨(line, origin) :: rest⟩ else ⟨(line, origin) :: (last, old) :: rest⟩
  | [] => ⟨[(line, origin)]⟩

/-- The origin of a kept line: the nearest mark at or before it, moved on by the distance.  Behind
the last line number comes line 0. -/
def lookup (map : LineMap) (line : Nat) : Option Origin :=
  (map.marks.find? fun m => m.1 ≤ line).map fun m =>
    { m.2 with line := (m.2.line + (line - m.1)) % lineBound }

/-- How many lines are marked. -/
def size (map : LineMap) : Nat := map.marks.length

/-! ## Lines of a text -/

/-- The pieces of a text that end in a line feed, without it, and what stands behind the last. -/
def cut : List Char → List (List Char) × List Char
  | [] => ([], [])
  | c :: cs =>
      let (lines, last) := cut cs
      if c = '\n' then ([] :: lines, last)
      else
        match lines with
        | [] => ([], c :: last)
        | line :: rest => ((c :: line) :: rest, last)

/-- A line without the carriage return at its end. -/
def dropReturn (line : List Char) : List Char :=
  if line.getLast? = some '\r' then line.dropLast else line

/-- The lines of a text.  A line ends at a line feed, and one carriage return right before it
belongs to the ending; text behind the last line feed is a line if there is any. -/
def lines (text : String) : List (List Char) :=
  let (ended, last) := cut text.toList
  ended.map dropReturn ++ if last.isEmpty then [] else [last]

/-! ## Taking markers out -/

/-- A text without its markers, and where its lines came from. -/
structure Preprocessed where
  /-- the lines kept so far, last first -/
  kept : List (List Char)
  /-- the number the next kept line will have -/
  next : Nat
  map : LineMap
  deriving DecidableEq, Repr

/-- One more line of the source. -/
def Preprocessed.step (p : Preprocessed) (line : List Char) : Preprocessed :=
  match Marker.read? line with
  | none => { p with kept := line :: p.kept, next := p.next + 1 }
  | some marker =>
      match marker.number? with
      | none => p
      | some number => { p with map := p.map.mark p.next ⟨marker.file, number, marker.flags⟩ }

/-- The source without its markers. -/
def preprocess (source file : String) : Preprocessed :=
  (lines source).foldl Preprocessed.step ⟨[], 1, ofFile file⟩

/-- The kept lines, each with a line feed behind it. -/
def Preprocessed.text (p : Preprocessed) : String :=
  String.ofList (p.kept.reverse.flatMap fun line => line ++ ['\n'])

end LineMap

end ByteJump
