import ByteJump.Image.Layout

set_option autoImplicit false

/-!
# Images

An image is what the machine's memory starts with.  As text it is a list of decimal words, one to a
line; zeros fill the last word up.
-/

namespace ByteJump

/-- The bytes of an image and where its regions are. -/
structure Image where
  bytes : Array UInt8
  layout : Layout
  deriving DecidableEq, Repr

namespace Image

/-- How many bytes an image has. -/
def size (image : Image) : Nat := image.bytes.size

/-- The 8-byte word at an address. -/
def word? (image : Image) (address : Nat) : Option Nat := Bytes.word? image.bytes address

/-- The address a run starts at. -/
def entry (image : Image) : Nat := (image.word? Memory.entryAddress).getD 0

/-! ## Text -/

/-- The words of the bytes, the last one filled up with zeros. -/
def wordsOf (bytes : Array UInt8) : List Nat :=
  (List.range ((bytes.size + 7) / 8)).map fun i => Bytes.number bytes (8 * i) 8

/-- One line for each word. -/
def lines (image : Image) : List String := (wordsOf image.bytes).map toString

/-- The words as text, a line feed behind each. -/
def toText (image : Image) : String := String.join (image.lines.map fun line => line ++ "\n")

end Image

end ByteJump
