import ShExCompact.Text.Cut

/-!
Places in a text of bytes. An extent is a pair of byte offsets, a span the same pair with the
lines and columns that a reader of the text sees.
-/
namespace ShExCompact

/-- A line, a column and a byte offset, all counted from zero. -/
structure Position where
  line : Nat
  column : Nat
  offset : Nat
deriving DecidableEq

namespace Position

/-- The beginning of every text. -/
def origin : Position := ⟨0, 0, 0⟩

/-- Bytes that continue a UTF-8 character. -/
def continues (byte : UInt8) : Bool := byte &&& 0xC0 == 0x80

/-- The position after one more byte: a line feed opens a line, and only the first byte of a
character takes a column. -/
def advance (place : Position) (byte : UInt8) : Position :=
  if byte = 0x0A then ⟨place.line + 1, 0, place.offset + 1⟩
  else if continues byte then ⟨place.line, place.column, place.offset + 1⟩
  else ⟨place.line, place.column + 1, place.offset + 1⟩

/-- The position of a byte offset; offsets past the end stand for the end. -/
def ofOffset (bytes : List UInt8) (offset : Nat) : Position :=
  (bytes.take offset).foldl advance origin

theorem offset_advance (place : Position) (byte : UInt8) :
    (place.advance byte).offset = place.offset + 1 := by
  unfold advance
  repeat' split
  all_goals rfl

theorem offset_foldl_advance (bytes : List UInt8) (place : Position) :
    (bytes.foldl advance place).offset = place.offset + bytes.length := by
  induction bytes generalizing place with
  | nil => rfl
  | cons byte bytes ih =>
    rw [List.foldl_cons, ih, offset_advance, List.length_cons]
    omega

/-- A position knows the byte offset that it is about. -/
theorem offset_ofOffset (bytes : List UInt8) (offset : Nat) :
    (ofOffset bytes offset).offset = min offset bytes.length := by
  rw [ofOffset, offset_foldl_advance, List.length_take]
  exact Nat.zero_add _

end Position

/-- Two byte offsets of a text. -/
structure Extent where
  start : Nat
  stop : Nat
deriving DecidableEq

/-- Two positions of a text. -/
structure Span where
  start : Position
  stop : Position
deriving DecidableEq

/-- The positions of the two ends of an extent. -/
def Extent.span (bytes : List UInt8) (extent : Extent) : Span :=
  ⟨Position.ofOffset bytes extent.start, Position.ofOffset bytes extent.stop⟩

/-- The words that lead to a span, lines and columns counted from one. A span of at most one
byte is named by its start alone. -/
def Span.place (span : Span) : String :=
  let line := toString (span.start.line + 1)
  let column := toString (span.start.column + 1)
  let lastLine := toString (span.stop.line + 1)
  let lastColumn := toString (span.stop.column + 1)
  if span.stop.offset ≤ span.start.offset + 1 then
    "at line " ++ line ++ " column " ++ column
  else if span.start.line = span.stop.line then
    "at line " ++ line ++ " between columns " ++ column ++ " and " ++ lastColumn
  else
    "between line " ++ line ++ " column " ++ column ++
      " and line " ++ lastLine ++ " column " ++ lastColumn

end ShExCompact
