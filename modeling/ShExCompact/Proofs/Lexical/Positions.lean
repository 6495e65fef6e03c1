import Mathlib.Data.Prod.Lex
import ShExCompact.Proofs.Lexical.FaultPlaces

/-! Lines and columns against byte offsets. A position is computed byte by byte; what a reader
sees of it grows with each byte that begins a character, and never goes back. -/
namespace ShExCompact

/-! ### Bytes of characters -/

namespace Position

theorem not_continues_of_first (first : byte.IsUTF8FirstByte) : continues byte = false := by
  have small : ∀ n : Fin 256, (UInt8.ofNat n).IsUTF8FirstByte →
      continues (UInt8.ofNat n) = false := by
    decide +kernel
  have same := small ⟨byte.toNat, byte.toNat_lt⟩
  rw [UInt8.ofNat_toNat] at same
  exact same first

/-- Only the first byte of a character takes a column. -/
theorem utf8EncodeChar_eq_cons (c : Char) : ∃ first later,
    String.utf8EncodeChar c = first :: later ∧ continues first = false := by
  cases encoded : String.utf8EncodeChar c with
  | nil =>
    have size := String.length_utf8EncodeChar c
    rw [encoded, List.length_nil] at size
    exact absurd c.utf8Size_pos (by omega)
  | cons first later =>
    refine ⟨first, later, rfl, not_continues_of_first ?_⟩
    have isFirst := UInt8.isUTF8FirstByte_getElem_zero_utf8EncodeChar (c := c)
    simpa only [encoded, List.getElem_cons_zero] using isFirst

end Position

namespace Text

theorem bytes_append (front rest : List Char) :
    bytes (front ++ rest) = bytes front ++ bytes rest :=
  List.flatMap_append

theorem take_bytes (front rest : List Char) :
    (bytes (front ++ rest)).take (width front) = bytes front := by
  rw [bytes_append, ← length_bytes front, List.take_left]

/-- Of two boundaries of a text, the later one has at least one more character before it. -/
theorem IsBoundary.split (first : IsBoundary text start) (second : IsBoundary text stop)
    (before : start < stop) : ∃ front c middle rest,
      text = front ++ c :: middle ++ rest ∧ width front = start ∧
      width (front ++ c :: middle) = stop := by
  obtain ⟨front, rest, rfl, rfl⟩ := first
  obtain ⟨longer, rest', same, rfl⟩ := second
  obtain ⟨middle, rfl, rfl⟩ | ⟨middle, rfl, rfl⟩ := List.append_eq_append_iff.mp same
  · cases middle with
    | nil => simp at before
    | cons c middle => exact ⟨front, c, middle, rest', by simp, rfl, rfl⟩
  · rw [width_append] at before
    omega

end Text

/-! ### What a reader sees -/

namespace Position

/-- The line and the column of a position; a later line comes after each column of this one. -/
def lineColumn (place : Position) : ℕ ×ₗ ℕ := toLex (place.line, place.column)

theorem lineColumn_lt_advance (place : Position) (first : continues byte = false) :
    place.lineColumn < (place.advance byte).lineColumn := by
  rw [lineColumn, lineColumn, Prod.Lex.toLex_lt_toLex]
  by_cases feed : byte = 0x0A
  · left
    rw [advance, if_pos feed]
    exact Nat.lt_succ_self place.line
  · right
    rw [advance, if_neg feed, first]
    exact ⟨rfl, Nat.lt_succ_self place.column⟩

/-- A byte that continues a character leaves line and column as they are. -/
theorem lineColumn_le_advance (place : Position) (byte : UInt8) :
    place.lineColumn ≤ (place.advance byte).lineColumn := by
  cases later : continues byte with
  | false => exact (lineColumn_lt_advance place later).le
  | true =>
    have feed : byte ≠ 0x0A := by
      rintro rfl
      exact absurd later (by decide)
    rw [advance, if_neg feed, if_pos later]
    exact le_refl place.lineColumn

theorem lineColumn_le_foldl (bytes : List UInt8) (place : Position) :
    place.lineColumn ≤ (bytes.foldl advance place).lineColumn := by
  induction bytes generalizing place with
  | nil => exact le_refl place.lineColumn
  | cons byte bytes ih => exact (lineColumn_le_advance place byte).trans (ih (place.advance byte))

/-- Line and column move on over each text that has a character. -/
theorem lineColumn_lt_foldl (c : Char) (rest : List Char) (place : Position) :
    place.lineColumn < ((Text.bytes (c :: rest)).foldl advance place).lineColumn := by
  obtain ⟨first, later, encoded, starts⟩ := utf8EncodeChar_eq_cons c
  have bytes : Text.bytes (c :: rest) = first :: (later ++ Text.bytes rest) := by
    rw [Text.bytes, List.flatMap_cons, encoded]
    rfl
  rw [bytes, List.foldl_cons]
  exact (lineColumn_lt_advance place starts).trans_le (lineColumn_le_foldl _ _)

theorem lineColumn_mono (bytes : List UInt8) (order : start ≤ stop) :
    (ofOffset bytes start).lineColumn ≤ (ofOffset bytes stop).lineColumn := by
  obtain ⟨more, split⟩ : bytes.take start <+: bytes.take stop := List.take_prefix_take_left order
  rw [ofOffset, ofOffset, ← split, List.foldl_append]
  exact lineColumn_le_foldl more _

theorem offset_mono (bytes : List UInt8) (order : start ≤ stop) :
    (ofOffset bytes start).offset ≤ (ofOffset bytes stop).offset := by
  rw [offset_ofOffset, offset_ofOffset]
  omega

theorem lineColumn_lt_of_boundaries (first : Text.IsBoundary text start)
    (second : Text.IsBoundary text stop) (before : start < stop) :
    (ofOffset (Text.bytes text) start).lineColumn <
      (ofOffset (Text.bytes text) stop).lineColumn := by
  obtain ⟨front, c, middle, rest, rfl, rfl, rfl⟩ := first.split second before
  have here : ofOffset (Text.bytes (front ++ c :: middle ++ rest)) (Text.width front) =
      (Text.bytes front).foldl advance origin := by
    rw [ofOffset, List.append_assoc, Text.take_bytes]
  have there : ofOffset (Text.bytes (front ++ c :: middle ++ rest))
      (Text.width (front ++ c :: middle)) =
      (Text.bytes (c :: middle)).foldl advance ((Text.bytes front).foldl advance origin) := by
    rw [ofOffset, Text.take_bytes, Text.bytes_append, List.foldl_append]
  rw [here, there]
  exact lineColumn_lt_foldl c middle _

/-! ### The two counts -/

/-- The line of an offset is the number of line feeds before it. -/
theorem line_ofOffset (bytes : List UInt8) (stop : Nat) :
    (ofOffset bytes stop).line = (bytes.take stop).count 0x0A := by
  have run : ∀ (bytes : List UInt8) (place : Position),
      (bytes.foldl advance place).line = place.line + bytes.count 0x0A := by
    intro bytes
    induction bytes with
    | nil => exact fun _ => rfl
    | cons byte bytes ih =>
      intro place
      rw [List.foldl_cons, ih, advance, List.count_cons]
      by_cases feed : byte = 0x0A
      · rw [if_pos feed, feed]
        simp only [BEq.rfl, if_true]
        omega
      · rw [if_neg feed]
        split <;> simp [feed]
  rw [ofOffset, run]
  exact Nat.zero_add _

/-- The column of an offset is the number of characters that begin on its line before it. -/
theorem column_ofOffset {bytes front last : List UInt8} {stop : Nat}
    (split : bytes.take stop = front ++ last) (whole : 0x0A ∉ last)
    (opened : front = [] ∨ ∃ earlier, front = earlier ++ [0x0A]) :
    (ofOffset bytes stop).column = last.countP fun byte => !continues byte := by
  have run : ∀ (last : List UInt8) (place : Position), 0x0A ∉ last →
      (last.foldl advance place).column =
        place.column + last.countP fun byte => !continues byte := by
    intro last
    induction last with
    | nil => exact fun _ _ => rfl
    | cons byte last ih =>
      intro place whole
      rw [List.mem_cons, not_or] at whole
      rw [List.foldl_cons, ih _ whole.2, advance, if_neg (Ne.symm whole.1), List.countP_cons]
      cases continues byte
      · simp
        omega
      · simp
  have fresh : (front.foldl advance origin).column = 0 := by
    obtain rfl | ⟨earlier, rfl⟩ := opened
    · rfl
    · rw [List.foldl_append]
      rfl
  rw [ofOffset, split, List.foldl_append, run last _ whole, fresh, Nat.zero_add]

/-! ### The order of places -/

/-- At the boundaries of a text, line and column grow strictly with the offset and so tell which
offset it is; at any two offsets of any bytes, in the middle of characters and past the end too,
neither line and column nor the offset go back, nor do the two ends of a span. -/
theorem ofOffset_ordered :
    (∀ (text : List Char) (start stop : Nat),
      Text.IsBoundary text start → Text.IsBoundary text stop →
      (start < stop → (ofOffset (Text.bytes text) start).lineColumn <
        (ofOffset (Text.bytes text) stop).lineColumn) ∧
      ((ofOffset (Text.bytes text) start).line = (ofOffset (Text.bytes text) stop).line →
        (ofOffset (Text.bytes text) start).column = (ofOffset (Text.bytes text) stop).column →
        start = stop)) ∧
    (∀ (bytes : List UInt8) (start stop : Nat), start ≤ stop →
      (ofOffset bytes start).lineColumn ≤ (ofOffset bytes stop).lineColumn ∧
      (ofOffset bytes start).offset ≤ (ofOffset bytes stop).offset) ∧
    (∀ (bytes : List UInt8) (extent : Extent), extent.start ≤ extent.stop →
      (extent.span bytes).start.lineColumn ≤ (extent.span bytes).stop.lineColumn ∧
      (extent.span bytes).start.offset ≤ (extent.span bytes).stop.offset) := by
  refine ⟨fun text start stop first second => ⟨lineColumn_lt_of_boundaries first second, ?_⟩,
    fun bytes start stop order => ⟨lineColumn_mono bytes order, offset_mono bytes order⟩,
    fun bytes extent order => ⟨lineColumn_mono bytes order, offset_mono bytes order⟩⟩
  intro line column
  have same : (ofOffset (Text.bytes text) start).lineColumn =
      (ofOffset (Text.bytes text) stop).lineColumn := by
    rw [lineColumn, lineColumn, line, column]
  obtain before | equal | after := Nat.lt_trichotomy start stop
  · exact absurd same (lineColumn_lt_of_boundaries first second before).ne
  · exact equal
  · exact absurd same (lineColumn_lt_of_boundaries second first after).ne'

/-- The two bytes of the accented letter are one column; the end is the last place. -/
theorem ofOffset_ordered_accent :
    (ofOffset (Text.bytes "ab\ncé\nx".toList) 4).lineColumn <
      (ofOffset (Text.bytes "ab\ncé\nx".toList) 6).lineColumn ∧
    (Extent.span (Text.bytes "ab\ncé\nx".toList) ⟨5, 40⟩) = ⟨⟨1, 2, 5⟩, ⟨2, 1, 8⟩⟩ ∧
    (Extent.span (Text.bytes "ab\ncé\nx".toList) ⟨5, 40⟩).start.lineColumn ≤
      (Extent.span (Text.bytes "ab\ncé\nx".toList) ⟨5, 40⟩).stop.lineColumn := by
  have front : Text.IsBoundary "ab\ncé\nx".toList 4 := ⟨"ab\nc".toList, "é\nx".toList, rfl, rfl⟩
  have later : Text.IsBoundary "ab\ncé\nx".toList 6 := ⟨"ab\ncé".toList, "\nx".toList, rfl, rfl⟩
  exact ⟨(ofOffset_ordered.1 _ 4 6 front later).1 (by decide), by decide +kernel,
    (ofOffset_ordered.2.2 _ ⟨5, 40⟩ (by decide)).1⟩

end Position

end ShExCompact
