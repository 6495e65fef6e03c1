import ShExCompact.Proofs.Lexical.Positions
import ShExCompact.Proofs.Octets.Access

/-! The bytes of a text. Main statements: what stands between two characters of a text is in bounds,
a character is read from its bytes, and a byte of a class of ASCII characters is such a
character. -/
namespace ShExCompact

namespace Utf8

/-! ### One character -/

theorem wideSize?_two (low : 194 ≤ n) (high : n ≤ 223) :
    Octets.wideSize? (UInt8.ofNat n) = some 2 := by
  have small : ∀ n : Fin 256, 194 ≤ n.val → n.val ≤ 223 →
      Octets.wideSize? (UInt8.ofNat n) = some 2 := by
    decide +kernel
  exact small ⟨n, by omega⟩ low high

theorem wideSize?_three (low : 224 ≤ n) (high : n ≤ 239) :
    Octets.wideSize? (UInt8.ofNat n) = some 3 := by
  have small : ∀ n : Fin 256, 224 ≤ n.val → n.val ≤ 239 →
      Octets.wideSize? (UInt8.ofNat n) = some 3 := by
    decide +kernel
  exact small ⟨n, by omega⟩ low high

theorem wideSize?_four (low : 240 ≤ n) (high : n ≤ 244) :
    Octets.wideSize? (UInt8.ofNat n) = some 4 := by
  have small : ∀ n : Fin 256, 240 ≤ n.val → n.val ≤ 244 →
      Octets.wideSize? (UInt8.ofNat n) = some 4 := by
    decide +kernel
  exact small ⟨n, by omega⟩ low high

theorem followers?_two (low : 194 ≤ n) (high : n ≤ 223) :
    followers? (UInt8.ofNat n) = some (1, 0x80, 0xBF) := by
  have small : ∀ n : Fin 256, 194 ≤ n.val → n.val ≤ 223 →
      followers? (UInt8.ofNat n) = some (1, 0x80, 0xBF) := by
    decide +kernel
  exact small ⟨n, by omega⟩ low high

/-- Second bytes after the first one of three: no shorter form, and no surrogate. -/
theorem followers?_three (low : 224 ≤ n) (high : n ≤ 239) : ∃ least greatest : UInt8,
    followers? (UInt8.ofNat n) = some (2, least, greatest) ∧
      least.toNat = (if n = 224 then 160 else 128) ∧
      greatest.toNat = (if n = 237 then 159 else 191) := by
  have small : ∀ n : Fin 256, 224 ≤ n.val → n.val ≤ 239 → followers? (UInt8.ofNat n) =
      some (2, if n.val = 224 then 160 else 128, if n.val = 237 then 159 else 191) := by
    decide +kernel
  refine ⟨_, _, small ⟨n, by omega⟩ low high, ?_, ?_⟩ <;> dsimp only <;> split <;> rfl

/-- Second bytes after the first one of four: no shorter form, and nothing past the last
character. -/
theorem followers?_four (low : 240 ≤ n) (high : n ≤ 244) : ∃ least greatest : UInt8,
    followers? (UInt8.ofNat n) = some (3, least, greatest) ∧
      least.toNat = (if n = 240 then 144 else 128) ∧
      greatest.toNat = (if n = 244 then 143 else 191) := by
  have small : ∀ n : Fin 256, 240 ≤ n.val → n.val ≤ 244 → followers? (UInt8.ofNat n) =
      some (3, if n.val = 240 then 144 else 128, if n.val = 244 then 143 else 191) := by
    decide +kernel
  refine ⟨_, _, small ⟨n, by omega⟩ low high, ?_, ?_⟩ <;> dsimp only <;> split <;> rfl

theorem follow_next {least greatest : UInt8} (low : least.toNat ≤ n) (high : n ≤ greatest.toNat)
    (missing size code : Nat) (rest : List UInt8) :
    follow (missing + 1) least greatest size code (UInt8.ofNat n :: rest) =
      follow missing 0x80 0xBF (size + 1) (code * 64 + n % 64) rest := by
  have byte : (UInt8.ofNat n).toNat = n := by
    have bound := greatest.toNat_lt
    exact UInt8.toNat_ofNat_of_lt' (show n < 256 by omega)
  have within : least ≤ UInt8.ofNat n ∧ UInt8.ofNat n ≤ greatest := by
    rw [UInt8.le_iff_toNat_le, UInt8.le_iff_toNat_le, byte]
    exact ⟨low, high⟩
  rw [follow, if_pos within, byte]

theorem follow_continued (missing size code value : Nat) (rest : List UInt8) :
    follow (missing + 1) 0x80 0xBF size code (UInt8.ofNat (value % 64 + 128) :: rest) =
      follow missing 0x80 0xBF (size + 1) (code * 64 + value % 64) rest := by
  have low : (0x80 : UInt8).toNat ≤ value % 64 + 128 := Nat.le_add_left 128 _
  have high : value % 64 + 128 ≤ (0xBF : UInt8).toNat := by
    change value % 64 + 128 ≤ 191
    omega
  rw [follow_next low high]
  congr 2
  omega

/-- How the bytes of a character are read: the first byte tells how many there are, and the others
follow it in every text. -/
structure Reads (c : Char) (first : UInt8) (later : List UInt8) : Prop where
  whole : ∀ rest, lead first (later ++ rest) = .character c (later.length + 1)
  part : ∀ size < later.length, lead first (later.take size) = .cutOff
  size : later ≠ [] → Octets.wideSize? first = some (later.length + 1)
  continues : ∀ byte ∈ later, Position.continues byte = true

theorem continues_ofNat (value : Nat) :
    Position.continues (UInt8.ofNat (value % 64 + 128)) = true := by
  have small : ∀ n : Fin 64, Position.continues (UInt8.ofNat (n + 128)) = true := by
    decide +kernel
  exact small ⟨value % 64, Nat.mod_lt value (by decide)⟩

theorem reads_one (narrow : c.toNat ≤ 127) : Reads c (UInt8.ofNat c.toNat) [] := by
  have byte : (UInt8.ofNat c.toNat).toNat = c.toNat :=
    UInt8.toNat_ofNat_of_lt' (show c.toNat < 256 by omega)
  refine ⟨fun rest => ?_, fun size short => absurd short (Nat.not_lt_zero size), nofun, nofun⟩
  have small : UInt8.ofNat c.toNat < 0x80 := by
    rw [UInt8.lt_iff_toNat_lt, byte]
    exact Nat.lt_succ_of_le narrow
  rw [lead, if_pos small, byte, Char.ofNat_toNat]
  rfl

theorem lead_wide (wide : 128 ≤ n) (small : n < 256)
    (followers : followers? (UInt8.ofNat n) = some (count, least, greatest)) (rest : List UInt8) :
    lead (UInt8.ofNat n) rest =
      follow count least greatest 1 (leadBits (UInt8.ofNat n) count) rest := by
  have byte : (UInt8.ofNat n).toNat = n := UInt8.toNat_ofNat_of_lt' small
  have wide : ¬ UInt8.ofNat n < 0x80 := by
    rw [UInt8.lt_iff_toNat_lt, byte]
    exact Nat.not_lt.mpr wide
  rw [lead, if_neg wide, followers]

theorem ofNat_eq (c : Char) (same : code = c.toNat) : Char.ofNat code = c := by
  rw [same, Char.ofNat_toNat]

theorem reads_two (low : 128 ≤ c.toNat) (high : c.toNat ≤ 2047) :
    Reads c (UInt8.ofNat (c.toNat / 64 % 32 + 192)) [UInt8.ofNat (c.toNat % 64 + 128)] := by
  have followers := followers?_two (show 194 ≤ c.toNat / 64 % 32 + 192 by omega) (by omega)
  have lead := lead_wide (by omega) (by omega) followers
  have bits : leadBits (UInt8.ofNat (c.toNat / 64 % 32 + 192)) 1 = c.toNat / 64 := by
    rw [leadBits, UInt8.toNat_ofNat_of_lt' (show _ < 256 by omega)]
    omega
  refine ⟨fun rest => ?_, fun size short => ?_, fun _ => ?_,
    List.forall_mem_singleton.mpr (continues_ofNat _)⟩
  · rw [lead, bits, List.singleton_append, follow_continued, follow, ofNat_eq c (by omega)]
    rfl
  · obtain rfl : size = 0 := by simpa using short
    rw [lead, List.take_zero, follow]
  · exact wideSize?_two (by omega) (by omega)

theorem reads_three (low : 2048 ≤ c.toNat) (high : c.toNat ≤ 65535) :
    Reads c (UInt8.ofNat (c.toNat / 4096 % 16 + 224))
      [UInt8.ofNat (c.toNat / 64 % 64 + 128), UInt8.ofNat (c.toNat % 64 + 128)] := by
  obtain ⟨least, greatest, followers, first, last⟩ :=
    followers?_three (show 224 ≤ c.toNat / 4096 % 16 + 224 by omega) (by omega)
  have lead := lead_wide (by omega) (by omega) followers
  have bits : leadBits (UInt8.ofNat (c.toNat / 4096 % 16 + 224)) 2 = c.toNat / 4096 := by
    rw [leadBits, UInt8.toNat_ofNat_of_lt' (show _ < 256 by omega)]
    omega
  have second : least.toNat ≤ c.toNat / 64 % 64 + 128 ∧
      c.toNat / 64 % 64 + 128 ≤ greatest.toNat := by
    -- no character is a surrogate
    have valid : c.toNat < 0xD800 ∨ 0xDFFF < c.toNat ∧ c.toNat < 0x110000 := c.valid
    rw [first, last]
    split <;> split <;> omega
  refine ⟨fun rest => ?_, fun size short => ?_, fun _ => ?_, by
    simp only [List.forall_mem_cons]
    exact ⟨continues_ofNat _, continues_ofNat _, nofun⟩⟩
  · rw [lead, bits, List.cons_append, follow_next second.1 second.2, List.singleton_append,
      follow_continued, follow, ofNat_eq c (by omega)]
    rfl
  · obtain rfl | rfl : size = 0 ∨ size = 1 := by
      simp only [List.length_cons, List.length_nil] at short
      omega
    · rw [lead, List.take_zero, follow]
    · rw [lead, List.take_succ_cons, List.take_zero, follow_next second.1 second.2, follow]
  · exact wideSize?_three (by omega) (by omega)

theorem reads_four (low : 65536 ≤ c.toNat) :
    Reads c (UInt8.ofNat (c.toNat / 262144 % 8 + 240))
      [UInt8.ofNat (c.toNat / 4096 % 64 + 128), UInt8.ofNat (c.toNat / 64 % 64 + 128),
        UInt8.ofNat (c.toNat % 64 + 128)] := by
  have valid : c.toNat < 0xD800 ∨ 0xDFFF < c.toNat ∧ c.toNat < 0x110000 := c.valid
  obtain ⟨least, greatest, followers, first, last⟩ :=
    followers?_four (show 240 ≤ c.toNat / 262144 % 8 + 240 by omega) (by omega)
  have lead := lead_wide (by omega) (by omega) followers
  have bits : leadBits (UInt8.ofNat (c.toNat / 262144 % 8 + 240)) 3 = c.toNat / 262144 := by
    rw [leadBits, UInt8.toNat_ofNat_of_lt' (show _ < 256 by omega)]
    · omega
    · simp
    · simp
  have second : least.toNat ≤ c.toNat / 4096 % 64 + 128 ∧
      c.toNat / 4096 % 64 + 128 ≤ greatest.toNat := by
    rw [first, last]
    split <;> split <;> omega
  refine ⟨fun rest => ?_, fun size short => ?_, fun _ => ?_, by
    simp only [List.forall_mem_cons]
    exact ⟨continues_ofNat _, continues_ofNat _, continues_ofNat _, nofun⟩⟩
  · rw [lead, bits, List.cons_append, follow_next second.1 second.2, List.cons_append,
      follow_continued, List.singleton_append, follow_continued, follow, ofNat_eq c (by omega)]
    rfl
  · obtain rfl | rfl | rfl : size = 0 ∨ size = 1 ∨ size = 2 := by
      simp only [List.length_cons, List.length_nil] at short
      omega
    · rw [lead, List.take_zero, follow]
    · rw [lead, List.take_succ_cons, List.take_zero, follow_next second.1 second.2, follow]
    · rw [lead, List.take_succ_cons, List.take_succ_cons, List.take_zero,
        follow_next second.1 second.2, follow_continued, follow]
  · exact wideSize?_four (by omega) (by omega)

theorem le_ofNat (low : 128 ≤ n) (small : n < 256) : 128 ≤ (UInt8.ofNat n).toNat := by
  rwa [UInt8.toNat_ofNat_of_lt' small]

/-- Every character is read from its bytes: one byte of the same code for an ASCII character, and
only bytes that are not ASCII for another one. -/
theorem exists_reads (c : Char) : ∃ first later,
    String.utf8EncodeChar c = first :: later ∧ Reads c first later ∧
      (c.toNat < 128 ∧ first = UInt8.ofNat c.toNat ∧ later = [] ∨
        128 ≤ c.toNat ∧ later ≠ [] ∧ ∀ byte ∈ first :: later, 128 ≤ byte.toNat) := by
  rw [String.utf8EncodeChar.eq_1]
  have same : c.val.toNat = c.toNat := rfl
  rw [same]
  split
  case isTrue narrow =>
    exact ⟨_, _, rfl, reads_one narrow, .inl ⟨Nat.lt_succ_of_le narrow, rfl, rfl⟩⟩
  case isFalse wide =>
    split
    case isTrue two =>
      refine ⟨_, _, rfl, reads_two (by omega) two, .inr ⟨by omega, by simp, ?_⟩⟩
      simp only [List.forall_mem_cons]
      exact ⟨le_ofNat (by omega) (by omega), le_ofNat (by omega) (by omega), nofun⟩
    case isFalse more =>
      split
      case isTrue three =>
        refine ⟨_, _, rfl, reads_three (by omega) three, .inr ⟨by omega, by simp, ?_⟩⟩
        simp only [List.forall_mem_cons]
        exact ⟨le_ofNat (by omega) (by omega), le_ofNat (by omega) (by omega),
          le_ofNat (by omega) (by omega), nofun⟩
      case isFalse most =>
        refine ⟨_, _, rfl, reads_four (by omega), .inr ⟨by omega, by simp, ?_⟩⟩
        simp only [List.forall_mem_cons]
        exact ⟨le_ofNat (by omega) (by omega), le_ofNat (by omega) (by omega),
          le_ofNat (by omega) (by omega), le_ofNat (by omega) (by omega), nofun⟩

/-! ### Texts -/

theorem decodeFrom_skip (front rest : List UInt8) (offset : Nat) :
    decodeFrom front.length offset (front ++ rest) =
      decodeFrom 0 (offset + front.length) rest := by
  induction front generalizing offset with
  | nil => rfl
  | cons byte front ih =>
    rw [List.length_cons, List.cons_append, decodeFrom, ih, Nat.add_assoc, Nat.add_comm 1]

theorem decodeFrom_cons (c : Char) (offset : Nat) (rest : List UInt8) :
    decodeFrom 0 offset (String.utf8EncodeChar c ++ rest) =
      (decodeFrom 0 (offset + c.utf8Size) rest).map (c :: ·) := by
  obtain ⟨first, later, encoded, reads, -⟩ := exists_reads c
  have size : c.utf8Size = later.length + 1 := by
    rw [← String.length_utf8EncodeChar, encoded, List.length_cons]
  rw [encoded, List.cons_append, decodeFrom, reads.whole]
  dsimp only
  rw [Nat.add_sub_cancel, decodeFrom_skip, size, Nat.add_assoc, Nat.add_comm 1]
  cases decodeFrom 0 (offset + (later.length + 1)) rest <;> rfl

theorem decodeFrom_bytes (front : List Char) (offset : Nat) (rest : List UInt8) :
    decodeFrom 0 offset (Text.bytes front ++ rest) =
      (decodeFrom 0 (offset + Text.width front) rest).map (front ++ ·) := by
  induction front generalizing offset with
  | nil => cases decoded : decodeFrom 0 offset rest <;> simp [Text.bytes, Except.map, decoded]
  | cons c front ih =>
    rw [Text.bytes, List.flatMap_cons, List.append_assoc, decodeFrom_cons, ← Text.bytes, ih,
      Text.width_cons, Nat.add_assoc]
    cases decodeFrom 0 (offset + (c.utf8Size + Text.width front)) rest <;> rfl

/-- The bytes of a text are read as the text. -/
@[simp] theorem decode_bytes (text : List Char) : decode (Text.bytes text) = .ok text := by
  have whole := decodeFrom_bytes text 0 []
  rw [List.append_nil] at whole
  rw [decode, whole, decodeFrom]
  exact congrArg Except.ok (List.append_nil text)

/-- What a cut inside of a character leaves of the bytes ends with some of the character's. -/
theorem take_inside (inside : Text.cut n text = .inside) : ∃ front c first later k,
    String.utf8EncodeChar c = first :: later ∧ k < later.length ∧
      (Text.bytes text).take n = Text.bytes front ++ first :: later.take k := by
  obtain ⟨front, c, rest, rfl, after, before⟩ := Text.cut_inside inside
  obtain ⟨first, later, encoded, -⟩ := exists_reads c
  obtain ⟨k, rfl⟩ : ∃ k, n = Text.width front + (k + 1) := ⟨n - Text.width front - 1, by omega⟩
  have short : k < later.length := by
    rw [← String.length_utf8EncodeChar, encoded, List.length_cons] at before
    omega
  refine ⟨front, c, first, later, k, encoded, short, ?_⟩
  rw [Text.bytes_append, ← Text.length_bytes, List.take_length_add_append, Text.bytes, Text.bytes,
    List.flatMap_cons, encoded, List.cons_append, List.take_succ_cons,
    List.take_append_of_le_length (by omega)]

/-- The bytes of a text that are cut inside of a character are no text. -/
theorem decode_inside (inside : Text.cut n text = .inside) :
    ∃ flaw, decode ((Text.bytes text).take n) = .error flaw := by
  obtain ⟨front, c, first, later, k, encoded, short, part⟩ := take_inside inside
  obtain ⟨first', later', encoded', reads, -⟩ := exists_reads c
  obtain ⟨rfl, rfl⟩ := List.cons.inj (encoded.symm.trans encoded')
  rw [part, decode, decodeFrom_bytes, decodeFrom, reads.part k short]
  exact ⟨_, rfl⟩

end Utf8

namespace Octets

theorem lossyFrom_skip (front rest : List UInt8) :
    lossyFrom front.length (front ++ rest) = lossyFrom 0 rest := by
  induction front with
  | nil => rfl
  | cons byte front ih => rw [List.length_cons, List.cons_append, lossyFrom, ih]

/-- The first bytes of a text are shown as its first characters. -/
theorem lossy_take (n : Nat) (text : List Char) :
    lossy ((Text.bytes text).take n) = Text.shown n text := by
  rw [lossy]
  induction text generalizing n with
  | nil => cases n <;> rfl
  | cons c rest ih =>
    cases n with
    | zero => rfl
    | succ n =>
      obtain ⟨first, later, encoded, reads, -⟩ := Utf8.exists_reads c
      have size : c.utf8Size = later.length + 1 := by
        rw [← String.length_utf8EncodeChar, encoded, List.length_cons]
      rw [Text.bytes, List.flatMap_cons, encoded, List.cons_append, List.take_succ_cons, lossyFrom,
        Text.shown, size, ← Text.bytes]
      by_cases whole : later.length ≤ n
      · rw [if_pos (by omega), List.take_append, List.take_of_length_le whole, reads.whole]
        dsimp only
        rw [Nat.add_sub_cancel, lossyFrom_skip, ih, Nat.add_sub_add_right]
      · rw [if_neg (by omega), List.take_append_of_le_length (by omega),
          reads.part n (by omega)]

/-! ### Places between characters -/

theorem peek_append (front rest : List Char) (i : Nat) :
    peek (Text.bytes (front ++ rest)) (Text.width front + i) = peek (Text.bytes rest) i := by
  rw [peek, peek, Text.bytes_append, ← Text.length_bytes, List.getElem?_append_right (by omega),
    Nat.add_sub_cancel_left]

theorem peek_here (front rest : List Char) :
    peek (Text.bytes (front ++ rest)) (Text.width front) = peek (Text.bytes rest) 0 :=
  peek_append front rest 0

@[simp] theorem peek_nil (i : Nat) : peek (Text.bytes []) i = none := rfl

/-- The first byte of a text is that of its first character. -/
@[simp] theorem peek_first (c : Char) (rest : List Char) :
    peek (Text.bytes (c :: rest)) 0 = some (Text.firstByte c) := by
  obtain ⟨first, later, encoded, -⟩ := Utf8.exists_reads c
  rw [peek, Text.bytes, List.flatMap_cons, Text.firstByte, encoded]
  rfl

theorem range?_bytes (front middle rest : List Char) :
    range? (Text.bytes (front ++ (middle ++ rest))) (Text.width front)
      (Text.width front + Text.width middle) = some (Text.bytes middle) := by
  have inside : Text.width front ≤ Text.width front + Text.width middle ∧
      Text.width front + Text.width middle ≤
        (Text.bytes (front ++ (middle ++ rest))).length := by
    rw [Text.length_bytes, Text.width_append, Text.width_append]
    omega
  rw [range?, if_pos inside, ← List.append_assoc, ← Text.width_append, Text.take_bytes,
    Text.bytes_append, ← Text.length_bytes front, List.drop_left]

/-- Bytes after a place of a text, if there are so many. -/
theorem range?_take (front rest : List Char) (size : Nat) :
    range? (Text.bytes (front ++ rest)) (Text.width front) (Text.width front + size) =
      if size ≤ Text.width rest then some ((Text.bytes rest).take size) else none := by
  rw [range?, Text.length_bytes, Text.width_append]
  by_cases inside : size ≤ Text.width rest
  · rw [if_pos (by omega), if_pos inside, Text.bytes_append, ← Text.length_bytes front,
      List.take_length_add_append, List.drop_left]
  · rw [if_neg (by omega), if_neg inside]

theorem range?_rest (front rest : List Char) :
    range? (Text.bytes (front ++ rest)) (Text.width front) (Text.bytes (front ++ rest)).length =
      some (Text.bytes rest) := by
  have whole := range?_bytes front rest []
  rw [List.append_nil] at whole
  rw [Text.length_bytes, Text.width_append, whole]

@[simp] theorem suffix_bytes (front rest : List Char) :
    suffix (Text.bytes (front ++ rest)) (Text.width front) = .value (Text.bytes rest) := by
  rw [suffix, slice, range?_rest, Access.sure_some]

theorem suffix_zero (rest : List Char) :
    suffix (Text.bytes rest) 0 = .value (Text.bytes rest) := suffix_bytes [] rest

/-- A slice between two characters is a text. -/
theorem decoded_bytes (front middle rest : List Char) (position : Nat) :
    decoded (Text.bytes (front ++ (middle ++ rest))) position (Text.width front)
      (Text.width front + Text.width middle) = .value (.ok middle) := by
  rw [decoded, slice, range?_bytes, Access.sure_some, Access.value_bind, Utf8.decode_bytes]
  rfl

theorem spell_bytes (front middle rest : List Char) (consumed : Nat) (make : List Char → α) :
    spell (Text.bytes (front ++ (middle ++ rest))) (Text.width front)
      (Text.width front + Text.width middle) consumed make =
      .value ⟨consumed, .ok (make middle)⟩ := by
  rw [spell, decoded_bytes]
  rfl

@[simp] theorem character?_nil (position : Nat) : character? (Text.bytes []) position = none := rfl

/-- A character is read whole. -/
@[simp] theorem character?_bytes (c : Char) (rest : List Char) (position : Nat) :
    character? (Text.bytes (c :: rest)) position = some (.ok (c, c.utf8Size)) := by
  have whole := range?_bytes [] [c] rest
  have alone : Utf8.decode (Text.bytes [c]) = .ok [c] := Utf8.decode_bytes [c]
  obtain ⟨first, later, encoded, reads, ⟨narrow, rfl, rfl⟩ | ⟨wide, more, high⟩⟩ :=
    Utf8.exists_reads c
  · have byte : (UInt8.ofNat c.toNat).toNat = c.toNat :=
      UInt8.toNat_ofNat_of_lt' (show c.toNat < 256 by omega)
    have size : c.utf8Size = 1 := by
      rw [← String.length_utf8EncodeChar, encoded, List.length_singleton]
    have ascii : UInt8.ofNat c.toNat ≤ 0x7F := by
      rw [UInt8.le_iff_toNat_le, byte]
      exact Nat.le_of_lt_succ narrow
    rw [Text.bytes, List.flatMap_cons, encoded, List.cons_append, character?, if_pos ascii, letter,
      byte, Char.ofNat_toNat, size]
  · have size : later.length + 1 = c.utf8Size := by
      rw [← String.length_utf8EncodeChar, encoded, List.length_cons]
    have notAscii : ¬ first ≤ 0x7F := by
      rw [UInt8.le_iff_toNat_le]
      exact Nat.not_le.mpr (high first List.mem_cons_self)
    have bytes : Text.bytes (c :: rest) = first :: (later ++ Text.bytes rest) := by
      rw [Text.bytes, List.flatMap_cons, encoded, List.cons_append, ← Text.bytes]
    simp only [List.nil_append, List.singleton_append, Text.width_nil, Nat.zero_add,
      Text.width_cons, Nat.add_zero] at whole
    rw [bytes] at whole ⊢
    rw [character?, if_neg notAscii, reads.size more]
    dsimp only
    rw [size, whole]
    dsimp only
    rw [alone]

/-! ### Classes of bytes -/

/-- A class of ASCII characters. -/
def IsAscii (isOne : Char → Bool) : Prop := ∀ c, isOne c → c.toNat < 128

theorem isAscii_eq (ascii : a.toNat < 128) : IsAscii fun c => c = a := by
  intro c one
  obtain rfl := of_decide_eq_true one
  exact ascii

theorem toNat_letter (byte : UInt8) : (letter byte).toNat = byte.toNat := by
  have small : ∀ n : Fin 256, (Char.ofNat n).toNat = n := by decide +kernel
  exact small ⟨byte.toNat, byte.toNat_lt⟩

variable {isOne : Char → Bool}

/-- The bytes of a character are of a class of ASCII characters if and only if it is. -/
theorem class_bytes (ascii : IsAscii isOne) (c : Char) :
    ∀ byte ∈ String.utf8EncodeChar c, isOne (letter byte) = isOne c := by
  obtain ⟨first, later, encoded, -, ⟨narrow, rfl, rfl⟩ | ⟨wide, -, high⟩⟩ := Utf8.exists_reads c
  · rw [encoded, List.forall_mem_singleton, letter,
      UInt8.toNat_ofNat_of_lt' (show c.toNat < 256 by omega), Char.ofNat_toNat]
  · have none (d : Char) (wide : 128 ≤ d.toNat) : isOne d = false := by
      rw [Bool.eq_false_iff]
      exact fun one => absurd (ascii d one) (Nat.not_lt.mpr wide)
    rw [encoded]
    intro byte member
    rw [none c wide, none _ (toNat_letter byte ▸ high byte member)]

theorem class_firstByte (ascii : IsAscii isOne) (c : Char) :
    isOne (Text.firstByte c) = isOne c := by
  obtain ⟨first, later, encoded, -⟩ := Utf8.exists_reads c
  have same := class_bytes ascii c first (by simp [encoded])
  rwa [Text.firstByte, encoded]

/-- A search goes on over characters that are not of the class. -/
theorem find_over (ascii : IsAscii isOne) {front : List Char}
    (others : ∀ c ∈ front, isOne c = false) (rest : List Char) :
    find (Text.bytes (front ++ rest)) isOne =
      (find (Text.bytes rest) isOne).map (Text.width front + ·) := by
  have none : ∀ byte ∈ Text.bytes front, isOne (letter byte) = false := by
    intro byte member
    obtain ⟨c, inside, byte'⟩ := List.mem_flatMap.mp member
    exact (class_bytes ascii c byte byte').trans (others c inside)
  have nothing : (Text.bytes front).findIdx? (fun byte => isOne (letter byte)) = Option.none :=
    List.findIdx?_eq_none_iff.mpr none
  rw [find, find, Text.bytes_append, List.findIdx?_append, nothing, Option.none_or,
    Text.length_bytes]
  cases List.findIdx? (fun byte => isOne (letter byte)) (Text.bytes rest) <;>
    simp [Nat.add_comm]

/-- A search stops at once at a character of the class. -/
theorem find_first (ascii : IsAscii isOne) (one : isOne c) (rest : List Char) :
    find (Text.bytes (c :: rest)) isOne = some 0 := by
  obtain ⟨first, later, encoded, -⟩ := Utf8.exists_reads c
  have stops := (class_bytes ascii c first (by simp [encoded])).trans one
  rw [find, Text.bytes, List.flatMap_cons, encoded, List.cons_append, List.findIdx?_cons, stops]
  rfl

/-- The first byte of a character is an ASCII character if and only if the character is that
one. -/
theorem firstByte_eq_iff (ascii : a.toNat < 128) : Text.firstByte c = a ↔ c = a := by
  have same := class_firstByte (isAscii_eq ascii) c
  rwa [decide_eq_decide] at same

/-- The bytes up to the first one that is not of a class. -/
theorem countWhile_bytes (ascii : IsAscii isOne) (text : List Char) :
    countWhile (Text.bytes text) isOne = Text.width (text.takeWhile isOne) := by
  induction text with
  | nil => rfl
  | cons c rest ih =>
    have same := class_bytes ascii c
    rw [countWhile] at ih ⊢
    rw [Text.bytes, List.flatMap_cons, ← Text.bytes]
    by_cases one : isOne c
    · rw [List.takeWhile_append_of_pos fun byte member => (same byte member).trans one,
        List.length_append, ih, String.length_utf8EncodeChar, List.takeWhile_cons_of_pos one,
        Text.width_cons]
    · obtain ⟨first, later, encoded, -⟩ := Utf8.exists_reads c
      have other : ¬ isOne (letter first) := by
        rwa [same first (by simp [encoded])]
      rw [encoded, List.cons_append,
        List.takeWhile_cons_of_neg (p := fun byte => isOne (letter byte)) other,
        List.takeWhile_cons_of_neg one]
      rfl

theorem all_bytes (ascii : IsAscii isOne) (text : List Char) :
    all (Text.bytes text) isOne = text.all isOne := by
  induction text with
  | nil => rfl
  | cons c rest ih =>
    have same := class_bytes ascii c
    obtain ⟨first, later, encoded, -⟩ := Utf8.exists_reads c
    rw [all] at ih ⊢
    rw [Text.bytes, List.flatMap_cons, ← Text.bytes, List.all_append, ih, List.all_cons,
      Bool.eq_iff_iff, Bool.and_eq_true, Bool.and_eq_true, List.all_eq_true]
    refine and_congr_left fun _ => ⟨fun each => ?_, fun one byte member => ?_⟩
    · exact (same first (by simp [encoded])).symm.trans (each first (by simp [encoded]))
    · exact (same byte member).trans one

/-- Bytes that are cut inside of a character are not all of a class of ASCII characters. -/
theorem all_inside (ascii : IsAscii isOne) (inside : Text.cut n text = .inside) :
    all ((Text.bytes text).take n) isOne = false := by
  obtain ⟨front, c, first, later, k, encoded, short, part⟩ := Utf8.take_inside inside
  obtain ⟨first', later', encoded', -, ⟨-, -, rfl⟩ | ⟨wide, -⟩⟩ := Utf8.exists_reads c
  all_goals obtain ⟨rfl, rfl⟩ := List.cons.inj (encoded.symm.trans encoded')
  · exact absurd short (Nat.not_lt_zero k)
  · rw [Bool.eq_false_iff, part, all]
    intro each
    have one := List.all_eq_true.mp each first (by simp)
    rw [class_bytes ascii c first (by simp [encoded])] at one
    exact absurd (ascii c one) (Nat.not_lt.mpr wide)

/-- The bytes of characters that are not of a class are not of it either. -/
theorem peek_among (ascii : IsAscii isOne) {middle : List Char}
    (others : ∀ c ∈ middle, isOne c = false) (front rest : List Char)
    (inside : i < Text.width middle) : ∃ d,
      peek (Text.bytes (front ++ (middle ++ rest))) (Text.width front + i) = some d ∧
        isOne d = false := by
  have within : i < (Text.bytes middle).length := by rwa [Text.length_bytes]
  rw [peek_append, peek, Text.bytes_append, List.getElem?_append_left within,
    List.getElem?_eq_getElem within]
  obtain ⟨c, member, byte⟩ := List.mem_flatMap.mp (List.getElem_mem within)
  exact ⟨_, rfl, (class_bytes ascii c _ byte).trans (others c member)⟩

theorem utf8Size_of_ascii {c : Char} (ascii : c.toNat < 128) : c.utf8Size = 1 := by
  obtain ⟨first, later, encoded, -, ⟨-, -, rfl⟩ | ⟨wide, -⟩⟩ := Utf8.exists_reads c
  · rw [← String.length_utf8EncodeChar, encoded, List.length_singleton]
  · omega

/-- The bytes of a character behind its first one are of no class of ASCII characters. -/
theorem peek_behind (ascii : IsAscii isOne) {c : Char} (front rest : List Char)
    (inside : i < c.utf8Size - 1) : ∃ d,
      peek (Text.bytes (front ++ c :: rest)) (Text.width front + 1 + i) = some d ∧
        isOne d = false := by
  have other : isOne c = false := by
    rw [Bool.eq_false_iff]
    intro one
    have size := utf8Size_of_ascii (ascii c one)
    omega
  have later : 1 + i < Text.width [c] := by
    rw [Text.width_cons, Text.width_nil]
    omega
  rw [Nat.add_assoc]
  exact peek_among ascii (List.forall_mem_singleton.mpr other) front rest later

theorem firstByte_of_ascii (ascii : c.toNat < 128) : Text.firstByte c = c :=
  (firstByte_eq_iff ascii).mpr rfl

theorem width_of_ascii (text : List Char) (ascii : ∀ c ∈ text, c.toNat < 128) :
    Text.width text = text.length := by
  induction text with
  | nil => rfl
  | cons c rest ih =>
    obtain ⟨first, others⟩ := List.forall_mem_cons.mp ascii
    rw [Text.width_cons, utf8Size_of_ascii first, ih others, List.length_cons, Nat.add_comm]

theorem IsAscii.or {other : Char → Bool} (ascii : IsAscii isOne) (ascii' : IsAscii other) :
    IsAscii fun c => isOne c || other c := by
  intro c either
  rcases Bool.or_eq_true_iff.mp either with one | one
  · exact ascii c one
  · exact ascii' c one

theorem width_snoc (front : List Char) {c : Char} (ascii : c.toNat < 128) :
    Text.width (front ++ [c]) = Text.width front + 1 := by
  rw [Text.width_append, Text.width_cons, utf8Size_of_ascii ascii]
  rfl

/-- The byte after an ASCII character is the first one of the text after it. -/
theorem peek_after (front rest : List Char) {c : Char} (ascii : c.toNat < 128) :
    peek (Text.bytes (front ++ c :: rest)) (Text.width front + 1) = peek (Text.bytes rest) 0 := by
  rw [List.append_cons, ← width_snoc front ascii, peek_here]

/-! ### Loops -/

/-- The byte at a place of a text is an ASCII character if and only if that one comes next. -/
theorem peek_eq_iff (front text : List Char) {a : Char} (ascii : a.toNat < 128) :
    peek (Text.bytes (front ++ text)) (Text.width front) = some a ↔ text.head? = some a := by
  rw [peek_here]
  cases text with
  | nil => simp
  | cons c rest => simp [firstByte_eq_iff ascii]

theorem width_eq_zero {text : List Char} : Text.width text = 0 ↔ text = [] := by
  constructor
  · intro none
    by_contra nonempty
    exact absurd none (Nat.ne_of_gt (TokenSequence.width_pos nonempty))
  · rintro rfl
    rfl

/-- One round is enough for one character. -/
theorem width_lt_of_cons {c : Char} (enough : Text.width (c :: rest) < rounds + 1) :
    Text.width rest < rounds := by
  have size := c.utf8Size_pos
  rw [Text.width_cons] at enough
  omega

/-- A loop over indices goes on by one round and one byte where the byte is not of a class. -/
def Walks (isOne : Char → Bool) (data : List UInt8) (loop : (rounds i : Nat) → Access α) : Prop :=
  ∀ ⦃rounds i d⦄, peek data i = some d → isOne d = false → loop (rounds + 1) i = loop rounds (i + 1)

theorem Walks.many {loop : Nat → Nat → Access α} (walks : Walks isOne data loop)
    (rounds i count : Nat)
    (others : ∀ k < count, ∃ d, peek data (i + k) = some d ∧ isOne d = false) :
    loop (rounds + count) i = loop rounds (i + count) := by
  induction count generalizing i with
  | zero => rfl
  | succ count ih =>
    obtain ⟨d, here, other⟩ := others 0 (Nat.succ_pos count)
    have later : loop (rounds + count) (i + 1) = loop rounds (i + 1 + count) := by
      refine ih (i + 1) fun k below => ?_
      have after := others (k + 1) (Nat.succ_lt_succ below)
      rwa [Nat.add_comm k, ← Nat.add_assoc] at after
    rw [Nat.add_zero] at here
    rw [← Nat.add_assoc, walks here other, later, Nat.add_assoc, Nat.add_comm 1]

/-- A loop goes on over characters that are not of a class. -/
theorem Walks.past (ascii : IsAscii isOne) {front middle rest : List Char}
    {loop : Nat → Nat → Access α}
    (walks : Walks isOne (Text.bytes (front ++ (middle ++ rest))) loop)
    (others : ∀ c ∈ middle, isOne c = false) (rounds : Nat) :
    loop (rounds + Text.width middle) (Text.width front) =
      loop rounds (Text.width (front ++ middle)) := by
  rw [walks.many _ _ _ fun k below => peek_among ascii others front rest below,
    Text.width_append]

/-- A loop goes on over a character that is not of a class, and has rounds left for the text after
it. -/
theorem Walks.next (ascii : IsAscii isOne) {c : Char} {front rest : List Char}
    {loop : Nat → Nat → Access α} (walks : Walks isOne (Text.bytes (front ++ c :: rest)) loop)
    (other : isOne c = false) (enough : Text.width (c :: rest) < rounds) :
    ∃ left, Text.width rest < left ∧
      loop rounds (Text.width front) = loop left (Text.width (front ++ [c])) := by
  rw [Text.width_cons] at enough
  have walks : Walks isOne (Text.bytes (front ++ ([c] ++ rest))) loop := walks
  have passed := walks.past ascii (List.forall_mem_singleton.mpr other) (rounds - c.utf8Size)
  rw [Text.width_cons, Text.width_nil, Nat.add_zero, Nat.sub_add_cancel (by omega)] at passed
  exact ⟨rounds - c.utf8Size, by omega, passed⟩

/-- A loop goes on from the second byte of a character to its end, and has rounds left for the text
after it. -/
theorem Walks.behind (ascii : IsAscii isOne) {c : Char} {front rest : List Char}
    {loop : Nat → Nat → Access α} (walks : Walks isOne (Text.bytes (front ++ c :: rest)) loop)
    (enough : Text.width (c :: rest) ≤ rounds) :
    ∃ left, Text.width rest < left ∧
      loop rounds (Text.width front + 1) = loop left (Text.width (front ++ [c])) := by
  have size := c.utf8Size_pos
  rw [Text.width_cons] at enough
  have many := walks.many (rounds - (c.utf8Size - 1)) (Text.width front + 1) (c.utf8Size - 1)
    fun k below => peek_behind ascii front rest below
  have place : Text.width front + 1 + (c.utf8Size - 1) = Text.width (front ++ [c]) := by
    rw [Text.width_append, Text.width_cons, Text.width_nil]
    omega
  rw [Nat.sub_add_cancel (by omega), place] at many
  exact ⟨rounds - (c.utf8Size - 1), by omega, many⟩

end Octets

theorem Scan.after_after (scan : Scan α) (front later : List Char) :
    (scan.after later).after front = scan.after (front ++ later) := by
  cases scan <;> simp [after]

/-- What a scan is among bytes, `position` bytes after the beginning: the sizes of what it consumes
and reports. -/
def Scan.sizes (position : Nat) : Scan α → Access (Recognized α)
  | found value lexeme _ => .value ⟨Text.width lexeme, .ok value⟩
  | fault cause lead size =>
    .value ⟨Text.width lead + size,
      .error ⟨position + Text.width lead, position + Text.width lead + size, cause⟩⟩
  | unfinished => .ended

end ShExCompact
