/-!
Well-formed UTF-8. Bytes are read as characters up to the first sequence that is not well formed.
-/
namespace ShExCompact.Utf8

/-- The first place where bytes are not UTF-8: how many bytes before it are, and how many bytes
the broken sequence has, none if the bytes end inside of it. -/
structure Flaw where
  validUpTo : Nat
  size : Option Nat
deriving DecidableEq

/-- The wording of a flaw. -/
def Flaw.message (flaw : Flaw) : String :=
  match flaw.size with
  | some size =>
    "invalid utf-8 sequence of " ++ toString size ++ " bytes from index " ++ toString flaw.validUpTo
  | none => "incomplete utf-8 byte sequence from index " ++ toString flaw.validUpTo

/-- What the beginning of some bytes is. -/
inductive Lead where
  | character (value : Char) (size : Nat)
  | broken (size : Nat)
  | cutOff

/-- How many bytes follow a first byte, and the least and greatest second byte. -/
def followers? (first : UInt8) : Option (Nat × UInt8 × UInt8) :=
  if first < 0xC2 then none
  else if first < 0xE0 then some (1, 0x80, 0xBF)
  else if first = 0xE0 then some (2, 0xA0, 0xBF)
  else if first = 0xED then some (2, 0x80, 0x9F)
  else if first < 0xF0 then some (2, 0x80, 0xBF)
  else if first = 0xF0 then some (3, 0x90, 0xBF)
  else if first < 0xF4 then some (3, 0x80, 0xBF)
  else if first = 0xF4 then some (3, 0x80, 0x8F)
  else none

/-- The bits of a first byte that belong to the code point, by the number of following bytes. -/
def leadBits (first : UInt8) : Nat → Nat
  | 1 => first.toNat % 32
  | 2 => first.toNat % 16
  | _ => first.toNat % 8

/-- Read the bytes that follow; `size` bytes of the character are read and `code` is their value. -/
def follow : (missing : Nat) → (least greatest : UInt8) → (size code : Nat) → List UInt8 → Lead
  | 0, _, _, size, code, _ => .character (Char.ofNat code) size
  | _ + 1, _, _, _, _, [] => .cutOff
  | missing + 1, least, greatest, size, code, byte :: rest =>
    if least ≤ byte ∧ byte ≤ greatest then
      follow missing 0x80 0xBF (size + 1) (code * 64 + byte.toNat % 64) rest
    else .broken size

/-- Read one character. -/
def lead (first : UInt8) (rest : List UInt8) : Lead :=
  if first < 0x80 then .character (Char.ofNat first.toNat) 1
  else match followers? first with
    | some (count, least, greatest) => follow count least greatest 1 (leadBits first count) rest
    | none => .broken 1

/-- Read characters; the first `skip` bytes belong to a character that is already read, and
`offset` bytes come before. -/
def decodeFrom : (skip offset : Nat) → List UInt8 → Except Flaw (List Char)
  | _, _, [] => .ok []
  | skip + 1, offset, _ :: rest => decodeFrom skip (offset + 1) rest
  | 0, offset, first :: rest =>
    match lead first rest with
    | .character value size =>
      match decodeFrom (size - 1) (offset + 1) rest with
      | .ok more => .ok (value :: more)
      | .error flaw => .error flaw
    | .broken size => .error ⟨offset, some size⟩
    | .cutOff => .error ⟨offset, none⟩

/-- The characters of some bytes, or the first flaw. -/
def decode (bytes : List UInt8) : Except Flaw (List Char) := decodeFrom 0 0 bytes

end ShExCompact.Utf8
