import ShExCompact.Token.Sequence

/-! Looking at bytes. Every index and every slice is checked: what is out of bounds breaks the look
instead of giving a value. -/
namespace ShExCompact

/-- What comes of a look at bytes. -/
inductive Access (α : Type) where
  | value (value : α)
  /-- the bytes end too early -/
  | ended
  /-- an index or a slice is out of bounds, or an assertion fails -/
  | broken
  /-- a loop still goes on after the rounds that it is given -/
  | endless

namespace Access

def bind : Access α → (α → Access β) → Access β
  | value inner, next => next inner
  | ended, _ => ended
  | broken, _ => broken
  | endless, _ => endless

instance : Monad Access where
  pure := value
  bind := bind

@[simp] theorem value_bind (inner : α) (next : α → Access β) :
    (Access.value inner >>= next) = next inner := rfl

@[simp] theorem ended_bind (next : α → Access β) : (Access.ended >>= next) = .ended := rfl

@[simp] theorem pure_eq (inner : α) : (pure inner : Access α) = .value inner := rfl

/-- What may be missing at the end of the bytes. -/
def need : Option α → Access α
  | some inner => value inner
  | none => ended

/-- What must not be missing. -/
def sure : Option α → Access α
  | some inner => value inner
  | none => broken

/-- What has to hold. -/
def assert (holds : Bool) : Access Unit := if holds then value () else broken

@[simp] theorem need_some (inner : α) : need (some inner) = .value inner := rfl

@[simp] theorem sure_some (inner : α) : sure (some inner) = .value inner := rfl

@[simp] theorem assert_true (holds : condition = true) : assert condition = .value () :=
  if_pos holds

end Access

/-- What is wrong with some bytes. -/
structure Report where
  start : Nat
  stop : Nat
  cause : Fault

/-- How many bytes are consumed, and what they are. -/
structure Recognized (α : Type) where
  consumed : Nat
  result : Except Report α

namespace Octets

/-- The character with the code of a byte. -/
def letter (byte : UInt8) : Char := Char.ofNat byte.toNat

variable (data : List UInt8)

/-- The byte at a place. -/
def peek (i : Nat) : Option Char := data[i]?.map letter

/-- The bytes between two places. -/
def range? (start stop : Nat) : Option (List UInt8) :=
  if start ≤ stop ∧ stop ≤ data.length then some ((data.take stop).drop start) else none

/-- The bytes between two places that must not be out of bounds. -/
def slice (start stop : Nat) : Access (List UInt8) := .sure (range? data start stop)

/-- The bytes from a place on, which must not be out of bounds. -/
def suffix (start : Nat) : Access (List UInt8) := slice data start data.length

/-- A difference that must not be negative. -/
def minus (whole part : Nat) : Access Nat :=
  if part ≤ whole then .value (whole - part) else .broken

/-- How many bytes from the beginning on are of a class. -/
def countWhile (isOne : Char → Bool) : Nat :=
  (data.takeWhile fun byte => isOne (letter byte)).length

/-- The place of the first byte of a class. -/
def find (isOne : Char → Bool) : Option Nat := data.findIdx? fun byte => isOne (letter byte)

/-- Whether all bytes are of a class. -/
def all (isOne : Char → Bool) : Bool := data.all fun byte => isOne (letter byte)

/-- A slice as characters, or its first bytes that are none. `position` bytes come before the
data. -/
def decoded (position start stop : Nat) : Access (Except Report (List Char)) := do
  match Utf8.decode (← slice data start stop) with
  | .ok chars => return .ok chars
  | .error flaw =>
    let first := position + start + flaw.validUpTo
    return .error ⟨first, min (position + stop) (first + 4), .bytes flaw⟩

/-- Consume some bytes, and make a value of the characters of a slice. -/
def spell (start stop consumed : Nat) (make : List Char → α) : Access (Recognized α) := do
  match ← decoded data 0 start stop with
  | .ok chars => return ⟨consumed, .ok (make chars)⟩
  | .error report => return ⟨consumed, .error report⟩

/-- How many bytes a character has that is not ASCII, by its first byte. -/
def wideSize? (first : UInt8) : Option Nat :=
  if 0xC2 ≤ first ∧ first ≤ 0xDF then some 2
  else if 0xE0 ≤ first ∧ first ≤ 0xEF then some 3
  else if 0xF0 ≤ first ∧ first ≤ 0xF4 then some 4
  else none

/-- The first character and its size, if the bytes have not ended. -/
def character? (position : Nat) : Option (Except Report (Char × Nat)) :=
  match data with
  | [] => none
  | first :: _ =>
    if first ≤ 0x7F then some (.ok (letter first, 1))
    else match wideSize? first with
      | some size =>
        match range? data 0 size with
        | some bytes =>
          match Utf8.decode bytes with
          | .ok (c :: _) => some (.ok (c, size))
          | _ => some (.error ⟨position, position + size, .encoding⟩)
        | none => some (.error ⟨position, position + data.length, .encoding⟩)
      | none => some (.error ⟨position, position + 1, .encoding⟩)

/-- Bytes as characters. The replacement stands for each stretch that is none; the first `skip`
bytes belong to what is already read. -/
def lossyFrom : (skip : Nat) → List UInt8 → List Char
  | _, [] => []
  | skip + 1, _ :: rest => lossyFrom skip rest
  | 0, first :: rest =>
    match Utf8.lead first rest with
    | .character value size => value :: lossyFrom (size - 1) rest
    | .broken size => Text.replacement :: lossyFrom (size - 1) rest
    | .cutOff => [Text.replacement]

/-- Bytes as characters, with the replacement for what is none. -/
def lossy : List Char := lossyFrom 0 data

end Octets

end ShExCompact
