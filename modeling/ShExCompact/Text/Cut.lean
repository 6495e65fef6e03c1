/-!
Texts measured in UTF-8 bytes. A text is a list of characters; a cut after some number of bytes
may fall between two characters, inside of one, or past the end.
-/
namespace ShExCompact.Text

/-- The number of bytes of a text. -/
def width (text : List Char) : Nat := text.foldr (fun c size => c.utf8Size + size) 0

/-- The bytes of a text. -/
def bytes (text : List Char) : List UInt8 := text.flatMap String.utf8EncodeChar

/-- The character whose code is the first byte of `c`. -/
def firstByte (c : Char) : Char :=
  match String.utf8EncodeChar c with
  | byte :: _ => Char.ofNat byte.toNat
  | [] => c

/-- The character that stands for what cannot be shown. -/
def replacement : Char := '\uFFFD'

/-- Where a cut after a number of bytes falls. -/
inductive Cut where
  /-- between two characters -/
  | exact (front rest : List Char)
  /-- inside of a character -/
  | inside
  /-- past the end of the text -/
  | short

/-- Put a character before the front of a cut. -/
def Cut.push (c : Char) : Cut → Cut
  | exact front rest => exact (c :: front) rest
  | inside => inside
  | short => short

/-- Cut a text after `n` bytes. -/
def cut : Nat → List Char → Cut
  | 0, text => .exact [] text
  | _ + 1, [] => .short
  | n + 1, c :: rest =>
    if c.utf8Size ≤ n + 1 then (cut (n + 1 - c.utf8Size) rest).push c else .inside

@[simp] theorem width_nil : width [] = 0 := rfl

@[simp] theorem width_cons (c : Char) (rest : List Char) :
    width (c :: rest) = c.utf8Size + width rest := rfl

@[simp] theorem width_append (front rest : List Char) :
    width (front ++ rest) = width front + width rest := by
  induction front with
  | nil => simp
  | cons c front ih => simp [ih, Nat.add_assoc]

theorem length_bytes (text : List Char) : (bytes text).length = width text := by
  induction text with
  | nil => rfl
  | cons c rest ih =>
    rw [width_cons, ← ih, ← String.length_utf8EncodeChar]
    exact List.length_append

/-- A cut after a whole front gives it back. -/
theorem cut_append (front rest : List Char) :
    cut (width front) (front ++ rest) = .exact front rest := by
  induction front with
  | nil => cases rest <;> rfl
  | cons c front ih =>
    have size := c.utf8Size_pos
    obtain ⟨n, more⟩ : ∃ n, width (c :: front) = n + 1 := ⟨width (c :: front) - 1, by
      rw [width_cons]
      omega⟩
    have split : n + 1 = c.utf8Size + width front := more ▸ width_cons c front
    rw [more, List.cons_append, cut, if_pos (by omega), split, Nat.add_sub_cancel_left, ih]
    rfl

theorem cut_eq_exact : cut n text = .exact front rest ↔ text = front ++ rest ∧ width front = n := by
  constructor
  · intro exact
    induction text generalizing n front with
    | nil =>
      cases n with
      | zero =>
        cases exact
        exact ⟨rfl, rfl⟩
      | succ n => cases exact
    | cons c text ih =>
      cases n with
      | zero =>
        cases exact
        exact ⟨rfl, rfl⟩
      | succ n =>
        rw [cut] at exact
        split at exact
        case isFalse => cases exact
        case isTrue fits =>
          cases inner : cut (n + 1 - c.utf8Size) text with
          | inside | short => simp [inner, Cut.push] at exact
          | exact front' rest' =>
            rw [inner, Cut.push, Cut.exact.injEq] at exact
            obtain ⟨rfl, rfl⟩ := exact
            obtain ⟨rfl, size⟩ := ih inner
            refine ⟨rfl, ?_⟩
            rw [width_cons]
            omega
  · rintro ⟨rfl, rfl⟩
    exact cut_append front rest

/-- The first `n` bytes of a text; a character that is cut is shown by the replacement. -/
def shown : Nat → List Char → List Char
  | 0, _ => []
  | _ + 1, [] => []
  | n + 1, c :: rest =>
    if c.utf8Size ≤ n + 1 then c :: shown (n + 1 - c.utf8Size) rest else [replacement]

end ShExCompact.Text
