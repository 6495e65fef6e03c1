import ShExCompact.Token.Sequence

/-! What stands between two tokens: blanks and line comments. Main statement: `skip` steps over such
a gap, as far as it goes. -/
namespace ShExCompact.Token

/-- The beginning of a comment. -/
inductive OpensComment : List Char → Prop where
  | sign : OpensComment ['#']
  | slashes : OpensComment ['/', '/']

/-- Blanks and comments, each comment with the end of its line. -/
inductive IsGap : List Char → Prop where
  | empty : IsGap []
  | blank (first : isBlank c) (later : IsGap gap) : IsGap (c :: gap)
  | comment (opens : OpensComment front) (line : ∀ d ∈ content, ¬ isLineEnd d) (ends : isLineEnd c)
      (later : IsGap gap) : IsGap (front ++ (content ++ c :: gap))

/-- What may stand after the last token: a gap, and perhaps a comment up to the end of the text. -/
inductive IsLastGap : List Char → Prop where
  | gap (gap : IsGap text) : IsLastGap text
  | comment (gap : IsGap text) (opens : OpensComment front) (line : ∀ d ∈ content, ¬ isLineEnd d) :
      IsLastGap (text ++ (front ++ content))

/-- No gap comes next. -/
def Stands : List Char → Prop
  | [] => True
  | c :: rest => ¬ isBlank c ∧ c ≠ '#' ∧ ¬ (c = '/' ∧ rest.head? = some '/')

theorem skip_of_stands (stands : Stands text) (offset : Nat) :
    skip false offset text = ⟨offset, text⟩ := by
  cases text with
  | nil => rfl
  | cons c rest =>
    obtain ⟨noBlank, noSign, noSlashes⟩ := stands
    simp [skip, noBlank, noSign, noSlashes]

theorem Stands.of_append (stands : Stands (front ++ rest)) : Stands front := by
  cases front with
  | nil => trivial
  | cons c front =>
    obtain ⟨noBlank, noSign, noSlashes⟩ := stands
    refine ⟨noBlank, noSign, fun ⟨first, second⟩ => noSlashes ⟨first, ?_⟩⟩
    obtain ⟨more, rfl⟩ := List.head?_eq_some_iff.mp second
    rfl

theorem utf8Size_of_isBlank (blank : isBlank c) : c.utf8Size = 1 := by
  simp only [isBlank, Bool.or_eq_true, decide_eq_true_eq] at blank
  rcases blank with ((rfl | rfl) | rfl) | rfl <;> rfl

/-- A comment goes to the end of the line or of the text. -/
theorem skip_comment (offset : Nat) (text : List Char) :
    (∃ content c rest, text = content ++ c :: rest ∧ (∀ d ∈ content, ¬ isLineEnd d) ∧ isLineEnd c ∧
      skip true offset text = skip false (offset + Text.width (content ++ [c])) rest) ∨
    (∀ d ∈ text, ¬ isLineEnd d) ∧ skip true offset text = ⟨offset + Text.width text, []⟩ := by
  induction text generalizing offset with
  | nil => exact .inr ⟨by simp, rfl⟩
  | cons c text ih =>
    by_cases ends : isLineEnd c
    · exact .inl ⟨[], c, text, rfl, by simp, ends, by simp [skip, ends]⟩
    · rcases ih (offset + c.utf8Size) with ⟨content, d, rest, rfl, line, last, read⟩ | ⟨line, read⟩
      · refine .inl ⟨c :: content, d, rest, rfl, by simpa [ends] using line, last, ?_⟩
        simpa [skip, ends, Nat.add_assoc] using read
      · refine .inr ⟨by simpa [ends] using line, ?_⟩
        simpa [skip, ends, Nat.add_assoc] using read

/-- A gap that is stepped over, and the place after it. -/
structure Skipped (start : Nat) (text gap : List Char) (place : Cursor) : Prop where
  split : text = gap ++ place.rest
  moved : place.offset = start + Text.width gap
  stands : Stands place.rest
  between : IsGap gap ∨ place.rest = [] ∧ IsLastGap gap

theorem Skipped.after_blank (blank : isBlank c) (later : Skipped (start + 1) text gap place) :
    Skipped start (c :: text) (c :: gap) place := by
  refine ⟨congrArg (c :: ·) later.split, ?_, later.stands, ?_⟩
  · rw [later.moved, Text.width_cons, utf8Size_of_isBlank blank, Nat.add_assoc]
  · rcases later.between with isGap | ⟨ended, isGap | ⟨isGap, opens, line⟩⟩
    · exact .inl (.blank blank isGap)
    · exact .inr ⟨ended, .gap (.blank blank isGap)⟩
    · exact .inr ⟨ended, .comment (.blank blank isGap) opens line⟩

theorem Skipped.after_comment (opens : OpensComment front) (line : ∀ d ∈ content, ¬ isLineEnd d)
    (ends : isLineEnd c)
    (later : Skipped (start + Text.width (front ++ (content ++ [c]))) text gap place) :
    Skipped start (front ++ (content ++ c :: text)) (front ++ (content ++ c :: gap)) place := by
  refine ⟨by simp [← later.split], ?_, later.stands, ?_⟩
  · rw [later.moved]
    simp [Nat.add_assoc]
  · rcases later.between with isGap | ⟨ended, isGap | ⟨isGap, opens', line'⟩⟩
    · exact .inl (.comment opens line ends isGap)
    · exact .inr ⟨ended, .gap (.comment opens line ends isGap)⟩
    · refine .inr ⟨ended, ?_⟩
      have last := IsLastGap.comment (.comment opens line ends isGap) opens' line'
      simpa using last

/-- The text after the beginning of a comment is stepped over up to the end of the line, and then as
any other text. -/
theorem skipped_comment (opens : OpensComment front) (start : Nat) (text : List Char)
    (read : skip false start (front ++ text) = skip true (start + Text.width front) text)
    (later : ∀ start rest, rest.length < text.length →
      ∃ gap, Skipped start rest gap (skip false start rest)) :
    ∃ gap, Skipped start (front ++ text) gap (skip false start (front ++ text)) := by
  rw [read]
  rcases skip_comment (start + Text.width front) text with
    ⟨content, c, rest, rfl, line, ends, read⟩ | ⟨line, read⟩
  · rw [read]
    have shorter : rest.length < (content ++ c :: rest).length := by
      simp only [List.length_append, List.length_cons]
      omega
    rw [Nat.add_assoc, ← Text.width_append]
    obtain ⟨gap, skipped⟩ := later (start + Text.width (front ++ (content ++ [c]))) rest shorter
    exact ⟨_, skipped.after_comment opens line ends⟩
  · rw [read, Nat.add_assoc, ← Text.width_append]
    have last : IsLastGap ([] ++ (front ++ text)) := .comment .empty opens line
    exact ⟨front ++ text, by simp, rfl, trivial, .inr ⟨rfl, last⟩⟩

/-- `skip` steps over a gap, up to a place where none comes next. -/
theorem skip_skipped (start : Nat) (text : List Char) :
    ∃ gap, Skipped start text gap (skip false start text) := by
  induction size : text.length using Nat.strongRecOn generalizing start text with
  | ind size ih =>
    subst size
    cases text with
    | nil => exact ⟨[], rfl, rfl, trivial, .inl .empty⟩
    | cons c text =>
      have later (start : Nat) (rest : List Char) (shorter : rest.length < (c :: text).length) :
          ∃ gap, Skipped start rest gap (skip false start rest) := ih _ shorter start rest rfl
      by_cases blank : isBlank c
      · obtain ⟨gap, skipped⟩ := later (start + 1) text (by simp)
        have read : skip false start (c :: text) = skip false (start + 1) text := by
          simp [skip, blank]
        rw [read]
        exact ⟨_, skipped.after_blank blank⟩
      · by_cases sign : c = '#'
        · subst sign
          refine skipped_comment .sign start text ?_ fun start rest shorter =>
            later start rest (by simp only [List.length_cons]; omega)
          simp [skip, blank]
          rfl
        · by_cases slashes : c = '/' ∧ text.head? = some '/'
          · obtain ⟨rfl, second⟩ := slashes
            obtain ⟨text, rfl⟩ := List.head?_eq_some_iff.mp second
            refine skipped_comment .slashes start text ?_ fun start rest shorter =>
              later start rest (by simp only [List.length_cons]; omega)
            simp [skip, isBlank, isLineEnd, Nat.add_assoc]
            rfl
          · have stands : Stands (c :: text) := ⟨blank, sign, slashes⟩
            rw [skip_of_stands stands]
            exact ⟨[], rfl, rfl, stands, .inl .empty⟩

end ShExCompact.Token
