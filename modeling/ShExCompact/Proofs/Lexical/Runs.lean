import ShExCompact.Proofs.Lexical.Gaps
import ShExCompact.Proofs.Lexical.Lexemes

/-! Runs over a text, token by token. Every token is a front of the text that is left, and what is
kept between two braces stays sound. Main statement: at every opening brace of a run the token is
the one that begins there, whatever was searched before. -/
namespace ShExCompact

namespace Token

/-- What a token leaves behind when it is found at a place. -/
structure Taken (token : Token) (lexeme rest : List Char) (kept : Brace.Delimiter)
    (place : Cursor) : Prop where
  split : place.rest = lexeme ++ rest
  nonempty : lexeme ≠ []
  kept : Brace.Kept kept ⟨place.offset + Text.width lexeme, rest⟩
  alone : ∀ bound, lexeme.length ≤ bound → ∀ start,
    (scan bound .unknown ⟨start, lexeme⟩).1 = .found token lexeme []

theorem begins_alone (begins : Brace.Begins (lexeme ++ rest) (.found token lexeme rest)) :
    Brace.Begins lexeme (.found token lexeme []) := by
  have noFront {whole last : List Char} (none : ¬ whole <+: lexeme ++ last) :
      ¬ whole <+: lexeme ++ [] := by
    rw [List.append_nil]
    exact fun begins => none (begins.trans (List.prefix_append _ _))
  suffices alone : Brace.Begins (lexeme ++ []) (.found token lexeme []) by
    rwa [List.append_nil] at alone
  generalize same : lexeme ++ rest = text at begins
  cases begins with
  | range range => exact .range range
  | code noRange code => exact .code (fun front range => noFront (noRange front range)) code
  | sign noRange noCode =>
    exact .sign (fun front range => noFront (noRange front range))
      fun front code => noFront (noCode front code)

theorem scan_brace (bound : Nat) (kept : Brace.Delimiter) (opens : place.rest = '{' :: rest) :
    scan bound kept place = Brace.scan bound kept place := by
  simp [scan, opens]

theorem scan_plain (bound : Nat) (kept : Brace.Delimiter) (other : c ≠ '{')
    (first : place.rest = c :: rest) : scan bound kept place = (scanPlain c rest, kept) := by
  simp [scan, first, other]

/-- One token: it is found in its own text as well, and what is kept is sound after it. -/
theorem scan_taken (valid : Brace.Kept kept place) (enough : place.rest.length ≤ bound)
    (found : scan bound kept place = (.found token lexeme rest, after)) :
    Taken token lexeme rest after place := by
  obtain ⟨offset, text⟩ := place
  cases text with
  | nil => cases found
  | cons c text =>
    by_cases brace : c = '{'
    · subst brace
      rw [scan_brace bound kept rfl] at found
      obtain ⟨begins, later⟩ := Brace.scan_begins rfl enough valid
      rw [found] at begins later
      obtain ⟨split, more, rfl⟩ := begins.split
      have whole : text = more ++ rest := (List.cons.inj split).2
      subst whole
      refine ⟨split, by simp, ?_, fun bound enough start => ?_⟩
      · have moved := later.later rfl
        rwa [Nat.add_assoc] at moved
      · rw [scan_brace bound .unknown rfl]
        have alone := (Brace.scan_begins rfl enough (Brace.kept_unknown ⟨start, '{' :: more⟩)).1
        exact alone.unique (begins_alone begins)
    · rw [scan_plain bound kept brace rfl] at found
      obtain ⟨plain, rfl⟩ := Prod.mk.inj found
      obtain ⟨inner, rfl, rfl, again⟩ := scanPlain_found plain
      refine ⟨rfl, by simp, valid.later rfl, fun bound _ start => ?_⟩
      rw [scan_plain bound _ brace rfl, again]

end Token

namespace TokenSequence

open Token (scan skip)

/-- The places of a run from an offset at which tokens are looked for, with how many tokens may
still follow and with what is kept. -/
inductive Reached (text : List Char) (offset : Nat) : Nat → Brace.Delimiter → Cursor → Prop where
  | first (cut : Text.cut offset text = .exact front rest) :
      Reached text offset rest.length .unknown (skip false offset rest)
  | next (before : Reached text offset (bound + 1) kept place)
      (found : scan (bound + 1) kept place = (.found token lexeme rest, later)) :
      Reached text offset bound later (skip false (place.offset + Text.width lexeme) rest)

theorem kept_skip (valid : Brace.Kept kept ⟨start, rest⟩) :
    Brace.Kept kept (skip false start rest) ∧
      (skip false start rest).rest.length ≤ rest.length := by
  obtain ⟨gap, skipped⟩ := Token.skip_skipped start rest
  have later := valid.later skipped.split
  have size := congrArg List.length skipped.split
  rw [List.length_append] at size
  refine ⟨?_, by omega⟩
  rwa [← skipped.moved] at later

/-- What is kept is sound at every place of a run, and there are enough tokens left to take. -/
theorem Reached.valid (reached : Reached text offset bound kept place) :
    place.rest.length ≤ bound ∧ Brace.Kept kept place := by
  induction reached with
  | @first front rest cut =>
    have skipped := kept_skip (Brace.kept_unknown ⟨offset, rest⟩)
    exact ⟨skipped.2, skipped.1⟩
  | @next bound kept place token lexeme rest later before found ih =>
    have taken := Token.scan_taken ih.2 ih.1 found
    have skipped := kept_skip taken.kept
    have size := congrArg List.length taken.split
    have positive := List.length_pos_iff.mpr taken.nonempty
    rw [List.length_append] at size
    exact ⟨by omega, skipped.1⟩

theorem read_found
    (found : scan bound kept (skip false start rest) = (.found token lexeme last, later)) :
    read (bound + 1) kept ⟨start, rest⟩ =
      cons ⟨token, ⟨(skip false start rest).offset, (skip false start rest).offset +
        Text.width lexeme⟩, String.ofList lexeme⟩
        (read bound later ⟨(skip false start rest).offset + Text.width lexeme, last⟩) := by
  have more : (skip false start rest).rest.isEmpty = false := by
    cases empty : (skip false start rest).rest with
    | nil => simp [scan, empty] at found
    | cons => rfl
  rw [read]
  simp [more, found]

/-- The sequence goes on at a place of the run with what is read from there. -/
theorem Reached.sequence (reached : Reached text offset bound kept place) :
    ∃ before start rest, skip false start rest = place ∧
      (ofOffset text offset).2.lexemes =
        before ++ (read (bound + 1) kept ⟨start, rest⟩).lexemes ∧
      (ofOffset text offset).2.problem = (read (bound + 1) kept ⟨start, rest⟩).problem := by
  induction reached with
  | @first front rest cut =>
    exact ⟨[], offset, rest, rfl, by simp [ofOffset, cut], by simp [ofOffset, cut]⟩
  | @next bound kept place token lexeme rest later before found ih =>
    obtain ⟨front, start, text, rfl, tokens, problem⟩ := ih
    rw [tokens, problem, read_found found]
    exact ⟨front ++ [_], _, _, rfl, List.append_cons .., rfl⟩

/-- The tokens of the sequence are those that are found at the places of the run. -/
theorem Reached.lexemes (reached : Reached text offset bound kept place) :
    ∃ before start rest, skip false start rest = place ∧
      (ofOffset text offset).2.lexemes =
        before ++ (read (bound + 1) kept ⟨start, rest⟩).lexemes := by
  obtain ⟨before, start, rest, same, tokens, -⟩ := reached.sequence
  exact ⟨before, start, rest, same, tokens⟩

/-- At every opening brace of a run, the token is the one that begins there: what a fresh reading of
the text that is left gives, the bounds of a cardinality, the one code block or the brace alone. -/
theorem brace_of_reached (reached : Reached text offset bound kept place)
    (opens : place.rest = '{' :: rest) :
    (∀ start, (scan bound kept place).1 =
      (scan place.rest.length .unknown ⟨start, place.rest⟩).1) ∧
    (∀ outcome, (scan bound kept place).1 = outcome ↔ Brace.Begins place.rest outcome) ∧
    ∃ token lexeme last, (scan bound kept place).1 = .found token lexeme last ∧
      ⟨token, ⟨place.offset, place.offset + Text.width lexeme⟩, String.ofList lexeme⟩ ∈
        (ofOffset text offset).2.lexemes := by
  obtain ⟨enough, valid⟩ := reached.valid
  have begins : Brace.Begins place.rest (scan bound kept place).1 := by
    rw [Token.scan_brace bound kept opens]
    exact (Brace.scan_begins opens enough valid).1
  refine ⟨fun start => ?_, fun outcome => ⟨?_, begins.unique⟩, ?_⟩
  · have opens' : (⟨start, place.rest⟩ : Cursor).rest = '{' :: rest := opens
    rw [Token.scan_brace place.rest.length .unknown opens']
    exact begins.unique
      (Brace.scan_begins opens' (Nat.le_refl _) (Brace.kept_unknown ⟨start, place.rest⟩)).1
  · rintro rfl
    exact begins
  · obtain ⟨front, start, last, rfl, whole⟩ := reached.lexemes
    obtain ⟨token, lexeme, tail, found⟩ := begins.found
    refine ⟨token, lexeme, tail, found, ?_⟩
    rw [whole, read_found (Prod.ext found rfl)]
    simp [cons]

/-- At the second brace, what is kept is behind an escape that is still to come. -/
theorem brace_of_reached_escape :
    Reached "\x7b\x7b\\% %x".toList 0 6 (.found ⟨5, ['%', 'x']⟩) ⟨1, "\x7b\\% %x".toList⟩ ∧
      (scan 6 (.found ⟨5, ['%', 'x']⟩) ⟨1, "\x7b\\% %x".toList⟩).1 =
        (scan 6 .unknown ⟨0, "\x7b\\% %x".toList⟩).1 :=
  have first : Reached "\x7b\x7b\\% %x".toList 0 7 .unknown ⟨0, "\x7b\x7b\\% %x".toList⟩ :=
    .first (rfl : Text.cut 0 "\x7b\x7b\\% %x".toList = .exact [] "\x7b\x7b\\% %x".toList)
  have found : scan 7 .unknown ⟨0, "\x7b\x7b\\% %x".toList⟩ =
      (.found (.punct .openBrace) ['{'] "\x7b\\% %x".toList, .found ⟨5, ['%', 'x']⟩) := rfl
  have second : Reached "\x7b\x7b\\% %x".toList 0 6 (.found ⟨5, ['%', 'x']⟩)
      ⟨1, "\x7b\\% %x".toList⟩ := .next first found
  ⟨second, (brace_of_reached second rfl).1 0⟩

end TokenSequence

end ShExCompact
