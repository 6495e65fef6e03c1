import ShExCompact.Proofs.Lexical.Gaps
import ShExCompact.Proofs.Lexical.Lexemes

/-! How much of the text after a token its recognizer depends on. Some recognizers look past the end
of their token, but none past a character that stands between tokens: what is found is found again
if the text goes on in another way from there. One statement for each recognizer. -/
namespace ShExCompact

namespace Token

/-- The first characters of gaps. No token goes on with one of them. -/
def separates (c : Char) : Bool := isBlank c || c = '#' || c = '/'

/-- A text that goes on with no token before it. -/
def Apart (text : List Char) : Prop := ∀ c ∈ text.head?, separates c

theorem separates_cases (apart : separates c) :
    c = ' ' ∨ c = '\t' ∨ c = '\r' ∨ c = '\n' ∨ c = '#' ∨ c = '/' := by
  simpa only [separates, isBlank, Bool.or_eq_true, decide_eq_true_eq, or_assoc] using apart

/-- A property of the six characters that separate tokens. -/
theorem forall_separates {p : Char → Prop}
    (table : p ' ' ∧ p '\t' ∧ p '\r' ∧ p '\n' ∧ p '#' ∧ p '/') : ∀ c, separates c → p c := by
  intro c apart
  obtain ⟨space, tab, carriageReturn, lineFeed, sign, slash⟩ := table
  rcases separates_cases apart with rfl | rfl | rfl | rfl | rfl | rfl <;> assumption

/-- What comes first after a front has every property that separating characters have, whatever
stands behind the front. -/
theorem Apart.head? {p : Char → Prop} {between last other : List Char} (apart : Apart other)
    (outside : ∀ c, separates c → p c) (stop : ∀ c ∈ (between ++ last).head?, p c) :
    ∀ c ∈ (between ++ other).head?, p c := by
  cases between with
  | nil => exact fun c member => outside c (apart c member)
  | cons d between => exact stop

end Token

open Token (Apart)

/-- What is found is found again if the text goes on in another way, from a place on where no token
goes on. The place may be any after the lexeme. -/
def Scan.Stable (read : List Char → Scan α) : Prop :=
  ∀ ⦃text value lexeme between last other⦄, Apart other →
    read text = .found value lexeme (between ++ last) →
    read (lexeme ++ (between ++ other)) = .found value lexeme (between ++ other)

/-- What is found is found again if the text is longer. -/
def Scan.Grows (read : List Char → Scan α) : Prop :=
  ∀ ⦃text value lexeme rest⦄, read text = .found value lexeme rest →
    ∀ more, read (text ++ more) = .found value lexeme (rest ++ more)

/-- A recognizer that knows the end of its lexeme by what it ends with. -/
theorem Scan.SelfContained.stable {read : List Char → Scan α} (alone : Scan.SelfContained read)
    (grows : Scan.Grows read) : Scan.Stable read := by
  intro text value lexeme between last other _ found
  exact grows (alone found).2 (between ++ other)

theorem Scan.after_grows {scan longer : Scan α}
    (found : scan.after front = .found value lexeme rest)
    (ih : ∀ ⦃inner⦄, scan = .found value inner rest → longer = .found value inner rest') :
    longer.after front = .found value lexeme rest' := by
  obtain ⟨inner, read, rfl⟩ := Scan.after_eq_found.mp found
  rw [ih read]
  rfl

/-! ### IRI references and string literals -/

theorem IriRef.body_grows : Scan.Grows body := by
  intro text value lexeme rest found more
  obtain ⟨rfl, pieces, each, whole⟩ := body_eq_found.mp found
  exact body_eq_found.mpr ⟨List.append_assoc .., pieces, each, whole⟩

namespace Quote

theorem short_grows (mark : Char) : Scan.Grows (short mark) := by
  intro text value lexeme rest found more
  fun_induction short mark text generalizing lexeme with
  | case1 | case3 | case5 => cases found
  | case2 rest =>
    cases found
    rw [List.cons_append, short.eq_def]
    exact if_pos rfl
  | case4 d text other ih =>
    have longer : short mark (('\\' :: d :: text) ++ more) =
        (short mark (text ++ more)).after ['\\', d] := by simp [short, other]
    rw [longer]
    exact Scan.after_grows found fun inner read => ih read
  | case6 c text other plain inLine ih =>
    rw [List.cons_append, short_plain other plain inLine]
    exact Scan.after_grows found fun inner read => ih read

/-- A long literal ends with three marks, so three characters are left before its end. -/
theorem length_of_long (found : long mark text = .found value lexeme rest) :
    3 ≤ lexeme.length ∧ text = lexeme ++ rest := by
  refine ⟨?_, (long_selfContained mark found).1⟩
  fun_induction long mark text generalizing lexeme with
  | case1 | case2 => cases found
  | case3 d text ih | case5 c text plain goesOn ih =>
    obtain ⟨inner, read, rfl⟩ := Scan.after_eq_found.mp found
    have enough := ih read
    simp only [List.length_append, List.length_cons]
    omega
  | case4 c text plain closes =>
    cases found
    exact Nat.le_refl 3

theorem long_grows (mark : Char) : Scan.Grows (long mark) := by
  intro text value lexeme rest found more
  fun_induction long mark text generalizing lexeme with
  | case1 | case2 => cases found
  | case3 d text ih =>
    have longer : long mark (('\\' :: d :: text) ++ more) =
        (long mark (text ++ more)).after ['\\', d] := by simp [long]
    rw [longer]
    exact Scan.after_grows found fun inner read => ih read
  | case4 c text plain closes =>
    obtain ⟨same, marks⟩ := (Bool.and_eq_true _ _).mp closes
    obtain rfl : c = mark := of_decide_eq_true same
    obtain ⟨last, rfl⟩ := List.isPrefixOf_iff_prefix.mp marks
    cases found
    simp [long, plain]
  | case5 c text plain goesOn ih =>
    have longer : long mark (c :: (text ++ more)) = (long mark (text ++ more)).after [c] := by
      obtain ⟨inner, read, -⟩ := Scan.after_eq_found.mp found
      obtain ⟨enough, rfl⟩ := length_of_long read
      refine long_plain plain ?_
      simp only [Bool.and_eq_true, not_and, List.isPrefixOf_iff_prefix] at goesOn ⊢
      intro same marks
      have size : [mark, mark].length ≤ (inner ++ rest).length := by
        simp only [List.length_append, List.length_cons, List.length_nil]
        omega
      exact goesOn same (List.prefix_of_prefix_length_le marks (List.prefix_append _ _) size)
    rw [List.cons_append, longer]
    exact Scan.after_grows found fun inner read => ih read

/-- Two marks are an empty literal before what separates tokens, as before anything but a third. -/
theorem scan_again {inner : List Char} (separated : ∀ c, Token.separates c → c ≠ mark)
    (apart : Apart other)
    (found : scan mark text = .found value (mark :: inner) (between ++ last)) :
    scan mark (inner ++ (between ++ other)) = .found value (mark :: inner) (between ++ other) := by
  unfold scan at found ⊢
  split at found
  case isTrue marks =>
    obtain ⟨more, rfl⟩ := List.isPrefixOf_iff_prefix.mp marks
    obtain ⟨whole, mapped, same⟩ := Scan.after_eq_found.mp found
    obtain ⟨_, read, rfl⟩ := Scan.map_eq_found.mp mapped
    obtain rfl : inner = [mark, mark] ++ whole := (List.cons.inj same).2.symm
    have alone := (long_selfContained mark read).2
    have again : long mark (whole ++ (between ++ other)) = .found () whole (between ++ other) :=
      long_grows mark alone _
    have marks' : [mark, mark].isPrefixOf ([mark, mark] ++ whole ++ (between ++ other)) = true := by
      simp
    rw [if_pos marks']
    simp [again, Scan.map, Scan.build, Scan.after]
  case isFalse marks =>
    obtain ⟨whole, mapped, same⟩ := Scan.after_eq_found.mp found
    obtain ⟨_, read, rfl⟩ := Scan.map_eq_found.mp mapped
    obtain rfl : whole = inner := (List.cons.inj same).2
    obtain ⟨rfl, alone⟩ := short_selfContained mark read
    have again : short mark (whole ++ (between ++ other)) = .found () whole (between ++ other) :=
      short_grows mark alone _
    have noMarks : ¬ [mark, mark].isPrefixOf (whole ++ (between ++ other)) = true := by
      cases whole with
      | nil => cases alone
      | cons c whole =>
        cases whole with
        | cons d whole => simpa [List.isPrefixOf] using marks
        | nil =>
          intro marks'
          obtain ⟨rfl, next⟩ := List.cons_prefix_cons.mp (List.isPrefixOf_iff_prefix.mp marks')
          obtain ⟨tail, split⟩ := next
          have stop : ∀ d ∈ (between ++ last).head?, ¬ d = mark := by
            rintro d member rfl
            obtain ⟨more, split⟩ := List.head?_eq_some_iff.mp member
            exact marks (by simp [split])
          have split : mark :: tail = between ++ other := split
          have first : mark ∈ (between ++ other).head? := by
            rw [← split]
            rfl
          exact apart.head? separated stop mark first rfl
    rw [if_neg noMarks, again]
    rfl

end Quote

/-! ### Names -/

namespace Name

theorem localPart_apart (isFirst : Bool) (apart : Apart text) :
    localPart isFirst text = .found [] [] text := by
  cases text with
  | nil => rfl
  | cons c text =>
    have separated := apart c rfl
    have table : ∀ c, Token.separates c → c ≠ '%' ∧ c ≠ '\\' ∧ c ≠ '.' ∧ c ≠ ':' ∧
        ∀ isFirst : Bool, ¬ (if isFirst then isStart c || c.isDigit else isInner c) = true :=
      Token.forall_separates (by decide)
    obtain ⟨percent, backslash, dot, colon, outside⟩ := table c separated
    have outside := outside isFirst
    rw [localPart.eq_def]
    simp_all

theorem localPart_stable (isFirst : Bool) : Scan.Stable (localPart isFirst) := by
  intro text value lexeme between last other apart found
  generalize tail : between ++ last = rest at found
  fun_induction localPart isFirst text generalizing value lexeme between rest with
  | case1 =>
    cases found
    obtain ⟨rfl, -⟩ := List.append_eq_nil_iff.mp tail
    exact localPart_apart _ apart
  | case2 isFirst a b more hex ih =>
    obtain ⟨part, inner, read, rfl, rfl⟩ := Scan.push_eq_found.mp found
    exact (localPart_percent hex _).trans (Scan.push_eq_found.mpr ⟨_, _, ih _ tail read, rfl, rfl⟩)
  | case3 | case4 =>
    unfold percentFault at found
    split at found <;> cases found
  | case5 | case7 | case11 | case12 => cases found
  | case6 isFirst d more escapable other ih =>
    obtain ⟨part, inner, read, rfl, rfl⟩ := Scan.push_eq_found.mp found
    exact (localPart_backslash escapable _).trans
      (Scan.push_eq_found.mpr ⟨_, _, ih _ tail read, rfl, rfl⟩)
  | case8 isFirst c text percent backslash inside ih =>
    obtain ⟨part, inner, read, rfl, rfl⟩ := Scan.push_eq_found.mp found
    exact (localPart_plain percent backslash inside _).trans
      (Scan.push_eq_found.mpr ⟨_, _, ih _ tail read, rfl, rfl⟩)
  | case9 isFirst c text percent backslash outside dot value' lexeme' last' read noMore ih =>
    cases found
    cases between with
    | nil => exact localPart_apart _ apart
    | cons d between =>
      obtain ⟨rfl, rfl⟩ := List.cons.inj tail
      obtain rfl := List.isEmpty_iff.mp noMore
      have again := ih _ (localPart_selfContained false read).1 read
      rw [List.nil_append, List.cons_append, localPart.eq_def]
      dsimp only
      rw [if_neg percent, if_neg backslash, if_neg outside, if_pos dot]
      rw [List.nil_append] at again
      rw [again]
      rfl
  | case10 isFirst c text percent backslash outside dot value' lexeme' last' read more ih =>
    cases found
    obtain ⟨later, isDot⟩ := (Bool.and_eq_true _ _).mp dot
    obtain rfl : c = '.' := of_decide_eq_true isDot
    obtain rfl : isFirst = false := by simpa using later
    exact localPart_dot (ih _ tail read) more
  | case13 isFirst c text percent backslash outside noDot =>
    cases found
    cases between with
    | nil => exact localPart_apart _ apart
    | cons d between =>
      obtain ⟨rfl, rfl⟩ := List.cons.inj tail
      rw [List.nil_append, List.cons_append, localPart.eq_def]
      dsimp only
      rw [if_neg percent, if_neg backslash, if_neg outside, if_neg noDot]

/-- Dots at the end of a run are left out. -/
theorem trimDots_append (text : List Char) (only : ∀ c ∈ dots, c = '.') :
    trimDots (text ++ dots) = trimDots text := by
  have none : trimDots dots = [] := by
    induction dots with
    | nil => rfl
    | cons c dots ih =>
      have later := ih fun d member => only d (List.mem_cons_of_mem c member)
      simp [trimDots, later, only c List.mem_cons_self]
  induction text with
  | nil => exact none
  | cons c text ih => simp [trimDots, ih]

theorem trimDots_split (text : List Char) :
    ∃ dots, (∀ c ∈ dots, c = '.') ∧ text = trimDots text ++ dots := by
  induction text with
  | nil => exact ⟨[], nofun, rfl⟩
  | cons c text ih =>
    obtain ⟨dots, only, split⟩ := ih
    by_cases ends : ((trimDots text).isEmpty && c = '.') = true
    · obtain ⟨empty, dot⟩ := (Bool.and_eq_true _ _).mp ends
      rw [List.isEmpty_iff.mp empty, List.nil_append] at split
      subst split
      refine ⟨c :: text, ?_, by simp [trimDots, ends]⟩
      exact List.forall_mem_cons.mpr ⟨of_decide_eq_true dot, only⟩
    · exact ⟨dots, only, by simp [trimDots, ends, ← split]⟩

theorem stops_apart : ∀ c, Token.separates c → ¬ isInnerOrDot c :=
  Token.forall_separates (by decide)

theorem letterless : ∀ c, Token.separates c → ¬ isLetter c :=
  Token.forall_separates (by decide)

/-- A run ends with the front of a text, or goes on behind it. -/
theorem takeWhile_append_cases (p : α → Bool) (front : List α) :
    (∀ rest, (front ++ rest).takeWhile p = front.takeWhile p ∧
      (front ++ rest).dropWhile p = front.dropWhile p ++ rest ∧ front.dropWhile p ≠ []) ∨
    (∀ c ∈ front, p c) := by
  induction front with
  | nil => exact .inr nofun
  | cons c front ih =>
    by_cases holds : p c
    · rcases ih with ends | inside
      · exact .inl fun rest => by simpa [holds] using ends rest
      · exact .inr (List.forall_mem_cons.mpr ⟨holds, inside⟩)
    · exact .inl fun rest => by simp [holds]

theorem takeWhile_apart (inside : ∀ c ∈ front, isInnerOrDot c) (apart : Apart other) :
    (front ++ other).takeWhile isInnerOrDot = front ∧
      (front ++ other).dropWhile isInnerOrDot = other := by
  have first : (front ++ other).takeWhile isInnerOrDot = front :=
    Brace.takeWhile_front inside fun c member => stops_apart c (apart c member)
  have whole := List.takeWhile_append_dropWhile (p := isInnerOrDot) (l := front ++ other)
  rw [first] at whole
  exact ⟨first, List.append_cancel_left whole⟩

/-- A run without its last dots is found again. -/
theorem trimDots_takeWhile (apart : Apart other)
    (found : trimDots ((front ++ (between ++ last)).takeWhile isInnerOrDot) = front) :
    trimDots ((front ++ (between ++ other)).takeWhile isInnerOrDot) = front := by
  rw [← List.append_assoc] at found ⊢
  rcases takeWhile_append_cases isInnerOrDot (front ++ between) with ends | inside
  · rwa [(ends other).1, ← (ends last).1]
  · rw [(takeWhile_apart inside apart).1]
    rw [List.takeWhile_append_of_pos inside, List.append_assoc] at found
    obtain ⟨dots, only, split⟩ := trimDots_split (front ++ (between ++ last.takeWhile isInnerOrDot))
    rw [found] at split
    have split := List.append_cancel_left split
    have dotted : ∀ c ∈ between, c = '.' := fun c member =>
      only c (split ▸ List.mem_append_left _ member)
    have trimmed := trimDots_trimDots (front ++ (between ++ last.takeWhile isInnerOrDot))
    rw [found] at trimmed
    rw [trimDots_append front dotted, trimmed]

/-- No colon follows a run. -/
def Colonless (text : List Char) : Prop := (run text).2.head? ≠ some ':'

theorem Colonless.again (colonless : Colonless (front ++ last)) (apart : Apart other) :
    Colonless (front ++ other) := by
  have noColon : other.head? ≠ some ':' := fun colon =>
    absurd (apart ':' colon) (by decide)
  unfold Colonless at colonless ⊢
  cases front with
  | nil =>
    cases other with
    | nil => nofun
    | cons c other =>
      have noLetter := letterless c (apart c rfl)
      simpa [run, noLetter] using noColon
  | cons c front =>
    simp only [List.cons_append, run] at colonless ⊢
    split at colonless
    case isFalse noLetter => simpa [noLetter] using colonless
    case isTrue letter =>
      rw [if_pos letter]
      rcases takeWhile_append_cases isInnerOrDot front with ends | inside
      · obtain ⟨-, split, nonempty⟩ := ends last
        rw [(ends other).2.1]
        rw [split] at colonless
        obtain ⟨d, more, same⟩ := List.exists_cons_of_ne_nil nonempty
        rw [same] at colonless ⊢
        exact colonless
      · rw [(takeWhile_apart inside apart).2]
        exact noColon

theorem scan_of_colonless (colonless : Colonless text) :
    scan text = .found (.word (trimDots (run text).1)) (trimDots (run text).1)
      (text.drop (trimDots (run text).1).length) := by
  unfold scan
  split
  case h_1 colon => exact absurd (congrArg List.head? colon) colonless
  case h_2 => rfl

theorem colonless_of_word (found : scan text = .found (.word word) lexeme rest) :
    Colonless text ∧ lexeme = word ∧ word = trimDots (run text).1 := by
  unfold scan at found
  dsimp only at found
  split at found
  case h_1 =>
    split at found
    · cases found
    · obtain ⟨inner, read, -⟩ := Scan.after_eq_found.mp found
      obtain ⟨_, -, impossible⟩ := Scan.map_eq_found.mp read
      cases impossible
  case h_2 noColon =>
    cases found
    refine ⟨fun colon => ?_, rfl, rfl⟩
    obtain ⟨tail, split⟩ := List.head?_eq_some_iff.mp colon
    exact noColon tail split

theorem trimDots_run_cons (letter : isLetter c) (text : List Char) :
    trimDots (run (c :: text)).1 = c :: trimDots (text.takeWhile isInnerOrDot) := by
  have other : c ≠ '.' := by
    rintro rfl
    exact absurd letter (by decide)
  rw [run, if_pos letter]
  exact trimDots_cons other _

/-- A word is found again. -/
theorem trimDots_run (apart : Apart other)
    (found : trimDots (run (front ++ (between ++ last))).1 = front) :
    trimDots (run (front ++ (between ++ other))).1 = front := by
  cases front with
  | cons c front =>
    by_cases letter : isLetter c
    · rw [List.cons_append, trimDots_run_cons letter] at found ⊢
      exact congrArg (c :: ·) (trimDots_takeWhile apart (List.cons.inj found).2)
    · simp [run, letter, trimDots] at found
  | nil =>
    cases between with
    | cons c between =>
      by_cases letter : isLetter c
      · rw [List.nil_append, List.cons_append, trimDots_run_cons letter] at found
        cases found
      · simp [run, letter, trimDots]
    | nil =>
      cases other with
      | nil => rfl
      | cons c other => simp [run, letterless c (apart c rfl), trimDots]

theorem scan_stable : Scan.Stable scan := by
  intro text value lexeme between last other apart found
  cases value with
  | word word =>
    obtain ⟨rfl, -⟩ := scan_selfContained found
    obtain ⟨colonless, rfl, same⟩ := colonless_of_word found
    have colonless' : Colonless (lexeme ++ (between ++ other)) := by
      rw [← List.append_assoc] at colonless ⊢
      exact colonless.again apart
    rw [scan_of_colonless colonless', trimDots_run apart same.symm, List.drop_left]
  | prefixed space localPart =>
    have isRun := isRun_run text
    unfold scan at found
    generalize (run text).1 = front at *
    dsimp only at found
    split at found
    case h_2 => cases found
    case h_1 tail colon =>
      split at found
      case isTrue => cases found
      case isFalse noDot =>
        obtain ⟨inner, read, rfl⟩ := Scan.after_eq_found.mp found
        obtain ⟨_, name, built⟩ := Scan.map_eq_found.mp read
        cases built
        have again := localPart_stable true apart name
        have stop : ∀ c ∈ (':' :: (inner ++ (between ++ other))).head?, ¬ isInnerOrDot c := by
          simp
          decide
        have whole := isRun.again stop
        simp [scan, whole, noDot, again, Scan.map, Scan.build, Scan.after]

/-- A word stays a word. -/
theorem scan_word_again (apart : Apart other)
    (found : scan (front ++ last) = .found (.word word) lexeme rest) :
    ∃ word' lexeme' rest', scan (front ++ other) = .found (.word word') lexeme' rest' :=
  ⟨_, _, _, scan_of_colonless ((colonless_of_word found).1.again apart)⟩

theorem blankNode_stable : Scan.Stable blankNode := by
  intro text value lexeme between last other apart found
  obtain ⟨split, -⟩ := blankNode_selfContained found
  unfold blankNode at found
  split at found
  case h_2 => cases found
  case h_1 label =>
    split at found
    case h_1 => cases found
    case h_2 c more =>
      split at found
      case isFalse => cases found
      case isTrue starts =>
        have noDot : c ≠ '.' := by
          rintro rfl
          exact absurd starts (by decide)
        rw [trimDots_cons noDot] at found
        obtain ⟨inner, trimmed⟩ : ∃ inner, trimDots (more.takeWhile isInnerOrDot) = inner :=
          ⟨_, rfl⟩
        simp only [trimmed, Scan.found.injEq] at found
        obtain ⟨rfl, rfl, -⟩ := found
        obtain rfl : more = inner ++ (between ++ last) := by simpa using split
        have again := trimDots_takeWhile apart trimmed
        have cons := trimDots_cons noDot
        simp [blankNode, starts, cons, again]

end Name

/-! ### Numbers -/

namespace Number

/-- The longest front of a class, and what follows it. -/
theorem takeWhile_split (p : α → Bool) (text : List α) :
    ∃ rest, text = text.takeWhile p ++ rest ∧ ∀ c ∈ rest.head?, ¬ p c := by
  refine ⟨text.dropWhile p, List.takeWhile_append_dropWhile.symm, fun c member => ?_⟩
  have other := List.head?_dropWhile_not p text
  rw [member] at other
  simpa using other

namespace Mantissa

/-- A character that goes on neither with the digits before it nor with the point. -/
def Ends (mantissa : Mantissa) (c : Char) : Prop :=
  ¬ c.isDigit ∧ (mantissa.point = [] → c ≠ '.')

theorem ends_of_separates (mantissa : Mantissa) : ∀ c, Token.separates c → mantissa.Ends c := by
  have table : ∀ c, Token.separates c → ¬ c.isDigit ∧ c ≠ '.' :=
    Token.forall_separates (by decide)
  exact fun c separated => ⟨(table c separated).1, fun _ => (table c separated).2⟩

/-- A mantissa is as long as can be. -/
theorem ofText_ends (source : List Char) :
    ∃ rest, source = (ofText source).text ++ rest ∧ ∀ c ∈ rest.head?, (ofText source).Ends c := by
  obtain ⟨unsigned, split⟩ := sign_front source
  simp only [ofText]
  generalize Number.sign source = sign at *
  subst split
  obtain ⟨after, split, stop⟩ := takeWhile_split Char.isDigit unsigned
  have whole : digits unsigned = unsigned.takeWhile Char.isDigit := rfl
  rw [List.drop_left, whole]
  generalize unsigned.takeWhile Char.isDigit = whole at *
  subst split
  rw [← List.append_assoc, List.drop_left]
  cases after with
  | nil =>
    refine ⟨[], by simp [text, integerText], ?_⟩
    intro c member
    cases member
  | cons c tail =>
    have noDigit := stop c rfl
    by_cases dot : c = '.'
    · subst dot
      obtain ⟨rest, split, stop'⟩ := takeWhile_split Char.isDigit tail
      refine ⟨rest, ?_, fun c member => ⟨stop' c member, by simp⟩⟩
      have fraction : digits tail = tail.takeWhile Char.isDigit := rfl
      simpa [text, integerText, fraction] using split
    · refine ⟨c :: tail, by simp [text, integerText, dot], ?_⟩
      simpa [Ends, dot] using noDigit

/-- A mantissa with digits is read again before what ends it. -/
theorem Valid.again {mantissa : Mantissa} (valid : mantissa.Valid)
    (some : mantissa.whole ≠ [] ∨ mantissa.fraction ≠ [])
    (ends : ∀ c ∈ rest.head?, mantissa.Ends c) :
    Mantissa.ofText (mantissa.text ++ rest) = mantissa := by
  obtain ⟨sign, whole, point, fraction⟩ := mantissa
  obtain ⟨signs, wholes, fractions⟩ := valid
  dsimp only [Ends] at *
  have tail : ∀ c ∈ (point ++ (fraction ++ rest)).head?, ¬ c.isDigit := by
    rcases fractions with ⟨rfl, rfl⟩ | ⟨rfl, -⟩
    · exact fun c member => (ends c member).1
    · simp
  have unsigned : ∀ c ∈ (whole ++ (point ++ (fraction ++ rest))).head?, ¬ isSign c := by
    cases whole with
    | cons c whole => simpa using isSign_of_isDigit (wholes c List.mem_cons_self)
    | nil =>
      have nonempty : fraction ≠ [] := by simpa using some
      rcases fractions with ⟨-, rfl⟩ | ⟨rfl, -⟩
      · exact absurd rfl nonempty
      · simp
        decide
  have first := sign_append signs unsigned
  have second : digits (whole ++ (point ++ (fraction ++ rest))) = whole :=
    Brace.takeWhile_front wholes tail
  simp only [Mantissa.ofText, text, integerText, List.append_assoc, first, List.drop_left, second]
  rw [← List.append_assoc sign, List.drop_left]
  rcases fractions with ⟨rfl, rfl⟩ | ⟨rfl, fractions⟩
  · cases rest with
    | nil => rfl
    | cons c rest => simp [(ends c rfl).2 rfl]
  · have third : digits (fraction ++ rest) = fraction :=
      Brace.takeWhile_front fractions fun c member => (ends c member).1
    simp [third]

end Mantissa

theorem exponent?_eq_none_iff : exponent? text = none ↔
    ∀ c ∈ text.head?, ¬ (c = 'e' || c = 'E') = true := by
  cases text with
  | nil => simp [exponent?]
  | cons c text => simp [exponent?]

theorem exponent?_apart {between last other : List Char} (apart : Apart other)
    (none : exponent? (between ++ last) = none) : exponent? (between ++ other) = .none := by
  rw [exponent?_eq_none_iff] at none ⊢
  exact apart.head? (Token.forall_separates (by decide)) none

/-- An exponent with digits is read again. -/
theorem exponent?_again {between last other : List Char} (apart : Apart other)
    (found : exponent? text = some (mark, power)) (nonempty : power ≠ [])
    (split : text = mark ++ (power ++ (between ++ last))) :
    exponent? (mark ++ (power ++ (between ++ other))) = some (mark, power) := by
  cases text with
  | nil => cases found
  | cons c text =>
    simp only [exponent?] at found
    split at found
    case isFalse => cases found
    case isTrue letter =>
      obtain ⟨after, whole⟩ := sign_front text
      have signs := sign_valid text
      generalize sign text = sign at *
      subst whole
      rw [List.drop_left] at found
      cases found
      have split : after = digits after ++ (between ++ last) := by simpa using split
      obtain ⟨rest, split', stop⟩ := takeWhile_split Char.isDigit after
      have digit : ∀ d ∈ digits after, d.isDigit := fun d member => Brace.mem_takeWhile member
      have same : digits after = after.takeWhile Char.isDigit := rfl
      rw [← same] at split'
      generalize digits after = power at *
      obtain rfl : between ++ last = rest := List.append_cancel_left (split.symm.trans split')
      have stop' : ∀ d ∈ (between ++ other).head?, ¬ d.isDigit :=
        apart.head? (Token.forall_separates (by decide)) stop
      have second : digits (power ++ (between ++ other)) = power :=
        Brace.takeWhile_front digit stop'
      have first : Number.sign (sign ++ (power ++ (between ++ other))) = sign := by
        refine sign_append signs ?_
        obtain ⟨d, power, rfl⟩ := List.exists_cons_of_ne_nil nonempty
        simpa using isSign_of_isDigit (digit d List.mem_cons_self)
      rw [List.cons_append, exponent?, if_pos letter, first, List.drop_left, second]

/-- A mantissa without digits after its point is an integer, and the point is left. -/
theorem scan_integer {mantissa : Mantissa} (valid : mantissa.Valid)
    (empty : mantissa.fraction = []) (nonempty : mantissa.whole ≠ [])
    (ends : ∀ c ∈ rest.head?, mantissa.Ends c) (noExponent : exponent? rest = none) :
    scan (mantissa.integerText ++ (mantissa.point ++ rest)) =
      .found (.integer (String.ofList mantissa.integerText)) mantissa.integerText
        (mantissa.point ++ rest) := by
  have split : mantissa.integerText ++ (mantissa.point ++ rest) = mantissa.text ++ rest := by
    simp [Mantissa.text, empty]
  have same := valid.again (.inl nonempty) ends
  have left : mantissa.text ++ rest = mantissa.integerText ++ (mantissa.point ++ rest) := split.symm
  rw [split, scan, same]
  dsimp only
  rw [List.drop_left, noExponent]
  simp [empty, nonempty, left]

/-- An integer is found again: the text changes behind the point that is left, or before it. -/
theorem scan_integer_again {mantissa : Mantissa} {between last other : List Char}
    (apart : Apart other) (valid : mantissa.Valid) (empty : mantissa.fraction = [])
    (nonempty : mantissa.whole ≠ []) (split : mantissa.point ++ after = between ++ last)
    (ends : ∀ c ∈ after.head?, mantissa.Ends c) (noExponent : exponent? after = none) :
    scan (mantissa.integerText ++ (between ++ other)) =
      .found (.integer (String.ofList mantissa.integerText)) mantissa.integerText
        (between ++ other) := by
  obtain ⟨sign, whole, point, fraction⟩ := mantissa
  dsimp only at empty nonempty split
  rcases valid.fraction with ⟨noPoint, -⟩ | ⟨dot, -⟩
  · obtain rfl : point = [] := noPoint
    obtain rfl : after = between ++ last := split
    exact scan_integer valid empty nonempty (apart.head? (Mantissa.ends_of_separates _) ends)
      (exponent?_apart apart noExponent)
  · obtain rfl : point = ['.'] := dot
    cases between with
    | nil =>
      have plain : Mantissa.Valid ⟨sign, whole, [], []⟩ :=
        ⟨valid.sign, valid.whole, .inl ⟨rfl, rfl⟩⟩
      have stop : ∀ c ∈ other.head?, Mantissa.Ends ⟨sign, whole, [], []⟩ c := fun c member =>
        Mantissa.ends_of_separates _ c (apart c member)
      have absent : exponent? ([] ++ []) = none := rfl
      have read := scan_integer plain rfl nonempty stop (exponent?_apart apart absent)
      simpa only [Mantissa.integerText, List.nil_append] using read
    | cons c between =>
      obtain ⟨rfl, rfl⟩ := List.cons.inj split
      exact scan_integer valid empty nonempty (apart.head? (Mantissa.ends_of_separates _) ends)
        (exponent?_apart apart noExponent)

theorem scan_stable : Scan.Stable scan := by
  intro text value lexeme between last other apart found
  obtain ⟨whole, -, -⟩ := scan_found found
  obtain ⟨valid, -⟩ := Mantissa.ofText_valid text
  obtain ⟨after, split, ends⟩ := Mantissa.ofText_ends text
  unfold scan at found
  generalize Mantissa.ofText text = mantissa at *
  subst split
  simp only [List.drop_left] at found
  split at found
  case h_1 mark power read =>
    split at found
    case isTrue => cases found
    case isFalse nonempty =>
      split at found
      case isTrue => cases found
      case isFalse digits =>
        simp only [Scan.found.injEq] at found
        obtain ⟨rfl, rfl, -⟩ := found
        have nonempty' : power ≠ [] := by simpa using nonempty
        have some : mantissa.whole ≠ [] ∨ mantissa.fraction ≠ [] := by
          simpa [-not_and, Decidable.not_and_iff_not_or_not] using digits
        have split : after = mark ++ (power ++ (between ++ last)) := by simpa using whole
        have again := exponent?_again apart read nonempty' split
        have letter : ∀ c ∈ (mark ++ (power ++ (between ++ other))).head?, mantissa.Ends c := by
          obtain ⟨⟨c, more, letter, rfl⟩, -⟩ := exponent?_found read
          intro d first
          obtain rfl : c = d := Option.some.inj first
          rcases letter with rfl | rfl
          · exact ⟨by decide, fun _ => by decide⟩
          · exact ⟨by decide, fun _ => by decide⟩
        have same := valid.again some letter
        simp [scan, same, again, nonempty, digits]
  case h_2 noExponent =>
    split at found
    case isTrue fraction =>
      simp only [Scan.found.injEq] at found
      obtain ⟨rfl, rfl, -⟩ := found
      obtain rfl : after = between ++ last := List.append_cancel_left whole
      have same := valid.again (.inr (by simpa using fraction))
        (apart.head? mantissa.ends_of_separates ends)
      simp [scan, same, exponent?_apart apart noExponent, fraction]
    case isFalse noFraction =>
      split at found
      case isTrue => cases found
      case isFalse nonempty =>
        simp only [Scan.found.injEq] at found
        obtain ⟨rfl, rfl, -⟩ := found
        have empty : mantissa.fraction = [] := by simpa using noFraction
        have some : mantissa.whole ≠ [] := by simpa using nonempty
        have split : mantissa.point ++ after = between ++ last := by
          simpa [Mantissa.text, empty] using whole
        exact scan_integer_again apart valid empty some split ends noExponent

/-- A number begins in a front of the text, or nowhere. -/
theorem starts_front (apart : Apart other) (nonempty : front ≠ [])
    (begins : starts (front ++ other)) : starts front := by
  have digitless : ∀ c, Token.separates c → c.isDigit = false :=
    Token.forall_separates (by decide)
  have nowhere : other.head?.any Char.isDigit = false := by
    cases other with
    | nil => rfl
    | cons c other => exact digitless c (apart c rfl)
  have unsigned (text : List Char) (digit : startsUnsigned (text ++ other)) :
      startsUnsigned text := by
    rcases text with _ | ⟨c, _ | ⟨d, text⟩⟩
    · cases other with
      | nil => exact digit
      | cons c other =>
        have noDot : ∀ c, Token.separates c → c ≠ '.' := Token.forall_separates (by decide)
        simp [startsUnsigned, digitless c (apart c rfl), noDot c (apart c rfl)] at digit
    · simpa [startsUnsigned, nowhere] using digit
    · exact digit
  cases front with
  | nil => exact absurd rfl nonempty
  | cons c front =>
    have same : sign (c :: front ++ other) = sign (c :: front) := rfl
    rw [starts, same, List.drop_append_of_le_length (sign_front _).length_le] at begins
    exact unsigned _ begins

end Number

/-! ### Signs -/

/-- A word without separating characters that a text begins with stands before the first of them. -/
theorem Token.prefix_front (apart : Apart other) (inside : ∀ c ∈ word, ¬ separates c)
    (begins : word <+: front ++ other) : word <+: front := by
  obtain ⟨rest, split⟩ := begins
  rcases List.append_eq_append_iff.mp split with ⟨more, rfl, -⟩ | ⟨more, rfl, rfl⟩
  · exact List.prefix_append _ _
  · cases more with
    | nil => simp
    | cons c more => exact absurd (apart c rfl) (inside c (by simp))

namespace Punct

theorem text_inside : ∀ sign ∈ double ++ single, ∀ c ∈ sign.text.toList, ¬ Token.separates c := by
  have table : (double ++ single).all fun sign => sign.text.toList.all fun c =>
      !Token.separates c := by
    decide
  simpa only [List.all_eq_true, Bool.not_eq_true', Bool.not_eq_true] using table

/-- A sign that does not begin here does not begin here either if the text changes later. -/
theorem absent_apart (apart : Apart other) (member : sign ∈ double ++ single)
    (absent : ¬ sign.text.toList.isPrefixOf (front ++ last)) :
    ¬ sign.text.toList.isPrefixOf (front ++ other) := by
  simp only [List.isPrefixOf_iff_prefix] at absent ⊢
  intro begins
  have inFront := Token.prefix_front apart (text_inside sign member) begins
  exact absent (inFront.trans (List.prefix_append _ _))

theorem read?_again (apart : Apart other) (read : read? (front ++ last) = some sign)
    (begins : sign.text.toList <+: front) : read? (front ++ other) = some sign := by
  obtain ⟨-, before, after, split, none⟩ := List.find?_eq_some_iff_append.mp read
  refine List.find?_eq_some_iff_append.mpr ⟨?_, before, after, split, fun earlier member => ?_⟩
  · exact List.isPrefixOf_iff_prefix.mpr (begins.trans (List.prefix_append _ _))
  · have absent : ¬ earlier.text.toList.isPrefixOf (front ++ last) := by
      simpa only [Bool.not_eq_true', Bool.not_eq_true] using none earlier member
    have listed : earlier ∈ double ++ single := split ▸ List.mem_append_left _ member
    simpa only [Bool.not_eq_true', Bool.not_eq_true] using absent_apart apart listed absent

theorem read?_none_again (apart : Apart other) (none : read? (front ++ last) = none) :
    read? (front ++ other) = .none := by
  rw [read?, List.find?_eq_none] at none ⊢
  exact fun sign member => absent_apart apart member (none sign member)

end Punct

/-! ### Tokens -/

namespace Token

theorem subtags_stable {between last other : List Char} (apart : Apart other)
    (found : languageTag.subtags inside (tag ++ (between ++ last)) = tag) :
    languageTag.subtags inside (tag ++ (between ++ other)) = tag := by
  have table : ∀ c, separates c → c.isAlphanum = false ∧ c ≠ '-' := forall_separates (by decide)
  have next (between : List Char) (alphanum : (between ++ other).head?.any Char.isAlphanum) :
      (between ++ last).head?.any Char.isAlphanum := by
    cases between with
    | cons d between => exact alphanum
    | nil =>
      cases other with
      | nil => cases alphanum
      | cons d other => simp [(table d (apart d rfl)).1] at alphanum
  induction tag generalizing inside with
  | nil =>
    cases between with
    | nil =>
      cases other with
      | nil => rfl
      | cons c other =>
        obtain ⟨noAlphanum, noHyphen⟩ := table c (apart c rfl)
        simp [languageTag.subtags, noAlphanum, noHyphen]
    | cons c between =>
      simp only [List.nil_append, List.cons_append, languageTag.subtags] at found ⊢
      split at found
      case isTrue => cases found
      case isFalse ends =>
        refine if_neg fun goesOn => ends ?_
        simp only [Bool.or_eq_true, Bool.and_eq_true] at goesOn ⊢
        exact goesOn.imp_right fun hyphen => ⟨hyphen.1, next between hyphen.2⟩
  | cons c tag ih =>
    simp only [List.cons_append, languageTag.subtags] at found ⊢
    split at found
    case isFalse => cases found
    case isTrue goesOn =>
      have later := (List.cons.inj found).2
      rw [if_pos, ih later]
      simp only [Bool.or_eq_true, Bool.and_eq_true] at goesOn ⊢
      refine goesOn.imp_right fun hyphen => ⟨hyphen.1, ?_⟩
      cases tag with
      | cons d tag => exact hyphen.2
      | nil =>
        -- After a hyphen the tag would go on.
        obtain ⟨d, begins, alphanum⟩ := (Option.any_eq_true ..).mp hyphen.2
        obtain ⟨rest, split⟩ := List.head?_eq_some_iff.mp begins
        rw [split] at later
        simp [languageTag.subtags, alphanum] at later

theorem languageTag_again {between last other : List Char} (apart : Apart other)
    (found : languageTag (tag ++ (between ++ last)) = tag) :
    languageTag (tag ++ (between ++ other)) = tag := by
  obtain ⟨rest, split, stop⟩ :=
    Number.takeWhile_split Char.isAlpha (tag ++ (between ++ last))
  have alpha : ∀ c ∈ (tag ++ (between ++ last)).takeWhile Char.isAlpha, c.isAlpha :=
    fun c member => Brace.mem_takeWhile member
  have letterless : ∀ c, separates c → ¬ c.isAlpha := forall_separates (by decide)
  generalize (tag ++ (between ++ last)).takeWhile Char.isAlpha = letters at *
  rw [split] at found
  cases letters with
  | nil =>
    have none : tag = [] := by
      rw [← found]
      cases rest with
      | nil => rfl
      | cons c rest => simp [languageTag, stop c rfl]
    subst none
    obtain rfl : between ++ last = rest := split
    have stop' : ∀ c ∈ (between ++ other).head?, ¬ c.isAlpha := apart.head? letterless stop
    have empty : (between ++ other).takeWhile Char.isAlpha = [] := by
      rw [← List.nil_append (between ++ other)]
      exact Brace.takeWhile_front (List.forall_mem_nil _) stop'
    simp [languageTag, empty]
  | cons c letters =>
    rw [languageTag_append (List.cons_ne_nil c letters) alpha stop] at found
    generalize inner : languageTag.subtags false rest = subtags at found
    subst found
    obtain rfl : subtags ++ (between ++ last) = rest := by simpa using split
    have stop' : ∀ d ∈ (subtags ++ (between ++ other)).head?, ¬ d.isAlpha := by
      rw [← List.append_assoc] at stop ⊢
      exact apart.head? letterless stop
    rw [List.append_assoc, languageTag_append (List.cons_ne_nil c letters) alpha stop',
      subtags_stable apart inner]

/-- What a text begins after an at sign that is neither a name with a prefix nor a fault. -/
theorem scanAt_word {tag : List Char} (noReference : ¬ (c = '<' || c = '_') = true)
    (found : Name.scan (c :: text) = .found (.word word) lexeme rest)
    (tagged : languageTag (c :: text) = tag) :
    scanAt (c :: text) =
      if tag.isEmpty then .found (.punct .atSign) ['@'] (c :: text)
      else .found (.language (String.ofList tag)) ('@' :: tag)
        ((c :: text).drop tag.length) := by
  rw [scanAt, if_neg noReference, found, ← tagged]

theorem scanAt_apart (apart : Apart text) :
    scanAt text = .found (.punct .atSign) ['@'] text := by
  cases text with
  | nil => rfl
  | cons c text =>
    have table : ∀ c, separates c → ¬ (c = '<' || c = '_') = true ∧ ¬ c.isAlpha ∧ c ≠ ':' :=
      forall_separates (by decide)
    obtain ⟨noReference, noLetter, noColon⟩ := table c (apart c rfl)
    have colonless : Name.Colonless (c :: text) := by
      simpa [Name.Colonless, Name.run, Name.letterless c (apart c rfl)] using noColon
    have tag : languageTag (c :: text) = [] := by simp [languageTag, noLetter]
    exact scanAt_word noReference (Name.scan_of_colonless colonless) tag

/-- The token after which such a text goes on. -/
theorem scanAt_word_found {value : Token} {inner : List Char}
    (found : (if (languageTag text).isEmpty then Scan.found (.punct .atSign) ['@'] text
      else .found (.language (String.ofList (languageTag text))) ('@' :: languageTag text)
        (text.drop (languageTag text).length)) = .found value ('@' :: inner) rest) :
    languageTag text = inner ∧ text = inner ++ rest ∧
      value = if inner.isEmpty then .punct .atSign else .language (String.ofList inner) := by
  split at found
  case isTrue empty =>
    simp only [Scan.found.injEq, List.cons.injEq, true_and] at found
    obtain ⟨rfl, rfl, rfl⟩ := found
    exact ⟨List.isEmpty_iff.mp empty, rfl, rfl⟩
  case isFalse nonempty =>
    simp only [Scan.found.injEq, List.cons.injEq, true_and] at found
    obtain ⟨rfl, rfl, rfl⟩ := found
    have begins := (languageTag_found nonempty).1
    exact ⟨rfl, (List.prefix_iff_eq_append.mp begins).symm, (if_neg nonempty).symm⟩

theorem scanAt_word_again {tag : List Char} (apart : Apart other)
    (noReference : ¬ (c = '<' || c = '_') = true)
    (found : Name.scan (c :: text) = .found (.word word) lexeme rest)
    (tagged : languageTag (c :: text) = tag) (whole : c :: text = tag ++ (between ++ last)) :
    scanAt (tag ++ (between ++ other)) =
      .found (if tag.isEmpty then .punct .atSign else .language (String.ofList tag)) ('@' :: tag)
        (between ++ other) := by
  rw [whole, ← List.append_assoc] at found
  rw [whole] at tagged
  obtain ⟨_, _, _, again⟩ := Name.scan_word_again apart found
  have tagged' := languageTag_again apart tagged
  cases front : tag ++ between with
  | nil =>
    obtain ⟨rfl, rfl⟩ := List.append_eq_nil_iff.mp front
    exact scanAt_apart apart
  | cons d front' =>
    have same : c :: text = d :: (front' ++ last) := by
      rw [whole, ← List.append_assoc, front, List.cons_append]
    obtain ⟨rfl, -⟩ := List.cons.inj same
    rw [front, List.cons_append] at again
    have split : tag ++ (between ++ other) = c :: (front' ++ other) := by
      rw [← List.append_assoc, front, List.cons_append]
    rw [split] at tagged' ⊢
    rw [scanAt_word noReference again tagged', ← split, List.drop_left]
    cases tag with
    | nil => rfl
    | cons => rfl

/-- What begins with an at sign is found again. -/
theorem scanAt_again {inner : List Char} (apart : Apart other)
    (found : scanAt text = .found value ('@' :: inner) (between ++ last)) :
    scanAt (inner ++ (between ++ other)) = .found value ('@' :: inner) (between ++ other) := by
  cases text with
  | nil =>
    simp only [scanAt, Scan.found.injEq] at found
    obtain ⟨rfl, same, empty⟩ := found
    obtain ⟨rfl, -⟩ := List.append_eq_nil_iff.mp empty.symm
    obtain rfl : [] = inner := (List.cons.inj same).2
    exact scanAt_apart apart
  | cons c text =>
    simp only [scanAt] at found
    split at found
    case isTrue reference =>
      simp only [Scan.found.injEq] at found
      obtain ⟨rfl, same, split⟩ := found
      obtain rfl : [] = inner := (List.cons.inj same).2
      cases between with
      | nil => exact scanAt_apart apart
      | cons d between =>
        obtain ⟨rfl, -⟩ := List.cons.inj split
        exact if_pos reference
    case isFalse noReference =>
      split at found
      case h_1 space localPart lexeme tail name =>
        cases found
        have again := Name.scan_stable apart name
        obtain ⟨split, alone⟩ := Name.scan_selfContained name
        cases inner with
        | nil => cases alone
        | cons d inner =>
          obtain ⟨rfl, -⟩ := List.cons.inj split
          rw [List.cons_append] at again ⊢
          rw [scanAt, if_neg noReference, again]
      case h_2 word lexeme rest name =>
        obtain ⟨tagged, whole, rfl⟩ := scanAt_word_found found
        exact scanAt_word_again apart noReference name tagged whole
      case h_3 | h_4 => cases found

theorem scanName_stable (c : Char) : Scan.Stable (scanName c) := by
  intro text value lexeme between last other apart found
  unfold scanName at found
  split at found
  case h_1 name =>
    cases found
    rw [scanName, Name.scan_stable apart name]
  case h_2 word _ _ name =>
    split at found
    case isTrue => cases found
    case isFalse nonempty =>
      split at found
      case h_2 => cases found
      case h_1 keyword known =>
        cases found
        rw [scanName, Name.scan_stable apart name]
        simp only [nonempty, known]
        rfl
  case h_3 | h_4 => cases found

/-- A token that is found after its first character is found again if the text goes on in another
way, from a place behind it on where no token goes on. -/
theorem scanPlain_again {inner : List Char} (apart : Apart other)
    (found : scanPlain c text = .found value (c :: inner) (between ++ last)) :
    scanPlain c (inner ++ (between ++ other)) =
      .found value (c :: inner) (between ++ other) := by
  obtain ⟨inner', same, rfl, -⟩ := scanPlain_found found
  obtain rfl : inner = inner' := (List.cons.inj same).2
  simp only [scanPlain] at found
  split at found
  case isTrue iri =>
    obtain ⟨_, read, rfl⟩ := Scan.build_eq_found.mp found
    obtain ⟨inner, body, split⟩ := Scan.after_eq_found.mp read
    obtain rfl := (List.cons.inj split).2
    have again := IriRef.body_selfContained.stable IriRef.body_grows apart body
    simp [scanPlain, iri, again, Scan.build, Scan.after]
  case isFalse noIri =>
  split at found
  case isTrue blank =>
    obtain ⟨_, read, rfl⟩ := Scan.map_eq_found.mp found
    have again := Name.blankNode_stable apart read
    rw [List.cons_append] at again
    rw [scanPlain, if_neg noIri, if_pos blank, again]
    rfl
  case isFalse noBlank =>
  split at found
  case isTrue quote =>
    obtain ⟨_, read, rfl⟩ := Scan.build_eq_found.mp found
    have other : ∀ d, separates d → d ≠ c := by
      rcases (Bool.or_eq_true _ _).mp quote with double | single
      · cases of_decide_eq_true double
        exact forall_separates (by decide)
      · cases of_decide_eq_true single
        exact forall_separates (by decide)
    rw [scanPlain, if_neg noIri, if_neg noBlank, if_pos quote, Quote.scan_again other apart read]
    rfl
  case isFalse noQuote =>
  split at found
  case isTrue isAt =>
    subst isAt
    rw [scanPlain, if_neg noIri, if_neg noBlank, if_neg noQuote, if_pos rfl,
      scanAt_again apart found]
  case isFalse noAt =>
  split at found
  case isTrue number =>
    have again := Number.scan_stable apart found
    have begins := Number.starts_append (Number.scan_found found).2.2 (between ++ other)
    rw [List.cons_append] at again begins
    rw [scanPlain, if_neg noIri, if_neg noBlank, if_neg noQuote, if_neg noAt, if_pos begins, again]
  case isFalse noNumber =>
  have noNumber' : ¬ Number.starts (c :: (inner ++ (between ++ other))) = true := by
    intro begins
    have front := Number.starts_front apart (List.cons_ne_nil c (inner ++ between))
      (by simpa using begins)
    exact noNumber (by simpa using Number.starts_append front last)
  split at found
  case h_1 sign read =>
    simp only [Scan.found.injEq] at found
    obtain ⟨rfl, spelling, -⟩ := found
    have begins : sign.text.toList <+: c :: (inner ++ between) := by
      rw [spelling]
      exact List.prefix_append (c :: inner) between
    have again : Punct.read? (c :: (inner ++ between) ++ other) = some sign :=
      Punct.read?_again apart (by simpa using read) begins
    rw [List.cons_append, List.append_assoc] at again
    rw [scanPlain, if_neg noIri, if_neg noBlank, if_neg noQuote, if_neg noAt, if_neg noNumber',
      again]
    simp [spelling]
  case h_2 noSign =>
    have absent : Punct.read? (c :: (inner ++ between) ++ other) = none :=
      Punct.read?_none_again apart (by simpa using noSign)
    rw [List.cons_append, List.append_assoc] at absent
    have again := scanName_stable c apart found
    rw [List.cons_append] at again
    rw [scanPlain, if_neg noIri, if_neg noBlank, if_neg noQuote, if_neg noAt, if_neg noNumber',
      absent, again]

end Token

end ShExCompact
