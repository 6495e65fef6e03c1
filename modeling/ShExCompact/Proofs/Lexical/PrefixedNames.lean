import ShExCompact.Proofs.Lexical.Numbers

/-! Prefixed names and language tags are read as far as they go. Their productions are classes of
texts here, stated apart from the scanner. Main statement: a prefixed name is the longest front of
the text that is one, cut at its first colon, with the backslashes of its escapes left out; it is
not found only where a percent sign or a backslash that begins no escape stands behind it, and a
language tag is found only where no prefix stands. -/
namespace ShExCompact.Name

/-! ### Productions -/

/-- `PN_PREFIX ::= PN_CHARS_BASE ((PN_CHARS | '.')* PN_CHARS)?` -/
inductive IsSpace : List Char → Prop where
  | single (letter : isLetter c) : IsSpace [c]
  | more (letter : isLetter c) (inside : ∀ d ∈ middle, isInner d ∨ d = '.')
      (last : isInner d) : IsSpace (c :: (middle ++ [d]))

/-- `PNAME_NS ::= PN_PREFIX? ':'` -/
inductive IsNamespace : List Char → Prop where
  | empty : IsNamespace [':']
  | named (isSpace : IsSpace space) : IsNamespace (space ++ [':'])

/-- A character or an escape of a local name. The first one is `PN_CHARS_U | ':' | [0-9] | PLX`, a
later one `PN_CHARS | ':' | PLX`. -/
inductive IsPiece (isFirst : Bool) : List Char → Prop where
  | colon : IsPiece isFirst [':']
  | plain (inside : (if isFirst then isStart c || c.isDigit else isInner c) = true) :
      IsPiece isFirst [c]
  /-- `PERCENT ::= '%' HEX HEX` -/
  | percent (first : Numeral.isHex a) (second : Numeral.isHex b) : IsPiece isFirst ['%', a, b]
  /-- `PN_LOCAL_ESC`, a backslash before one of some characters -/
  | backslash (escapable : d ∈ Fault.escapable.toList) : IsPiece isFirst ['\\', d]

/-- `PN_LOCAL`, a first piece, then pieces and dots up to a last piece. -/
inductive IsLocal : List Char → Prop where
  | single (first : IsPiece true front) : IsLocal front
  | more (first : IsPiece true front)
      (inside : ∀ piece ∈ middle, IsPiece false piece ∨ piece = ['.'])
      (last : IsPiece false rest) : IsLocal (front ++ (List.flatten middle ++ rest))

/-- `PNAME_NS PN_LOCAL?` -/
inductive IsName : List Char → Prop where
  | space (isNamespace : IsNamespace space) : IsName space
  | whole (isNamespace : IsNamespace space) (isLocal : IsLocal loc) : IsName (space ++ loc)

/-- A text without the backslashes that stand before other characters. -/
def unescape : List Char → List Char
  | '\\' :: d :: rest => d :: unescape rest
  | c :: rest => c :: unescape rest
  | [] => []

/-- A percent sign without two hexadecimal digits after it, or a backslash without a character that
it may escape. -/
inductive Spoiled : List Char → Prop where
  | percent (noHex : ∀ a b more, rest = a :: b :: more → ¬ (Numeral.isHex a ∧ Numeral.isHex b)) :
      Spoiled ('%' :: rest)
  | backslash (none : ∀ d ∈ rest.head?, d ∉ Fault.escapable.toList) : Spoiled ('\\' :: rest)

/-! ### Local names, from the left -/

/-- What may stand behind the colon, or in a local name behind some of its pieces: pieces, and dots
before more of the name. -/
inductive IsTail : Bool → List Char → Prop where
  | nil : IsTail isFirst []
  | piece (piece : IsPiece isFirst front) (tail : IsTail false rest) :
      IsTail isFirst (front ++ rest)
  | dot (tail : IsTail false rest) (more : rest ≠ []) : IsTail false ('.' :: rest)

theorem IsPiece.nonempty (piece : IsPiece isFirst text) : text ≠ [] := by
  cases piece <;> exact List.cons_ne_nil _ _

theorem isTail_false_iff : IsTail false text ↔ text = [] ∨ ∃ middle last,
    (∀ piece ∈ middle, IsPiece false piece ∨ piece = ['.']) ∧ IsPiece false last ∧
      text = List.flatten middle ++ last := by
  constructor
  · intro tail
    generalize later : false = isFirst at tail
    induction tail with
    | nil => exact .inl rfl
    | @piece _ front rest piece tail ih =>
      subst later
      rcases ih rfl with rfl | ⟨middle, last, inside, isLast, rfl⟩
      · exact .inr ⟨[], front, by simp, piece, by simp⟩
      · exact .inr ⟨front :: middle, last, by simpa using ⟨.inl piece, inside⟩, isLast, by simp⟩
    | @dot rest tail more ih =>
      obtain ⟨middle, last, inside, isLast, rfl⟩ := (ih rfl).resolve_left more
      exact .inr ⟨['.'] :: middle, last, by simpa using inside, isLast, by simp⟩
  · rintro (rfl | ⟨middle, last, inside, isLast, rfl⟩)
    · exact .nil
    · induction middle with
      | nil => simpa using IsTail.piece isLast .nil
      | cons piece middle ih =>
        obtain ⟨first, others⟩ := List.forall_mem_cons.mp inside
        have tail := ih others
        rw [List.flatten_cons, List.append_assoc]
        rcases first with isPiece | rfl
        · exact .piece isPiece tail
        · exact .dot tail (by simp [isLast.nonempty])

theorem isTail_iff : IsTail true text ↔ text = [] ∨ IsLocal text := by
  constructor
  · intro tail
    cases tail with
    | nil => exact .inl rfl
    | piece first tail =>
      rcases isTail_false_iff.mp tail with rfl | ⟨middle, last, inside, isLast, rfl⟩
      · exact .inr (by simpa using IsLocal.single first)
      · exact .inr (.more first inside isLast)
  · rintro (rfl | isLocal)
    · exact .nil
    · cases isLocal with
      | single first => simpa using IsTail.piece first .nil
      | more first inside last =>
        exact .piece first (isTail_false_iff.mpr (.inr ⟨_, _, inside, last, rfl⟩))

/-! ### Reading local names -/

/-- Dots and a spoiled escape. Dots are read over only if the name has begun. -/
def Breaks (begun : Prop) (rest : List Char) : Prop :=
  ∃ dots bad, rest = dots ++ bad ∧ (∀ c ∈ dots, c = '.') ∧ (dots = [] ∨ begun) ∧ Spoiled bad

theorem Breaks.mono (breaks : Breaks before rest) (later : before → begun) :
    Breaks begun rest := by
  obtain ⟨dots, bad, split, only, condition, spoiled⟩ := breaks
  exact ⟨dots, bad, split, only, condition.imp_right later, spoiled⟩

theorem breaks_dot (begun : Prop) (read : begun) :
    Breaks begun ('.' :: rest) ↔ Breaks begun rest := by
  constructor
  · rintro ⟨dots, bad, split, only, -, spoiled⟩
    cases dots with
    | nil =>
      obtain rfl := split
      cases spoiled
    | cons d dots =>
      obtain ⟨-, rfl⟩ := List.cons.inj split
      exact ⟨dots, bad, rfl, fun c member => only c (by simp [member]), .inr read, spoiled⟩
  · rintro ⟨dots, bad, rfl, only, -, spoiled⟩
    exact ⟨'.' :: dots, bad, rfl, by simpa using only, .inr read, spoiled⟩

theorem breaks_of_spoiled (spoiled : Spoiled rest) : Breaks begun rest :=
  ⟨[], rest, rfl, by simp, .inl rfl, spoiled⟩

/-- What is read of a local name: the longest front that is one, which is found without its
backslashes unless an escape is spoiled behind it. -/
structure ReadsLocal (isFirst : Bool) (text lexeme rest : List Char)
    (result : Scan (List Char)) : Prop where
  split : text = lexeme ++ rest
  longest : Text.Longest (IsTail isFirst) text lexeme
  outcome : ¬ Breaks (isFirst = true → lexeme ≠ []) rest ∧
      result = .found (unescape lexeme) lexeme rest ∨
    Breaks (isFirst = true → lexeme ≠ []) rest ∧
      ∀ value whole last, result ≠ .found value whole last

/-! #### Pieces -/

/-- Characters that stand for themselves in a local name begin no escape and are no dots. -/
theorem plain_apart {isFirst : Bool}
    (inside : (if isFirst then isStart c || c.isDigit else isInner c) = true) :
    c ≠ '%' ∧ c ≠ '\\' ∧ c ≠ '.' := by
  have apart (other : Char) (first : (isStart other || other.isDigit) = false)
      (later : isInner other = false) : c ≠ other := by
    rintro rfl
    cases isFirst <;> simp_all
  exact ⟨apart '%' (by decide) (by decide), apart '\\' (by decide) (by decide),
    apart '.' (by decide) (by decide)⟩

/-- How long a piece is that begins with a character. -/
def pieceLength (c : Char) : Nat := if c = '%' then 3 else if c = '\\' then 2 else 1

theorem IsPiece.begins (piece : IsPiece isFirst text) :
    ∃ c more, text = c :: more ∧ c ≠ '.' ∧ text.length = pieceLength c := by
  cases piece with
  | colon => exact ⟨':', [], rfl, by decide, rfl⟩
  | plain inside =>
    obtain ⟨noPercent, noBackslash, noDot⟩ := plain_apart inside
    exact ⟨_, [], rfl, noDot, by simp [pieceLength, noPercent, noBackslash]⟩
  | percent => exact ⟨'%', _, rfl, by decide, rfl⟩
  | backslash => exact ⟨'\\', _, rfl, by decide, rfl⟩

/-- A text begins with one piece at most. -/
theorem IsPiece.unique (first : IsPiece isFirst front) (second : IsPiece isFirst other)
    (same : front ++ text = other ++ rest) : front = other ∧ text = rest := by
  obtain ⟨c, more, rfl, -, size⟩ := first.begins
  obtain ⟨d, last, rfl, -, size'⟩ := second.begins
  obtain rfl : c = d := (List.cons.inj same).1
  exact List.append_inj same (size.trans size'.symm)

theorem longest_piece (piece : IsPiece isFirst front)
    (longest : Text.Longest (IsTail false) text lexeme) :
    Text.Longest (IsTail isFirst) (front ++ text) (front ++ lexeme) where
  belongs := .piece piece longest.belongs
  begins := (List.prefix_append_right_inj front).mpr longest.begins
  longest other tail := by
    rintro ⟨last, split⟩
    cases tail with
    | nil => exact Nat.zero_le _
    | piece other tail =>
      rw [List.append_assoc] at split
      obtain ⟨rfl, rfl⟩ := other.unique piece split
      have size := longest.longest _ tail (List.prefix_append _ _)
      rw [List.length_append, List.length_append]
      omega
    | dot =>
      obtain ⟨c, more, rfl, noDot, -⟩ := piece.begins
      exact absurd (List.cons.inj split).1.symm noDot

theorem longest_dot (longest : Text.Longest (IsTail false) text lexeme) :
    Text.Longest (IsTail false) ('.' :: text) (if lexeme = [] then [] else '.' :: lexeme) := by
  refine ⟨?_, ?_, fun other tail begins => ?_⟩
  · split
    next => exact .nil
    next more => exact .dot longest.belongs more
  · split
    next => exact List.nil_prefix
    next => exact List.cons_prefix_cons.mpr ⟨rfl, longest.begins⟩
  · cases tail with
    | nil => exact Nat.zero_le _
    | piece piece =>
      obtain ⟨c, more, rfl, noDot, -⟩ := piece.begins
      exact absurd (List.cons_prefix_cons.mp begins).1 noDot
    | @dot rest tail more =>
      have size := longest.longest _ tail (List.cons_prefix_cons.mp begins).2
      have positive := List.length_pos_iff.mpr more
      split
      next empty =>
        rw [empty, List.length_nil] at size
        omega
      next => simpa using size

/-- Where neither a piece nor a dot stands, nothing is read. -/
theorem longest_nil (noPiece : ∀ front rest, text = front ++ rest → ¬ IsPiece isFirst front)
    (noDot : ∀ rest, isFirst = false → text ≠ '.' :: rest) :
    Text.Longest (IsTail isFirst) text [] where
  belongs := .nil
  begins := List.nil_prefix
  longest other tail := by
    rintro ⟨last, split⟩
    cases tail with
    | nil => exact Nat.le_refl 0
    | piece piece => exact absurd piece (noPiece _ _ (by rw [← split, List.append_assoc]))
    | dot => exact absurd split.symm (noDot _ rfl)

/-! #### Steps -/

theorem ReadsLocal.piece (piece : IsPiece isFirst front)
    (reads : ReadsLocal false text lexeme rest result)
    (value : ∀ rest, unescape (front ++ rest) = part ++ unescape rest) :
    ReadsLocal isFirst (front ++ text) (front ++ lexeme) rest (result.push part front) where
  split := by rw [reads.split, List.append_assoc]
  longest := longest_piece piece reads.longest
  outcome := by
    have begun : isFirst = true → front ++ lexeme ≠ [] := fun _ => by simp [piece.nonempty]
    rcases reads.outcome with ⟨goesOn, rfl⟩ | ⟨breaks, none⟩
    · refine .inl ⟨fun breaks => goesOn (breaks.mono fun _ => nofun), ?_⟩
      rw [value]
      rfl
    · refine .inr ⟨breaks.mono fun _ => begun, fun _ _ _ found => ?_⟩
      obtain ⟨_, _, found, -⟩ := Scan.push_eq_found.mp found
      exact none _ _ _ found

theorem ReadsLocal.spoiled (spoiled : Spoiled text)
    (noPiece : ∀ front rest, text = front ++ rest → ¬ IsPiece isFirst front)
    (none : ∀ value whole last, result ≠ .found value whole last) :
    ReadsLocal isFirst text [] text result where
  split := rfl
  longest := longest_nil noPiece fun rest _ same => by
    subst same
    cases spoiled
  outcome := .inr ⟨breaks_of_spoiled spoiled, none⟩

theorem localPart_dot_eq (text : List Char) : localPart false ('.' :: text) =
    match localPart false text with
    | .found value lexeme tail =>
      if lexeme.isEmpty then .found [] [] ('.' :: text)
      else .found ('.' :: value) ('.' :: lexeme) tail
    | .fault cause lead width => .fault cause ('.' :: lead) width
    | .unfinished => .unfinished := by
  rw [localPart.eq_def]
  dsimp only
  cases localPart false text <;> rfl

theorem unescape_cons (other : c ≠ '\\') (rest : List Char) :
    unescape (c :: rest) = c :: unescape rest := by
  rw [unescape.eq_def]
  split
  next same => exact absurd (List.cons.inj same).1 other
  next same => obtain ⟨rfl, rfl⟩ := List.cons.inj same; rfl
  next same => cases same

/-- A dot is read over with what follows it, or is left with all that follows. -/
theorem ReadsLocal.dot (reads : ReadsLocal false text lexeme rest (localPart false text)) :
    ∃ lexeme' rest',
      ReadsLocal false ('.' :: text) lexeme' rest' (localPart false ('.' :: text)) := by
  have longest := longest_dot reads.longest
  by_cases empty : lexeme = []
  · subst empty
    obtain rfl : text = rest := reads.split
    refine ⟨[], '.' :: text, rfl, longest, ?_⟩
    rw [breaks_dot _ nofun, localPart_dot_eq]
    rcases reads.outcome with ⟨goesOn, found⟩ | ⟨breaks, none⟩
    · exact .inl ⟨goesOn, by rw [found]; rfl⟩
    · refine .inr ⟨breaks, ?_⟩
      cases read : localPart false text with
      | found => exact absurd read (none _ _ _)
      | fault | unfinished => exact nofun
  · rw [if_neg empty] at longest
    refine ⟨'.' :: lexeme, rest, by rw [reads.split]; rfl, longest, ?_⟩
    rw [localPart_dot_eq]
    rcases reads.outcome with ⟨goesOn, found⟩ | ⟨breaks, none⟩
    · refine .inl ⟨fun breaks => goesOn (breaks.mono fun _ => nofun), ?_⟩
      rw [found, unescape_cons (by decide)]
      simp [empty]
    · refine .inr ⟨breaks.mono fun _ => nofun, ?_⟩
      cases read : localPart false text with
      | found => exact absurd read (none _ _ _)
      | fault | unfinished => exact nofun

theorem percentFault_ne_found (rest : List Char) (value whole last : List Char) :
    percentFault rest ≠ .found value whole last := by
  unfold percentFault
  split <;> exact nofun

theorem isHex_ne_backslash (hex : Numeral.isHex c) : c ≠ '\\' := by
  rintro rfl
  exact absurd hex (by decide)

section

variable {text rest : List Char}

theorem IsPiece.of_percent (piece : IsPiece isFirst front) (split : '%' :: text = front ++ rest) :
    ∃ a b more, text = a :: b :: more ∧ Numeral.isHex a ∧ Numeral.isHex b := by
  cases piece with
  | colon | backslash => simp at split
  | plain inside => exact absurd (List.cons.inj split).1.symm (plain_apart inside).1
  | percent first second => exact ⟨_, _, _, (List.cons.inj split).2, first, second⟩

theorem IsPiece.of_backslash (piece : IsPiece isFirst front)
    (split : '\\' :: text = front ++ rest) : ∃ d ∈ text.head?, d ∈ Fault.escapable.toList := by
  cases piece with
  | colon | percent => simp at split
  | plain inside => exact absurd (List.cons.inj split).1.symm (plain_apart inside).2.1
  | backslash escapable =>
    obtain rfl := (List.cons.inj split).2
    exact ⟨_, rfl, escapable⟩

theorem IsPiece.of_other (piece : IsPiece isFirst front) (split : c :: text = front ++ rest)
    (noPercent : c ≠ '%') (noBackslash : c ≠ '\\') :
    (c = ':' || if isFirst then isStart c || c.isDigit else isInner c) = true := by
  cases piece with
  | colon => simp [(List.cons.inj split).1]
  | plain inside =>
    obtain rfl := (List.cons.inj split).1
    simp [inside]
  | percent => exact absurd (List.cons.inj split).1 noPercent
  | backslash => exact absurd (List.cons.inj split).1 noBackslash

end

/-- What the scanner reads of a local name is the longest front that is one. -/
theorem reads_localPart (isFirst : Bool) (text : List Char) :
    ∃ lexeme rest, ReadsLocal isFirst text lexeme rest (localPart isFirst text) := by
  induction isFirst, text using localPart.induct with
  | case1 isFirst =>
    refine ⟨[], [], rfl, longest_nil (fun front rest split piece => ?_) ?_, .inl ⟨?_, rfl⟩⟩
    · exact piece.nonempty (List.append_eq_nil_iff.mp split.symm).1
    · rintro rest _ ⟨⟩
    · rintro ⟨dots, bad, split, -, -, spoiled⟩
      obtain ⟨rfl, rfl⟩ := List.append_eq_nil_iff.mp split.symm
      cases spoiled
  | case2 isFirst a b more hex ih =>
    obtain ⟨lexeme, rest, reads⟩ := ih
    obtain ⟨first, second⟩ := (Bool.and_eq_true _ _).mp hex
    rw [localPart_percent hex]
    refine ⟨_, _, reads.piece (.percent first second) fun rest => ?_⟩
    simp [unescape_cons, isHex_ne_backslash first, isHex_ne_backslash second]
  | case3 isFirst a b more noHex =>
    have spoiled : Spoiled ('%' :: a :: b :: more) := .percent fun _ _ _ split => by
      cases split
      simpa using noHex
    refine ⟨_, _, .spoiled spoiled (fun front rest split piece => ?_) ?_⟩
    · obtain ⟨_, _, _, same, hex⟩ := piece.of_percent split
      cases same
      simp [hex] at noHex
    · rw [localPart.eq_def]
      simpa [noHex] using percentFault_ne_found _
  | case4 isFirst rest short =>
    have spoiled : Spoiled ('%' :: rest) :=
      .percent fun a b more split => (short a b more split).elim
    refine ⟨_, _, .spoiled spoiled (fun front rest split piece => ?_) ?_⟩
    · obtain ⟨a, b, more, same, -⟩ := piece.of_percent split
      exact short a b more same
    · rw [localPart.eq_def]
      dsimp only
      rw [if_pos rfl]
      split
      next a b more => exact (short a b more rfl).elim
      next => exact percentFault_ne_found rest
  | case5 isFirst =>
    have spoiled : Spoiled ['\\'] := .backslash (by simp)
    refine ⟨_, _, .spoiled spoiled (fun front rest split piece => ?_) ?_⟩
    · obtain ⟨d, first, -⟩ := piece.of_backslash split
      cases first
    · rw [localPart.eq_def]
      rintro _ _ _ ⟨⟩
  | case6 isFirst d more escapable _ ih =>
    obtain ⟨lexeme, rest, reads⟩ := ih
    rw [localPart_backslash escapable]
    exact ⟨_, _, reads.piece (.backslash (by simpa using escapable)) fun rest => rfl⟩
  | case7 isFirst d more other _ =>
    have spoiled : Spoiled ('\\' :: d :: more) := .backslash (by simpa using other)
    refine ⟨_, _, .spoiled spoiled (fun front rest split piece => ?_) ?_⟩
    · obtain ⟨d, first, escapable⟩ := piece.of_backslash split
      cases first
      exact other (by simpa using escapable)
    · rw [localPart.eq_def]
      dsimp only
      rw [if_neg (by decide), if_pos rfl, if_neg other]
      rintro _ _ _ ⟨⟩
  | case8 isFirst c more noPercent noBackslash inside ih =>
    obtain ⟨lexeme, rest, reads⟩ := ih
    rw [localPart_plain noPercent noBackslash inside]
    have piece : IsPiece isFirst [c] := by
      by_cases colon : c = ':'
      · exact colon ▸ .colon
      · exact .plain (by simpa [colon] using inside)
    exact ⟨_, _, reads.piece piece (unescape_cons noBackslash)⟩
  | case9 isFirst c more _ _ _ dot _ _ _ _ _ ih | case10 isFirst c more _ _ _ dot _ _ _ _ _ ih
  | case11 isFirst c more _ _ _ dot _ _ _ _ ih | case12 isFirst c more _ _ _ dot _ ih =>
    obtain ⟨later, isDot⟩ := (Bool.and_eq_true _ _).mp dot
    obtain rfl : c = '.' := of_decide_eq_true isDot
    obtain rfl : isFirst = false := by simpa using later
    obtain ⟨lexeme, rest, reads⟩ := ih
    exact reads.dot
  | case13 isFirst c rest noPercent noBackslash outside noDot =>
    have unread : localPart isFirst (c :: rest) = .found [] [] (c :: rest) := by
      rw [localPart.eq_def]
      simp only [if_neg noPercent, if_neg noBackslash, if_neg outside, if_neg noDot]
    refine
      ⟨[], c :: rest, rfl, longest_nil (fun front rest split piece => ?_) ?_, .inl ⟨?_, unread⟩⟩
    · exact outside (piece.of_other split noPercent noBackslash)
    · rintro rest rfl same
      cases same
      exact noDot rfl
    · rintro ⟨dots, bad, split, only, begun, spoiled⟩
      cases dots with
      | nil =>
        obtain rfl := split
        cases spoiled with
        | percent => exact noPercent rfl
        | backslash => exact noBackslash rfl
      | cons d dots =>
        obtain ⟨rfl, -⟩ := List.cons.inj split
        obtain rfl : c = '.' := only c (by simp)
        have later : isFirst = false := by simpa using begun
        subst later
        exact noDot rfl

/-! ### Prefixes -/

theorem IsRun.colonless (isRun : IsRun text) : ':' ∉ text := by
  cases isRun with
  | empty => simp
  | letter starts inside =>
    rw [List.mem_cons, not_or]
    refine ⟨?_, fun member => absurd (inside ':' member) (by decide)⟩
    rintro rfl
    exact absurd starts (by decide)

/-- A namespace is a run that does not end with a dot, and a colon. -/
theorem isNamespace_iff : IsNamespace text ↔
    ∃ front, IsRun front ∧ front.getLast? ≠ some '.' ∧ text = front ++ [':'] := by
  constructor
  · intro isNamespace
    cases isNamespace with
    | empty => exact ⟨[], .empty, by simp, rfl⟩
    | named isSpace =>
      cases isSpace with
      | single letter =>
        refine ⟨_, .letter letter (by simp), ?_, rfl⟩
        rintro same
        cases same
        exact absurd letter (by decide)
      | @more c middle d letter inside last =>
        refine ⟨_, .letter letter fun e member => ?_, ?_, rfl⟩
        · rcases List.mem_append.mp member with early | late
          · simpa [isInnerOrDot] using inside e early
          · obtain rfl := List.mem_singleton.mp late
            simp [isInnerOrDot, last]
        · rw [← List.cons_append, List.getLast?_concat]
          rintro same
          cases same
          exact absurd last (by decide)
  · rintro ⟨front, isRun, noDot, rfl⟩
    cases isRun with
    | empty => exact .empty
    | @letter c more starts inside =>
      rcases List.eq_nil_or_concat more with rfl | ⟨middle, d, rfl⟩
      · exact .named (.single starts)
      · rw [List.concat_eq_append] at inside noDot ⊢
        rw [← List.cons_append, List.getLast?_concat] at noDot
        have last : isInner d := by
          have either : isInner d ∨ d = '.' := by simpa [isInnerOrDot] using inside d (by simp)
          exact either.resolve_right fun dot => noDot (congrArg some dot)
        refine .named (.more starts (fun e member => ?_) last)
        simpa [isInnerOrDot] using inside e (by simp [member])

/-- The namespace in front of a text is the run that is read, with its colon. -/
theorem IsNamespace.run (isNamespace : IsNamespace space) : ∃ front, space = front ++ [':'] ∧
    ':' ∉ front ∧ front.getLast? ≠ some '.' ∧
      ∀ rest, Name.run (space ++ rest) = (front, ':' :: rest) := by
  obtain ⟨front, isRun, noDot, rfl⟩ := isNamespace_iff.mp isNamespace
  refine ⟨front, rfl, isRun.colonless, noDot, fun rest => ?_⟩
  rw [List.append_assoc]
  exact isRun.again (by simp; decide)

theorem IsNamespace.head (isNamespace : IsNamespace space) :
    ∃ c more, space = c :: more ∧ (isLetter c ∨ c = ':') := by
  cases isNamespace with
  | empty => exact ⟨':', [], rfl, .inr rfl⟩
  | named isSpace =>
    cases isSpace with
    | single letter | more letter => exact ⟨_, _, rfl, .inl letter⟩

/-- A text begins with one namespace at most. -/
theorem IsNamespace.unique (first : IsNamespace space) (second : IsNamespace other)
    (same : space ++ text = other ++ rest) : space = other ∧ text = rest := by
  obtain ⟨front, rfl, -, -, read⟩ := first.run
  obtain ⟨front', rfl, -, -, read'⟩ := second.run
  have whole := (read text).symm.trans (same ▸ read' rest)
  cases whole
  exact ⟨rfl, rfl⟩

theorem isNamespace_append_iff (isNamespace : IsNamespace space) :
    IsNamespace (space ++ loc) ↔ loc = [] := by
  constructor
  · intro whole
    have same : space ++ loc = (space ++ loc) ++ [] := (List.append_nil _).symm
    exact (isNamespace.unique whole same).2
  · rintro rfl
    rwa [List.append_nil]

/-- A name is a namespace and what may stand behind it. -/
theorem isName_iff : IsName text ↔
    ∃ space loc, IsNamespace space ∧ IsTail true loc ∧ text = space ++ loc := by
  constructor
  · intro isName
    cases isName with
    | space isNamespace => exact ⟨_, [], isNamespace, .nil, by simp⟩
    | whole isNamespace isLocal => exact ⟨_, _, isNamespace, isTail_iff.mpr (.inr isLocal), rfl⟩
  · rintro ⟨space, loc, isNamespace, tail, rfl⟩
    rcases isTail_iff.mp tail with rfl | isLocal
    · simpa using IsName.space isNamespace
    · exact .whole isNamespace isLocal

/-! ### Reading names -/

/-- The parts of a name: the text before its first colon, and the text after it without the
backslashes of its escapes. -/
def Parts (name space loc : List Char) : Prop :=
  ∃ raw, name = space ++ ':' :: raw ∧ ':' ∉ space ∧ loc = unescape raw

/-- What is read where a text begins with a namespace. -/
theorem reads_scan (isNamespace : IsNamespace space) (text : List Char) :
    ∃ name rest, space ++ text = name ++ rest ∧ Text.Longest IsName (space ++ text) name ∧
      (¬ Breaks (¬ IsNamespace name) rest ∧ (∃ front loc, Parts name front loc ∧
          scan (space ++ text) = .found (.prefixed front loc) name rest) ∨
        Breaks (¬ IsNamespace name) rest ∧
          ∀ value whole last, scan (space ++ text) ≠ .found value whole last) := by
  obtain ⟨front, split, colonless, noDot, run⟩ := isNamespace.run
  obtain ⟨loc, rest, reads⟩ := reads_localPart true text
  have read : scan (space ++ text) =
      ((localPart true text).map (Shape.prefixed front)).after space := by
    simp only [scan, run text, if_neg noDot, ← split]
  refine ⟨space ++ loc, rest, by rw [reads.split, List.append_assoc], ⟨?_, ?_, ?_⟩, ?_⟩
  · exact isName_iff.mpr ⟨_, _, isNamespace, reads.longest.belongs, rfl⟩
  · exact (List.prefix_append_right_inj space).mpr reads.longest.begins
  · rintro other isName ⟨last, whole⟩
    obtain ⟨space', loc', isNamespace', tail, rfl⟩ := isName_iff.mp isName
    rw [List.append_assoc] at whole
    obtain ⟨rfl, rfl⟩ := isNamespace'.unique isNamespace whole
    have size := reads.longest.longest _ tail (List.prefix_append _ _)
    rw [List.length_append, List.length_append]
    omega
  · have begun : (true = true → loc ≠ []) = ¬ IsNamespace (space ++ loc) := by
      simp [isNamespace_append_iff isNamespace]
    rw [← begun, read]
    rcases reads.outcome with ⟨goesOn, found⟩ | ⟨breaks, none⟩
    · refine .inl ⟨goesOn, front, unescape loc, ⟨loc, by simp [split], colonless, rfl⟩, ?_⟩
      rw [found]
      rfl
    · refine .inr ⟨breaks, fun _ _ _ found => ?_⟩
      obtain ⟨_, mapped, -⟩ := Scan.after_eq_found.mp found
      obtain ⟨_, inner, -⟩ := Scan.map_eq_found.mp mapped
      exact none _ _ _ inner

/-- A prefixed name is found only behind a namespace. -/
theorem namespace_of_prefixed (found : scan text = .found (.prefixed front loc) lexeme rest) :
    ∃ space last, IsNamespace space ∧ text = space ++ last := by
  have isRun := isRun_run text
  have split := run_split text
  unfold scan at found
  dsimp only at found
  split at found
  case h_2 => cases found
  case h_1 last colon =>
    split at found
    case isTrue => cases found
    case isFalse noDot =>
      exact ⟨_, last, isNamespace_iff.mpr ⟨_, isRun, noDot, rfl⟩, by simpa [colon] using split⟩

end ShExCompact.Name

namespace ShExCompact.Token

/-! ### Language tags -/

/-- `('-' [a-zA-Z0-9]+)*` -/
def subtagsText (subtags : List (List Char)) : List Char := subtags.flatMap ('-' :: ·)

def AreSubtags (subtags : List (List Char)) : Prop :=
  ∀ subtag ∈ subtags, subtag ≠ [] ∧ ∀ c ∈ subtag, Char.isAlphanum c

/-- `LANGTAG ::= '@' [a-zA-Z]+ ('-' [a-zA-Z0-9]+)*`, without the at sign. -/
inductive IsLanguageTag : List Char → Prop where
  | intro (nonempty : primary ≠ []) (letters : ∀ c ∈ primary, Char.isAlpha c)
      (others : AreSubtags subtags) : IsLanguageTag (primary ++ subtagsText subtags)

/-- What may stand behind the first letters of a language tag, or inside of a subtag. -/
inductive IsInTag : Bool → List Char → Prop where
  | start (others : AreSubtags subtags) : IsInTag false (subtagsText subtags)
  | within (all : ∀ c ∈ front, Char.isAlphanum c) (others : AreSubtags subtags) :
      IsInTag true (front ++ subtagsText subtags)

theorem IsInTag.of_subtags (others : AreSubtags subtags) : IsInTag begun (subtagsText subtags) := by
  have nothing : ∀ c ∈ ([] : List Char), Char.isAlphanum c := nofun
  cases begun with
  | false => exact .start others
  | true => exact .within nothing others

theorem IsInTag.nil : IsInTag begun [] :=
  .of_subtags (show AreSubtags [] from nofun)

theorem IsInTag.char (alphanum : Char.isAlphanum c) (later : IsInTag true rest) :
    IsInTag true (c :: rest) := by
  cases later with
  | @within front subtags all others =>
    have all' : ∀ c' ∈ c :: front, Char.isAlphanum c' := List.forall_mem_cons.mpr ⟨alphanum, all⟩
    exact .within all' others

theorem IsInTag.hyphen (begins : rest.head?.any Char.isAlphanum) (later : IsInTag true rest) :
    IsInTag begun ('-' :: rest) := by
  cases later with
  | @within front subtags all others =>
    have nonempty : front ≠ [] := by
      rintro rfl
      cases subtags with
      | nil => cases begins
      | cons => exact absurd begins (by simp [subtagsText])
    have more : AreSubtags (front :: subtags) := List.forall_mem_cons.mpr ⟨⟨nonempty, all⟩, others⟩
    have text : '-' :: (front ++ subtagsText subtags) = subtagsText (front :: subtags) := rfl
    rw [text]
    exact .of_subtags more

theorem IsInTag.cases (isInTag : IsInTag begun (c :: rest)) : IsInTag true rest ∧
    (begun = true ∧ c.isAlphanum ∨ c = '-' ∧ rest.head?.any Char.isAlphanum) := by
  have behind {subtags : List (List Char)} (others : AreSubtags subtags)
      (same : c :: rest = subtagsText subtags) :
      IsInTag true rest ∧ c = '-' ∧ rest.head?.any Char.isAlphanum := by
    cases subtags with
    | nil => cases same
    | cons subtag subtags =>
      obtain ⟨rfl, rfl⟩ := List.cons.inj same
      obtain ⟨⟨nonempty, all⟩, later⟩ := List.forall_mem_cons.mp others
      obtain ⟨d, more, rfl⟩ := List.exists_cons_of_ne_nil nonempty
      exact ⟨.within all later, rfl, by simpa using all d (by simp)⟩
  generalize same : c :: rest = text at isInTag
  cases isInTag with
  | start others =>
    obtain ⟨tail, hyphen⟩ := behind others same
    exact ⟨tail, .inr hyphen⟩
  | @within front subtags all others =>
    cases front with
    | nil =>
      obtain ⟨tail, hyphen⟩ := behind others same
      exact ⟨tail, .inr hyphen⟩
    | cons d front =>
      obtain ⟨rfl, rfl⟩ := List.cons.inj same
      obtain ⟨first, all⟩ := List.forall_mem_cons.mp all
      exact ⟨.within all others, .inl ⟨rfl, first⟩⟩

theorem subtags_longest (begun : Bool) (text : List Char) :
    Text.Longest (IsInTag begun) text (languageTag.subtags begun text) := by
  refine ⟨?_, subtags_front begun text, ?_⟩
  · induction text generalizing begun with
    | nil => exact .nil
    | cons c rest ih =>
      rw [languageTag.subtags]
      split
      case isFalse => exact .nil
      case isTrue goesOn =>
        rcases (Bool.or_eq_true _ _).mp goesOn with alphanum | hyphen
        · obtain ⟨rfl, alphanum⟩ := (Bool.and_eq_true _ _).mp alphanum
          exact .char alphanum (ih true)
        · obtain ⟨same, begins⟩ := (Bool.and_eq_true _ _).mp hyphen
          obtain rfl := of_decide_eq_true same
          refine .hyphen ?_ (ih true)
          cases rest with
          | nil => cases begins
          | cons d rest =>
            have alphanum : d.isAlphanum := by simpa using begins
            simp [languageTag.subtags, alphanum]
  · intro other isInTag begins
    induction text generalizing begun other with
    | nil => simp [List.prefix_nil.mp begins]
    | cons c rest ih =>
      cases other with
      | nil => exact Nat.zero_le _
      | cons d other =>
        obtain ⟨rfl, later⟩ := List.cons_prefix_cons.mp begins
        obtain ⟨tail, condition⟩ := isInTag.cases
        have goesOn : (begun && d.isAlphanum || d = '-' && rest.head?.any Char.isAlphanum) =
            true := by
          rcases condition with ⟨rfl, alphanum⟩ | ⟨rfl, first⟩
          · simp [alphanum]
          · obtain ⟨last, rfl⟩ := later
            cases other with
            | nil => cases first
            | cons e other => simp_all
        rw [languageTag.subtags, if_pos goesOn]
        exact Nat.succ_le_succ (ih true other tail later)

/-- The first letters of a tag, as far as they go. -/
theorem languageTag_split (text : List Char) : ∃ letters rest, text = letters ++ rest ∧
    letters = text.takeWhile Char.isAlpha ∧ (∀ c ∈ letters, Char.isAlpha c) ∧
      ∀ c ∈ rest.head?, ¬ Char.isAlpha c := by
  refine ⟨_, text.dropWhile Char.isAlpha, List.takeWhile_append_dropWhile.symm, rfl,
    fun _ member => Brace.mem_takeWhile member, fun c first => ?_⟩
  have other := List.head?_dropWhile_not Char.isAlpha text
  rw [first] at other
  simpa using other

theorem languageTag_belongs (nonempty : languageTag text ≠ []) :
    IsLanguageTag (languageTag text) := by
  obtain ⟨letters, rest, split, read, alpha, stop⟩ := languageTag_split text
  have some : letters ≠ [] := by
    intro none
    simp [languageTag, ← read, none] at nonempty
  rw [split, languageTag_append some alpha stop]
  have tail := (subtags_longest false rest).belongs
  generalize languageTag.subtags false rest = last at tail
  generalize later : false = begun at tail
  cases tail with
  | start others => exact .intro some alpha others
  | within => cases later

/-- The tag that is read is as long as any in front of the text. -/
theorem IsLanguageTag.length_le (isTag : IsLanguageTag front) (begins : front <+: text) :
    front ≠ [] ∧ front.length ≤ (languageTag text).length := by
  obtain ⟨last, rfl⟩ := begins
  cases isTag with
  | @intro primary subtags nonempty letters others =>
    refine ⟨by simp [nonempty], ?_⟩
    cases subtags with
    | nil =>
      have whole : languageTag (primary ++ subtagsText [] ++ last) =
          (primary ++ last.takeWhile Char.isAlpha) ++ languageTag.subtags false
            ((primary ++ last).drop (primary ++ last.takeWhile Char.isAlpha).length) := by
        simp [languageTag, subtagsText, List.takeWhile_append_of_pos letters, nonempty]
      rw [whole]
      simp only [subtagsText, List.flatMap_nil, List.length_append]
      simp
      omega
    | cons subtag subtags =>
      have stop : ∀ c ∈ (subtagsText (subtag :: subtags) ++ last).head?, ¬ Char.isAlpha c := by
        simp [subtagsText]
      have size := (subtags_longest false (subtagsText (subtag :: subtags) ++ last)).longest _
        (.start others) (List.prefix_append _ _)
      rw [List.append_assoc, languageTag_append nonempty letters stop, List.length_append,
        List.length_append]
      omega

theorem languageTag_longest (nonempty : languageTag text ≠ []) :
    Text.Longest IsLanguageTag text (languageTag text) where
  belongs := languageTag_belongs nonempty
  begins := by
    have found : ¬ (languageTag text).isEmpty := by simpa using nonempty
    exact (languageTag_found found).1
  longest _ isTag begins := (isTag.length_le begins).2

/-! ### Tokens -/

/-- Tokens that are read as names. -/
def isNamed : Token → Bool
  | prefixedName .. | atPrefixedName .. | language _ => true
  | _ => false

theorem scan_at (opens : place.rest = '@' :: text) : (scan bound kept place).1 = scanAt text := by
  rw [scan_plain bound kept (by decide) opens]
  rfl

theorem isDigit_of_isLetter (letter : Name.isLetter c) : ¬ c.isDigit := fun digit =>
  forall_ascii (p := fun c => c.isDigit → ¬ Name.isLetter c) (by decide)
    (toNat_lt_of_isAlphanum (by simp [Char.isAlphanum, digit])) digit letter

/-- A text that begins with a letter or a colon is read as a name. -/
theorem scan_name (begins : Name.isLetter c ∨ c = ':') (opens : place.rest = c :: text) :
    (scan bound kept place).1 = scanName c (c :: text) := by
  have apart (other : Char) (noName : (Name.isLetter other || other = ':') = false) :
      c ≠ other := by
    rintro rfl
    simp_all
  have noDigit : ¬ c.isDigit := by
    rcases begins with letter | rfl
    · exact isDigit_of_isLetter letter
    · decide
  have noNumber : ¬ Number.starts (c :: text) = true := by
    simp [Number.starts, Number.sign, Number.isSign, Number.startsUnsigned, noDigit,
      apart '+' (by decide), apart '-' (by decide), apart '.' (by decide)]
  have noSign : Punct.read? (c :: text) = none := by
    have table : ∀ sign ∈ Punct.double ++ Punct.single,
        sign.text.toList.head?.any fun d => !(Name.isLetter d || d = ':') := by
      decide
    rw [Punct.read?, List.find?_eq_none]
    intro sign member begins
    have first := table sign member
    cases text : sign.text.toList with
    | nil => simp [text] at first
    | cons d more =>
      rw [text, List.isPrefixOf_iff_prefix] at begins
      refine apart d ?_ (List.cons_prefix_cons.mp begins).1.symm
      simpa [text] using first
  rw [scan_plain bound kept (apart '{' (by decide)) opens, scanPlain,
    if_neg (apart '<' (by decide)), if_neg (apart '_' (by decide)),
    if_neg (by simp [apart '"' (by decide), apart '\'' (by decide)]),
    if_neg (apart '@' (by decide)), if_neg noNumber, noSign]

/-- Where a token that is read as a name comes from. -/
theorem scan_isNamed (found : (scan bound kept place).1 = .found token lexeme rest)
    (named : token.isNamed) :
    (∃ text, place.rest = '@' :: text ∧ scanAt text = .found token lexeme rest) ∨
      ∃ c, scanName c place.rest = .found token lexeme rest := by
  cases opens : place.rest with
  | nil =>
    rw [scan, opens] at found
    cases found
  | cons c text =>
    by_cases brace : c = '{'
    · subst brace
      rw [scan_brace bound kept opens] at found
      simp only [Brace.scan] at found
      repeat' split at found
      all_goals
        cases found
        cases named
    · rw [scan_plain bound kept brace opens] at found
      simp only [scanPlain] at found
      split at found
      · obtain ⟨_, -, rfl⟩ := Scan.build_eq_found.mp found
        cases named
      split at found
      · obtain ⟨_, -, rfl⟩ := Scan.map_eq_found.mp found
        cases named
      split at found
      · obtain ⟨_, -, rfl⟩ := Scan.build_eq_found.mp found
        cases named
      split at found
      next at' =>
        subst at'
        exact .inl ⟨text, rfl, found⟩
      split at found
      · simp only [Number.scan] at found
        repeat' split at found
        all_goals
          cases found
          try cases named
      split at found
      · cases found
        cases named
      · exact .inr ⟨c, found⟩

/-- Names are read from a text behind a front that marks them: the token is the longest front that
is a name, with its two parts, and there is none only if an escape is spoiled behind it. -/
structure ReadsNames (text front : List Char) (make : String → String → Token)
    (result : Scan Token) : Prop where
  token : ∀ space loc lexeme rest, result = .found (make space loc) lexeme rest →
    ∃ name, lexeme = front ++ name ∧ text = name ++ rest ∧ Text.Longest Name.IsName text name ∧
      Name.Parts name space.toList loc.toList
  outcome : ∀ name rest, Text.Longest Name.IsName text name → text = name ++ rest →
    ¬ Name.Breaks (¬ Name.IsNamespace name) rest ∧
        (∃ space loc, result = .found (make space loc) (front ++ name) rest) ∨
      Name.Breaks (¬ Name.IsNamespace name) rest ∧
        ∀ token lexeme last, result ≠ .found token lexeme last

theorem ReadsNames.of_scan {make : String → String → Token} {result : Scan Token}
    (back : ∀ space loc lexeme rest, result = .found (make space loc) lexeme rest → ∃ inner,
      lexeme = front ++ inner ∧
        Name.scan text = .found (.prefixed space.toList loc.toList) inner rest)
    (forth : ∀ space loc inner rest, Name.scan text = .found (.prefixed space loc) inner rest →
      result = .found (make (String.ofList space) (String.ofList loc)) (front ++ inner) rest)
    (fails : ∀ space last, Name.IsNamespace space → text = space ++ last →
      (∀ value inner rest, Name.scan text ≠ .found value inner rest) →
        ∀ token lexeme rest, result ≠ .found token lexeme rest) :
    ReadsNames text front make result where
  token space loc lexeme rest found := by
    obtain ⟨inner, rfl, name⟩ := back space loc lexeme rest found
    obtain ⟨space', last, isNamespace, rfl⟩ := Name.namespace_of_prefixed name
    obtain ⟨inner', rest', split, longest, ⟨-, _, _, parts, read⟩ | ⟨-, none⟩⟩ :=
      Name.reads_scan isNamespace last
    · rw [name] at read
      cases read
      exact ⟨inner, rfl, split, longest, parts⟩
    · exact absurd name (none _ _ _)
  outcome name rest longest split := by
    obtain ⟨space, loc, isNamespace, -, rfl⟩ := Name.isName_iff.mp longest.belongs
    rw [List.append_assoc] at split
    obtain ⟨name', rest', split', longest', outcome⟩ := Name.reads_scan isNamespace (loc ++ rest)
    rw [← split] at split' longest' outcome
    obtain rfl := longest'.unique longest
    have same : rest' = rest := by
      rw [split', List.append_assoc, List.append_cancel_left_eq,
        List.append_cancel_left_eq] at split
      exact split
    subst same
    exact outcome.imp (And.imp_right fun ⟨_, _, _, read⟩ => ⟨_, _, forth _ _ _ _ read⟩)
      (And.imp_right (fails _ _ isNamespace split))

/-- At the beginning of a token, names are read as they stand. -/
theorem scan_readsNames (bound : Nat) (kept : Brace.Delimiter) (place : Cursor) :
    ReadsNames place.rest [] .prefixedName (scan bound kept place).1 := by
  have named (space last : List Char) (isNamespace : Name.IsNamespace space)
      (split : place.rest = space ++ last) :
      ∃ c, (scan bound kept place).1 = scanName c place.rest := by
    obtain ⟨c, more, rfl, begins⟩ := isNamespace.head
    exact ⟨c, (scan_name begins split).trans (by rw [split]; rfl)⟩
  refine .of_scan (fun space loc lexeme rest found => ?_) (fun space loc inner rest name => ?_)
    fun space last isNamespace split none => ?_
  · rcases scan_isNamed found rfl with ⟨text, -, found⟩ | ⟨c, found⟩
    · simp only [scanAt] at found
      repeat' split at found
      all_goals cases found
    · simp only [scanName] at found
      split at found
      next name =>
        cases found
        exact ⟨_, rfl, by simpa using name⟩
      · repeat' split at found
        all_goals cases found
      all_goals cases found
  · obtain ⟨space', last, isNamespace, split⟩ := Name.namespace_of_prefixed name
    obtain ⟨c, read⟩ := named space' last isNamespace split
    rw [read, scanName, name]
    rfl
  · obtain ⟨c, read⟩ := named space last isNamespace split
    rw [read, scanName]
    cases name : Name.scan place.rest with
    | found => exact absurd name (none _ _ _)
    | fault | unfinished => rintro _ _ _ ⟨⟩

/-- After an at sign, names are read behind it. -/
theorem scanAt_readsNames (text : List Char) :
    ReadsNames text ['@'] .atPrefixedName (scanAt text) := by
  have named (space last : List Char) (isNamespace : Name.IsNamespace space)
      (split : text = space ++ last) :
      ∃ c more, text = c :: more ∧ ¬ (c = '<' || c = '_') = true := by
    obtain ⟨c, more, rfl, begins⟩ := isNamespace.head
    refine ⟨c, more ++ last, split, ?_⟩
    rintro reference
    rcases (Bool.or_eq_true _ _).mp reference with same | same <;>
      (obtain rfl := of_decide_eq_true same; exact absurd begins (by decide))
  refine .of_scan (fun space loc lexeme rest found => ?_) (fun space loc inner rest name => ?_)
    fun space last isNamespace split none => ?_
  · cases text with
    | nil => cases found
    | cons c text =>
      rw [scanAt] at found
      split at found
      · cases found
      split at found
      next name =>
        cases found
        exact ⟨_, rfl, by simpa using name⟩
      · dsimp only at found
        split at found <;> cases found
      · cases found
      · cases found
  · obtain ⟨space', last, isNamespace, split⟩ := Name.namespace_of_prefixed name
    obtain ⟨c, more, rfl, other⟩ := named space' last isNamespace split
    rw [scanAt, if_neg other, name]
    rfl
  · obtain ⟨c, more, rfl, other⟩ := named space last isNamespace split
    rw [scanAt, if_neg other]
    cases name : Name.scan (c :: more) with
    | found => exact absurd name (none _ _ _)
    | fault | unfinished => rintro _ _ _ ⟨⟩

/-- A language tag stands behind an at sign where no name does, and goes as far as it can. -/
theorem scan_language (found : (scan bound kept place).1 = .found (.language tag) lexeme rest) :
    ∃ text, place.rest = '@' :: text ∧ lexeme = '@' :: tag.toList ∧ text = tag.toList ++ rest ∧
      Text.Longest IsLanguageTag text tag.toList ∧
        ∀ front, Name.IsNamespace front → ¬ front <+: text := by
  rcases scan_isNamed found rfl with ⟨text, opens, found⟩ | ⟨c, found⟩
  · refine ⟨text, opens, ?_⟩
    cases text with
    | nil => cases found
    | cons c text =>
      rw [scanAt] at found
      split at found
      · cases found
      split at found
      · cases found
      next name =>
        dsimp only at found
        split at found
        · cases found
        next nonempty =>
          have longest := languageTag_longest (by simpa using nonempty)
          cases found
          rw [String.toList_ofList]
          refine ⟨rfl, (List.prefix_iff_eq_append.mp longest.begins).symm, longest, ?_⟩
          rintro space isNamespace ⟨last, split⟩
          obtain ⟨front, -, -, -, run⟩ := isNamespace.run
          have colonless := (Name.colonless_of_word name).1
          rw [← split, Name.Colonless, run last] at colonless
          exact colonless rfl
      · cases found
      · cases found
  · simp only [scanName] at found
    repeat' split at found
    all_goals cases found

/-- A language tag is found if no characters of a name up to a colon stand there. -/
theorem scanAt_language (longest : Text.Longest IsLanguageTag text found)
    (noName : ∀ front, Name.IsRun front → ¬ front ++ [':'] <+: text) :
    scanAt text = .found (.language (String.ofList found)) ('@' :: found)
      (text.drop found.length) := by
  have nonempty : languageTag text ≠ [] := by
    obtain ⟨some, size⟩ := longest.belongs.length_le longest.begins
    have positive := List.length_pos_iff.mpr some
    exact List.length_pos_iff.mp (by omega)
  obtain rfl := (languageTag_longest nonempty).unique longest
  have colonless : Name.Colonless text := by
    intro colon
    obtain ⟨last, behind⟩ := List.head?_eq_some_iff.mp colon
    refine noName _ (Name.isRun_run text) ⟨last, ?_⟩
    rw [List.append_assoc, List.singleton_append, ← behind, ← Name.run_split]
  obtain ⟨-, -, c, more, tag, letter, -⟩ := languageTag_found (by simpa using nonempty)
  obtain ⟨last, split⟩ := longest.begins
  rw [tag] at split
  have noReference : ¬ (c = '<' || c = '_') = true := by
    rintro reference
    rcases (Bool.or_eq_true _ _).mp reference with same | same <;>
      (obtain rfl := of_decide_eq_true same; exact absurd letter (by decide))
  have whole := Name.scan_of_colonless colonless
  generalize same : languageTag text = found at *
  subst split
  rw [List.cons_append, scanAt, if_neg noReference, ← List.cons_append, whole]
  dsimp only
  rw [same, if_neg (by simpa using nonempty)]

/-- Names and language tags of a text, read at the beginning of a token. A prefixed name, as it
stands or behind an at sign, is the longest front that is one, and is missing only where a spoiled
escape stands behind that front, maybe after dots. A language tag is read only where no namespace
stands, and then as far as it goes. -/
theorem scan_names (bound : Nat) (kept : Brace.Delimiter) (place : Cursor) :
    ReadsNames place.rest [] .prefixedName (scan bound kept place).1 ∧
    (∀ text, place.rest = '@' :: text →
      ReadsNames text ['@'] .atPrefixedName (scan bound kept place).1) ∧
    (∀ space loc lexeme rest,
      (scan bound kept place).1 = .found (.atPrefixedName space loc) lexeme rest →
        ∃ text, place.rest = '@' :: text) ∧
    (∀ tag lexeme rest, (scan bound kept place).1 = .found (.language tag) lexeme rest →
      ∃ text, place.rest = '@' :: text ∧ lexeme = '@' :: tag.toList ∧
        text = tag.toList ++ rest ∧ Text.Longest IsLanguageTag text tag.toList ∧
          ∀ front, Name.IsNamespace front → ¬ front <+: text) ∧
    ∀ text inner, place.rest = '@' :: text → Text.Longest IsLanguageTag text inner →
      (∀ front, Name.IsRun front → ¬ front ++ [':'] <+: text) →
        (scan bound kept place).1 = .found (.language (String.ofList inner)) ('@' :: inner)
          (text.drop inner.length) := by
  refine ⟨scan_readsNames bound kept place, fun text opens => ?_,
    fun space loc lexeme rest found => ?_, fun tag lexeme rest => scan_language,
    fun text inner opens longest noName => ?_⟩
  · rw [scan_at opens]
    exact scanAt_readsNames text
  · rcases scan_isNamed found rfl with ⟨text, opens, -⟩ | ⟨c, found⟩
    · exact ⟨text, opens⟩
    · simp only [scanName] at found
      repeat' split at found
      all_goals cases found
  · rw [scan_at opens]
    exact scanAt_language longest noName

end ShExCompact.Token
