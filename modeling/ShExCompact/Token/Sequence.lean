import ShExCompact.Text.Position
import ShExCompact.Token.Brace
import ShExCompact.Token.IriRef
import ShExCompact.Token.Name
import ShExCompact.Token.Number
import ShExCompact.Token.Quote

/-!
The tokens of a text. Blanks and line comments stand between tokens; the sequence ends with the
text or at the first fault.
-/
namespace ShExCompact

namespace Token

/-- Characters between tokens. -/
def isBlank (c : Char) : Bool := c = ' ' || c = '\t' || c = '\r' || c = '\n'

/-- Characters that end a comment. -/
def isLineEnd (c : Char) : Bool := c = '\r' || c = '\n'

/-- Step over blanks and comments, which go from a number sign or two slashes to the end of the
line. -/
def skip (inComment : Bool) (offset : Nat) : List Char → Cursor
  | [] => ⟨offset, []⟩
  | c :: rest =>
    if inComment then skip (!isLineEnd c) (offset + c.utf8Size) rest
    else if isBlank c then skip false (offset + 1) rest
    else if c = '#' || (c = '/' && rest.head? = some '/') then skip true (offset + 1) rest
    else ⟨offset, c :: rest⟩

/-- The longest language tag after an at sign, empty if there is none. -/
def languageTag (text : List Char) : List Char :=
  let primary := text.takeWhile Char.isAlpha
  if primary.isEmpty then []
  else primary ++ subtags false (text.drop primary.length)
where
  /-- Subtags of letters and digits, each after a hyphen. -/
  subtags (inside : Bool) : List Char → List Char
    | [] => []
    | c :: rest =>
      if (inside && c.isAlphanum) || (c = '-' && rest.head?.any Char.isAlphanum) then
        c :: subtags true rest
      else []

/-- Read what begins with an at sign: a prefixed name, a language tag or the sign alone. -/
def scanAt (text : List Char) : Scan Token :=
  let sign := Scan.found (Token.punct .atSign) ['@'] text
  match text with
  | [] => sign
  | c :: _ =>
    if c = '<' || c = '_' then sign
    else match Name.scan text with
      | .found (.prefixed space localPart) lexeme rest =>
        .found (.atPrefixedName (String.ofList space) (String.ofList localPart)) ('@' :: lexeme)
          rest
      | .found (.word _) _ _ =>
        let tag := languageTag text
        if tag.isEmpty then sign
        else .found (.language (String.ofList tag)) ('@' :: tag) (text.drop tag.length)
      | .fault cause lead width => .fault cause ('@' :: lead) width
      | .unfinished => .unfinished

/-- Read a prefixed name or a keyword, which begin with `c`. -/
def scanName (c : Char) (text : List Char) : Scan Token :=
  match Name.scan text with
  | .found (.prefixed space localPart) lexeme rest =>
    .found (.prefixedName (String.ofList space) (String.ofList localPart)) lexeme rest
  | .found (.word word) lexeme rest =>
    if word.isEmpty then .fault (.character c) [] c.utf8Size
    else match Keyword.ofWord? (String.ofList word) with
      | some known => .found (.keyword known) lexeme rest
      | none => .fault (.word (String.ofList word)) [] (Text.width word)
  | .fault cause lead width => .fault cause lead width
  | .unfinished => .unfinished

/-- Read a token that begins with `c` and is not after a brace. -/
def scanPlain (c : Char) (rest : List Char) : Scan Token :=
  let text := c :: rest
  if c = '<' then
    ((IriRef.body rest).after [c]).build fun _ lexeme => .iriRef (String.ofList lexeme)
  else if c = '_' then (Name.blankNode text).map fun id => .blankNode (String.ofList id)
  else if c = '"' || c = '\'' then
    (Quote.scan c rest).build fun quoteWidth lexeme => .string (String.ofList lexeme) quoteWidth
  else if c = '@' then scanAt rest
  else if Number.starts text then Number.scan text
  else match Punct.read? text with
    | some sign =>
      let lexeme := sign.text.toList
      .found (.punct sign) lexeme (text.drop lexeme.length)
    | none => scanName c text

/-- Read one token at a place where no blank stands. -/
def scan (bound : Nat) (kept : Brace.Delimiter) (place : Cursor) : Scan Token × Brace.Delimiter :=
  match place.rest with
  | [] => (.unfinished, kept)
  | c :: rest => if c = '{' then Brace.scan bound kept place else (scanPlain c rest, kept)

end Token

/-- A token with its place and its text. -/
structure Lexeme where
  token : Token
  extent : Extent
  text : String
deriving DecidableEq

/-- A place where no token begins: the bytes that the fault is about, and the character there. -/
structure LexicalProblem where
  extent : Extent
  fault : Fault
  character : Char
deriving DecidableEq

/-- The tokens of a text up to its first fault, and where the reading ends. -/
structure TokenSequence where
  lexemes : List Lexeme
  problem : Option LexicalProblem
  finish : Nat
deriving DecidableEq

namespace TokenSequence

/-- Put a token before a sequence. -/
def cons (first : Lexeme) (sequence : TokenSequence) : TokenSequence :=
  { sequence with lexemes := first :: sequence.lexemes }

/-- The sequence that ends at once with a fault. -/
def failed (start stop : Nat) (fault : Fault) (character : Char) : TokenSequence :=
  ⟨[], some ⟨⟨start, stop⟩, fault, character⟩, stop⟩

/-- Read at most `bound` tokens. A text has no more tokens than characters. -/
def read : (bound : Nat) → Brace.Delimiter → Cursor → TokenSequence
  | 0, _, place => ⟨[], none, place.offset⟩
  | bound + 1, kept, place =>
    let start := Token.skip false place.offset place.rest
    if start.rest.isEmpty then ⟨[], none, start.offset⟩
    else match Token.scan bound kept start with
      | (.found token lexeme rest, kept) =>
        let stop := start.offset + Text.width lexeme
        cons ⟨token, ⟨start.offset, stop⟩, String.ofList lexeme⟩ (read bound kept ⟨stop, rest⟩)
      | (.fault cause lead width, _) =>
        let offset := start.offset + Text.width lead
        failed offset (offset + width) cause
          ((start.rest.drop lead.length).headD Text.replacement)
      | (.unfinished, _) =>
        failed start.offset (start.offset + Text.width start.rest) .endOfText
          (start.rest.headD Text.replacement)

/-- The tokens of a text. -/
def ofText (text : List Char) : TokenSequence := read (text.length + 1) .unknown ⟨0, text⟩

/-- The tokens of a text from a byte offset on, and the offset at which the reading begins: an
offset past the end stands for the end, and inside of a character no token begins. -/
def ofOffset (text : List Char) (offset : Nat) : Nat × TokenSequence :=
  match Text.cut offset text with
  | .exact _ rest => (offset, read (rest.length + 1) .unknown ⟨offset, rest⟩)
  | .inside => (offset, failed offset (offset + 1) .encoding Text.replacement)
  | .short => (Text.width text, ⟨[], none, Text.width text⟩)

end TokenSequence

end ShExCompact
