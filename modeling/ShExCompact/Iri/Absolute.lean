import ShExCompact.Iri.Basic
import ShExCompact.Iri.Host

/-!
The check that a text is an absolute IRI. It reads from left to right and stops at the first
fault: scheme, authority, path, query and fragment admit different characters.
-/
namespace ShExCompact

namespace Iri

/-- Why a text is no absolute IRI. -/
inductive Fault where
  | noScheme
  | codePoint (c : Char)
  | percent (found : String)
  | hostCharacter (c : Char)
  | portCharacter (c : Char)
  | hostAddress
deriving DecidableEq

/-- The wording of a fault. -/
def Fault.message : Fault → String
  | noScheme => "No scheme found in an absolute IRI"
  | codePoint c => "Invalid IRI code point '" ++ String.singleton c ++ "'"
  | percent found => "Invalid IRI percent encoding '%" ++ found ++ "'"
  | hostCharacter c => "Invalid character '" ++ String.singleton c ++ "' in host"
  | portCharacter c => "Invalid character '" ++ String.singleton c ++ "'"
  | hostAddress => "Invalid host IP (invalid IPv6 address syntax)"

/-- The outcome of a check. -/
abbrev Check := Except Fault

/-- Characters beyond ASCII that every part admits. Of the planes 1 to 14 the last two code points
and the tags are left out. -/
def isWide (c : Char) : Bool :=
  let code := c.toNat
  (0xA0 ≤ code && code ≤ 0xD7FF) || (0xF900 ≤ code && code ≤ 0xFDCF) ||
    (0xFDF0 ≤ code && code ≤ 0xFFEF) ||
    (0x10000 ≤ code && code ≤ 0xDFFFD && code % 0x10000 ≤ 0xFFFD) ||
    (0xE1000 ≤ code && code ≤ 0xEFFFD)

/-- Characters of private use, which only a query admits. -/
def isPrivate (c : Char) : Bool :=
  let code := c.toNat
  (0xE000 ≤ code && code ≤ 0xF8FF) || (0xF0000 ≤ code && code ≤ 0xFFFFD) ||
    (0x100000 ≤ code && code ≤ 0x10FFFD)

/-- Characters that every part admits. -/
def isPlain (c : Char) : Bool :=
  c.isAlphanum || "!$&'()*+,-.;=_~".toList.contains c || isWide c

/-- Read plain characters, those of `extra` and percent escapes, up to the first character of
`stop` or the end. The answer is what is left. -/
def read (extra stop : Char → Bool) : List Char → Check (List Char)
  | [] => .ok []
  | c :: rest =>
    if stop c then .ok (c :: rest)
    else if isPlain c || extra c then read extra stop rest
    else if c = '%' then
      match rest with
      | a :: b :: more =>
        if Numeral.isHex a && Numeral.isHex b then read extra stop more
        else .error (.percent (String.ofList [a, b]))
      | _ => .error (.percent (String.ofList rest))
    else .error (.codePoint c)

/-- Characters that end a host: a path, a query or a fragment begins. -/
def isEnd (c : Char) : Bool := c = '/' || c = '?' || c = '#'

/-- Read a fragment. -/
def fragment (text : List Char) : Check Unit := do
  let _ ← read (fun c => c = ':' || c = '@' || c = '/' || c = '?') (fun _ => false) text

/-- Read a query and the fragment after it. -/
def query (text : List Char) : Check Unit := do
  let rest ← read (fun c => c = ':' || c = '@' || c = '/' || c = '?' || isPrivate c)
    (fun c => c = '#') text
  match rest with
  | _ :: tail => fragment tail
  | [] => pure ()

/-- Read a path and what follows it. -/
def path (text : List Char) : Check Unit := do
  let rest ← read (fun c => c = ':' || c = '@' || c = '/') (fun c => c = '?' || c = '#') text
  match rest with
  | c :: tail => if c = '?' then query tail else fragment tail
  | [] => pure ()

/-- Read the digits after the colon of a host, and what follows them. -/
def portNumber (text : List Char) : Check Unit :=
  let rest := text.dropWhile Char.isDigit
  match rest with
  | c :: _ => if isEnd c then path rest else .error (.portCharacter c)
  | [] => pure ()

/-- Read what follows a host. -/
def afterHost : List Char → Check Unit
  | [] => pure ()
  | c :: rest =>
    if c = ':' then portNumber rest
    else if isEnd c then path (c :: rest)
    else .error (.hostCharacter c)

/-- An address of a later version: its hexadecimal number, a dot and some characters. -/
def laterAddress (text : List Char) : Check Unit :=
  let version := text.takeWhile Numeral.isHex
  match text.dropWhile Numeral.isHex with
  | [] => .error (.hostCharacter ']')
  | c :: rest =>
    if c ≠ '.' then .error (.hostCharacter c)
    else if version.isEmpty || rest.isEmpty then .error (.hostCharacter (rest.headD ']'))
    else match rest.find? fun d => !(d.toNat < 0x80 && (isPlain d || d = ':')) with
      | some d => .error (.hostCharacter d)
      | none => pure ()

/-- An address between brackets. -/
def address (text : List Char) : Check Unit :=
  match text with
  | c :: rest =>
    if c = 'v' || c = 'V' then laterAddress rest
    else if Host.isIpv6 text then pure () else .error .hostAddress
  | [] => .error .hostAddress

/-- Read a host, an address between brackets or a name, and what follows it. -/
def host (text : List Char) : Check Unit :=
  match text with
  | '[' :: inside =>
    match inside.dropWhile (· ≠ ']') with
    | [] => .error (.hostCharacter '[')
    | _ :: tail => do
      address (inside.takeWhile (· ≠ ']'))
      afterHost tail
  | _ => do
    let rest ← read (fun _ => false) (fun c => c = ':' || isEnd c) text
    afterHost rest

/-- Read a user, if an at sign ends it, then a host. -/
def authority (text : List Char) : Check Unit := do
  let rest ← read (fun c => c = ':') (fun c => c = '@' || c = '[' || isEnd c) text
  match rest with
  | '@' :: tail => host tail
  | _ => host text

/-- What follows a scheme and its colon. -/
def hierarchy : List Char → Check Unit
  | '/' :: '/' :: rest => authority rest
  | text => path text

/-- A text without a scheme. Its own faults come first. -/
def relative (text : List Char) : Check Unit :=
  match text with
  | '/' :: '/' :: rest => authority rest
  | '/' :: rest => path rest
  | _ => do
    let rest ← read (fun c => c = '@') isEnd text
    path rest

/-- Characters of a scheme after its first letter. -/
def isSchemeCharacter (c : Char) : Bool := c.isAlphanum || c = '+' || c = '-' || c = '.'

/-- What follows the scheme and its colon, if the text begins with a scheme. -/
def schemeRest? (text : List Char) : Option (List Char) :=
  if (text.head?.any Char.isAlpha) then
    match text.dropWhile isSchemeCharacter with
    | ':' :: rest => some rest
    | _ => none
  else none

/-- Check that a text is an absolute IRI. -/
def check (text : List Char) : Check Unit :=
  if text.head? = some ':' then .error .noScheme
  else match schemeRest? text with
    | some rest => hierarchy rest
    | none => do
      relative text
      .error .noScheme

/-- The absolute IRI with a given text. -/
def ofText? (text : String) : Except Fault Iri := (check text.toList).map fun _ => ⟨text⟩

end Iri

end ShExCompact
