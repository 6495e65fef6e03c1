import ShExCompact.Text.Numeral

/-!
Texts of IP addresses, as they stand between the brackets of a host.
-/
namespace ShExCompact.Host

/-- The pieces of a text between the places where `mark` stands. -/
def pieces (mark : Char) : List Char → List (List Char)
  | [] => [[]]
  | c :: rest =>
    if c = mark then [] :: pieces mark rest
    else match pieces mark rest with
      | piece :: more => (c :: piece) :: more
      | [] => [[c]]

/-- One to three decimal digits without a leading zero, at most 255. -/
def isOctet (text : List Char) : Bool :=
  !text.isEmpty && text.length ≤ 3 && text.all Char.isDigit &&
    (text.length = 1 || text.head? ≠ some '0') && Nat.ofDigitChars 10 text 0 ≤ 255

/-- Four octets with dots between them. -/
def isIpv4 (text : List Char) : Bool :=
  let octets := pieces '.' text
  octets.length = 4 && octets.all isOctet

/-- One to four hexadecimal digits. -/
def isGroup (text : List Char) : Bool :=
  !text.isEmpty && text.length ≤ 4 && text.all Numeral.isHex

/-- How many groups the pieces stand for; only the last may be an IPv4 address, which stands for
two. -/
def groupCount? : List (List Char) → Option Nat
  | [] => some 0
  | [piece] => if isGroup piece then some 1 else if isIpv4 piece then some 2 else none
  | piece :: rest => if isGroup piece then (groupCount? rest).map (· + 1) else none

/-- Split a text at its first double colon. -/
def splitGap? : List Char → Option (List Char × List Char)
  | ':' :: ':' :: rest => some ([], rest)
  | c :: rest => (splitGap? rest).map fun parts => (c :: parts.1, parts.2)
  | [] => none

/-- The groups of a part beside the gap; an empty part has none. -/
def sideCount? (text : List Char) : Option Nat :=
  if text.isEmpty then some 0 else groupCount? (pieces ':' text)

/-- Eight groups, or at most seven around one gap. No IPv4 address stands before the gap. -/
def isIpv6 (text : List Char) : Bool :=
  match splitGap? text with
  | none => groupCount? (pieces ':' text) == some 8
  | some (before, after) =>
    (before.isEmpty || (pieces ':' before).all isGroup) &&
      match sideCount? before, sideCount? after with
      | some first, some second => first + second ≤ 7
      | _, _ => false

end ShExCompact.Host
