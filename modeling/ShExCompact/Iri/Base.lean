import ShExCompact.Text.Escape

/-!
Resolution of IRI references. A base is kept with its directory and its root, and references are
appended to one of the three by their first character; nothing is normalized.
-/
namespace ShExCompact

namespace Reference

/-- Texts that begin with a lowercase scheme and a colon. -/
def isAbsolute (text : List Char) : Bool :=
  !(text.takeWhile Char.isLower).isEmpty && (text.dropWhile Char.isLower).head? == some ':'

/-- Remove one opening and one closing angle bracket. -/
def unwrap (text : List Char) : List Char :=
  let inner := if text.head? = some '<' then text.tail else text
  if inner.getLast? = some '>' then inner.dropLast else inner

/-- Resolve a reference without brackets: the empty one is the base, a fragment is appended to the
base, a query to the base without its query, a path from a slash on to the root, anything else that
is not absolute to the directory. -/
def resolveInner (reference base path root : List Char) : List Char :=
  match reference with
  | [] => base
  | c :: _ =>
    if c = '#' then base ++ reference
    else if c = '?' then base.takeWhile (· ≠ '?') ++ reference
    else if c = '/' then root ++ reference
    else if isAbsolute reference then reference
    else path ++ reference

/-- Resolve a reference, with or without its brackets. -/
def resolve (reference base path root : String) : String :=
  String.ofList
    (resolveInner (unwrap reference.toList) base.toList path.toList root.toList)

/-- The text up to its last slash and with it, empty without a slash. -/
def directory : List Char → List Char
  | [] => []
  | c :: rest =>
    let inner := directory rest
    if inner.isEmpty && c ≠ '/' then [] else c :: inner

/-- The scheme, the slashes after it and the text up to the next slash. -/
def rootOf (text : List Char) : List Char :=
  if isAbsolute text then
    let tail := (text.dropWhile Char.isLower).tail
    text.takeWhile Char.isLower ++ ':' :: (tail.takeWhile (· = '/') ++
      (tail.dropWhile (· = '/')).takeWhile (· ≠ '/'))
  else text.takeWhile (· ≠ '/')

end Reference

/-- A base IRI with its directory and its root. -/
structure Base where
  text : String
  path : String
  root : String
deriving DecidableEq

namespace Base

/-- No base: every reference that is not absolute stays as it is. -/
def empty : Base := ⟨"", "", ""⟩

/-- Find the directory and the root of a base IRI. -/
def ofText (text : String) : Base :=
  ⟨text, String.ofList (Reference.directory text.toList),
    String.ofList (Reference.rootOf text.toList)⟩

/-- Resolve a reference against a base. -/
def resolve (base : Base) (reference : String) : String :=
  Reference.resolve reference base.text base.path base.root

end Base

end ShExCompact
