import ShExCompact.Document.Statement

/-!
Reading documents. Settings give a base and prefixes to a document before it declares its own; a
document can also be read into a draft, which has them already.
-/
namespace ShExCompact

/-- The base and the prefixes before those of a document, and whether a malformed escape is a
problem. -/
structure Settings where
  base : Option Iri
  prefixes : Dictionary
  strict : Bool
deriving DecidableEq

namespace Settings

/-- No base, no prefixes, and malformed escapes make a string empty. -/
def default : Settings := ⟨none, .empty, false⟩

/-- Set the base. -/
def withBase (settings : Settings) (text : String) : Except Iri.Fault Settings :=
  (Iri.ofText? text).map fun iri => { settings with base := some iri }

/-- Bind a prefix; an earlier binding is replaced. -/
def withPrefix (settings : Settings) (name text : String) : Except Iri.Fault Settings :=
  (Iri.ofText? text).map fun iri =>
    { settings with prefixes := settings.prefixes.insert name iri.value }

/-- Make malformed escapes problems. -/
def withStrictEscapes (settings : Settings) : Settings := { settings with strict := true }

/-- The draft that a document starts from. -/
def initialDraft (settings : Settings) : Draft :=
  let draft := { Draft.empty with prefixes := settings.prefixes }
  match settings.base with
  | some iri => draft.bindBase iri.value
  | none => draft

/-- Read tokens into a draft. The draft keeps what was declared before a problem. -/
def readTokens (check : String → Except Iri.Fault Unit) (strict : Bool) (finish : Nat)
    (tokens : TokenSequence) (draft : Draft) : Except Problem Unit × Draft :=
  match Parser.document ⟨check, strict, finish, tokens.problem⟩ ⟨tokens.lexemes, draft⟩ with
  | .ok () state => (.ok (), state.draft)
  | .error problem state => (.error problem, state.draft)

/-- Read a document into a draft, with a given check of its IRIs. Neither the base nor the prefixes
of the settings count. -/
def parseIntoWith (check : String → Except Iri.Fault Unit) (settings : Settings) (text : String)
    (draft : Draft) : Except Diagnostic Unit × Draft :=
  let chars := text.toList
  match readTokens check settings.strict (Text.width chars) (TokenSequence.ofText chars) draft with
  | (.ok (), draft) => (.ok (), draft)
  | (.error problem, draft) => (.error (problem.diagnose (Text.bytes chars)), draft)

/-- Read a document, with a given check of its IRIs. -/
def parseWith (check : String → Except Iri.Fault Unit) (settings : Settings) (text : String) :
    Except Diagnostic Schema :=
  match settings.parseIntoWith check text settings.initialDraft with
  | (.ok (), draft) => .ok draft.finish
  | (.error diagnostic, _) => .error diagnostic

/-- Read a document into a draft. -/
def parseInto (settings : Settings) (text : String) (draft : Draft) :
    Except Diagnostic Unit × Draft :=
  settings.parseIntoWith (fun text => Iri.check text.toList) text draft

/-- Read a document. -/
def parse (settings : Settings) (text : String) : Except Diagnostic Schema :=
  settings.parseWith (fun text => Iri.check text.toList) text

/-- The problem of bytes that are no text. -/
def bytesProblem (flaw : Utf8.Flaw) (size : Nat) : Problem :=
  let stop := match flaw.size with
    | some length => flaw.validUpTo + length
    | none => size
  ⟨⟨flaw.validUpTo, stop⟩, .lexical (.bytes flaw) Text.replacement⟩

/-- Read a document from bytes, which have to be UTF-8. -/
def parseBytes (settings : Settings) (bytes : List UInt8) : Except Diagnostic Schema :=
  match Utf8.decode bytes with
  | .ok chars => settings.parse (String.ofList chars)
  | .error flaw => .error ((bytesProblem flaw bytes.length).diagnose bytes)

end Settings

end ShExCompact
