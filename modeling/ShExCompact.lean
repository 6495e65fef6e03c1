import ShExCompact.Settings
import ShExCompact.Proofs.Lexical.Lossless
import ShExCompact.Proofs.Reading.InlineShapes
import ShExCompact.Proofs.Reading.WrittenOut
import ShExCompact.Proofs.Reading.Layout
import ShExCompact.Proofs.Reading.Fragments
import ShExCompact.Proofs.Reading.Unfinished
import ShExCompact.Proofs.Drafts.Sessions
import ShExCompact.Proofs.Reading.Strictness
import ShExCompact.Proofs.Reading.ExpressionLabels
import ShExCompact.Proofs.Reading.ProperSchemas
import ShExCompact.Proofs.Reading.LexicalPlaces
import ShExCompact.Proofs.Reading.GrammarPlaces
import ShExCompact.Proofs.Reading.FirstProblem
import ShExCompact.Proofs.Lexical.IriEscapes
import ShExCompact.Proofs.Reading.InlineNumbers
import ShExCompact.Proofs.Lexical.PrefixedNames
import ShExCompact.Proofs.Reading.LiteralTexts
import ShExCompact.Proofs.Reading.Parenthesized
import ShExCompact.Proofs.Iri.Roots
import ShExCompact.Proofs.Lexical.ShortStrings
import ShExCompact.Proofs.Reading.Offers
import ShExCompact.Proofs.Reading.Nesting
import ShExCompact.Proofs.Lexical.Positions
import ShExCompact.Proofs.Reading.Cardinalities
import ShExCompact.Proofs.Schemas.References
import ShExCompact.Proofs.Reading.FacetTexts
import ShExCompact.Proofs.Drafts.Allocation
import ShExCompact.Proofs.Reading.Progress
import ShExCompact.Proofs.Octets.Sequence
