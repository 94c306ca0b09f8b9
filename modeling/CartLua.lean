import CartLua.Proofs.Derivation.Bounded
import CartLua.Proofs.Derivation.Shallow
import CartLua.Proofs.Derivation.Verdicts
import CartLua.Proofs.Desugar.Admission
import CartLua.Proofs.Desugar.CopiedTargets
import CartLua.Proofs.Desugar.LinePreservation
import CartLua.Proofs.Desugar.LongStringValue
import CartLua.Proofs.Desugar.Output
import CartLua.Proofs.Desugar.Splicing
import CartLua.Proofs.Dialect.CarriedChains
import CartLua.Proofs.Dialect.CarriedStatements
import CartLua.Proofs.Dialect.Carrying
import CartLua.Proofs.Dialect.Conservative
import CartLua.Proofs.Dialect.Cues
import CartLua.Proofs.Dialect.LuaPassage
import CartLua.Proofs.Dialect.Openings
import CartLua.Proofs.Dialect.Passage
import CartLua.Proofs.Fix.ClosingSuffix
import CartLua.Proofs.Fix.EndKeyword
import CartLua.Proofs.Fix.EndRules
import CartLua.Proofs.Fix.KnownFixes
import CartLua.Proofs.Fix.Overlooking
import CartLua.Proofs.Fix.ShortIfEnd
import CartLua.Proofs.Grammar.RuleGraph
import CartLua.Proofs.Grammar.Termination
import CartLua.Proofs.Items.Desugared
import CartLua.Proofs.Items.Occurrences
import CartLua.Proofs.Lexical.CaseFolding
import CartLua.Proofs.Lexical.Keywords
import CartLua.Proofs.Lexical.Numerals
import CartLua.Proofs.Lexical.Padding
import CartLua.Proofs.Lexical.PaddingScan
import CartLua.Proofs.Lexical.QuotedLiterals
import CartLua.Proofs.Lexical.WordClasses
import CartLua.Proofs.Matching.FaultPlaces
import CartLua.Proofs.Matching.Observers
import CartLua.Proofs.Matching.StateRelations
import CartLua.Proofs.Matching.Submatches
import CartLua.Proofs.Occurrence.Ends
import CartLua.Proofs.Occurrence.Leftovers
import CartLua.Proofs.Occurrence.LogContents
import CartLua.Proofs.Parser.Completion
import CartLua.Proofs.Parser.Consumption
import CartLua.Proofs.Parser.Diagnosis
import CartLua.Proofs.Parser.NestingLimit
import CartLua.Proofs.Source.ByteOffsets
import CartLua.Proofs.Source.LineIndex
import CartLua.Proofs.Suggestion.NearestKeywords
import CartLua.Proofs.Syntax.AssignmentTargets
import CartLua.Proofs.Syntax.OperatorRows
import CartLua.Proofs.Syntax.Precedence
import CartLua.Proofs.Syntax.ShortIfExtent
import CartLua.Proofs.Tally.Readings
import CartLua.Proofs.Tally.SingleVisit
import CartLua.Proofs.Tally.Unwatched
import CartLua.SourceFile
