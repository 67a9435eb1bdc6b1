import TagDialect.Commands
import TagDialect.Proofs.CommentMatching
import TagDialect.Proofs.LexicalRules
import TagDialect.Proofs.NumeralReadings
import TagDialect.Proofs.LongestMatch
import TagDialect.Proofs.CursorMoves
import TagDialect.Proofs.Erasure
import TagDialect.Proofs.RuleReadings
import TagDialect.Proofs.StatementReadings
import TagDialect.Proofs.QuotedValues
import TagDialect.Proofs.LexedPieces
import TagDialect.Proofs.LexedTexts
import TagDialect.Proofs.PrintedPieces
import TagDialect.Proofs.WellFormed
import TagDialect.Proofs.RoundTrip
import TagDialect.Proofs.PieceForms
import TagDialect.Proofs.TokenPlaces
import TagDialect.Proofs.PieceContexts
import TagDialect.Proofs.RelaidTexts
import TagDialect.Proofs.CursorWalks
import TagDialect.Proofs.ViablePrefixes
import TagDialect.Proofs.SharedPrefixes
import TagDialect.Proofs.FailurePlaces
import TagDialect.Proofs.NodeSpans
import TagDialect.Proofs.NumberNeighbours
import TagDialect.Proofs.CutTexts
import TagDialect.Proofs.SpanOrder
import TagDialect.Proofs.NodeSlices
import TagDialect.Proofs.TrailingWhite
import TagDialect.Proofs.CanonicalTexts
import TagDialect.Proofs.LetterCase
import TagDialect.Proofs.RespeltPieces
import TagDialect.Proofs.KeywordCase
import TagDialect.Proofs.MeantFiles
import TagDialect.Proofs.RewrittenFiles
import TagDialect.ByteScanner
import TagDialect.Proofs.CheckedScans
import TagDialect.Proofs.ByteReadings
import TagDialect.Proofs.ByteLengths
import TagDialect.Proofs.ByteScans
import TagDialect.Proofs.SafeTexts
import TagDialect.Proofs.SuffixRuns
import TagDialect.Proofs.UnclosedQuotes
import TagDialect.Proofs.SourceLines
import TagDialect.Proofs.CaretPlaces
import TagDialect.Proofs.WrittenStrings
import TagDialect.Proofs.EscapePlaces
import TagDialect.Proofs.WrittenNames
import TagDialect.Proofs.SpacedTexts
import TagDialect.Proofs.StatementTails
import TagDialect.Proofs.TrailingMarks
import TagDialect.Proofs.LineLookup
import TagDialect.Proofs.SeparateInputs
import TagDialect.LoopingParser
import TagDialect.Proofs.LoopEnds
import TagDialect.Proofs.CursorPlaces
