import Machining.Files.Directory
import Machining.Main
import Machining.Program.Edit
import Machining.Program.Journal
import Machining.Proofs.LineEnds
import Machining.Proofs.Runs
import Machining.Proofs.Division
import Machining.Proofs.Segmentation
import Machining.Proofs.Reversal
import Machining.Proofs.Placement
import Machining.Proofs.Repetition
import Machining.Proofs.Boundaries
import Machining.Proofs.Closing
import Machining.Proofs.Reading
import Machining.Proofs.Numbering
import Machining.Proofs.Reordering
import Machining.Proofs.Editing
import Machining.Proofs.Locality
import Machining.Proofs.IdleLines
import Machining.Proofs.ClosingMarker
import Machining.Proofs.LetterCase
import Machining.Proofs.FoldedLines
import Machining.Proofs.FoldedPrograms
import Machining.Proofs.DividedOperations
import Machining.Proofs.Phases
import Machining.Proofs.Palindromes
import Machining.Proofs.Sentinel
import Machining.Proofs.Merging
import Machining.Proofs.Numerals
import Machining.Proofs.Pieces
import Machining.Proofs.ParsingExpressions
import Machining.Proofs.LineGrammar
import Machining.Proofs.Rows
import Machining.Proofs.Lexing
import Machining.Proofs.WholeWords
import Machining.Proofs.Seams
import Machining.Proofs.Remarks
import Machining.Proofs.LeadingZeros
import Machining.Proofs.CodeValues
import Machining.Proofs.CanonicalCodes
import Machining.Proofs.Headings
import Machining.Proofs.ByteLines
import Machining.Proofs.Writings
import Machining.Proofs.JournalRecords
import Machining.Proofs.PreviewTable
import Machining.Proofs.JsonPrograms
import Machining.Proofs.CommandRuns
