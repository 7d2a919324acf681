import MonkeyFrontend.Location
import MonkeyFrontend.Numeral
import MonkeyFrontend.Token
import MonkeyFrontend.Diagnostic
import MonkeyFrontend.Lexeme
import MonkeyFrontend.Lexeme.Cut
import MonkeyFrontend.Lexeme.Scan
import MonkeyFrontend.Tree.Basic
import MonkeyFrontend.Tree.Write
import MonkeyFrontend.Precedence
import MonkeyFrontend.Event
import MonkeyFrontend.Parsing.Cursor
import MonkeyFrontend.Parsing.Outcome
import MonkeyFrontend.Parsing.Expression
import MonkeyFrontend.Parsing.Statement
import MonkeyFrontend.Parsing.Segment
import MonkeyFrontend.Parsing.Program
import MonkeyFrontend.Session.Request
import MonkeyFrontend.Session.Transcript
import MonkeyFrontend.Session.Prompt
import MonkeyFrontend.Session.File
import MonkeyFrontend.Session.Run
import MonkeyFrontend.Main
import MonkeyFrontend.Proofs.Grammar.Phrase
import MonkeyFrontend.Proofs.Grammar.Sentence
import MonkeyFrontend.Proofs.Parsing.Outcome
import MonkeyFrontend.Proofs.Parsing.Expression
import MonkeyFrontend.Proofs.Parsing.Completeness
import MonkeyFrontend.Proofs.Parsing.Confinement
import MonkeyFrontend.Proofs.Parsing.Derivation
import MonkeyFrontend.Proofs.Parsing.Soundness
import MonkeyFrontend.Proofs.Parsing.Recovery
import MonkeyFrontend.Proofs.Parsing.Locality
import MonkeyFrontend.Proofs.Lexeme.Lexicon
import MonkeyFrontend.Proofs.Lexeme.Spelling
import MonkeyFrontend.Proofs.Tree.Canonical
import MonkeyFrontend.Proofs.Parsing.Acceptance
import MonkeyFrontend.Proofs.RoundTrip
import MonkeyFrontend.Proofs.Parsing.Wholeness
import MonkeyFrontend.Proofs.Parsing.Height
import MonkeyFrontend.Proofs.Lexeme.Layout
import MonkeyFrontend.Proofs.Parsing.Mending
import MonkeyFrontend.Proofs.Parsing.Salvage
import MonkeyFrontend.Proofs.Lexeme.Vocabulary
import MonkeyFrontend.Proofs.Tree.Unambiguity
import MonkeyFrontend.Proofs.Parsing.Lookahead
import MonkeyFrontend.Proofs.Parsing.Overrun
import MonkeyFrontend.Proofs.Parsing.Viability
import MonkeyFrontend.Proofs.Parsing.Diagnosis
import MonkeyFrontend.Proofs.Parsing.SourceOrder
import MonkeyFrontend.Proofs.Parsing.Machine
import MonkeyFrontend.Proofs.Parsing.Depth
import MonkeyFrontend.Proofs.Parsing.Relocation
import MonkeyFrontend.Proofs.Lexeme.Lexed
import MonkeyFrontend.Proofs.Session.Lines
import MonkeyFrontend.Proofs.Session.Independence
import MonkeyFrontend.Proofs.Session.Agreement
import MonkeyFrontend.Proofs.Lexeme.Alphabet
import MonkeyFrontend.Proofs.Tree.FirstGap
import MonkeyFrontend.Proofs.Parsing.Ending
import MonkeyFrontend.Proofs.Parsing.Termination
import MonkeyFrontend.Proofs.Parsing.Chronicle
import MonkeyFrontend.Proofs.Parsing.Budget
import MonkeyFrontend.Proofs.Tree.Completion
import MonkeyFrontend.Proofs.Numeral
import MonkeyFrontend.Proofs.Parsing.Literal
import MonkeyFrontend.Proofs.Lexeme.Composition
import MonkeyFrontend.Proofs.Report
import MonkeyFrontend.Proofs.Parsing.Readback
