import SimpleLR.Text.Ranges
import SimpleLR.Text.Space
import SimpleLR.Text.Printable
import SimpleLR.Text.Quoted
import SimpleLR.Text.Digit
import SimpleLR.Grammar.Basic
import SimpleLR.Grammar.Token
import SimpleLR.Grammar.Reader
import SimpleLR.Grammar.Vocabulary
import SimpleLR.Item.Basic
import SimpleLR.Item.Closure
import SimpleLR.Automaton.Basic
import SimpleLR.Automaton.Queue
import SimpleLR.Lookahead.Reach
import SimpleLR.Lookahead.Sets
import SimpleLR.Lookahead.Context
import SimpleLR.Table.Action
import SimpleLR.Table.Basic
import SimpleLR.Table.Text
import SimpleLR.Recognizer
import SimpleLR.Analysis
import SimpleLR.Json
import SimpleLR.Analysis.Document
import SimpleLR.FileSystem.Path
import SimpleLR.FileSystem.Tree
import SimpleLR.Failure
import SimpleLR.Cli
import SimpleLR.Main
import SimpleLR.Proofs.CellCodec
import SimpleLR.Proofs.ItemKey
import SimpleLR.Proofs.Closure
import SimpleLR.Proofs.Automaton
import SimpleLR.Proofs.QueueOrder
import SimpleLR.Proofs.ReadGrammar
import SimpleLR.Proofs.TableLayout
import SimpleLR.Proofs.ConflictPolicy
import SimpleLR.Proofs.ViablePrefix
import SimpleLR.Proofs.RecognizerMoves
import SimpleLR.Proofs.RecognizerSound
import SimpleLR.Proofs.StepSafety
import SimpleLR.Proofs.AcceptCell
import SimpleLR.Proofs.LookaheadSets
import SimpleLR.Proofs.TableShape
import SimpleLR.Proofs.ReadFaults
import SimpleLR.Proofs.FollowSets
import SimpleLR.Proofs.Forests
import SimpleLR.Proofs.SeenStacks
import SimpleLR.Proofs.StepBudget
import SimpleLR.Proofs.UncheckedRuns
import SimpleLR.Proofs.ReduceCycles
import SimpleLR.Proofs.RecognizerComplete
import SimpleLR.Proofs.FirstSearch
import SimpleLR.Proofs.FollowSearch
import SimpleLR.Proofs.LookaheadContext
import SimpleLR.Proofs.AnalysisDefined
import SimpleLR.Proofs.ReadShape
import SimpleLR.Proofs.SymbolClasses
import SimpleLR.Proofs.NullableSymbols
import SimpleLR.Proofs.ScanLayout
import SimpleLR.Proofs.BlankLines
import SimpleLR.Proofs.StatePaths
