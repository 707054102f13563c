import SlotLisp.Atom
import SlotLisp.Batch
import SlotLisp.Binary32
import SlotLisp.Closure
import SlotLisp.CommandLine
import SlotLisp.Decimal
import SlotLisp.Evaluation.Basic
import SlotLisp.Evaluation.Builtins
import SlotLisp.Evaluation.Machine
import SlotLisp.Globals
import SlotLisp.Host
import SlotLisp.Log
import SlotLisp.Main
import SlotLisp.Printer
import SlotLisp.Reader
import SlotLisp.Repl
import SlotLisp.Text
import SlotLisp.Proofs.Outcome
import SlotLisp.Proofs.Expression
import SlotLisp.Proofs.Substitution
import SlotLisp.Proofs.PureEvaluation
import SlotLisp.Proofs.Numeral
import SlotLisp.Proofs.Rounding
import SlotLisp.Proofs.Grammar
import SlotLisp.Proofs.ArgumentPolicies
import SlotLisp.Proofs.Symbols
import SlotLisp.Proofs.Congruence
import SlotLisp.Proofs.Levels
import SlotLisp.Proofs.PassingOn
import SlotLisp.Proofs.StepMachine
import SlotLisp.Proofs.Significant
import SlotLisp.Proofs.NumberText
import SlotLisp.Proofs.Balance
import SlotLisp.Proofs.RoundTrip
import SlotLisp.Proofs.Journal
import SlotLisp.Proofs.PipedSession
import SlotLisp.Proofs.Parenthesized
import SlotLisp.Proofs.RaisedLimit
import SlotLisp.Proofs.UnnamedGlobal
import SlotLisp.Proofs.Concatenation
import SlotLisp.Proofs.DebugText
import SlotLisp.Proofs.NestedProgram
import SlotLisp.Proofs.SourceIsolation
import SlotLisp.Proofs.OpenLists
import SlotLisp.Proofs.FaithfulNumbers
import SlotLisp.Proofs.NestedLambda
import SlotLisp.Proofs.LevelsNeeded
import SlotLisp.Proofs.Equality
import SlotLisp.Proofs.ReadErrors
import SlotLisp.Proofs.ErrorPositions
import SlotLisp.Proofs.FinalErrors
import SlotLisp.Proofs.FirstFailure
import SlotLisp.Proofs.Product
import SlotLisp.Proofs.LimitTexts
import SlotLisp.Proofs.ObjectNames
import SlotLisp.Proofs.Renaming
import SlotLisp.Proofs.MappedCalls
import SlotLisp.Proofs.OptionSpellings
