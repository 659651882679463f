import PrimeLanguage.Word
import PrimeLanguage.Prime.Oracle
import PrimeLanguage.Prime.Basic
import PrimeLanguage.Prime.Search
import PrimeLanguage.Term.Fusion
import PrimeLanguage.Term.Basic
import PrimeLanguage.Term.Equality
import PrimeLanguage.Term.Print
import PrimeLanguage.Term.Parse
import PrimeLanguage.Typing.Basic
import PrimeLanguage.Lambda.Expr
import PrimeLanguage.Reduction.Rule
import PrimeLanguage.Error
import PrimeLanguage.Operator.Basic
import PrimeLanguage.Operator.Modulus
import PrimeLanguage.Operator.Builtin
import PrimeLanguage.Operator.Table
import PrimeLanguage.Typing.Context
import PrimeLanguage.Typing.Infer
import PrimeLanguage.Reduction.Step
import PrimeLanguage.Reduction.Engine
import PrimeLanguage.Reduction.Measure
import PrimeLanguage.Reduction.Confluence
import PrimeLanguage.Lambda.NameSupply
import PrimeLanguage.Lambda.Substitution
import PrimeLanguage.Lambda.Evaluation
import PrimeLanguage.Lambda.Meaning
import PrimeLanguage.Semantics
import PrimeLanguage.Triad.Basic
import PrimeLanguage.Triad.Score
import PrimeLanguage.Triad.Canonical
import PrimeLanguage.Settings.Value
import PrimeLanguage.Settings.Engine
import PrimeLanguage.Json.Basic
import PrimeLanguage.Json.Language
import PrimeLanguage.Settings.Toml.Quoted
import PrimeLanguage.Settings.Toml.Scalar
import PrimeLanguage.Settings.Toml.Table
import PrimeLanguage.Settings.Toml
import PrimeLanguage.Text.Printable
import PrimeLanguage.Text.Quoted
import PrimeLanguage.Conformance.Report
import PrimeLanguage.Conformance.Corpus
import PrimeLanguage.Conformance.SyntaxChecks
import PrimeLanguage.Conformance.TypingChecks
import PrimeLanguage.Conformance.ReductionChecks
import PrimeLanguage.Conformance.ConfluenceChecks
import PrimeLanguage.Conformance.SemanticsChecks
import PrimeLanguage.Conformance.TriadChecks
import PrimeLanguage.Conformance.Suite
import PrimeLanguage.Text.Record
import PrimeLanguage.CommandLine.Arguments
import PrimeLanguage.CommandLine.Result
import PrimeLanguage.CommandLine.Evaluate
import PrimeLanguage.CommandLine.Conform
import PrimeLanguage.CommandLine.Program
import PrimeLanguage.Main
import PrimeLanguage.Proofs.Results
import PrimeLanguage.Proofs.Prime.Oracle
import PrimeLanguage.Proofs.Prime.Search
import PrimeLanguage.Proofs.Operator.Refusal
import PrimeLanguage.Proofs.Operator.Values
import PrimeLanguage.Proofs.Operator.Nearest
import PrimeLanguage.Proofs.Term.Reading
import PrimeLanguage.Proofs.Term.Grammar
import PrimeLanguage.Proofs.Reduction.Position
import PrimeLanguage.Proofs.Reduction.Redex
import PrimeLanguage.Proofs.Reduction.BigStep
import PrimeLanguage.Proofs.Reduction.Run
import PrimeLanguage.Proofs.Reduction.Leaves
import PrimeLanguage.Proofs.Reduction.Confluence
import PrimeLanguage.Proofs.Lambda.Steps
import PrimeLanguage.Proofs.Lambda.Blame
import PrimeLanguage.Proofs.Lambda.Adequacy
import PrimeLanguage.Proofs.Lambda.Nameless
import PrimeLanguage.Proofs.Lambda.Substitution
import PrimeLanguage.Proofs.Lambda.Renaming
import PrimeLanguage.Proofs.Lambda.AlphaEquality
import PrimeLanguage.Proofs.Reduction.Accounting
import PrimeLanguage.Proofs.Reduction.Record
import PrimeLanguage.Proofs.Reduction.Evaluation
import PrimeLanguage.Proofs.Reduction.Successors
import PrimeLanguage.Proofs.Reduction.Reducible
import PrimeLanguage.Proofs.Semantics.Agreement
import PrimeLanguage.Proofs.Semantics.Failure
import PrimeLanguage.Proofs.Typing.Derivation
import PrimeLanguage.Proofs.Typing.Soundness
import PrimeLanguage.Proofs.Semantics.Equivalence
import PrimeLanguage.Proofs.Semantics.Budget
import PrimeLanguage.Proofs.Term.Acceptance
import PrimeLanguage.Proofs.Term.Printing
import PrimeLanguage.Proofs.Term.RoundTrip
import PrimeLanguage.Proofs.Term.Signature
import PrimeLanguage.Proofs.Term.Faults
import PrimeLanguage.Proofs.Reduction.Congruence
import PrimeLanguage.Proofs.Semantics.Orientation
import PrimeLanguage.Proofs.Triad.Enumeration
import PrimeLanguage.Proofs.Triad.Replacement
import PrimeLanguage.Proofs.Triad.Canonical
import PrimeLanguage.Proofs.Triad.Exactness
import PrimeLanguage.Proofs.Triad.Selection
import PrimeLanguage.Proofs.Reduction.Countdown
import PrimeLanguage.Proofs.Reduction.Progress
import PrimeLanguage.Proofs.Reduction.Exploration
import PrimeLanguage.Proofs.Reduction.Report
import PrimeLanguage.Proofs.Reduction.ExplorationBudget
import PrimeLanguage.Proofs.Typing.Annotation
import PrimeLanguage.Proofs.Triad.Memory
import PrimeLanguage.Proofs.Operator.Growth
import PrimeLanguage.Proofs.Conformance.Corpus
import PrimeLanguage.Proofs.Conformance.Checks
import PrimeLanguage.Proofs.Conformance.Suite
import PrimeLanguage.Proofs.Prime.Enumeration
import PrimeLanguage.Proofs.Lambda.FreshNames
import PrimeLanguage.Proofs.Json.Reading
import PrimeLanguage.Proofs.CommandLine.OutputModes
import PrimeLanguage.Proofs.Lambda.Uniformity
import PrimeLanguage.Proofs.Json.Language
