import FormulaCode.CommandLine.Report
import FormulaCode.Machine
import FormulaCode.Main
import FormulaCode.Proofs.Evaluation
import FormulaCode.Proofs.Draft
import FormulaCode.Proofs.Group
import FormulaCode.Proofs.Lockstep
import FormulaCode.Proofs.Following
import FormulaCode.Proofs.Forming
import FormulaCode.Proofs.Reading
import FormulaCode.Proofs.Budget
import FormulaCode.Proofs.Lexing
import FormulaCode.Proofs.Counters
import FormulaCode.Proofs.Wording
import FormulaCode.Proofs.Simulation
import FormulaCode.Proofs.Acceptance
import FormulaCode.Proofs.Accepted
import FormulaCode.Proofs.Outcome
import FormulaCode.Proofs.Trees
import FormulaCode.Proofs.Correctness
import FormulaCode.Proofs.Grammar
import FormulaCode.Proofs.Postorder
import FormulaCode.Proofs.Totality
import FormulaCode.Proofs.Levels
import FormulaCode.Proofs.SafePrograms
import FormulaCode.Proofs.Jumps
import FormulaCode.Proofs.Decoding
import FormulaCode.Proofs.Emitting
import FormulaCode.Proofs.Boundaries
import FormulaCode.Proofs.Segments
import FormulaCode.Proofs.Sequence
import FormulaCode.Proofs.Course
import FormulaCode.Proofs.Capacity
import FormulaCode.Proofs.Tracking
import FormulaCode.Proofs.Diagnostics
import FormulaCode.Proofs.Limits
import FormulaCode.Proofs.Nesting
import FormulaCode.Proofs.Spelling
import FormulaCode.Proofs.Parentheses
import FormulaCode.Proofs.Extension
import FormulaCode.Proofs.Accounting
import FormulaCode.Proofs.Continuation
import FormulaCode.Proofs.Outline
import FormulaCode.Proofs.Likeness
import FormulaCode.Proofs.Respelling
import FormulaCode.Proofs.Scanning
import FormulaCode.Proofs.Numerals
import FormulaCode.Proofs.Refusal
import FormulaCode.Proofs.Caret
import FormulaCode.Proofs.Rounding
import FormulaCode.Proofs.Decimals
import FormulaCode.Proofs.Listings
import FormulaCode.Proofs.Documents
import FormulaCode.Proofs.Traces
import FormulaCode.Proofs.Records
import FormulaCode.Proofs.Waiting
import FormulaCode.Proofs.Straight
