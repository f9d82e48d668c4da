import Scorecard.Calendar.Notation
import Scorecard.Calendar.Range
import Scorecard.CommandLine.Execution
import Scorecard.Consolidation.Run
import Scorecard.Consolidation.Summary
import Scorecard.Dependency.Order
import Scorecard.Formula.Source
import Scorecard.Kpi.Target
import Scorecard.Main
import Scorecard.Proofs.Calendar.Rounding
import Scorecard.Proofs.Consolidation.Observations
import Scorecard.Proofs.Dependency.Order
import Scorecard.Proofs.Formula.Faults
import Scorecard.Proofs.Formula.Balance
import Scorecard.Proofs.Formula.Inlining
import Scorecard.Proofs.Consolidation.Meaning
import Scorecard.Proofs.Consolidation.Inlining
import Scorecard.Proofs.Consolidation.Tiling
import Scorecard.Proofs.Consolidation.Influence
import Scorecard.Proofs.Consolidation.Rearrangement
import Scorecard.Proofs.Dependency.Diagram
import Scorecard.Proofs.Formula.Lexemes
import Scorecard.Proofs.Calendar.Counting
import Scorecard.Proofs.Formula.Caching
import Scorecard.Proofs.Consolidation.Outcomes
import Scorecard.Proofs.Consolidation.Strictness
import Scorecard.Proofs.Consolidation.Accounts
import Scorecard.Proofs.Consolidation.Valuation
import Scorecard.Proofs.Calendar.Cutting
import Scorecard.Proofs.Consolidation.Requirements
import Scorecard.Proofs.Consolidation.Adjoining
import Scorecard.Proofs.Formula.Blame
import Scorecard.Calendar.Advance
import Scorecard.Proofs.Formula.Positions
import Scorecard.Proofs.Calendar.Advancing
import Scorecard.Proofs.Calendar.Walking
import Scorecard.Proofs.Calendar.Closing
import Scorecard.Proofs.Calendar.Coarsening
import Scorecard.Proofs.Dependency.Recursion
import Scorecard.Proofs.Formula.Relocation
import Scorecard.Proofs.Formula.Spacing
import Scorecard.Proofs.Formula.Prefetching
import Scorecard.Proofs.Formula.Registration
import Scorecard.Proofs.Number.Exact
import Scorecard.Proofs.Consolidation.Aggregates
import Scorecard.Proofs.Calendar.Notation
import Scorecard.Proofs.CommandLine.Resuming
import Scorecard.Proofs.Dependency.Effort
import Scorecard.Proofs.Formula.Stack
import Scorecard.Proofs.CommandLine.Writing
import Scorecard.Proofs.Decimal.Reading
import Scorecard.Proofs.CommandLine.References
