import BinaryQuadratic.Loader
import BinaryQuadratic.Random.KeyStream
import BinaryQuadratic.Random.Scripted
import BinaryQuadratic.Solver
import BinaryQuadratic.Proofs.Quadratic
import BinaryQuadratic.Proofs.Objective
import BinaryQuadratic.Proofs.Tracking
import BinaryQuadratic.Proofs.Reduction
import BinaryQuadratic.Proofs.Attempt
import BinaryQuadratic.Proofs.Countdown
import BinaryQuadratic.Proofs.Iteration
import BinaryQuadratic.Proofs.IdleSkip
import BinaryQuadratic.Proofs.Repetition
import BinaryQuadratic.Proofs.Climb
import BinaryQuadratic.Proofs.Ascent
import BinaryQuadratic.Proofs.Sweeps
import BinaryQuadratic.Proofs.AscentLength
import BinaryQuadratic.Proofs.Shuffling
import BinaryQuadratic.Proofs.Ranking
import BinaryQuadratic.Proofs.Course
import BinaryQuadratic.Proofs.BestVisited
import BinaryQuadratic.Proofs.LocalOptimum
import BinaryQuadratic.Proofs.SearchLength
import BinaryQuadratic.Proofs.MachineNumbers
import BinaryQuadratic.Proofs.Negation
import BinaryQuadratic.Proofs.Passes
import BinaryQuadratic.Proofs.Answer
import BinaryQuadratic.Proofs.Decomposition
import BinaryQuadratic.Proofs.PassCount
import BinaryQuadratic.Proofs.TargetReached
import BinaryQuadratic.Proofs.Loading
import BinaryQuadratic.Proofs.Embedding
import BinaryQuadratic.Proofs.Transport
import BinaryQuadratic.Proofs.UnusedCells
import BinaryQuadratic.Proofs.Progression
import BinaryQuadratic.Proofs.Truncation
import BinaryQuadratic.Proofs.BudgetShift
import BinaryQuadratic.Proofs.BudgetGrowth
import BinaryQuadratic.Proofs.CeilingOverflow
import BinaryQuadratic.Proofs.LastSweep
import BinaryQuadratic.Proofs.Rounding
import BinaryQuadratic.Proofs.Shares
import BinaryQuadratic.Proofs.ExtensionRule
import BinaryQuadratic.Proofs.MoveSelection
import BinaryQuadratic.Proofs.TabuSpacing
import BinaryQuadratic.Proofs.RisingTrace
import BinaryQuadratic.Proofs.Scaling
import BinaryQuadratic.Proofs.Overflow
import BinaryQuadratic.Proofs.Indexed.Positions
import BinaryQuadratic.Proofs.Indexed.Evaluation
import BinaryQuadratic.Proofs.Indexed.Reduction
import BinaryQuadratic.Proofs.Indexed.Search
import BinaryQuadratic.Proofs.Indexed.Solver
import BinaryQuadratic.Proofs.Indexed.Loader
import BinaryQuadratic.Proofs.FaultyLines
import BinaryQuadratic.Proofs.DeclaredCounts
import BinaryQuadratic.Proofs.PairSum
import BinaryQuadratic.Proofs.RoundTrip
import BinaryQuadratic.Proofs.TotalOrder
import BinaryQuadratic.Proofs.CallHistory
import BinaryQuadratic.Proofs.Sampling
import BinaryQuadratic.Proofs.ExactValue
import BinaryQuadratic.Proofs.RandomChange
import BinaryQuadratic.Proofs.Tokens
import BinaryQuadratic.Proofs.Encoding
import BinaryQuadratic.Proofs.WrittenText
import BinaryQuadratic.Proofs.CellHistory
import BinaryQuadratic.Proofs.Layout
