import TapePuzzle.Proofs.Reading.Statements
import TapePuzzle.Session
import TapePuzzle.Proofs.Execution.Control
import TapePuzzle.Proofs.Reading.Declarations
import TapePuzzle.Proofs.Reading.Places
import TapePuzzle.Proofs.Reading.Words
import TapePuzzle.Proofs.Reading.Layouts
import TapePuzzle.Proofs.Reading.Heading
import TapePuzzle.Proofs.Reading.Programs
import TapePuzzle.Proofs.Execution.Evaluation
import TapePuzzle.Proofs.Execution.Runs
import TapePuzzle.Proofs.Execution.Journal
import TapePuzzle.Proofs.Execution.Progress
import TapePuzzle.Proofs.OpenBlocks
import TapePuzzle.Proofs.Safety
import TapePuzzle.Proofs.EarlyFailure
import TapePuzzle.Proofs.Sessions
import TapePuzzle.Proofs.Assemblies
import TapePuzzle.Proofs.BlockStructure
import TapePuzzle.Proofs.LockedValues
import TapePuzzle.Proofs.Structure.Tree
import TapePuzzle.Proofs.ValueRange
import TapePuzzle.Proofs.Structure.Walk
import TapePuzzle.Proofs.Structure.Steps
import TapePuzzle.Proofs.Structure.Simulation
import TapePuzzle.Proofs.StructuredRuns
import TapePuzzle.Proofs.Reading.Changes
import TapePuzzle.Proofs.Reading.NameRoles
import TapePuzzle.Proofs.Replay
import TapePuzzle.Proofs.Writing.Symbols
import TapePuzzle.Proofs.Writing.Equations
import TapePuzzle.Proofs.Writing.Statements
import TapePuzzle.Proofs.Writing.Lines
import TapePuzzle.Proofs.Writing.Drafts
import TapePuzzle.Proofs.RoundTrip
import TapePuzzle.Proofs.LineLimits
import TapePuzzle.Proofs.Grammar.Trees
import TapePuzzle.Proofs.Execution.Spread
import TapePuzzle.Proofs.Reading.Agreement
import TapePuzzle.Proofs.SilentLines
import TapePuzzle.Proofs.Reading.DeclarationPlaces
import TapePuzzle.Proofs.Reading.MovedDown
import TapePuzzle.Proofs.LintPlaces
import TapePuzzle.Proofs.Reading.TwoHeadings
import TapePuzzle.Proofs.CaseIndependence
import TapePuzzle.Proofs.NameResolution
import TapePuzzle.Proofs.RingArithmetic
import TapePuzzle.Proofs.OperatorTrees
import TapePuzzle.Proofs.Reading.Causes
import TapePuzzle.Proofs.Reading.LineByLine
import TapePuzzle.Proofs.LineReports
import TapePuzzle.Proofs.ErrorLocality
import TapePuzzle.Proofs.IndentationLevels
import TapePuzzle.Proofs.Reading.Bytes
import TapePuzzle.Proofs.CursorMoves
import TapePuzzle.Proofs.DataLines
import TapePuzzle.Proofs.Reading.TreePlaces
import TapePuzzle.Proofs.SourcePlaces
