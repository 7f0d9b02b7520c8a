import TapePuzzle.Execution.Run
import TapePuzzle.Puzzle.Decoding
import TapePuzzle.Puzzle.Submission
import TapePuzzle.Reading.Program

/-!
# Sessions

A session shows one puzzle and steps through one of its test cases. When that case passes, the
submission is run on all other cases as well, and the verdict says if one of them does not pass.
-/

namespace TapePuzzle

/-- What a session says about the run it shows. -/
inductive Verdict where
  | status (status : Status)
  /-- The run passes, but test case `failing` does not. -/
  | dubious (failing : Nat)
  deriving DecidableEq, Repr

def Verdict.label : Verdict → String
  | status s => s.label
  | dubious _ => "DUBIOUS"

/-- The result of running a submission on one test case to its end. -/
structure CaseResult where
  caseIndex : Nat
  status : Status
  message : Option String
  deriving DecidableEq, Repr

def CaseResult.passed (result : CaseResult) : Bool := result.status = .success

/-- A submission being run on one test case. -/
structure Attempt where
  submission : Submission
  caseIndex : Nat
  assembly : Assembly
  program : Program
  run : Run
  /-- A test case that does not pass although this one does. -/
  failing : Option Nat := none
  deriving DecidableEq, Repr

/-- A puzzle and the attempt at it that is shown. -/
structure Session where
  puzzle : Puzzle
  /-- The most lines that runs started from now on execute. -/
  lineLimit : Nat := defaultLineLimit
  attempt : Option Attempt := none
  deriving DecidableEq, Repr

/-- What is shown of a session. -/
structure SessionState where
  verdict : Verdict
  caseIndex : Option Nat
  snapshot : Option Snapshot
  deriving DecidableEq, Repr

/-- The refusal of an attempt at a test case beyond the last one. -/
structure NoSuchCase where
  index : Nat
  count : Nat
  deriving DecidableEq, Repr

def NoSuchCase.message (e : NoSuchCase) : String :=
  s!"test case {e.index} does not exist; the puzzle has {e.count}"

/-- The start of an attempt at a test case. -/
def Attempt.start (puzzle : Puzzle) (limit : Nat) (submission : Submission) (caseIndex : Nat)
    (case : TestCase) : Attempt :=
  let assembly := Assembly.build puzzle case submission
  let program := Program.read assembly.source
  { submission := submission
    caseIndex := caseIndex
    assembly := assembly
    program := program
    run := Run.start program case limit }

/-- Runs a submission on a test case to its end. -/
def runCase (puzzle : Puzzle) (limit : Nat) (submission : Submission) (caseIndex : Nat)
    (case : TestCase) : CaseResult :=
  let run := (Attempt.start puzzle limit submission caseIndex case).run.complete
  ⟨caseIndex, run.status, run.message?⟩

/-- Runs a submission on all test cases of a puzzle. -/
def runCases (puzzle : Puzzle) (limit : Nat) (submission : Submission) : List CaseResult :=
  puzzle.testCases.zipIdx.map fun (case, index) => runCase puzzle limit submission index case

/-- The first test case other than `shown` that does not pass. -/
def firstFailing? (puzzle : Puzzle) (limit : Nat) (submission : Submission) (shown : Nat) :
    Option Nat :=
  let others := puzzle.testCases.zipIdx.filter fun (_, index) => index ≠ shown
  let failing? := others.find? fun (case, index) =>
    !(runCase puzzle limit submission index case).passed
  failing?.map Prod.snd

namespace Attempt

/-- One step. When it makes the run pass, all other test cases are run too. -/
def step (puzzle : Puzzle) (limit : Nat) (a : Attempt) : Attempt :=
  let run := a.run.step
  if !a.run.isOver && run.status = .success then
    { a with run := run, failing := firstFailing? puzzle limit a.submission a.caseIndex }
  else { a with run := run }

/-- At most `count` steps, until the run is over. -/
def steps (puzzle : Puzzle) (limit : Nat) : (count : Nat) → Attempt → Attempt
  | 0, a => a
  | count + 1, a => if a.run.isOver then a else steps puzzle limit count (a.step puzzle limit)

def verdict (a : Attempt) : Verdict :=
  match a.failing with
  | some index => .dubious index
  | none => .status a.run.status

end Attempt

namespace Session

/-- Opens a puzzle file. -/
def open? (file : String) : Except PuzzleError Session := do
  return { puzzle := ← Puzzle.ofString file }

/-- Sets the line limit of runs started from now on. -/
def withLimit (s : Session) (limit : Nat) : Session := { s with lineLimit := limit }

/-- Starts an attempt at a test case in place of the one shown. -/
def begin (s : Session) (submission : Submission) (caseIndex : Nat) :
    Except NoSuchCase Session :=
  match s.puzzle.testCases[caseIndex]? with
  | none => .error ⟨caseIndex, s.puzzle.testCases.length⟩
  | some case =>
      .ok { s with attempt := some (Attempt.start s.puzzle s.lineLimit submission caseIndex case) }

/-- One step of the attempt shown. -/
def step (s : Session) : Session :=
  { s with attempt := s.attempt.map (Attempt.step s.puzzle s.lineLimit) }

/-- Steps until the run shown is over. -/
def run (s : Session) : Session :=
  { s with
    attempt := s.attempt.map fun a =>
      a.steps s.puzzle s.lineLimit (a.run.limit + 1 - a.run.executed) }

/-- The journal of the latest step. -/
def events (s : Session) : List Event :=
  match s.attempt with
  | none => []
  | some a => a.run.events

def state (s : Session) : SessionState :=
  match s.attempt with
  | none => ⟨.status .new, none, none⟩
  | some a => ⟨a.verdict, some a.caseIndex, some a.run.snapshot⟩

/-- The results of the submission on all test cases. -/
def checkAll (s : Session) : List CaseResult :=
  match s.attempt with
  | none => []
  | some a => runCases s.puzzle s.lineLimit a.submission

/-- What is wrong with the submission shown, in the line numbers that the learner sees: their own
    text begins on line one, and everything above it is line zero. -/
def lint (s : Session) : List Diagnostic :=
  match s.attempt with
  | none => []
  | some a => a.program.diagnostics.map fun d => d.rebased a.assembly.offset

/-- The whole program text shown. -/
def source? (s : Session) : Option (List Char) := s.attempt.map fun a => a.assembly.source

end Session

end TapePuzzle
