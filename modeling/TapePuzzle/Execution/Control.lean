import TapePuzzle.Execution.Event
import TapePuzzle.Language.Program

/-!
# Which line comes next

Blocks have no end mark: a block ends where the depth of the lines falls below it. A run therefore
keeps the blocks around its position, and finds the next line from what the last one did and from
the depth of the lines around it. After the last line comes the first.
-/

namespace TapePuzzle

/-- A block that the position is inside of. -/
structure OpenBlock where
  /-- The line that opened the block. -/
  header : Nat
  kind : BlockKind
  deriving DecidableEq, Repr

/-- How the run goes on after the current line. -/
inductive Onward where
  /-- To the next line that is not deeper. -/
  | fallThrough
  /-- Into the block that the current line opens. -/
  | enterBlock
  /-- To the line after a label. -/
  | jumpTo (label : Nat)
  deriving DecidableEq, Repr

/-- The position of a run. Lines are counted from zero. -/
structure Control where
  /-- The line executed last. -/
  position : Option Nat := none
  onward : Onward := .fallThrough
  /-- The blocks around the position, innermost first. -/
  blocks : List OpenBlock := []
  deriving DecidableEq, Repr

namespace Control

/-- The depth of a line that has a statement. -/
def depthAt (lines : List Line) (index : Nat) : Except Defect Nat :=
  match lines[index]?.bind Line.depth? with
  | some depth => .ok depth
  | none => .error (.notAStatement index)

/-- The first line after `origin` that has a statement at an accepted depth. The search goes on
    from the first line after the last one, and `origin` itself comes last. -/
def nextCodeLine (lines : List Line) (accept : Nat → Bool) (origin : Nat) : Except Defect Nat :=
  let accepted (line : Line) : Bool := line.depth?.any accept
  match (lines.drop (origin + 1)).findIdx? accepted with
  | some distance => .ok (origin + 1 + distance)
  | none =>
      match lines.findIdx? accepted with
      | some index => .ok index
      | none => .error (.noLanding origin)

/-- The first line that has a statement. -/
def firstCodeLine (lines : List Line) : Except Defect Nat :=
  match lines.findIdx? Line.isCode with
  | some index => .ok index
  | none => .error .noStatements

/-- The next line after `origin` that is not deeper than it. -/
def landing (lines : List Line) (origin : Nat) : Except Defect Nat := do
  let depth ← depthAt lines origin
  nextCodeLine lines (· ≤ depth) origin

/-- Whether the line at `index` is an `else`. -/
def isElseAt (lines : List Line) (index : Nat) : Bool := lines[index]?.any Line.isElse

/-- Closes the blocks that `target` is outside of, innermost first. A closed `while` sends the run
    back to its header. A closed `if` whose `else` stands at `target` sends it past that `else`,
    where closing goes on. -/
def close (lines : List Line) : (target : Nat) → List OpenBlock →
    Except Defect (Nat × List OpenBlock)
  | target, [] => .ok (target, [])
  | target, block :: outer => do
      let depth ← depthAt lines target
      if outer.length < depth then .ok (target, block :: outer)
      else
        match block.kind with
        | .whileBlock => .ok (block.header, outer)
        | .ifBlock =>
            if outer.length = depth ∧ isElseAt lines target then do
              let next ← landing lines target
              close lines next outer
            else close lines target outer
        | .elseBlock => close lines target outer

/-- The headers of the `wanted` blocks around line `below`, innermost first. Above a line inside
    blocks, the nearest line that is one less deep is the header of the innermost block. -/
def enclosing (lines : List Line) (target : Nat) : (wanted below : Nat) →
    Except Defect (List OpenBlock)
  | 0, _ => .ok []
  | _ + 1, 0 => .error (.noHeader target)
  | wanted + 1, index + 1 =>
      match lines[index]? with
      | some (.code depth statement) =>
          if depth = wanted then
            match statement.opens? with
            | none => .error (.enclosedByStatement index)
            | some kind => do
                let outer ← enclosing lines target wanted index
                .ok (⟨index, kind⟩ :: outer)
          else enclosing lines target (wanted + 1) index
      | _ => enclosing lines target (wanted + 1) index

/-- Goes to the line after a label. -/
def jump (lines : List Line) (label : Nat) : Except Defect (Nat × List OpenBlock) := do
  let target ← nextCodeLine lines (fun _ => true) label
  let depth ← depthAt lines target
  let blocks ← enclosing lines target depth target
  .ok (target, blocks)

/-- Goes into the block that the line at `origin` opens. -/
def enter (lines : List Line) (origin : Nat) (blocks : List OpenBlock) :
    Except Defect (Nat × List OpenBlock) :=
  match (lines[origin]?.bind Line.statement?).bind Statement.opens? with
  | none => .error (.notAHeader origin)
  | some kind => do
      let target ← nextCodeLine lines (fun _ => true) origin
      .ok (target, ⟨origin, kind⟩ :: blocks)

/-- Goes on without entering a block. -/
def fallThrough (lines : List Line) (origin : Nat) (blocks : List OpenBlock) :
    Except Defect (Nat × List OpenBlock) := do
  let target ← landing lines origin
  close lines target blocks

/-- The next line and the blocks around it. -/
def next (lines : List Line) (c : Control) : Except Defect (Nat × List OpenBlock) :=
  match c.position, c.onward with
  | none, _ => do
      let index ← firstCodeLine lines
      .ok (index, c.blocks)
  | some _, .jumpTo label => jump lines label
  | some origin, .enterBlock => enter lines origin c.blocks
  | some origin, .fallThrough => fallThrough lines origin c.blocks

end Control

end TapePuzzle
