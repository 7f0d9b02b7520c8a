import TapePuzzle.Language.Vocabulary
import TapePuzzle.Text.Blank

/-!
# Block structure from leading blanks

A level of nesting is the literal blanks by which its first line goes deeper than its header.
Columns are never counted: a line belongs to a level exactly if its leading blanks are the
fragments of that level and of those around it, one after the other.
-/

namespace TapePuzzle

/-- What is wrong with the leading blanks of a line. -/
inductive IndentIssue where
  | unexpectedPattern
  | expectedIncrease
  | unexpectedIncrease
  deriving DecidableEq, Repr

def IndentIssue.message : IndentIssue → String
  | unexpectedPattern => "unexpected indentation pattern"
  | expectedIncrease => "expected indentation increase"
  | unexpectedIncrease => "unexpected indentation increase"

/-- One level of nesting. -/
structure Fragment where
  blanks : List Char
  opener : BlockKind
  deriving DecidableEq, Repr

/-- Where an accepted line stands. -/
structure Placement where
  /-- Number of blocks around the line. -/
  level : Nat
  /-- What the line is no longer inside of, from the inside out. -/
  closed : List BlockKind
  deriving DecidableEq, Repr

/-- Whether the outermost block that ended was opened by `if`, so that an `else` may follow. -/
def Placement.closedIf (p : Placement) : Bool := p.closed.getLast? = some .ifBlock

/-- The levels of nesting around the line read last, and the block whose first line is due. -/
structure Indentation where
  /-- Outermost first. -/
  fragments : List Fragment := []
  pending : Option BlockKind := none
  deriving DecidableEq, Repr

namespace Indentation

/-- Number of blocks around the line read last. -/
def level (ind : Indentation) : Nat := ind.fragments.length

/-- All the blanks of the current level. -/
def blanks (ind : Indentation) : List Char := ind.fragments.flatMap Fragment.blanks

/-- Makes a block of the given kind due: the next line has to be its first. -/
def expectBlock (ind : Indentation) (kind : BlockKind) : Indentation :=
  { ind with pending := some kind }

/-- The fragments that `blanks` spells out, and the others. -/
def spell : List Fragment → List Char → Except IndentIssue (List Fragment × List Fragment)
  | fragments, [] => .ok ([], fragments)
  | [], _ :: _ => .error .unexpectedIncrease
  | fragment :: fragments, blanks =>
      match after? fragment.blanks blanks with
      | none => .error .unexpectedPattern
      | some rest => do
          let (kept, dropped) ← spell fragments rest
          .ok (fragment :: kept, dropped)

/-- Accepts the first line of a block: its blanks must go on after those of the current level. -/
def enter (fragments : List Fragment) (kind : BlockKind) (blanks : List Char) :
    Except IndentIssue (Placement × List Fragment) :=
  match after? (fragments.flatMap Fragment.blanks) blanks with
  | none => .error .unexpectedPattern
  | some [] => .error .expectedIncrease
  | some extra => .ok (⟨fragments.length + 1, []⟩, fragments ++ [⟨extra, kind⟩])

/-- Accepts a line of an open block, and closes the blocks that it is outside of. -/
def stay (fragments : List Fragment) (blanks : List Char) :
    Except IndentIssue (Placement × List Fragment) := do
  let (kept, dropped) ← spell fragments blanks
  .ok (⟨kept.length, dropped.reverse.map Fragment.opener⟩, kept)

/-- Accepts or refuses the leading blanks of the next line. No block is due afterwards, and a
    refused line changes nothing else. -/
def track (ind : Indentation) (blanks : List Char) :
    Except IndentIssue Placement × Indentation :=
  let accepted :=
    match ind.pending with
    | some kind => enter ind.fragments kind blanks
    | none => stay ind.fragments blanks
  match accepted with
  | .ok (placement, fragments) => (.ok placement, ⟨fragments, none⟩)
  | .error issue => (.error issue, ⟨ind.fragments, none⟩)

end Indentation

end TapePuzzle
