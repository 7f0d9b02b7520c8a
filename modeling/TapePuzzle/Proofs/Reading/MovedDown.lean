import TapePuzzle.Proofs.Reading.Layouts
import TapePuzzle.Reading.Program

/-!
# Lines that have moved down

A text that stands under more lines keeps its lines, only their numbers grow. Everything that is
read of a line carries its number, and nothing else depends on it. Main statement: the lines of a
text segment that has moved down are read as before, and all places in the answer have moved down
with them.
-/

namespace TapePuzzle

/-! ## Places that have moved down -/

/-- The span in a text that has `offset` more lines above it. -/
def Span.down (offset : Nat) (s : Span) : Span := { s with line := s.line + offset }

def Ident.down (offset : Nat) (ident : Ident) : Ident := ⟨ident.name, ident.span.down offset⟩

/-- The equation in a text that has `offset` more lines above it. -/
def Expr.down (offset : Nat) : Expr → Expr
  | number value s => number value (s.down offset)
  | slot name r s => slot (name.down offset) (r.down offset) (s.down offset)
  | slotAt name place r s =>
      slotAt (name.down offset) (place.down offset) (r.down offset) (s.down offset)
  | call function s => call function (s.down offset)
  | callWith function argument s => callWith function (argument.down offset) (s.down offset)
  | method object verb s => method (object.down offset) verb (s.down offset)
  | methodWith object verb argument s =>
      methodWith (object.down offset) verb (argument.down offset) (s.down offset)
  | binary left op right s => binary (left.down offset) op (right.down offset) (s.down offset)
  | unary op operand s => unary op (operand.down offset) (s.down offset)

def SlotRef.down (offset : Nat) (slot : SlotRef) : SlotRef :=
  ⟨slot.name.down offset, slot.offset.map (Expr.down offset), slot.span.down offset⟩

/-- The run whose operands have moved down. -/
def OperatorRun.down (offset : Nat) (run : OperatorRun) : OperatorRun :=
  run.map (Prod.map id (Expr.down offset))

def Action.down (offset : Nat) : Action → Action
  | assign target value => assign (target.down offset) (value.down offset)
  | evaluate equation => evaluate (equation.down offset)
  | ifTrue condition => ifTrue (condition.down offset)
  | otherwise => otherwise
  | whileTrue condition => whileTrue (condition.down offset)
  | jump label => jump (label.down offset)

def Statement.down (offset : Nat) (s : Statement) : Statement :=
  ⟨s.action.down offset, s.span.down offset⟩

/-- What a line comes to in a text that has `offset` more lines above it. -/
def Line.down (offset : Nat) : Line → Line
  | silent => silent
  | code depth statement => code depth (statement.down offset)

def Finding.down (offset : Nat) (finding : Finding) : Finding :=
  ⟨finding.issue, finding.span.down offset⟩

/-- The same position on a line that has moved down. -/
def Cursor.down (offset : Nat) (c : Cursor) : Cursor :=
  { c with lineNumber := c.lineNumber + offset }

variable {offset : Nat}

theorem Span.merge_down (a b : Span) :
    (a.down offset).merge (b.down offset) = (a.merge b).down offset := by
  unfold merge down
  simp only [Nat.add_right_cancel_iff, Nat.add_lt_add_iff_right]
  split
  · rfl
  · split <;> rfl

theorem Expr.span_down (e : Expr) : (e.down offset).span = e.span.down offset := by
  cases e <;> rfl

theorem Expr.withSpan_down (s : Span) (e : Expr) :
    (e.down offset).withSpan (s.down offset) = (e.withSpan s).down offset := by
  cases e <;> rfl

theorem Expr.isNumber_down (e : Expr) : (e.down offset).isNumber = e.isNumber := by
  cases e <;> rfl

theorem SlotRef.toExpr_down (slot : SlotRef) (s : Span) :
    (slot.down offset).toExpr (s.down offset) = (slot.toExpr s).down offset := by
  obtain ⟨name, place?, span⟩ := slot
  cases place? <;> rfl

/-! ## Answers that have moved down -/

/-- The answer of a reader on a line that has moved down; `move` moves what was read. -/
def Checked.down {α : Type} (offset : Nat) (move : α → α) : Checked α → Checked α
  | .ok answer => .ok (move answer)
  | .error finding => .error (finding.down offset)

theorem Checked.down_ite {α : Type} {move : α → α} {p : Prop} [Decidable p]
    (result other : Checked α) :
    (if p then result else other).down offset move =
      if p then result.down offset move else other.down offset move := by
  split <;> rfl

/-- What was read, together with the position behind it. -/
def movePast {α : Type} (offset : Nat) (move : α → α) (answer : α × Cursor) : α × Cursor :=
  (move answer.1, answer.2.down offset)

section Binding

variable {α β : Type} {move : α → α} {move' : β → β} {result : Checked α}

/-- Readers that go on alike after answers that have moved down end alike. -/
theorem Checked.bind_down {next next' : α → Checked β}
    (h : ∀ answer, next' (move answer) = (next answer).down offset move') :
    result.down offset move >>= next' = (result >>= next).down offset move' := by
  cases result with
  | ok answer => exact h answer
  | error finding => rfl

end Binding

/-! ## Cursors -/

namespace Cursor

variable (c : Cursor)

@[simp] theorem rest_down : (c.down offset).rest = c.rest := rfl

@[simp] theorem word_down : (c.down offset).word = c.word := rfl

@[simp] theorem offset_down : (c.down offset).offset = c.offset := rfl

theorem spanFrom_down (start : Nat) :
    (c.down offset).spanFrom start = (c.spanFrom start).down offset := rfl

@[simp] theorem skipBlanks_down : (c.down offset).skipBlanks = c.skipBlanks.down offset := rfl

@[simp] theorem sees_down (p : Pattern) : (c.down offset).sees p = c.sees p := rfl

theorem eat?_down (p : Pattern) :
    (c.down offset).eat? p = (c.eat? p).map (Cursor.down offset) := by
  unfold eat?
  rw [Option.map_map]
  rfl

theorem eatFirst?_down {α : Type} (pattern : α → Pattern) (choices : List α) :
    (c.down offset).eatFirst? pattern choices =
      (c.eatFirst? pattern choices).map (Prod.map id (Cursor.down offset)) := by
  induction choices with
  | nil => rfl
  | cons choice choices ih =>
      simp only [eatFirst?, eat?_down]
      cases c.eat? (pattern choice) with
      | none => exact ih
      | some past => rfl

theorem expect_down (wanted : String) :
    (c.down offset).expect wanted = (c.expect wanted).down offset (Cursor.down offset) := by
  unfold expect
  rw [eat?_down]
  cases c.eat? (.literal wanted) with
  | none => rfl
  | some past => rfl

theorem opener?_down : (c.down offset).opener? = c.opener? := rfl

end Cursor

/-! ## Equations -/

theorem splitWeakest?_down (run : OperatorRun) :
    splitWeakest? (run.down offset) =
      (splitWeakest? run).map fun (before, weakest, behind) =>
        (before.down offset, Prod.map id (Expr.down offset) weakest, behind.down offset) := by
  induction run with
  | nil => rfl
  | cons entry run ih =>
      have hcons : OperatorRun.down offset (entry :: run) =
          Prod.map id (Expr.down offset) entry :: OperatorRun.down offset run := rfl
      rw [hcons, splitWeakest?, ih, splitWeakest?]
      cases splitWeakest? run with
      | none => rfl
      | some split =>
          obtain ⟨before, weakest, behind⟩ := split
          simp only [Option.map_some, Prod.map_fst, id_eq]
          split <;> rfl

theorem shapeWithin_down (size : Nat) (first : Expr) (run : OperatorRun) :
    shapeWithin size (first.down offset) (run.down offset) =
      (shapeWithin size first run).down offset := by
  induction size generalizing first run with
  | zero => rfl
  | succ size ih =>
      rw [shapeWithin, splitWeakest?_down, shapeWithin]
      cases splitWeakest? run with
      | none => rfl
      | some split =>
          obtain ⟨before, ⟨op, operand⟩, behind⟩ := split
          simp only [Option.map_some, Prod.map_apply, id_eq, ih, Expr.span_down, Span.merge_down]
          rfl

theorem shape_down (first : Expr) (run : OperatorRun) :
    shape (first.down offset) (run.down offset) = (shape first run).down offset := by
  have hlength : (run.down offset).length = run.length := List.length_map _
  rw [shape, hlength, shapeWithin_down, shape]

/-- The reader answers alike on lines that have moved down. -/
def Descends {α : Type} (offset : Nat) (move : α → α) (reader : Cursor → Checked (α × Cursor)) :
    Prop :=
  ∀ c, reader (c.down offset) = (reader c).down offset (movePast offset move)

theorem readNumber_down (start : Nat) (c : Cursor) :
    readNumber start (c.down offset) = (readNumber start c).down offset (Expr.down offset) := by
  simp only [readNumber, Checked.down_ite]
  rfl

theorem descends_readRun {operand : OperandReader}
    (hoperand : Descends offset (Expr.down offset) operand) (stop : EndMark) (fuel : Nat)
    (afterNumber : Bool) :
    Descends offset (OperatorRun.down offset) (readRun operand stop fuel afterNumber) := by
  -- the operand in front of a place decides which issue is found there, so the induction is for
  -- operands of both kinds
  induction fuel generalizing afterNumber with
  | zero => exact fun c => rfl
  | succ fuel ih =>
      intro c
      simp only [readRun, Cursor.skipBlanks_down, Cursor.sees_down, Cursor.eatFirst?_down]
      by_cases hstop : c.skipBlanks.sees stop.pattern = true
      · rw [if_pos hstop, if_pos hstop]
        rfl
      · rw [if_neg hstop, if_neg hstop]
        cases c.skipBlanks.eatFirst? (fun op : BinaryOp => .literal op.symbol) BinaryOp.all with
        | none => rfl
        | some found =>
            simp only [Option.map_some, Prod.map_fst, Prod.map_snd, id_eq, Cursor.skipBlanks_down]
            rw [hoperand]
            apply Checked.bind_down
            intro right
            simp only [movePast, Expr.isNumber_down]
            rw [ih]
            apply Checked.bind_down
            intro more
            rfl

theorem descends_readEquationWith {operand : OperandReader}
    (hoperand : Descends offset (Expr.down offset) operand) (stop : EndMark) :
    Descends offset (Expr.down offset) (readEquationWith operand stop) := by
  intro c
  simp only [readEquationWith, Cursor.skipBlanks_down]
  rw [hoperand]
  apply Checked.bind_down
  intro first
  simp only [movePast, Expr.isNumber_down, Cursor.rest_down]
  rw [descends_readRun hoperand]
  apply Checked.bind_down
  intro more
  simp only [movePast, shape_down]
  rfl

section Nested

variable {equation : EquationReader}
  (hequation : ∀ stop, Descends offset (Expr.down offset) (equation stop))

include hequation

theorem readSlotRef_down (name : Ident) (c : Cursor) :
    readSlotRef equation (name.down offset) (c.down offset) =
      (readSlotRef equation name c).down offset (movePast offset (SlotRef.down offset)) := by
  simp only [readSlotRef, Cursor.eat?_down]
  cases c.eat? (.literal "[") with
  | none => rfl
  | some opened =>
      simp only [Option.map_some]
      rw [hequation]
      apply Checked.bind_down
      intro place
      simp only [movePast, Cursor.expect_down]
      apply Checked.bind_down
      intro closed
      rfl

theorem descends_readArgument (callee : String) (arity : Nat) :
    Descends offset (Option.map (Expr.down offset)) (readArgument equation callee arity) := by
  intro c
  simp only [readArgument, Cursor.eat?_down]
  cases c.eat? (.literal "(") with
  | none => rfl
  | some opened =>
      simp only [Option.map_some, Cursor.skipBlanks_down, Cursor.eat?_down]
      cases opened.skipBlanks.eat? (.literal ")") with
      | some closed =>
          simp only [Option.map_some, Checked.down_ite]
          rfl
      | none =>
          by_cases hzero : arity = 0
          · simp only [Option.map_none, if_pos hzero]
            rfl
          · simp only [Option.map_none, if_neg hzero]
            rw [hequation]
            apply Checked.bind_down
            intro argument
            simp only [movePast, Cursor.expect_down]
            apply Checked.bind_down
            intro closed
            rfl

theorem readMethod_down (kind : ObjectKind) (object : Ident) (start : Nat) (c : Cursor) :
    readMethod equation kind (object.down offset) start (c.down offset) =
      (readMethod equation kind object start c).down offset
        (movePast offset (Expr.down offset)) := by
  simp only [readMethod, Cursor.expect_down]
  apply Checked.bind_down
  intro dotted
  simp only [Cursor.eat?_down]
  cases dotted.eat? .identifier with
  | none => rfl
  | some named =>
      simp only [Option.map_some, Cursor.word_down]
      cases kind.method? named.word with
      | none => rfl
      | some verb =>
          simp only [descends_readArgument hequation verb.name verb.arity named]
          apply Checked.bind_down
          intro argument
          obtain ⟨argument?, closed⟩ := argument
          cases argument? <;> rfl

theorem readNamed_down (names : Names) (start : Nat) (c : Cursor) :
    readNamed names equation start (c.down offset) =
      (readNamed names equation start c).down offset (movePast offset (Expr.down offset)) := by
  have hident : (⟨c.word, (c.down offset).spanFrom start⟩ : Ident) =
      Ident.down offset ⟨c.word, c.spanFrom start⟩ := rfl
  simp only [readNamed, Cursor.word_down, hident]
  cases names.role c.word with
  | slot index =>
      simp only [readSlotRef_down hequation]
      apply Checked.bind_down
      intro slot
      simp only [movePast, Cursor.spanFrom_down, SlotRef.toExpr_down]
      rfl
  | object kind => exact readMethod_down hequation kind _ start c
  | builtin function =>
      simp only [descends_readArgument hequation function.name function.arity c]
      apply Checked.bind_down
      intro argument
      obtain ⟨argument?, closed⟩ := argument
      cases argument? <;> rfl
  | keyword => rfl
  | label line => rfl
  | unknown => rfl

end Nested

theorem descends_readOperand (names : Names) (fuel : Nat) :
    Descends offset (Expr.down offset) (readOperand names fuel) := by
  -- an operand holds equations, whose operands are read with less fuel
  induction fuel with
  | zero => exact fun c => rfl
  | succ fuel ih =>
      intro c
      have hequation := descends_readEquationWith ih
      simp only [readOperand, Cursor.eat?_down, Cursor.eatFirst?_down, Cursor.offset_down]
      cases c.eat? .integer with
      | some past =>
          simp only [Option.map_some, readNumber_down]
          apply Checked.bind_down
          intro number
          rfl
      | none =>
      cases c.eatFirst? (fun op : UnaryOp => .literal op.symbol) UnaryOp.all with
      | some found =>
          simp only [Option.map_none, Option.map_some, Prod.map_fst, Prod.map_snd, id_eq,
            Cursor.skipBlanks_down]
          rw [ih]
          apply Checked.bind_down
          intro operand
          rfl
      | none =>
      cases c.eat? (.literal "(") with
      | some opened =>
          simp only [Option.map_none, Option.map_some]
          rw [hequation]
          apply Checked.bind_down
          intro inner
          simp only [movePast, Cursor.expect_down]
          apply Checked.bind_down
          intro closed
          simp only [Cursor.spanFrom_down, Expr.withSpan_down]
          rfl
      | none =>
      cases c.eat? .identifier with
      | some past => exact readNamed_down hequation names c.offset past
      | none => rfl

theorem descends_readEquation (names : Names) (stop : EndMark) :
    Descends offset (Expr.down offset) (readEquation names stop) :=
  fun c => descends_readEquationWith (descends_readOperand names _) stop c

/-! ## Statements -/

theorem descends_readCondition (names : Names) (kind : BlockKind) :
    Descends offset (Expr.down offset) (readCondition names kind) := by
  intro c
  simp only [readCondition, Cursor.skipBlanks_down, Cursor.eat?_down]
  cases c.skipBlanks.eat? (.literal "(") with
  | none => rfl
  | some opened =>
      simp only [Option.map_some]
      rw [descends_readEquation]
      apply Checked.bind_down
      intro condition
      simp only [movePast, Cursor.expect_down]
      apply Checked.bind_down
      intro closed
      simp only [Cursor.skipBlanks_down, Cursor.expect_down]
      apply Checked.bind_down
      intro done
      rfl

theorem descends_readJump (names : Names) :
    Descends offset (Action.down offset) (readJump names) := by
  intro c
  simp only [readJump, Cursor.skipBlanks_down, Cursor.eat?_down]
  cases c.skipBlanks.eat? .identifier with
  | none => rfl
  | some named =>
      simp only [Option.map_some, Cursor.word_down]
      cases names.role named.word <;> rfl

theorem readTarget?_down (names : Names) (c : Cursor) :
    readTarget? names (c.down offset) =
      (readTarget? names c).down offset (Option.map (movePast offset (SlotRef.down offset))) := by
  simp only [readTarget?, Cursor.eat?_down]
  cases c.eat? .identifier with
  | none => rfl
  | some named =>
      have hident : (⟨named.word, (named.down offset).spanFrom c.offset⟩ : Ident) =
          Ident.down offset ⟨named.word, named.spanFrom c.offset⟩ := rfl
      simp only [Option.map_some, Cursor.word_down, Cursor.offset_down, hident]
      cases names.role named.word with
      | slot index =>
          simp only [readSlotRef_down (descends_readEquation names)]
          apply Checked.bind_down
          intro slot
          simp only [Checked.down, apply_ite (Option.map (movePast offset (SlotRef.down offset)))]
          rfl
      | object | builtin | keyword | label | unknown =>
          simp only [Checked.down_ite]
          rfl

theorem descends_readPlain (names : Names) :
    Descends offset (Action.down offset) (readPlain names) := by
  intro c
  simp only [readPlain, readTarget?_down]
  apply Checked.bind_down
  intro target?
  cases target? with
  | none =>
      simp only [Option.map_none]
      rw [descends_readEquation]
      apply Checked.bind_down
      intro equation
      rfl
  | some target =>
      simp only [Option.map_some, movePast, Cursor.expect_down]
      apply Checked.bind_down
      intro assigned
      rw [descends_readEquation]
      apply Checked.bind_down
      intro value
      rfl

theorem descends_readAction (names : Names) :
    Descends offset (Action.down offset) (readAction names) := by
  intro c
  simp only [readAction, Cursor.eat?_down]
  cases c.eat? (.word BlockKind.ifBlock.keyword) with
  | some past =>
      simp only [Option.map_some]
      rw [descends_readCondition]
      apply Checked.bind_down
      intro condition
      rfl
  | none =>
  cases c.eat? (.word BlockKind.whileBlock.keyword) with
  | some past =>
      simp only [Option.map_none, Option.map_some]
      rw [descends_readCondition]
      apply Checked.bind_down
      intro condition
      rfl
  | none =>
  cases c.eat? (.word BlockKind.elseBlock.keyword) with
  | some past =>
      simp only [Option.map_none, Option.map_some, Cursor.skipBlanks_down, Cursor.expect_down]
      apply Checked.bind_down
      intro done
      rfl
  | none =>
  cases c.eat? (.word "jump") with
  | some past => exact descends_readJump names past
  | none => exact descends_readPlain names c

theorem readStatement_down (names : Names) (c : Cursor) :
    readStatement names (c.down offset) =
      (readStatement names c).down offset (Statement.down offset) := by
  simp only [readStatement]
  rw [descends_readAction]
  apply Checked.bind_down
  intro action
  simp only [movePast, Cursor.eat?_down]
  cases action.2.eat? .endOfLine <;> rfl

theorem readPlaced_down (names : Names) (placement : Placement) (c : Cursor) :
    readPlaced names placement (c.down offset) =
      (readPlaced names placement c).down offset (Line.down offset) := by
  have hstatement : (readStatement names (c.down offset) >>= fun statement =>
        .ok (.code placement.level statement)) =
      (readStatement names c >>= fun statement => .ok (.code placement.level statement)).down offset
        (Line.down offset) := by
    rw [readStatement_down]
    apply Checked.bind_down
    intro statement
    rfl
  rw [readPlaced, hstatement, readPlaced, Checked.down_ite]
  rfl

/-- A line that has moved down leads to the same levels. -/
theorem readCodeLine_down (names : Names) (ind : Indentation) (number : Nat) (line : List Char) :
    readCodeLine names ind (number + offset) line =
      ((readCodeLine names ind number line).1.down offset (Line.down offset),
        (readCodeLine names ind number line).2) := by
  have hcursor : (Cursor.start (number + offset) line).skipBlanks =
      (Cursor.start number line).skipBlanks.down offset := rfl
  simp only [readCodeLine, hcursor, Cursor.opener?_down]
  cases ind.track (leadingBlanks line) with
  | mk result tracked =>
      cases result with
      | error issue => rfl
      | ok placement => simp only [readPlaced_down]

/-! ## Lines of the text segment -/

theorem labelOf?_below (line : SourceLine) :
    labelOf? (line.below offset) = (labelOf? line).map (Ident.down offset) := by
  have hcursor : (Cursor.start (line.number + offset) (codePart line.text)).skipBlanks =
      (Cursor.start line.number (codePart line.text)).skipBlanks.down offset := rfl
  simp only [labelOf?, SourceLine.below, hcursor, Cursor.eat?_down]
  cases (Cursor.start line.number (codePart line.text)).skipBlanks.eat? .identifier with
  | none => rfl
  | some named =>
      simp only [Option.map_some, Option.bind_eq_bind, Option.bind_some, Cursor.word_down,
        Cursor.skipBlanks_down, Cursor.eat?_down]
      by_cases helse : named.word = "else"
      · simp only [if_pos helse]
        rfl
      · simp only [if_neg helse]
        cases named.skipBlanks.eat? (.literal ":") with
        | none => rfl
        | some colon =>
            simp only [Option.map_some, Option.bind_some,
              apply_ite (Option.map (Ident.down offset))]
            rfl

theorem isSilent_below (line : SourceLine) : isSilent (line.below offset) = isSilent line := by
  rw [isSilent, labelOf?_below, Option.isSome_map]
  rfl

theorem missingBlock?_down (ind : Indentation) (header? : Option Span) :
    missingBlock? ind (header?.map (Span.down offset)) =
      (missingBlock? ind header?).map (Finding.down offset) := by
  unfold missingBlock?
  cases ind.pending <;> cases header? <;> rfl

/-- Lines that have moved down are read as before, and what was found in them has moved down. -/
theorem readTextLines_below (names : Names) (ind : Indentation) (header? : Option Span)
    (lines : List SourceLine) :
    readTextLines names ind (header?.map (Span.down offset)) (lines.map (SourceLine.below offset)) =
      ((readTextLines names ind header? lines).1.map (Line.down offset),
        (readTextLines names ind header? lines).2.map (Finding.down offset)) := by
  induction lines generalizing ind header? with
  | nil => simp only [List.map_nil, readTextLines, missingBlock?_down]
  | cons line lines ih =>
      simp only [List.map_cons, readTextLines, isSilent_below]
      by_cases hsilent : isSilent line = true
      · simp only [if_pos hsilent, ih]
        rfl
      · have htext : (line.below offset).text = line.text := rfl
        have hnumber : (line.below offset).number = line.number + offset := rfl
        simp only [if_neg hsilent, htext, hnumber, readCodeLine_down]
        generalize readCodeLine names ind line.number (trimEnd (codePart line.text)) = answer
        obtain ⟨result, tracked⟩ := answer
        -- the header that a block is due after is this line or an earlier one
        have hheader : (if tracked.pending.isSome = true then
              some ⟨line.number + offset, 1, byteLength (trimEnd (codePart line.text)) + 1⟩
            else header?.map (Span.down offset)) =
            (if tracked.pending.isSome = true then
              some ⟨line.number, 1, byteLength (trimEnd (codePart line.text)) + 1⟩
            else header?).map (Span.down offset) := by
          cases tracked.pending <;> rfl
        simp only [hheader, ih]
        cases result <;> rfl

end TapePuzzle
