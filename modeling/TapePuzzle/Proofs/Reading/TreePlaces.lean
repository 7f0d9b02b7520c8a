import TapePuzzle.Proofs.Reading.Places
import TapePuzzle.Proofs.Reading.Words

/-!
# Where the parts of statements stand

Every node of a statement has a span. A part of a node stands inside it, of two operands the left
one ends before the right one starts, and what a name spans is that name: `StandsOn` says so of a
whole tree. Main statement: whatever is accepted as a statement stands so on the line it is read
from.
-/

namespace TapePuzzle

/-! ## Spans that nest -/

namespace Span

/-- One span lies inside another. -/
structure Inside (inner outer : Span) : Prop where
  line : inner.line = outer.line
  start : outer.startColumn ≤ inner.startColumn
  finish : inner.endColumn ≤ outer.endColumn

theorem Inside.refl (s : Span) : s.Inside s := ⟨rfl, Nat.le_refl _, Nat.le_refl _⟩

theorem Inside.trans {s s' s'' : Span} (h : s.Inside s') (h' : s'.Inside s'') : s.Inside s'' :=
  ⟨h.line.trans h'.line, Nat.le_trans h'.start h.start, Nat.le_trans h.finish h'.finish⟩

/-- The text is what stands in a line between the start and the end of the span. -/
def Shows (s : Span) (line text : List Char) : Prop :=
  ∃ front back, line = front ++ text ++ back ∧ s.startColumn = byteLength front + 1 ∧
    s.endColumn = byteLength (front ++ text) + 1

theorem Shows.of_isPrefix {s : Span} {line longer text : List Char} (h : s.Shows line text)
    (hlonger : line <+: longer) : s.Shows longer text := by
  obtain ⟨front, back, rfl, hstart, hfinish⟩ := h
  obtain ⟨rest, rfl⟩ := hlonger
  exact ⟨front, back ++ rest, by simp, hstart, hfinish⟩

end Span

/-! ## Trees on a line -/

/-- A name stands on a line, in the columns that its span gives. -/
structure Ident.StandsOn (ident : Ident) (number : Nat) (line : List Char) : Prop where
  within : ident.span.Within number line
  shows : ident.span.Shows line ident.name.toList

/-- An equation stands on a line, with each part inside the next larger one and operands in
    order. -/
def Expr.StandsOn (number : Nat) (line : List Char) : Expr → Prop
  | .number _ s => s.Within number line
  | .slot name reference s =>
      s.Within number line ∧ (reference.Within number line ∧ reference.Inside s) ∧
        (name.StandsOn number line ∧ name.span.Inside reference)
  | .slotAt name offset reference s =>
      s.Within number line ∧ (reference.Within number line ∧ reference.Inside s) ∧
        (name.StandsOn number line ∧ name.span.Inside reference) ∧
        (offset.StandsOn number line ∧ offset.span.Inside reference)
  | .call _ s => s.Within number line
  | .callWith _ argument s =>
      s.Within number line ∧ (argument.StandsOn number line ∧ argument.span.Inside s)
  | .method object _ s =>
      s.Within number line ∧ (object.StandsOn number line ∧ object.span.Inside s)
  | .methodWith object _ argument s =>
      s.Within number line ∧ (object.StandsOn number line ∧ object.span.Inside s) ∧
        (argument.StandsOn number line ∧ argument.span.Inside s)
  | .binary left _ right s =>
      s.Within number line ∧ (left.StandsOn number line ∧ left.span.Inside s) ∧
        (right.StandsOn number line ∧ right.span.Inside s) ∧
        left.span.endColumn ≤ right.span.startColumn
  | .unary _ operand s =>
      s.Within number line ∧ (operand.StandsOn number line ∧ operand.span.Inside s)

/-- The target of an assignment stands on a line, with its name and its offset inside it. -/
structure SlotRef.StandsOn (slot : SlotRef) (number : Nat) (line : List Char) : Prop where
  within : slot.span.Within number line
  name : slot.name.StandsOn number line
  nameInside : slot.name.span.Inside slot.span
  offset : ∀ offset ∈ slot.offset, offset.StandsOn number line ∧ offset.span.Inside slot.span

/-- What a statement with the given span is made of stands on a line, inside this span. -/
def Action.StandsOn (number : Nat) (line : List Char) (s : Span) : Action → Prop
  | .assign target value =>
      (target.StandsOn number line ∧ target.span.Inside s) ∧
        (value.StandsOn number line ∧ value.span.Inside s) ∧
        target.span.endColumn ≤ value.span.startColumn
  | .evaluate equation => equation.StandsOn number line ∧ equation.span.Inside s
  | .ifTrue condition => condition.StandsOn number line ∧ condition.span.Inside s
  | .otherwise => True
  | .whileTrue condition => condition.StandsOn number line ∧ condition.span.Inside s
  | .jump label => label.StandsOn number line ∧ label.span.Inside s

/-- A statement stands on a line, with all its parts. -/
structure Statement.StandsOn (statement : Statement) (number : Nat) (line : List Char) :
    Prop where
  within : statement.span.Within number line
  parts : statement.action.StandsOn number line statement.span

variable {number : Nat} {line longer : List Char} {e : Expr} {s s' : Span}

theorem Expr.StandsOn.within (h : e.StandsOn number line) : e.span.Within number line := by
  cases e with
  | number => exact h
  | call => exact h
  | slot => exact h.1
  | slotAt => exact h.1
  | callWith => exact h.1
  | method => exact h.1
  | methodWith => exact h.1
  | binary => exact h.1
  | unary => exact h.1

/-- Parentheses only widen the outermost span. -/
theorem Expr.StandsOn.withSpan (h : e.StandsOn number line) (hs : s.Within number line)
    (hinside : e.span.Inside s) : (e.withSpan s).StandsOn number line := by
  cases e with
  | number => exact hs
  | call => exact hs
  | slot name reference outer =>
      obtain ⟨-, ⟨hreference, houter⟩, hname⟩ := h
      exact ⟨hs, ⟨hreference, houter.trans hinside⟩, hname⟩
  | slotAt name offset reference outer =>
      obtain ⟨-, ⟨hreference, houter⟩, hname⟩ := h
      exact ⟨hs, ⟨hreference, houter.trans hinside⟩, hname⟩
  | callWith function argument outer =>
      obtain ⟨-, hargument, houter⟩ := h
      exact ⟨hs, hargument, houter.trans hinside⟩
  | method object method outer =>
      obtain ⟨-, hobject, houter⟩ := h
      exact ⟨hs, hobject, houter.trans hinside⟩
  | methodWith object method argument outer =>
      obtain ⟨-, ⟨hobject, houter⟩, hargument, houter'⟩ := h
      exact ⟨hs, ⟨hobject, houter.trans hinside⟩, hargument, houter'.trans hinside⟩
  | binary left op right outer =>
      obtain ⟨-, ⟨hleft, houter⟩, ⟨hright, houter'⟩, horder⟩ := h
      exact ⟨hs, ⟨hleft, houter.trans hinside⟩, ⟨hright, houter'.trans hinside⟩, horder⟩
  | unary op operand outer =>
      obtain ⟨-, hoperand, houter⟩ := h
      exact ⟨hs, hoperand, houter.trans hinside⟩

/-- A slot in an equation is the slot reference that was read. -/
theorem SlotRef.StandsOn.toExpr {slot : SlotRef} (h : slot.StandsOn number line)
    (hs : s.Within number line) (hinside : slot.span.Inside s) :
    (slot.toExpr s).StandsOn number line := by
  obtain ⟨name, offset?, reference⟩ := slot
  cases offset? with
  | none => exact ⟨hs, ⟨h.within, hinside⟩, h.name, h.nameInside⟩
  | some offset => exact ⟨hs, ⟨h.within, hinside⟩, ⟨h.name, h.nameInside⟩, h.offset offset rfl⟩

theorem SlotRef.span_toExpr (slot : SlotRef) (s : Span) : (slot.toExpr s).span = s := by
  unfold SlotRef.toExpr
  split <;> rfl

/-! ## Trees on a longer line -/

section Longer

variable (hlonger : line <+: longer)

include hlonger

theorem Ident.StandsOn.of_isPrefix {ident : Ident} (h : ident.StandsOn number line) :
    ident.StandsOn number longer :=
  ⟨h.within.of_isPrefix hlonger, h.shows.of_isPrefix hlonger⟩

theorem Expr.StandsOn.of_isPrefix (h : e.StandsOn number line) : e.StandsOn number longer := by
  induction e with
  | number value s => exact Span.Within.of_isPrefix h hlonger
  | call function s => exact Span.Within.of_isPrefix h hlonger
  | slot name reference s =>
      obtain ⟨hs, ⟨hreference, hinside⟩, hname, hinside'⟩ := h
      exact ⟨hs.of_isPrefix hlonger, ⟨hreference.of_isPrefix hlonger, hinside⟩,
        hname.of_isPrefix hlonger, hinside'⟩
  | slotAt name offset reference s ih =>
      obtain ⟨hs, ⟨hreference, hinside⟩, ⟨hname, hinside'⟩, hoffset, hinside''⟩ := h
      exact ⟨hs.of_isPrefix hlonger, ⟨hreference.of_isPrefix hlonger, hinside⟩,
        ⟨hname.of_isPrefix hlonger, hinside'⟩, ih hoffset, hinside''⟩
  | callWith function argument s ih =>
      obtain ⟨hs, hargument, hinside⟩ := h
      exact ⟨hs.of_isPrefix hlonger, ih hargument, hinside⟩
  | method object method s =>
      obtain ⟨hs, hobject, hinside⟩ := h
      exact ⟨hs.of_isPrefix hlonger, hobject.of_isPrefix hlonger, hinside⟩
  | methodWith object method argument s ih =>
      obtain ⟨hs, ⟨hobject, hinside⟩, hargument, hinside'⟩ := h
      exact ⟨hs.of_isPrefix hlonger, ⟨hobject.of_isPrefix hlonger, hinside⟩, ih hargument, hinside'⟩
  | binary left op right s ihleft ihright =>
      obtain ⟨hs, ⟨hleft, hinside⟩, ⟨hright, hinside'⟩, horder⟩ := h
      exact ⟨hs.of_isPrefix hlonger, ⟨ihleft hleft, hinside⟩, ⟨ihright hright, hinside'⟩, horder⟩
  | unary op operand s ih =>
      obtain ⟨hs, hoperand, hinside⟩ := h
      exact ⟨hs.of_isPrefix hlonger, ih hoperand, hinside⟩

theorem SlotRef.StandsOn.of_isPrefix {slot : SlotRef} (h : slot.StandsOn number line) :
    slot.StandsOn number longer where
  within := h.within.of_isPrefix hlonger
  name := h.name.of_isPrefix hlonger
  nameInside := h.nameInside
  offset := fun offset hoffset =>
    ⟨(h.offset offset hoffset).1.of_isPrefix hlonger, (h.offset offset hoffset).2⟩

theorem Action.StandsOn.of_isPrefix {action : Action} (h : action.StandsOn number line s) :
    action.StandsOn number longer s := by
  cases action with
  | assign target value =>
      obtain ⟨⟨htarget, hinside⟩, ⟨hvalue, hinside'⟩, horder⟩ := h
      exact ⟨⟨htarget.of_isPrefix hlonger, hinside⟩, ⟨hvalue.of_isPrefix hlonger, hinside'⟩, horder⟩
  | evaluate equation => exact ⟨h.1.of_isPrefix hlonger, h.2⟩
  | ifTrue condition => exact ⟨h.1.of_isPrefix hlonger, h.2⟩
  | otherwise => trivial
  | whileTrue condition => exact ⟨h.1.of_isPrefix hlonger, h.2⟩
  | jump label => exact ⟨h.1.of_isPrefix hlonger, h.2⟩

theorem Statement.StandsOn.of_isPrefix {statement : Statement}
    (h : statement.StandsOn number line) : statement.StandsOn number longer :=
  ⟨h.within.of_isPrefix hlonger, h.parts.of_isPrefix hlonger⟩

end Longer

/-! ## Shaping a run of operands -/

/-- The operands of a run stand on a line one after the other, between two columns. -/
def OperandsStand (number : Nat) (line : List Char) : Nat → OperatorRun → Nat → Prop
  | first, [], last => first ≤ last
  | first, (_, operand) :: run, last =>
      operand.StandsOn number line ∧ first ≤ operand.span.startColumn ∧
        OperandsStand number line operand.span.endColumn run last

theorem OperandsStand.le {first last : Nat} {run : OperatorRun}
    (h : OperandsStand number line first run last) : first ≤ last := by
  induction run generalizing first with
  | nil => exact h
  | cons entry run ih =>
      obtain ⟨hstands, hstart, hrun⟩ := h
      have horder := hstands.within.order
      have hle := ih hrun
      omega

/-- What stands before an operand of a run ends where this operand starts. -/
theorem OperandsStand.split {first last : Nat} {before behind : OperatorRun} {op : BinaryOp}
    {operand : Expr}
    (h : OperandsStand number line first (before ++ (op, operand) :: behind) last) :
    OperandsStand number line first before operand.span.startColumn ∧
      operand.StandsOn number line ∧
      OperandsStand number line operand.span.endColumn behind last := by
  induction before generalizing first with
  | nil =>
      obtain ⟨hstands, hstart, hrun⟩ := h
      exact ⟨hstart, hstands, hrun⟩
  | cons entry before ih =>
      obtain ⟨hstands, hstart, hrun⟩ := h
      obtain ⟨hbefore, hoperand, hbehind⟩ := ih hrun
      exact ⟨⟨hstands, hstart, hbefore⟩, hoperand, hbehind⟩

/-- The span of an operation reaches from the start of its left operand to the end of its right
    one. -/
theorem merge_of_le {left right : Span} (hleft : left.Within number line)
    (hright : right.Within number line) (h : left.endColumn ≤ right.startColumn) :
    left.merge right = ⟨number, left.startColumn, right.endColumn⟩ := by
  have hleftOrder := hleft.order
  have hrightOrder := hright.order
  rw [Span.merge, if_pos (hleft.line.trans hright.line.symm), hleft.line,
    Nat.min_eq_left (by omega), Nat.max_eq_right (by omega)]

theorem Expr.standsOn_binary {left right : Expr} (op : BinaryOp) (hleft : left.StandsOn number line)
    (hright : right.StandsOn number line) (h : left.span.endColumn ≤ right.span.startColumn) :
    (Expr.binary left op right (left.span.merge right.span)).StandsOn number line := by
  have hleftOrder := hleft.within.order
  have hrightOrder := hright.within.order
  rw [merge_of_le hleft.within hright.within h]
  refine ⟨⟨rfl, hleft.within.start, ?_, hright.within.finish⟩, ⟨hleft, hleft.within.line, ?_, ?_⟩,
    ⟨hright, hright.within.line, ?_, ?_⟩, h⟩
  all_goals
    dsimp only
    omega

/-- However the operands are grouped, the tree stands where the operands stand. -/
theorem standsOn_shapeWithin (size : Nat) {first last : Nat} {operand : Expr} {run : OperatorRun}
    (hoperand : operand.StandsOn number line) (hfirst : first ≤ operand.span.startColumn)
    (hrun : OperandsStand number line operand.span.endColumn run last) :
    (shapeWithin size operand run).StandsOn number line ∧
      first ≤ (shapeWithin size operand run).span.startColumn ∧
      (shapeWithin size operand run).span.endColumn ≤ last := by
  induction size generalizing first last operand run with
  | zero => exact ⟨hoperand, hfirst, hrun.le⟩
  | succ size ih =>
      rw [shapeWithin]
      split
      · exact ⟨hoperand, hfirst, hrun.le⟩
      · rename_i before op operand' behind hsplit
        rw [← append_of_splitWeakest? hsplit] at hrun
        obtain ⟨hbefore, hoperand', hbehind⟩ := hrun.split
        obtain ⟨hleft, hstart, hmiddle⟩ := ih hoperand hfirst hbefore
        obtain ⟨hright, hmiddle', hfinish⟩ := ih hoperand' (Nat.le_refl _) hbehind
        have horder := Nat.le_trans hmiddle hmiddle'
        refine ⟨Expr.standsOn_binary op hleft hright horder, ?_⟩
        show first ≤ (Span.merge _ _).startColumn ∧ (Span.merge _ _).endColumn ≤ last
        rw [merge_of_le hleft.within hright.within horder]
        exact ⟨hstart, hfinish⟩

/-! ## Reading equations -/

namespace Cursor

variable {c c' past past' : Cursor}

/-- The equation stands between the two positions of a line. -/
structure Covers (c : Cursor) (e : Expr) (past : Cursor) : Prop where
  reaches : c.Reaches past
  stands : e.StandsOn c.lineNumber c.line
  inside : e.span.Inside (past.spanFrom c.offset)

/-- What is passed between two positions lies inside what is passed between positions around
    them. -/
theorem Reaches.inside_spanFrom (h : c.Reaches c') (hpast : past.Reaches past') :
    (past.spanFrom c'.offset).Inside (past'.spanFrom c.offset) :=
  ⟨hpast.lineNumber.symm, Nat.succ_le_succ h.offset, Nat.succ_le_succ hpast.offset⟩

theorem Covers.widen (hcovers : c'.Covers e past) (h : c.Reaches c') (hpast : past.Reaches past') :
    c.Covers e past' where
  reaches := (h.trans hcovers.reaches).trans hpast
  stands := h.lineNumber ▸ h.line ▸ hcovers.stands
  inside := hcovers.inside.trans (h.inside_spanFrom hpast)

theorem reaches_expect {wanted : String} (h : c.expect wanted = .ok past) : c.Reaches past := by
  unfold expect at h
  split at h
  · rename_i hpast
    cases h
    exact reaches_eat? hpast
  · cases h

/-- A name stands where it is matched. -/
theorem standsOn_of_eat? (h : c.eat? .identifier = some past) :
    Ident.StandsOn ⟨past.word, past.spanFrom c.offset⟩ c.lineNumber c.line where
  within := (reaches_eat? h).within_spanFrom
  shows := by
    obtain ⟨⟨found, rest⟩, hsplit, rfl⟩ := Option.map_eq_some_iff.mp h
    refine ⟨c.passed, rest, ?_, rfl, ?_⟩
    · rw [line, ← Pattern.append_of_split? hsplit, word, String.toList_ofList, List.append_assoc]
    · simp [spanFrom, column, offset, word]

end Cursor

open Cursor

variable {c c' past : Cursor} {operand : OperandReader} {equation : EquationReader}

/-- Whatever the reader accepts stands where it was read. -/
def Covering (reader : Cursor → Checked (Expr × Cursor)) : Prop :=
  ∀ {c past : Cursor} {e : Expr}, reader c = .ok (e, past) → c.Covers e past

theorem operandsStand_of_readRun (hoperand : Covering operand) {stop : EndMark} {fuel first : Nat}
    {afterNumber : Bool} {run : OperatorRun} (hfirst : first ≤ c.column)
    (h : readRun operand stop fuel afterNumber c = .ok (run, past)) :
    c.Reaches past ∧ OperandsStand c.lineNumber c.line first run past.column := by
  induction fuel generalizing c afterNumber run first with
  | zero => cases h
  | succ fuel ih =>
      have hskip := c.reaches_skipBlanks
      simp only [readRun] at h
      split at h
      · cases h
        exact ⟨hskip, Nat.le_trans hfirst (Nat.succ_le_succ hskip.offset)⟩
      · split at h
        · cases h
        · rename_i op opened hopened
          obtain ⟨⟨right, behind⟩, hright, h⟩ := bind_eq_ok_iff.mp h
          obtain ⟨⟨run, last⟩, hrun, h⟩ := bind_eq_ok_iff.mp h
          cases h
          have hopened := (hskip.trans (reaches_eatFirst? hopened)).trans opened.reaches_skipBlanks
          have hcovers := (hoperand hright).widen hopened (.refl behind)
          obtain ⟨hlast, hstand⟩ := ih hcovers.inside.finish hrun
          rw [hcovers.reaches.lineNumber, hcovers.reaches.line] at hstand
          exact ⟨hcovers.reaches.trans hlast, hcovers.stands,
            Nat.le_trans hfirst hcovers.inside.start, hstand⟩

theorem covering_readEquationWith (hoperand : Covering operand) (stop : EndMark) :
    Covering (readEquationWith operand stop) := by
  intro c past e h
  obtain ⟨⟨first, behind⟩, hfirst, h⟩ := bind_eq_ok_iff.mp h
  obtain ⟨⟨run, last⟩, hrun, h⟩ := bind_eq_ok_iff.mp h
  cases h
  have hcovers := (hoperand hfirst).widen c.reaches_skipBlanks (.refl behind)
  obtain ⟨hlast, hstand⟩ := operandsStand_of_readRun hoperand hcovers.inside.finish hrun
  rw [hcovers.reaches.lineNumber, hcovers.reaches.line] at hstand
  obtain ⟨hshape, hstart, hfinish⟩ :=
    standsOn_shapeWithin run.length hcovers.stands hcovers.inside.start hstand
  have hreaches := hcovers.reaches.trans hlast
  exact ⟨hreaches, hshape, hshape.within.line.trans hreaches.lineNumber.symm, hstart, hfinish⟩

/-- A name that was read on the way from one position to another. -/
structure Cursor.CoversName (c : Cursor) (ident : Ident) (past : Cursor) : Prop where
  reaches : c.Reaches past
  stands : ident.StandsOn c.lineNumber c.line
  inside : ident.span.Inside (past.spanFrom c.offset)

theorem Cursor.coversName_of_eat? (h : c.eat? .identifier = some past) :
    c.CoversName ⟨past.word, past.spanFrom c.offset⟩ past :=
  ⟨reaches_eat? h, standsOn_of_eat? h, rfl, Nat.le_refl _, Nat.le_refl _⟩

theorem Cursor.Reaches.column_le (h : c.Reaches c') : c'.column ≤ byteLength c.line + 1 :=
  h.line ▸ Nat.succ_le_succ c'.offset_le

/-- A slot reaches from its name to the position behind it. -/
theorem standsOn_slotRef {name : Ident} {offset? : Option Expr} (hname : c.CoversName name c')
    (hpast : c'.Reaches past) (hoffset : ∀ offset ∈ offset?, c'.Covers offset past) :
    SlotRef.StandsOn ⟨name, offset?, ⟨name.span.line, name.span.startColumn, past.column⟩⟩
      c.lineNumber c.line := by
  have hcolumn : c'.column ≤ past.column := Nat.succ_le_succ hpast.offset
  have horder := hname.stands.within.order
  have hbehind : name.span.endColumn ≤ c'.column := hname.inside.finish
  refine ⟨⟨hname.stands.within.line, hname.stands.within.start, ?_, ?_⟩, hname.stands,
    ⟨rfl, Nat.le_refl _, Nat.le_trans hbehind hcolumn⟩, ?_⟩
  · exact Nat.le_trans horder (Nat.le_trans hbehind hcolumn)
  · exact (hname.reaches.trans hpast).column_le
  · intro offset hmem
    obtain ⟨-, hstands, hinside⟩ := hoffset offset hmem
    rw [hname.reaches.lineNumber, hname.reaches.line] at hstands
    refine ⟨hstands, ?_, ?_, hinside.finish⟩
    · exact hstands.within.line.trans hname.stands.within.line.symm
    · exact Nat.le_trans horder (Nat.le_trans hbehind hinside.start)

section Nested

variable (hequation : ∀ stop, Covering (equation stop))

include hequation

theorem standsOn_of_readSlotRef {name : Ident} {slot : SlotRef} (hname : c.CoversName name c')
    (h : readSlotRef equation name c' = .ok (slot, past)) :
    c.Reaches past ∧ slot.StandsOn c.lineNumber c.line ∧
      slot.span = ⟨name.span.line, name.span.startColumn, past.column⟩ := by
  unfold readSlotRef at h
  split at h
  · cases h
    exact ⟨hname.reaches, standsOn_slotRef hname (.refl _) (by simp), rfl⟩
  · rename_i opened hopened
    obtain ⟨⟨offset, last⟩, hoffset, h⟩ := bind_eq_ok_iff.mp h
    obtain ⟨closed, hclosed, h⟩ := bind_eq_ok_iff.mp h
    cases h
    have hcovers := (hequation _ hoffset).widen (reaches_eat? hopened) (reaches_expect hclosed)
    refine ⟨hname.reaches.trans hcovers.reaches, standsOn_slotRef hname hcovers.reaches ?_, rfl⟩
    rintro _ ⟨⟩
    exact hcovers

theorem standsOn_of_readArgument {callee : String} {arity : Nat} {argument? : Option Expr}
    (h : readArgument equation callee arity c = .ok (argument?, past)) :
    c.Reaches past ∧ ∀ argument ∈ argument?, c.Covers argument past := by
  unfold readArgument at h
  split at h
  · cases h
  · rename_i opened hopened
    have hinner := (reaches_eat? hopened).trans opened.reaches_skipBlanks
    dsimp only at h
    split at h
    · rename_i closed hclosed
      split at h
      · cases h
      · cases h
        exact ⟨hinner.trans (reaches_eat? hclosed), by simp⟩
    · split at h
      · cases h
      · obtain ⟨⟨argument, last⟩, hargument, h⟩ := bind_eq_ok_iff.mp h
        obtain ⟨closed, hclosed, h⟩ := bind_eq_ok_iff.mp h
        cases h
        have hcovers := (hequation _ hargument).widen hinner (reaches_expect hclosed)
        refine ⟨hcovers.reaches, ?_⟩
        rintro _ ⟨⟩
        exact hcovers

theorem covers_of_readMethod {kind : ObjectKind} {object : Ident} {e : Expr}
    (hobject : c.CoversName object c')
    (h : readMethod equation kind object c.offset c' = .ok (e, past)) : c.Covers e past := by
  obtain ⟨dotted, hdotted, h⟩ := bind_eq_ok_iff.mp h
  split at h
  · cases h
  · rename_i named hnamed
    split at h
    · cases h
    · obtain ⟨⟨argument?, closed⟩, hargument, h⟩ := bind_eq_ok_iff.mp h
      obtain ⟨hclosed, hcovers⟩ := standsOn_of_readArgument hequation hargument
      have hnamed := (reaches_expect hdotted).trans (reaches_eat? hnamed)
      have hreaches := (hobject.reaches.trans hnamed).trans hclosed
      have hinside := hobject.inside.trans ((Reaches.refl c).inside_spanFrom (hnamed.trans hclosed))
      cases argument? with
      | none =>
          cases h
          exact ⟨hreaches, ⟨hreaches.within_spanFrom, hobject.stands, hinside⟩, .refl _⟩
      | some argument =>
          cases h
          have hargument := (hcovers argument rfl).widen (hobject.reaches.trans hnamed) (.refl _)
          exact ⟨hreaches, ⟨hreaches.within_spanFrom, ⟨hobject.stands, hinside⟩,
            hargument.stands, hargument.inside⟩, .refl _⟩

theorem covers_of_readNamed {names : Names} {e : Expr} (hnamed : c.eat? .identifier = some c')
    (h : readNamed names equation c.offset c' = .ok (e, past)) : c.Covers e past := by
  have hname := coversName_of_eat? hnamed
  unfold readNamed at h
  dsimp only at h
  split at h
  · obtain ⟨⟨slot, behind⟩, hslot, h⟩ := bind_eq_ok_iff.mp h
    cases h
    obtain ⟨hreaches, hstands, hspan⟩ := standsOn_of_readSlotRef hequation hname hslot
    have hinside : slot.span.Inside (behind.spanFrom c.offset) := by
      rw [hspan]
      exact ⟨hname.reaches.lineNumber.trans hreaches.lineNumber.symm, Nat.le_refl _, Nat.le_refl _⟩
    refine ⟨hreaches, hstands.toExpr hreaches.within_spanFrom hinside, ?_⟩
    rw [SlotRef.span_toExpr]
    exact .refl _
  · exact covers_of_readMethod hequation hname h
  · obtain ⟨⟨argument?, closed⟩, hargument, h⟩ := bind_eq_ok_iff.mp h
    obtain ⟨hclosed, hcovers⟩ := standsOn_of_readArgument hequation hargument
    have hreaches := hname.reaches.trans hclosed
    cases argument? with
    | none =>
        cases h
        exact ⟨hreaches, hreaches.within_spanFrom, .refl _⟩
    | some argument =>
        cases h
        have hargument := (hcovers argument rfl).widen hname.reaches (.refl _)
        exact ⟨hreaches, ⟨hreaches.within_spanFrom, hargument.stands, hargument.inside⟩, .refl _⟩
  · cases h
  · cases h
  · cases h

end Nested

theorem covering_readOperand (names : Names) (fuel : Nat) : Covering (readOperand names fuel) := by
  induction fuel with
  | zero =>
      intro c past e h
      cases h
  | succ fuel ih =>
      intro c past e h
      have hequation := covering_readEquationWith ih
      simp only [readOperand] at h
      split at h
      · rename_i counted hcounted
        obtain ⟨number, hnumber, h⟩ := bind_eq_ok_iff.mp h
        cases h
        have hcounted := reaches_eat? hcounted
        simp only [readNumber] at hnumber
        split at hnumber
        · cases hnumber
          exact ⟨hcounted, hcounted.within_spanFrom, .refl _⟩
        · cases hnumber
      · split at h
        · rename_i op opened hopened
          obtain ⟨⟨operand, behind⟩, hoperand, h⟩ := bind_eq_ok_iff.mp h
          cases h
          have hopened := (reaches_eatFirst? hopened).trans opened.reaches_skipBlanks
          have hcovers := (ih hoperand).widen hopened (.refl _)
          exact ⟨hcovers.reaches, ⟨hcovers.reaches.within_spanFrom, hcovers.stands, hcovers.inside⟩,
            .refl _⟩
        · split at h
          · rename_i opened hopened
            obtain ⟨⟨inner, last⟩, hinner, h⟩ := bind_eq_ok_iff.mp h
            obtain ⟨closed, hclosed, h⟩ := bind_eq_ok_iff.mp h
            cases h
            have hcovers :=
              (hequation _ hinner).widen (reaches_eat? hopened) (reaches_expect hclosed)
            refine ⟨hcovers.reaches,
              hcovers.stands.withSpan hcovers.reaches.within_spanFrom hcovers.inside, ?_⟩
            rw [Expr.span_withSpan]
            exact .refl _
          · split at h
            · rename_i named hnamed
              exact covers_of_readNamed hequation hnamed h
            · cases h

theorem covering_readEquation (names : Names) (stop : EndMark) :
    Covering (readEquation names stop) :=
  fun h => covering_readEquationWith (covering_readOperand names _) stop h

/-! ## Reading statements -/

/-- What a statement is made of stands on the way from one position to another. -/
structure Cursor.CoversAction (c : Cursor) (action : Action) (past : Cursor) : Prop where
  reaches : c.Reaches past
  stands : action.StandsOn c.lineNumber c.line (past.spanFrom c.offset)

theorem Action.StandsOn.widen {action : Action} (h : action.StandsOn number line s)
    (hs : s.Inside s') : action.StandsOn number line s' := by
  cases action with
  | assign target value =>
      obtain ⟨⟨htarget, hinside⟩, ⟨hvalue, hinside'⟩, horder⟩ := h
      exact ⟨⟨htarget, hinside.trans hs⟩, ⟨hvalue, hinside'.trans hs⟩, horder⟩
  | evaluate equation => exact ⟨h.1, h.2.trans hs⟩
  | ifTrue condition => exact ⟨h.1, h.2.trans hs⟩
  | otherwise => trivial
  | whileTrue condition => exact ⟨h.1, h.2.trans hs⟩
  | jump label => exact ⟨h.1, h.2.trans hs⟩

theorem Cursor.CoversAction.widen {action : Action} {past' : Cursor}
    (haction : c'.CoversAction action past) (h : c.Reaches c') (hpast : past.Reaches past') :
    c.CoversAction action past' where
  reaches := (h.trans haction.reaches).trans hpast
  stands := by
    have hstands := haction.stands.widen (h.inside_spanFrom hpast)
    rwa [h.lineNumber, h.line] at hstands

theorem covering_readCondition (names : Names) (kind : BlockKind) :
    Covering (readCondition names kind) := by
  intro c past e h
  simp only [readCondition] at h
  split at h
  · cases h
  · rename_i opened hopened
    obtain ⟨⟨condition, last⟩, hcondition, h⟩ := bind_eq_ok_iff.mp h
    obtain ⟨closed, hclosed, h⟩ := bind_eq_ok_iff.mp h
    obtain ⟨done, hdone, h⟩ := bind_eq_ok_iff.mp h
    cases h
    have hopened := c.reaches_skipBlanks.trans (reaches_eat? hopened)
    have hdone := ((reaches_expect hclosed).trans closed.reaches_skipBlanks).trans
      (reaches_expect hdone)
    exact (covering_readEquation names _ hcondition).widen hopened hdone

theorem coversAction_of_readJump {names : Names} {action : Action}
    (h : readJump names c = .ok (action, past)) : c.CoversAction action past := by
  simp only [readJump] at h
  split at h
  · cases h
  · rename_i named hnamed
    split at h
    · cases h
      have hname := coversName_of_eat? hnamed
      exact Cursor.CoversAction.widen ⟨hname.reaches, hname.stands, hname.inside⟩
        c.reaches_skipBlanks (.refl _)
    · cases h

/-- The target of an assignment stands before the equals sign. -/
theorem standsOn_of_readTarget? {names : Names} {slot : SlotRef} {sign : Cursor}
    (h : readTarget? names c = .ok (some (slot, sign))) :
    c.Reaches sign ∧ slot.StandsOn c.lineNumber c.line ∧
      slot.span.Inside (sign.spanFrom c.offset) := by
  unfold readTarget? at h
  split at h
  · cases h
  · rename_i named hnamed
    have hname := coversName_of_eat? hnamed
    dsimp only at h
    split at h
    · obtain ⟨⟨slot', behind⟩, hslot, h⟩ := bind_eq_ok_iff.mp h
      obtain ⟨hbehind, hstands, hspan⟩ :=
        standsOn_of_readSlotRef (covering_readEquation names) hname hslot
      dsimp only at h
      split at h
      · cases h
        have hsign := behind.reaches_skipBlanks
        refine ⟨hbehind.trans hsign, hstands, ?_⟩
        rw [hspan]
        exact ⟨hname.reaches.lineNumber.trans (hbehind.trans hsign).lineNumber.symm,
          Nat.le_refl _, Nat.succ_le_succ hsign.offset⟩
      · cases h
    · split at h <;> cases h

theorem coversAction_of_readPlain {names : Names} {action : Action}
    (h : readPlain names c = .ok (action, past)) : c.CoversAction action past := by
  obtain ⟨target?, htarget, h⟩ := bind_eq_ok_iff.mp h
  cases target? with
  | none =>
      obtain ⟨⟨equation, last⟩, hequation, h⟩ := bind_eq_ok_iff.mp h
      cases h
      have hcovers := covering_readEquation names _ hequation
      exact ⟨hcovers.reaches, hcovers.stands, hcovers.inside⟩
  | some found =>
      obtain ⟨slot, sign⟩ := found
      obtain ⟨assigned, hassigned, h⟩ := bind_eq_ok_iff.mp h
      obtain ⟨⟨value, last⟩, hvalue, h⟩ := bind_eq_ok_iff.mp h
      cases h
      obtain ⟨hsign, hslot, hinside⟩ := standsOn_of_readTarget? htarget
      have hassigned := reaches_expect hassigned
      have hcovers := (covering_readEquation names _ hvalue).widen hassigned (.refl _)
      have hvalue := hcovers.widen hsign (.refl _)
      refine ⟨hvalue.reaches, ⟨hslot, ?_⟩, ⟨hvalue.stands, hvalue.inside⟩, ?_⟩
      · exact hinside.trans ((Reaches.refl c).inside_spanFrom hcovers.reaches)
      · exact Nat.le_trans hinside.finish hcovers.inside.start

theorem coversAction_of_readAction {names : Names} {action : Action}
    (h : readAction names c = .ok (action, past)) : c.CoversAction action past := by
  unfold readAction at h
  split at h
  · rename_i opened hopened
    obtain ⟨⟨condition, last⟩, hcondition, h⟩ := bind_eq_ok_iff.mp h
    cases h
    have hcovers :=
      (covering_readCondition names _ hcondition).widen (reaches_eat? hopened) (.refl _)
    exact ⟨hcovers.reaches, hcovers.stands, hcovers.inside⟩
  · split at h
    · rename_i opened hopened
      obtain ⟨⟨condition, last⟩, hcondition, h⟩ := bind_eq_ok_iff.mp h
      cases h
      have hcovers :=
        (covering_readCondition names _ hcondition).widen (reaches_eat? hopened) (.refl _)
      exact ⟨hcovers.reaches, hcovers.stands, hcovers.inside⟩
    · split at h
      · rename_i opened hopened
        obtain ⟨done, hdone, h⟩ := bind_eq_ok_iff.mp h
        cases h
        have hopened := (reaches_eat? hopened).trans opened.reaches_skipBlanks
        exact ⟨hopened.trans (reaches_expect hdone), trivial⟩
      · split at h
        · rename_i opened hopened
          exact (coversAction_of_readJump h).widen (reaches_eat? hopened) (.refl _)
        · exact coversAction_of_readPlain h

theorem standsOn_of_readStatement {names : Names} {statement : Statement}
    (h : readStatement names c = .ok statement) : statement.StandsOn c.lineNumber c.line := by
  obtain ⟨⟨action, last⟩, haction, h⟩ := bind_eq_ok_iff.mp h
  dsimp only at h
  split at h
  · rename_i done hdone
    cases h
    have hcovers := (coversAction_of_readAction haction).widen (.refl c) (reaches_eat? hdone)
    exact ⟨hcovers.reaches.within_spanFrom, hcovers.stands⟩
  · cases h

end TapePuzzle
