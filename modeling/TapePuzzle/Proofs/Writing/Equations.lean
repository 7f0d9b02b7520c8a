import TapePuzzle.Proofs.Grammar.Readers
import TapePuzzle.Proofs.Reading.NameRoles

/-!
# Written equations

The text of an equation: operators stand between single spaces, and operands that have an operator
of their own stand in parentheses. Main statement: the text of an equation that makes sense derives
this equation, apart from the places where its parts stand.
-/

namespace TapePuzzle

open Grammar

/-! ## Texts of equations -/

namespace Expr

/-- Whether an operator is at the root, so that the equation needs parentheses as an operand. -/
def isCompound : Expr → Bool
  | binary _ _ _ _ | unary _ _ _ => true
  | _ => false

/-- The text in parentheses, if it needs them. -/
def enclose (compound : Bool) (text : List Char) : List Char :=
  if compound then '(' :: (text ++ [')']) else text

/-- The text of an equation. -/
def render : Expr → List Char
  | number value _ => writeInteger value
  | slot name _ _ => name.name.toList
  | slotAt name offset _ _ => name.name.toList ++ '[' :: (offset.render ++ [']'])
  | call function _ => function.name.toList ++ ['(', ')']
  | callWith function argument _ => function.name.toList ++ '(' :: (argument.render ++ [')'])
  | method object verb _ => object.name.toList ++ '.' :: (verb.name.toList ++ ['(', ')'])
  | methodWith object verb argument _ =>
      object.name.toList ++ '.' :: (verb.name.toList ++ '(' :: (argument.render ++ [')']))
  | binary left op right _ =>
      enclose left.isCompound left.render ++
        ' ' :: (op.symbol.toList ++ ' ' :: enclose right.isCompound right.render)
  | unary op operand _ =>
      op.symbol.toList ++ ' ' :: enclose operand.isCompound operand.render

/-- The text of an equation as an operand of another one. -/
def operandText (e : Expr) : List Char := enclose e.isCompound e.render

theorem operandText_of_atomic {e : Expr} (h : e.isCompound = false) : e.operandText = e.render := by
  rw [operandText, h]
  rfl

theorem operandText_of_compound {e : Expr} (h : e.isCompound = true) :
    e.operandText = '(' :: (e.render ++ [')']) := by
  rw [operandText, h]
  rfl

theorem render_binary (left right : Expr) (op : BinaryOp) (s : Span) :
    (binary left op right s).render =
      left.operandText ++ ' ' :: (op.symbol.toList ++ ' ' :: right.operandText) := rfl

end Expr

/-! ## Reading back -/

/-- All declared names can be read as names. -/
def Names.Legible (names : Names) : Prop := ∀ name ∈ names.all, isIdentifier name = true

namespace Names

variable {names : Names} {name : String}

theorem HasSlot.mem_all (h : names.HasSlot name) : name ∈ names.all := by
  obtain ⟨index, hmem⟩ := h.exists_mem
  have hslot : name ∈ names.slots.map Prod.fst := List.mem_map_of_mem hmem
  simp [all, hslot]

theorem HasMethod.mem_all {verb : Method} (h : names.HasMethod name verb) : name ∈ names.all := by
  obtain ⟨kind, hmem⟩ := h.exists_mem
  have hobject : name ∈ names.objects.map Prod.fst := List.mem_map_of_mem hmem
  simp [all, hobject]

theorem HasLabel.mem_all (h : names.HasLabel name) : name ∈ names.all := by
  obtain ⟨line, hrole⟩ := h
  have hmem := mem_labels_of_declared (declared_of_role hrole (by simp) (by simp))
  have hlabel : name ∈ names.labels.map Prod.fst := List.mem_map_of_mem hmem
  simp [all, hlabel]

end Names

/-- The offset that follows the name of a slot, if there is one. -/
def offsetText : Option Expr → List Char
  | none => []
  | some offset => '[' :: (offset.render ++ [']'])

/-- The text of an equation derives its tree, on its own and as an operand. -/
structure Expr.ReadsBack (names : Names) (e : Expr) : Prop where
  starts : StartsOperand e.render
  operand : IsOperand names e.operandText e.unplaced
  equation : IsEquation names e.render e.unplaced

theorem isOffset_offsetText {names : Names} {offset? : Option Expr}
    (h : ∀ offset ∈ offset?, offset.ReadsBack names) :
    IsOffset names (offsetText offset?) (offset?.map Expr.unplaced) := by
  cases offset? with
  | none => exact .none
  | some offset => exact .some (h offset rfl).equation

theorem isBlanks_nil : IsBlanks [] := by simp [IsBlanks]

theorem isBlanks_space : IsBlanks [' '] := by simp [IsBlanks, isBlank]

/-- An operand alone is an equation. -/
theorem Grammar.IsOperand.isEquation {names : Names} {text : List Char} {e : Expr}
    (h : IsOperand names text e) : IsEquation names text e := by
  have hequation := IsEquation.mk isBlanks_nil h (.nil isBlanks_nil) (.operand 0 e)
  simpa using hequation

namespace Expr

variable {names : Names} {e : Expr}

namespace ReadsBack

/-- What stands without parentheses is an equation with one operand. -/
theorem of_operand (hatomic : e.isCompound = false) (h : IsOperand names e.render e.unplaced) :
    e.ReadsBack names where
  starts := h.startsOperand
  operand := by
    rw [operandText_of_atomic hatomic]
    exact h
  equation := h.isEquation

/-- What needs parentheses is between them like an equation on its own. -/
theorem of_equation (hcompound : e.isCompound = true) (hstart : StartsOperand e.render)
    (h : IsEquation names e.render e.unplaced) : e.ReadsBack names where
  starts := hstart
  operand := by
    rw [operandText_of_compound hcompound]
    exact .parentheses h
  equation := h

end ReadsBack

/-- The text of an equation that makes sense derives its tree. -/
theorem readsBack (hnames : names.Legible) {e : Expr} (h : e.WellFormed names) :
    e.ReadsBack names := by
  induction e with
  | number value s =>
      have hvalue := readInteger_writeInteger value
      have hnumber : IsOperand names (writeInteger value)
          (.number (readInteger (writeInteger value)) .nowhere) :=
        .number (isInteger_writeInteger value) (by rw [hvalue]; exact h)
      rw [hvalue] at hnumber
      exact .of_operand rfl hnumber
  | slot name reference s =>
      refine .of_operand rfl ?_
      have hslot := IsOperand.slot (hnames _ h.mem_all) h .none
      rwa [List.append_nil] at hslot
  | slotAt name offset reference s ih =>
      obtain ⟨hslot, hoffset⟩ := h
      exact .of_operand rfl (.slot (hnames _ hslot.mem_all) hslot (.some (ih hoffset).equation))
  | call function s =>
      have hargument : IsArgument names function.arity ['(', ')'] none := by
        rw [show function.arity = 0 from h]
        exact .none isBlanks_nil
      exact .of_operand rfl (.call hargument)
  | callWith function argument s ih =>
      obtain ⟨harity, hargument⟩ := h
      have hargument' : IsArgument names function.arity ('(' :: (argument.render ++ [')']))
          (some argument.unplaced) := by
        rw [harity]
        exact .some (ih hargument).equation
      exact .of_operand rfl (.call hargument')
  | method object verb s =>
      obtain ⟨hmethod, harity⟩ := h
      have hargument : IsArgument names verb.arity ['(', ')'] none := by
        rw [harity]
        exact .none isBlanks_nil
      exact .of_operand rfl (.method (hnames _ hmethod.mem_all) hmethod hargument)
  | methodWith object verb argument s ih =>
      obtain ⟨hmethod, harity, hargument⟩ := h
      have hargument' : IsArgument names verb.arity ('(' :: (argument.render ++ [')']))
          (some argument.unplaced) := by
        rw [harity]
        exact .some (ih hargument).equation
      exact .of_operand rfl (.method (hnames _ hmethod.mem_all) hmethod hargument')
  | binary left op right s ihLeft ihRight =>
      have hleft := (ihLeft h.1).operand
      have hright := (ihRight h.2).operand
      have hshape : Grouping 0 left.unplaced ([] ++ [(op, right.unplaced)])
          (.binary left.unplaced op right.unplaced .nowhere) :=
        .binary (Nat.zero_le _) (.operand _ _) (.operand _ _)
      have hequation := IsEquation.mk isBlanks_nil hleft
        (.cons isBlanks_space isBlanks_space hright (.nil isBlanks_nil)) hshape
      refine .of_equation rfl (hleft.startsOperand.append _) ?_
      simpa [render_binary, unplaced] using hequation
  | unary op operand s ih =>
      have hoperand : IsOperand names (op.symbol.toList ++ ([' '] ++ operand.operandText))
          (.unary op operand.unplaced .nowhere) :=
        .unary (fun _ => rfl) isBlanks_space (ih h).operand
      exact .of_equation rfl hoperand.startsOperand hoperand.isEquation

end Expr

end TapePuzzle
