import TapePuzzle.Proofs.Reading.Statements
import TapePuzzle.Proofs.Writing.Equations

/-!
# Written statements

The text of a statement. What a statement is gets decided by its first word and by a look ahead for
an equals sign, so most of the work is to show that a written equation is not taken for something
else. Main statement: a statement that makes sense is read back from its text, apart from places.
-/

namespace TapePuzzle

/-- The text of the target of an assignment. -/
def SlotRef.render (slot : SlotRef) : List Char := slot.name.name.toList ++ offsetText slot.offset

/-- The text of the header of a block, with its condition. -/
def headerText (kind : BlockKind) (condition : Expr) : List Char :=
  kind.keyword.toList ++ ' ' :: '(' :: (condition.render ++ [')', ':'])

/-- The text of a jump. -/
def jumpText (label : String) : List Char := "jump".toList ++ ' ' :: label.toList

/-- The text of a statement. -/
def Action.render : Action → List Char
  | assign target value => target.render ++ ' ' :: '=' :: ' ' :: value.render
  | evaluate equation => equation.render
  | ifTrue condition => headerText .ifBlock condition
  | otherwise => BlockKind.elseBlock.keyword.toList ++ [':']
  | whileTrue condition => headerText .whileBlock condition
  | jump label => jumpText label.name

/-! ## First words -/

theorem Names.role_keyword (names : Names) {word : String} (h : keywords.contains word = true) :
    names.role word = .keyword := by
  rw [Names.role, if_pos h]

/-- The words that decide what a statement is. -/
def statementWords : List String := ["if", "while", "else", "jump"]

/-- Where one of these words stands, the others do not. -/
theorem eat?_otherWord {c : Cursor} {word : String} {rest : List Char}
    (hword : word ∈ statementWords) (h : c.rest = word.toList ++ rest)
    (hend : Stops isNameChar rest) (other : String) (hother : other ∈ statementWords)
    (hne : word ≠ other) : c.eat? (.word other) = none := by
  have hidentifier : ∀ word ∈ statementWords, isIdentifier word = true := by decide
  exact Cursor.eat?_word_of_identifier
    (fun letter hletter => isNameChar_of_mem_identifier (hidentifier other hother) hletter)
    (hidentifier word hword) h hend hne

theorem readAction_eq_readPlain {names : Names} {c : Cursor}
    (h : ∀ word ∈ statementWords, c.eat? (.word word) = none) :
    readAction names c = readPlain names c := by
  have hif : c.eat? (.word BlockKind.ifBlock.keyword) = none := h "if" (by decide)
  have hwhile : c.eat? (.word BlockKind.whileBlock.keyword) = none := h "while" (by decide)
  have helse : c.eat? (.word BlockKind.elseBlock.keyword) = none := h "else" (by decide)
  rw [readAction, hif, hwhile, helse, h "jump" (by decide)]

/-! ## What follows an operand -/

/-- What follows an operand without parentheses around it: nothing but blanks, or an operator. -/
inductive Follows : List Char → Prop where
  | blank {rest : List Char} (h : rest.all isBlank = true) : Follows rest
  | operator (op : BinaryOp) (more : List Char) :
      Follows (' ' :: (op.symbol.toList ++ ' ' :: more))

theorem afterBlanks_of_all {rest : List Char} (h : rest.all isBlank = true) :
    afterBlanks rest = [] := by
  have happend : afterBlanks (rest ++ []) = [] :=
    List.dropWhile_append_of_pos (List.all_eq_true.mp h)
  rwa [List.append_nil] at happend

namespace Follows

variable {rest : List Char}

theorem operandEnd (h : Follows rest) : OperandEnd rest := by
  cases h with
  | operator op more => rfl
  | blank h =>
      cases rest with
      | nil => rfl
      | cons first rest =>
          have hfirst : isBlank first = true := (Bool.and_eq_true_iff.mp h).1
          simp [OperandEnd, Stops, hfirst]

theorem stops_colon (h : Follows rest) : Stops (· == ':') (afterBlanks rest) := by
  cases h with
  | operator op more => cases op <;> rfl
  | blank h =>
      rw [afterBlanks_of_all h]
      rfl

/-- No operator is taken for the sign of an assignment. -/
theorem seesAssignment_eq (h : Follows rest) {c : Cursor} (hrest : c.rest = rest) :
    c.skipBlanks.seesAssignment = false := by
  have hskip : c.skipBlanks.rest = afterBlanks rest := by rw [Cursor.rest_skipBlanks, hrest]
  unfold Cursor.seesAssignment Cursor.sees
  rw [hskip]
  cases h with
  | operator op more => cases op <;> rfl
  | blank h =>
      rw [afterBlanks_of_all h]
      rfl

end Follows

/-! ## Equations at the start of a line -/

/-- What a written equation starts with. -/
inductive Lead (names : Names) : List Char → Prop where
  | symbol {text : List Char} (h : Stops isNameStart text) : Lead names text
  | slot {target : SlotRef} {rest : List Char} (hslot : names.HasSlot target.name.name)
      (hoffset : ∀ offset ∈ target.offset, offset.ReadsBack names) (hrest : Follows rest) :
      Lead names (target.render ++ rest)
  /-- A function or an object, which a bracket or a dot follows. -/
  | callee {name : String} {mark : Char} {rest : List Char}
      (hrole : (∃ function, names.role name = .builtin function) ∨
        ∃ kind, names.role name = .object kind)
      (hname : isIdentifier name = true) (hmark : mark = '(' ∨ mark = '.') :
      Lead names (name.toList ++ mark :: rest)

/-- The text starts with a name, and no colon follows this name. -/
structure LeadingName (text : List Char) (name : String) (rest : List Char) : Prop where
  text_eq : text = name.toList ++ rest
  identifier : isIdentifier name = true
  stops : Stops isNameChar rest
  colon : Stops (· == ':') (afterBlanks rest)

theorem leadingName_slot {target : SlotRef} {rest : List Char}
    (hname : isIdentifier target.name.name = true) (hend : OperandEnd rest)
    (hcolon : Stops (· == ':') (afterBlanks rest)) :
    LeadingName (target.render ++ rest) target.name.name (offsetText target.offset ++ rest) := by
  obtain ⟨name, offset?, span⟩ := target
  cases offset? with
  | none => exact ⟨List.append_assoc _ _ _, hname, hend.stops rfl rfl rfl rfl, hcolon⟩
  | some offset => exact ⟨List.append_assoc _ _ _, hname, rfl, rfl⟩

namespace Lead

variable {names : Names} {text : List Char}

theorem exists_name (hnames : names.Legible) (h : Lead names text) :
    Stops isNameStart text ∨
      ∃ name rest, LeadingName text name rest ∧ names.role name ≠ .keyword := by
  cases h with
  | symbol h => exact .inl h
  | @slot target rest hslot hoffset hrest =>
      refine .inr ⟨_, _, leadingName_slot (hnames _ hslot.mem_all) hrest.operandEnd
        hrest.stops_colon, ?_⟩
      obtain ⟨index, hrole⟩ := hslot
      simp [hrole]
  | @callee name mark rest hrole hname hmark =>
      refine .inr ⟨name, mark :: rest, ⟨rfl, hname, ?_, ?_⟩, ?_⟩
      · rcases hmark with rfl | rfl <;> rfl
      · rcases hmark with rfl | rfl <;> rfl
      · rcases hrole with ⟨function, hrole⟩ | ⟨kind, hrole⟩ <;> simp [hrole]

end Lead

/-- Where a name that is no keyword stands, or no name at all, there is no word that decides what a
    statement is. -/
theorem eat?_statementWord {names : Names} {c : Cursor}
    (h : Stops isNameStart c.rest ∨
      ∃ name rest, LeadingName c.rest name rest ∧ names.role name ≠ .keyword) :
    ∀ word ∈ statementWords, c.eat? (.word word) = none := by
  intro word hword
  have hkeyword : keywords.contains word = true ∧ isIdentifier word = true := by
    revert word
    decide
  rcases h with hstops | ⟨name, rest, hlead, hrole⟩
  · obtain ⟨letter, more, hletters, hletter, -⟩ := isIdentifier_iff.mp hkeyword.2
    exact Cursor.eat?_word_of_stops (by rw [hletters]; rfl) hletter hstops
  · refine Cursor.eat?_word_of_identifier
      (fun letter hletter => isNameChar_of_mem_identifier hkeyword.2 hletter) hlead.identifier
      hlead.text_eq hlead.stops ?_
    rintro rfl
    exact hrole (names.role_keyword hkeyword.1)

theorem Expr.ReadsBack.recovers_readEquation {names : Names} {e : Expr} (h : e.ReadsBack names)
    (stop : EndMark) {c : Cursor} {rest : List Char}
    (hrest : c.skipBlanks.rest = e.render ++ rest) (hend : stop.At rest) :
    Recovers (readEquation names stop c) e.unplaced rest := by
  obtain ⟨blanks, hblanks, hc⟩ := c.exists_blanks
  rw [hrest, ← List.append_assoc] at hc
  exact accepts_readEquation (h.equation.blanks_append hblanks) hc hend

theorem readSlotRef_readEquation {names : Names} {target : SlotRef} {ident : Ident} {c : Cursor}
    {rest : List Char} (hoffset : ∀ offset ∈ target.offset, offset.ReadsBack names)
    (hname : ident.name = target.name.name) (h : c.rest = offsetText target.offset ++ rest)
    (hend : OperandEnd rest) :
    ∃ slot past, readSlotRef (readEquation names) ident c = .ok (slot, past) ∧
      slot.unplaced = target.unplaced ∧ past.rest = rest := by
  have hequation : EquationReader.Accepts (readEquation names) names
      (offsetText target.offset).length := fun _ _ _ _ _ h _ => accepts_readEquation h
  obtain ⟨slot, past, hread, hslot, hpast⟩ := accepts_readSlotRef hequation
    (isOffset_offsetText hoffset) (Nat.le_refl _) h (hend.stops rfl rfl rfl rfl) ident
  refine ⟨slot, past, hread, ?_, hpast⟩
  rw [hslot, SlotRef.unplaced, Ident.unplaced, Ident.unplaced, hname]

/-- A written equation is not taken for an assignment. -/
theorem Lead.readTarget?_eq {names : Names} (hnames : names.Legible) {c : Cursor}
    (h : Lead names c.rest) : readTarget? names c = .ok none := by
  generalize htext : c.rest = text at h
  cases h with
  | symbol h => rw [readTarget?, Cursor.eat?_identifier_of_stops (htext ▸ h)]
  | @slot target rest hslot hoffset hrest =>
      obtain ⟨htext, hname, hstops, -⟩ := htext ▸ leadingName_slot (hnames _ hslot.mem_all)
        hrest.operandEnd hrest.stops_colon
      obtain ⟨named, hnamed, hnamedRest, hword⟩ := Cursor.eat?_identifier hname htext hstops
      obtain ⟨index, hrole⟩ := hslot
      have hident : (Ident.mk named.word (named.spanFrom c.offset)).name = target.name.name := hword
      obtain ⟨slot, behind, hread, -, hbehind⟩ :=
        readSlotRef_readEquation hoffset hident hnamedRest hrest.operandEnd
      have hsign := hrest.seesAssignment_eq hbehind
      rw [readTarget?, hnamed]
      simp only [hword, hrole] at hread ⊢
      rw [hread]
      simp [bind, Except.bind, hsign]
  | @callee name mark rest hrole hname hmark =>
      have hstops : Stops isNameChar (mark :: rest) := by rcases hmark with rfl | rfl <;> rfl
      obtain ⟨named, hnamed, hnamedRest, hword⟩ := Cursor.eat?_identifier hname htext hstops
      have hsign : named.skipBlanks.seesAssignment = false := by
        unfold Cursor.seesAssignment Cursor.sees
        rw [Cursor.rest_skipBlanks, hnamedRest]
        rcases hmark with rfl | rfl <;> rfl
      rw [readTarget?, hnamed]
      rcases hrole with ⟨function, hrole⟩ | ⟨kind, hrole⟩ <;>
        simp [hword, hrole, hsign]

namespace Expr

variable {names : Names} {e : Expr} {rest : List Char}

theorem lead_operandText (hnames : names.Legible) (h : e.WellFormed names) (hrest : Follows rest) :
    Lead names (e.operandText ++ rest) := by
  cases e with
  | number value s =>
      obtain ⟨first, more, heq, hfirst⟩ := writeInteger_eq_cons value
      refine .symbol ?_
      rw [operandText_of_atomic rfl, render, heq]
      exact hfirst
  | slot name reference s =>
      have hlead : Lead names (SlotRef.render ⟨name, none, reference⟩ ++ rest) :=
        .slot h (by simp) hrest
      rw [operandText_of_atomic rfl, render]
      simpa [SlotRef.render, offsetText] using hlead
  | slotAt name offset reference s =>
      have hlead : Lead names (SlotRef.render ⟨name, some offset, reference⟩ ++ rest) := by
        refine .slot h.1 ?_ hrest
        rintro _ ⟨⟩
        exact readsBack hnames h.2
      exact hlead
  | call function s | callWith function argument s =>
      rw [operandText_of_atomic rfl, render, List.append_assoc]
      exact .callee (.inl ⟨function, names.role_builtin function⟩) function.isIdentifier_name
        (.inl rfl)
  | method object verb s | methodWith object verb argument s =>
      have hname := hnames _ h.1.mem_all
      obtain ⟨kind, hrole, -⟩ := h.1
      rw [operandText_of_atomic rfl, render, List.append_assoc]
      exact .callee (.inr ⟨kind, hrole⟩) hname (.inr rfl)
  | binary left op right s | unary op operand s => exact .symbol rfl

theorem lead_render (hnames : names.Legible) (h : e.WellFormed names)
    (hrest : rest.all isBlank = true) : Lead names (e.render ++ rest) := by
  cases e with
  | binary left op right s =>
      rw [render_binary, List.append_assoc]
      refine lead_operandText hnames h.1 ?_
      have hfollows := Follows.operator op (right.operandText ++ rest)
      simpa using hfollows
  | unary op operand s =>
      refine .symbol ?_
      cases op <;> rfl
  | _ =>
      have hlead := lead_operandText hnames h (.blank hrest)
      exact hlead

end Expr

/-! ## Reading back -/

section Statements

variable {names : Names} {c : Cursor}

theorem readPlain_evaluate (hnames : names.Legible) {e : Expr} (h : e.WellFormed names)
    (hrest : c.rest = e.render) :
    ∃ found last, readPlain names c = .ok (.evaluate found, last) ∧
      found.unplaced = e.unplaced ∧ last.rest = [] := by
  have hback := Expr.readsBack hnames h
  have hlead : Lead names c.rest := by
    rw [hrest, ← List.append_nil e.render]
    exact Expr.lead_render hnames h rfl
  have hskip : c.skipBlanks.rest = e.render ++ [] := by
    rw [Cursor.rest_skipBlanks, hrest, hback.starts.afterBlanks_eq, List.append_nil]
  obtain ⟨found, last, hfound, heq, hlast⟩ := hback.recovers_readEquation .endOfLine hskip rfl
  refine ⟨found, last, ?_, heq, hlast⟩
  rw [readPlain, hlead.readTarget?_eq hnames]
  dsimp only [bind, Except.bind]
  rw [hfound]

theorem readPlain_assign (hnames : names.Legible) {target : SlotRef} {value : Expr}
    (htarget : target.WellFormed names) (hvalue : value.WellFormed names)
    (hrest : c.rest = (Action.assign target value).render) :
    ∃ slot found last, readPlain names c = .ok (.assign slot found, last) ∧
      slot.unplaced = target.unplaced ∧ found.unplaced = value.unplaced ∧ last.rest = [] := by
  have hoffset : ∀ offset ∈ target.offset, offset.ReadsBack names :=
    fun offset hmem => Expr.readsBack hnames (htarget.2 offset hmem)
  have hback := Expr.readsBack hnames hvalue
  have hlead : LeadingName c.rest target.name.name
      (offsetText target.offset ++ ' ' :: '=' :: ' ' :: value.render) :=
    hrest ▸ leadingName_slot (hnames _ htarget.1.mem_all) rfl rfl
  obtain ⟨named, hnamed, hnamedRest, hword⟩ :=
    Cursor.eat?_identifier hlead.identifier hlead.text_eq hlead.stops
  have hident : (Ident.mk named.word (named.spanFrom c.offset)).name = target.name.name := hword
  obtain ⟨slot, behind, hslot, hsame, hbehind⟩ :=
    readSlotRef_readEquation hoffset hident hnamedRest rfl
  have hsign : behind.skipBlanks.rest = "=".toList ++ ' ' :: value.render := by
    rw [Cursor.rest_skipBlanks, hbehind]
    rfl
  have hsees : behind.skipBlanks.seesAssignment = true := by
    unfold Cursor.seesAssignment Cursor.sees
    rw [hsign]
    rfl
  have hread : readTarget? names c = .ok (some (slot, behind.skipBlanks)) := by
    obtain ⟨index, hrole⟩ := htarget.1
    rw [readTarget?, hnamed]
    simp only [hword, hrole] at hslot ⊢
    rw [hslot]
    simp [bind, Except.bind, hsees]
  obtain ⟨assigned, hassigned, hassignedRest⟩ := Cursor.expect_literal hsign
  have hskip : assigned.skipBlanks.rest = value.render ++ [] := by
    rw [Cursor.rest_skipBlanks, hassignedRest, afterBlanks_space, hback.starts.afterBlanks_eq,
      List.append_nil]
  obtain ⟨found, last, hfound, heq, hlast⟩ := hback.recovers_readEquation .endOfLine hskip rfl
  refine ⟨slot, found, last, ?_, hsame, heq, hlast⟩
  rw [readPlain, hread]
  dsimp only [bind, Except.bind]
  rw [hassigned]
  dsimp only
  rw [hfound]

theorem readCondition_written (hnames : names.Legible) {condition : Expr}
    (h : condition.WellFormed names) (kind : BlockKind)
    (hrest : c.rest = ' ' :: '(' :: (condition.render ++ [')', ':'])) :
    ∃ found last, readCondition names kind c = .ok (found, last) ∧
      found.unplaced = condition.unplaced ∧ last.rest = [] := by
  have hback := Expr.readsBack hnames h
  have hopening : c.skipBlanks.rest = "(".toList ++ (condition.render ++ [')', ':']) := by
    rw [Cursor.rest_skipBlanks, hrest]
    rfl
  obtain ⟨opened, hopened, hopenedRest⟩ := Cursor.eat?_literal hopening
  have hskip : opened.skipBlanks.rest = condition.render ++ ')' :: ":".toList := by
    rw [Cursor.rest_skipBlanks, hopenedRest, (hback.starts.append _).afterBlanks_eq]
    rfl
  obtain ⟨found, last, hfound, heq, hlast⟩ := hback.recovers_readEquation .closeParen hskip rfl
  have hclosing : last.rest = ")".toList ++ ":".toList := hlast
  obtain ⟨closed, hclosed, hclosedRest⟩ := Cursor.expect_literal hclosing
  have hcolon : closed.skipBlanks.rest = ":".toList ++ [] := by
    rw [Cursor.rest_skipBlanks, hclosedRest]
    rfl
  obtain ⟨done, hdone, hdoneRest⟩ := Cursor.expect_literal hcolon
  refine ⟨found, done, ?_, heq, hdoneRest⟩
  simp only [readCondition, hopened, hfound, hclosed, hdone, bind, Except.bind]

theorem readJump_written (hnames : names.Legible) {label : Ident} (h : names.HasLabel label.name)
    (hrest : c.rest = ' ' :: label.name.toList) :
    ∃ found last, readJump names c = .ok (.jump found, last) ∧
      found.unplaced = label.unplaced ∧ last.rest = [] := by
  have hname : isIdentifier label.name = true := hnames _ h.mem_all
  obtain ⟨line, hrole⟩ := h
  have hskip : c.skipBlanks.rest = label.name.toList ++ [] := by
    rw [Cursor.rest_skipBlanks, hrest, afterBlanks_space,
      (isWord_of_isIdentifier hname).startsOperand.afterBlanks_eq, List.append_nil]
  obtain ⟨named, hnamed, hnamedRest, hword⟩ := Cursor.eat?_identifier hname hskip rfl
  refine ⟨⟨named.word, named.spanFrom c.skipBlanks.offset⟩, named, ?_, ?_, hnamedRest⟩
  · simp [readJump, hnamed, hword, hrole]
  · simp [Ident.unplaced, hword]

/-- What a statement does is read back from its text, up to the end of the line. -/
theorem readAction_written (hnames : names.Legible) {action : Action}
    (h : action.WellFormed names) (hrest : c.rest = action.render) :
    ∃ found last, readAction names c = .ok (found, last) ∧ found.unplaced = action.unplaced ∧
      last.rest = [] := by
  cases action with
  | assign target value =>
      have hlead : LeadingName c.rest target.name.name
          (offsetText target.offset ++ ' ' :: '=' :: ' ' :: value.render) :=
        hrest ▸ leadingName_slot (hnames _ h.1.1.mem_all) rfl rfl
      have hrole : names.role target.name.name ≠ .keyword := by
        obtain ⟨index, hrole⟩ := h.1.1
        simp [hrole]
      obtain ⟨slot, found, last, hread, hslot, hfound, hlast⟩ :=
        readPlain_assign hnames h.1 h.2 hrest
      refine ⟨.assign slot found, last, ?_, by simp [Action.unplaced, hslot, hfound], hlast⟩
      rw [readAction_eq_readPlain (eat?_statementWord (.inr ⟨_, _, hlead, hrole⟩)), hread]
  | evaluate equation =>
      have hwell : equation.WellFormed names := h
      have htext : c.rest = equation.render ++ [] := by rw [hrest, Action.render, List.append_nil]
      have hlead : Lead names c.rest := htext ▸ Expr.lead_render hnames hwell rfl
      obtain ⟨found, last, hread, hfound, hlast⟩ := readPlain_evaluate hnames hwell hrest
      refine ⟨.evaluate found, last, ?_, by simp [Action.unplaced, hfound], hlast⟩
      rw [readAction_eq_readPlain (eat?_statementWord (hlead.exists_name hnames)), hread]
  | ifTrue condition =>
      have hword : c.rest = headerText .ifBlock condition := hrest
      obtain ⟨past, hpast, hpastRest⟩ := Cursor.eat?_word hword rfl
      obtain ⟨found, last, hread, hfound, hlast⟩ :=
        readCondition_written hnames h .ifBlock hpastRest
      refine ⟨.ifTrue found, last, ?_, by simp [Action.unplaced, hfound], hlast⟩
      rw [readAction, hpast]
      dsimp only
      rw [hread]
      rfl
  | whileTrue condition =>
      have hword : c.rest = headerText .whileBlock condition := hrest
      have hif : c.eat? (.word BlockKind.ifBlock.keyword) = none :=
        eat?_otherWord (by decide) hword rfl "if" (by decide) (by decide)
      obtain ⟨past, hpast, hpastRest⟩ := Cursor.eat?_word hword rfl
      obtain ⟨found, last, hread, hfound, hlast⟩ :=
        readCondition_written hnames h .whileBlock hpastRest
      refine ⟨.whileTrue found, last, ?_, by simp [Action.unplaced, hfound], hlast⟩
      rw [readAction, hif, hpast]
      dsimp only
      rw [hread]
      rfl
  | otherwise =>
      have hword : c.rest = BlockKind.elseBlock.keyword.toList ++ [':'] := hrest
      have hother := eat?_otherWord (by decide) hword rfl
      have hif : c.eat? (.word BlockKind.ifBlock.keyword) = none :=
        hother "if" (by decide) (by decide)
      have hwhile : c.eat? (.word BlockKind.whileBlock.keyword) = none :=
        hother "while" (by decide) (by decide)
      obtain ⟨past, hpast, hpastRest⟩ := Cursor.eat?_word hword rfl
      have hcolon : past.skipBlanks.rest = ":".toList ++ [] := by
        rw [Cursor.rest_skipBlanks, hpastRest]
        rfl
      obtain ⟨done, hdone, hdoneRest⟩ := Cursor.expect_literal hcolon
      refine ⟨.otherwise, done, ?_, rfl, hdoneRest⟩
      rw [readAction, hif, hwhile, hpast]
      dsimp only
      rw [hdone]
      rfl
  | jump label =>
      have hword : c.rest = jumpText label.name := hrest
      have hother := eat?_otherWord (by decide) hword rfl
      have hif : c.eat? (.word BlockKind.ifBlock.keyword) = none :=
        hother "if" (by decide) (by decide)
      have hwhile : c.eat? (.word BlockKind.whileBlock.keyword) = none :=
        hother "while" (by decide) (by decide)
      have helse : c.eat? (.word BlockKind.elseBlock.keyword) = none :=
        hother "else" (by decide) (by decide)
      obtain ⟨past, hpast, hpastRest⟩ := Cursor.eat?_word hword rfl
      obtain ⟨found, last, hread, hfound, hlast⟩ := readJump_written hnames h hpastRest
      refine ⟨.jump found, last, ?_, by simp [Action.unplaced, hfound], hlast⟩
      rw [readAction, hif, hwhile, helse, hpast]
      exact hread

/-- A statement is read back from its text. -/
theorem readStatement_written (hnames : names.Legible) {action : Action}
    (h : action.WellFormed names) (hrest : c.rest = action.render) :
    ∃ statement, readStatement names c = .ok statement ∧
      statement.action.unplaced = action.unplaced := by
  obtain ⟨found, last, hread, hfound, hlast⟩ := readAction_written hnames h hrest
  have hsplit : Pattern.endOfLine.split? last.rest = some ([], []) := by
    rw [hlast]
    rfl
  obtain ⟨done, hdone, -⟩ := Cursor.eat?_of_split? hsplit
  refine ⟨⟨found, done.spanFrom c.offset⟩, ?_, hfound⟩
  rw [readStatement, hread]
  dsimp only [bind, Except.bind]
  rw [hdone]

end Statements

end TapePuzzle
