import TapePuzzle.Proofs.Reading.DeclarationPlaces

/-!
# What lines are refused for

A line is refused for its leading blanks, for a block that is missing after it, or for what it says.
The causes have numbers of their own, so that each diagnostic tells which of these it is. Main
statement: neither reading a statement nor reading declarations finds anything wrong with
indentation.
-/

namespace TapePuzzle

/-- Whether the cause is about leading blanks or a missing block. -/
def Issue.isIndentation : Issue → Bool
  | indentation _ | missingBlock _ => true
  | _ => false

/-- The number under which a missing block is known. -/
def missingBlockCode : IssueCode := ⟨303⟩

/-- The numbers under which refused leading blanks are known. -/
def blanksCodes : List IssueCode := [⟨300⟩, ⟨301⟩, ⟨302⟩]

theorem Issue.code_of_not_isIndentation {issue : Issue} (h : issue.isIndentation = false) :
    issue.code ≠ missingBlockCode ∧ issue.code ∉ blanksCodes := by
  cases issue <;> simp_all [isIndentation, code, missingBlockCode, blanksCodes]

theorem IndentIssue.code_mem (issue : IndentIssue) :
    (Issue.indentation issue).code ≠ missingBlockCode ∧
      (Issue.indentation issue).code ∈ blanksCodes := by
  cases issue <;> decide

variable {α β : Type}

/-- There is an answer, or something else than indentation is wrong. -/
def SparesIndentation (result : Checked α) : Prop :=
  match result with
  | .ok _ => True
  | .error finding => finding.issue.isIndentation = false

theorem spares_error {finding : Finding} (h : finding.issue.isIndentation = false) :
    SparesIndentation (.error finding : Checked α) := h

theorem SparesIndentation.bind {result : Checked α} {next : α → Checked β}
    (h : SparesIndentation result) (hnext : ∀ answer, SparesIndentation (next answer)) :
    SparesIndentation (result >>= next) := by
  cases result with
  | ok answer => exact hnext answer
  | error finding => exact h

theorem Cursor.spares_refuse (c : Cursor) {issue : Issue} (h : issue.isIndentation = false) :
    SparesIndentation (c.refuse issue : Checked α) := spares_error h

theorem Cursor.spares_expect (c : Cursor) (wanted : String) :
    SparesIndentation (c.expect wanted) := by
  unfold expect
  split
  · trivial
  · exact c.spares_refuse rfl

/-! ## Equations -/

theorem spares_readNumber (start : Nat) (c : Cursor) : SparesIndentation (readNumber start c) := by
  simp only [readNumber]
  split
  · trivial
  · exact spares_error rfl

theorem isIndentation_operatorIssue (stop : EndMark) (afterNumber : Bool) (c : Cursor) :
    (operatorIssue stop afterNumber c).isIndentation = false := by
  unfold operatorIssue
  split <;> rfl

theorem spares_readRun {operand : OperandReader} (hoperand : ∀ c, SparesIndentation (operand c))
    (stop : EndMark) (fuel : Nat) (afterNumber : Bool) (c : Cursor) :
    SparesIndentation (readRun operand stop fuel afterNumber c) := by
  induction fuel generalizing afterNumber c with
  | zero => exact c.spares_refuse (isIndentation_operatorIssue stop afterNumber c)
  | succ fuel ih =>
      simp only [readRun]
      split
      · trivial
      · split
        · exact Cursor.spares_refuse _ (isIndentation_operatorIssue stop afterNumber _)
        · rename_i op past hpast
          apply (hoperand past.skipBlanks).bind
          intro right
          exact (ih right.1.isNumber right.2).bind fun run => trivial

theorem spares_readEquationWith {operand : OperandReader}
    (hoperand : ∀ c, SparesIndentation (operand c)) (stop : EndMark) (c : Cursor) :
    SparesIndentation (readEquationWith operand stop c) := by
  apply (hoperand c.skipBlanks).bind
  intro first
  exact (spares_readRun hoperand stop _ _ first.2).bind fun run => trivial

section Nested

variable {equation : EquationReader} (hequation : ∀ stop c, SparesIndentation (equation stop c))

include hequation

theorem spares_readSlotRef (name : Ident) (c : Cursor) :
    SparesIndentation (readSlotRef equation name c) := by
  unfold readSlotRef
  split
  · trivial
  · rename_i opened hopened
    apply (hequation .closeBracket opened).bind
    intro offset
    exact (offset.2.spares_expect "]").bind fun closed => trivial

theorem spares_readArgument (callee : String) (arity : Nat) (c : Cursor) :
    SparesIndentation (readArgument equation callee arity c) := by
  unfold readArgument
  split
  · exact c.spares_refuse rfl
  · rename_i opened hopened
    dsimp only
    split
    · split
      · exact spares_error rfl
      · trivial
    · split
      · exact Cursor.spares_refuse _ rfl
      · apply (hequation .closeParen opened.skipBlanks).bind
        intro argument
        exact (argument.2.spares_expect ")").bind fun closed => trivial

theorem spares_readMethod (kind : ObjectKind) (object : Ident) (start : Nat) (c : Cursor) :
    SparesIndentation (readMethod equation kind object start c) := by
  apply (c.spares_expect ".").bind
  intro dotted
  split
  · exact dotted.spares_refuse rfl
  · rename_i named hnamed
    split
    · exact spares_error rfl
    · rename_i verb hverb
      apply (spares_readArgument hequation verb.name verb.arity named).bind
      rintro ⟨argument?, closed⟩
      cases argument? <;> trivial

theorem spares_readNamed (names : Names) (start : Nat) (c : Cursor) :
    SparesIndentation (readNamed names equation start c) := by
  simp only [readNamed]
  split
  · exact (spares_readSlotRef hequation _ c).bind fun slot => trivial
  · exact spares_readMethod hequation _ _ start c
  · apply (spares_readArgument hequation _ _ c).bind
    rintro ⟨argument?, closed⟩
    cases argument? <;> trivial
  · exact spares_error rfl
  · exact spares_error rfl
  · exact spares_error rfl

end Nested

theorem spares_readOperand (names : Names) (fuel : Nat) (c : Cursor) :
    SparesIndentation (readOperand names fuel c) := by
  induction fuel generalizing c with
  | zero => exact c.spares_refuse rfl
  | succ fuel ih =>
      have hequation := spares_readEquationWith ih
      simp only [readOperand]
      split
      · exact (spares_readNumber _ _).bind fun number => trivial
      · split
        · rename_i op past hpast
          exact (ih past.skipBlanks).bind fun operand => trivial
        · split
          · rename_i opened hopened
            apply (hequation .closeParen opened).bind
            intro inner
            exact (inner.2.spares_expect ")").bind fun closed => trivial
          · split
            · exact spares_readNamed hequation names _ _
            · exact c.spares_refuse rfl

theorem spares_readEquation (names : Names) (stop : EndMark) (c : Cursor) :
    SparesIndentation (readEquation names stop c) :=
  spares_readEquationWith (spares_readOperand names _) stop c

/-! ## Statements -/

theorem spares_readCondition (names : Names) (kind : BlockKind) (c : Cursor) :
    SparesIndentation (readCondition names kind c) := by
  simp only [readCondition]
  split
  · exact Cursor.spares_refuse _ rfl
  · rename_i opened hopened
    apply (spares_readEquation names .closeParen opened).bind
    intro condition
    apply (condition.2.spares_expect ")").bind
    intro closed
    exact (closed.skipBlanks.spares_expect ":").bind fun done => trivial

theorem spares_readJump (names : Names) (c : Cursor) : SparesIndentation (readJump names c) := by
  simp only [readJump]
  split
  · exact Cursor.spares_refuse _ rfl
  · split
    · trivial
    · exact spares_error rfl

theorem isIndentation_assignmentIssue (name : String) (role : Role) :
    (assignmentIssue name role).isIndentation = false := by
  cases role <;> rfl

theorem spares_readTarget? (names : Names) (c : Cursor) :
    SparesIndentation (readTarget? names c) := by
  unfold readTarget?
  split
  · trivial
  · dsimp only
    split
    · exact (spares_readSlotRef (spares_readEquation names) _ _).bind fun slot => trivial
    · split
      · exact spares_error (isIndentation_assignmentIssue _ _)
      · trivial

theorem spares_readPlain (names : Names) (c : Cursor) : SparesIndentation (readPlain names c) := by
  apply (spares_readTarget? names c).bind
  intro found?
  cases found? with
  | none => exact (spares_readEquation names .endOfLine c).bind fun equation => trivial
  | some found =>
      apply (found.2.spares_expect "=").bind
      intro assigned
      exact (spares_readEquation names .endOfLine assigned).bind fun value => trivial

theorem spares_readAction (names : Names) (c : Cursor) :
    SparesIndentation (readAction names c) := by
  unfold readAction
  split
  · exact (spares_readCondition names _ _).bind fun condition => trivial
  · split
    · exact (spares_readCondition names _ _).bind fun condition => trivial
    · split
      · exact (Cursor.spares_expect _ ":").bind fun done => trivial
      · split
        · exact spares_readJump names _
        · exact spares_readPlain names c

theorem spares_readStatement (names : Names) (c : Cursor) :
    SparesIndentation (readStatement names c) := by
  apply (spares_readAction names c).bind
  rintro ⟨action, last⟩
  dsimp only
  split
  · trivial
  · exact Cursor.spares_refuse _ rfl

theorem spares_readPlaced (names : Names) (placement : Placement) (c : Cursor) :
    SparesIndentation (readPlaced names placement c) := by
  unfold readPlaced
  split
  · exact c.spares_refuse rfl
  · exact (spares_readStatement names c).bind fun statement => trivial

/-! ## Declarations -/

namespace Declarations

variable {d : Declarations}

theorem spares_checkName (d : Declarations) (ident : Ident) :
    SparesIndentation (d.checkName ident) := by
  unfold checkName
  split
  · exact spares_error rfl
  · split
    · exact spares_error rfl
    · trivial

theorem spares_readTapeLength (d : Declarations) (c : Cursor) :
    SparesIndentation (d.readTapeLength c) := by
  simp only [readTapeLength]
  split
  · exact Cursor.spares_refuse _ rfl
  · split
    · trivial
    · exact spares_error rfl

theorem spares_readDataValue (start : Nat) (c : Cursor) :
    SparesIndentation (readDataValue start c) := by
  simp only [readDataValue]
  split
  · trivial
  · exact spares_error rfl

theorem spares_readSlotIndex (d : Declarations) (c : Cursor) :
    SparesIndentation (d.readSlotIndex c) := by
  simp only [readSlotIndex]
  split
  · exact c.spares_refuse rfl
  · split
    · split
      · exact spares_error rfl
      · trivial
    · exact spares_error rfl

theorem spares_readSlotValue (c : Cursor) : SparesIndentation (readSlotValue c) := by
  simp only [readSlotValue]
  split
  · trivial
  · exact (spares_readDataValue _ _).bind fun value => trivial

theorem spares_readSlotBinding (d : Declarations) (index : Nat) (c : Cursor) :
    SparesIndentation (d.readSlotBinding index c) := by
  simp only [readSlotBinding]
  apply (spares_readSlotValue (readSlotName c).2).bind
  intro value
  split
  · exact Cursor.spares_refuse _ rfl
  · cases (readSlotName c).1 with
    | none => cases value.1 <;> trivial
    | some ident =>
        apply (d.spares_checkName ident).bind
        intro _
        cases value.1 <;> trivial

theorem spares_readValues (fuel : Nat) (c : Cursor) : SparesIndentation (readValues fuel c) := by
  induction fuel generalizing c with
  | zero => exact c.spares_refuse rfl
  | succ fuel ih =>
      simp only [readValues]
      split
      · trivial
      · split
        · exact Cursor.spares_refuse _ rfl
        · rename_i counted hcounted
          apply (spares_readDataValue _ counted).bind
          intro value
          exact (ih counted).bind fun values => trivial

theorem spares_readObject (d : Declarations) (kind : ObjectKind) (c : Cursor) :
    SparesIndentation (d.readObject kind c) := by
  unfold readObject
  split
  · exact c.spares_refuse rfl
  · split
    · exact Cursor.spares_refuse _ rfl
    · rename_i named hnamed
      apply (spares_readValues _ named).bind
      intro values
      split
      · exact spares_error rfl
      · exact (d.spares_checkName _).bind fun _ => trivial

/-- None of what was found wrong is about indentation. -/
def NoIndentation (d : Declarations) : Prop :=
  ∀ finding ∈ d.findings, finding.issue.isIndentation = false

namespace NoIndentation

theorem reject (h : d.NoIndentation) {finding : Finding}
    (hfinding : finding.issue.isIndentation = false) : (d.reject finding).NoIndentation := by
  intro found hfound
  rcases List.mem_append.mp hfound with hold | hnew
  · exact h found hold
  · rw [List.mem_singleton.mp hnew]
    exact hfinding

theorem orReject (h : d.NoIndentation) {result : Checked Declarations} {c : Cursor} {number : Nat}
    (hspares : SparesIndentation result) (hanswer : c.Answers result fun d' => d.Grow d' number) :
    (d.orReject result).NoIndentation := by
  cases result with
  | ok declared =>
      intro finding hfinding
      have hgrow : d.Grow declared number := hanswer
      exact h finding (hgrow.findings ▸ hfinding)
  | error finding => exact h.reject hspares

theorem readDeclaration (h : d.NoIndentation) (c : Cursor) :
    (d.readDeclaration c).NoIndentation := by
  unfold Declarations.readDeclaration
  split
  · unfold bindSlot
    have hindex := d.spares_readSlotIndex c
    split
    · rename_i finding hread
      rw [hread] at hindex
      exact h.reject hindex
    · rename_i index counted hread
      have hbound : ({ d with bound := index :: d.bound } : Declarations).NoIndentation := h
      exact hbound.orReject (spares_readSlotBinding _ index counted)
        (answers_readSlotBinding _ index counted)
  · split
    · rename_i kind past hpast
      exact h.orReject (d.spares_readObject kind past) (answers_readObject d kind past)
    · exact h.reject rfl

theorem readLabel (h : d.NoIndentation) (line : SourceLine) (index : Nat) :
    (d.readLabel line index).NoIndentation := by
  unfold Declarations.readLabel
  split
  · exact h
  · rename_i ident hident
    have hname := d.spares_checkName ident
    cases hcheck : d.checkName ident with
    | ok _ => exact h
    | error finding =>
        rw [hcheck] at hname
        exact h.reject hname

theorem readLabels (h : d.NoIndentation) (lines : List SourceLine) :
    (d.readLabels lines).NoIndentation := by
  unfold Declarations.readLabels
  generalize lines.zipIdx = numbered
  induction numbered generalizing d with
  | nil => exact h
  | cons entry numbered ih => exact ih (h.readLabel entry.1 entry.2)

end NoIndentation

end Declarations

namespace DataSegment

variable {s : DataSegment}

theorem noIndentation_demandLength (h : s.declarations.NoIndentation) (line : Nat) :
    (s.demandLength line).declarations.NoIndentation := by
  unfold demandLength
  split
  · exact h
  · exact h.reject rfl

theorem noIndentation_readLine (h : s.declarations.NoIndentation) (line : SourceLine) :
    (s.readLine line).declarations.NoIndentation := by
  unfold readLine
  split
  · exact h
  · dsimp only
    split
    · rename_i past hpast
      split
      · exact h.reject rfl
      · exact h.orReject (s.declarations.spares_readTapeLength past)
          (Declarations.answers_readTapeLength s.declarations past)
    · exact (noIndentation_demandLength h line.number).readDeclaration _

theorem noIndentation_foldl (h : s.declarations.NoIndentation) (lines : List SourceLine) :
    (lines.foldl readLine s).declarations.NoIndentation := by
  induction lines generalizing s with
  | nil => exact h
  | cons line lines ih => exact ih (noIndentation_readLine h line)

end DataSegment

/-- What is wrong with the declarations of a program text is never their indentation. -/
theorem Layout.noIndentation_declarations (layout : Layout) :
    layout.declarations.NoIndentation := by
  have hempty : (DataSegment.declarations {}).NoIndentation := fun _ hfinding => nomatch hfinding
  have hdata := DataSegment.noIndentation_foldl hempty layout.data
  exact (DataSegment.noIndentation_demandLength hdata layout.textLine).readLabels layout.text

end TapePuzzle
