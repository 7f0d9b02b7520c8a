import TapePuzzle.Proofs.Reading.TextLines
import TapePuzzle.Proofs.Writing.Lines

/-!
# Drafts of text segments

A draft is a tree of statements together with all that can be chosen when it is written down: the
blanks that each block goes deeper by, margins, and labels and quiet lines in between. Main
statement: the lines of a draft are read back, each as deep as it stands in the tree.
-/

namespace TapePuzzle

/-- The blanks by which the lines of a block go deeper than its header. -/
structure Deeper extends Blanks where
  ne_nil : text ≠ []

/-- Statements with their blocks, and the lines that are written between them. -/
inductive Draft where
  | done
  | quiet (line : QuietLine) (rest : Draft)
  | label (blanks : Blanks) (name : String) (margin : Margin) (rest : Draft)
  /-- An assignment, an equation or a jump. -/
  | plain (action : Action) (plain : action.opens? = none) (margin : Margin) (rest : Draft)
  | branch (condition : Expr) (margin : Margin) (deeper : Deeper) (body rest : Draft)
  | branchElse (condition : Expr) (margin : Margin) (deeper : Deeper) (body : Draft)
      (elseMargin : Margin) (elseDeeper : Deeper) (elseBody rest : Draft)
  | loop (condition : Expr) (margin : Margin) (deeper : Deeper) (body rest : Draft)

namespace Draft

/-- Whether there is a statement. -/
def hasCode : Draft → Bool
  | done => false
  | quiet _ rest => rest.hasCode
  | label _ _ _ rest => rest.hasCode
  | plain _ _ _ _ | branch _ _ _ _ _ | branchElse _ _ _ _ _ _ _ _ | loop _ _ _ _ _ => true

/-- The lines of a draft whose statements stand `depth` blocks deep. -/
def written (indent : Blanks) (depth : Nat) : Draft → List WrittenLine
  | done => []
  | quiet line rest => .quiet line :: rest.written indent depth
  | label blanks name margin rest => .label blanks name margin :: rest.written indent depth
  | plain action _ margin rest => .code indent depth action margin :: rest.written indent depth
  | branch condition margin deeper body rest =>
      .code indent depth (.ifTrue condition) margin ::
        body.written (indent.append deeper.toBlanks) (depth + 1) ++ rest.written indent depth
  | branchElse condition margin deeper body elseMargin elseDeeper elseBody rest =>
      .code indent depth (.ifTrue condition) margin ::
        body.written (indent.append deeper.toBlanks) (depth + 1) ++
      .code indent depth .otherwise elseMargin ::
        elseBody.written (indent.append elseDeeper.toBlanks) (depth + 1) ++
      rest.written indent depth
  | loop condition margin deeper body rest =>
      .code indent depth (.whileTrue condition) margin ::
        body.written (indent.append deeper.toBlanks) (depth + 1) ++ rest.written indent depth

/-- The statements make sense over the given names, no block is empty, and labels are names that
    the language does not keep for itself. -/
def WellFormed (names : Names) : Draft → Prop
  | done => True
  | quiet _ rest => rest.WellFormed names
  | label _ name _ rest =>
      (isIdentifier name = true ∧ isReserved name = false) ∧ rest.WellFormed names
  | plain action _ _ rest => action.WellFormed names ∧ rest.WellFormed names
  | branch condition _ _ body rest | loop condition _ _ body rest =>
      condition.WellFormed names ∧ (body.hasCode = true ∧ body.WellFormed names) ∧
        rest.WellFormed names
  | branchElse condition _ _ body _ _ elseBody rest =>
      condition.WellFormed names ∧ (body.hasCode = true ∧ body.WellFormed names) ∧
        (elseBody.hasCode = true ∧ elseBody.WellFormed names) ∧ rest.WellFormed names

/-- What holds of all quiet lines, labels and statements holds of the lines of a draft. -/
theorem forall_mem_written {names : Names} {inv : WrittenLine → Prop} {draft : Draft}
    (h : draft.WellFormed names) (hquiet : ∀ line, inv (.quiet line))
    (hlabel : ∀ blanks {name} margin, isIdentifier name = true → isReserved name = false →
      inv (.label blanks name margin))
    (hcode : ∀ indent depth {action} margin, action.WellFormed names →
      inv (.code indent depth action margin)) (indent : Blanks) (depth : Nat) :
    ∀ written ∈ draft.written indent depth, inv written := by
  induction draft generalizing indent depth with
  | done => simp [Draft.written]
  | quiet line rest ih =>
      exact List.forall_mem_cons.mpr ⟨hquiet line, ih h indent depth⟩
  | label blanks name margin rest ih =>
      exact List.forall_mem_cons.mpr ⟨hlabel blanks margin h.1.1 h.1.2, ih h.2 indent depth⟩
  | plain action hplain margin rest ih =>
      exact List.forall_mem_cons.mpr ⟨hcode indent depth margin h.1, ih h.2 indent depth⟩
  | branch condition margin deeper body rest ihBody ih
  | loop condition margin deeper body rest ihBody ih =>
      obtain ⟨hcondition, hbody, hrest⟩ := h
      refine List.forall_mem_append.mpr ⟨List.forall_mem_cons.mpr ⟨hcode _ _ _ hcondition, ?_⟩, ?_⟩
      · exact ihBody hbody.2 _ _
      · exact ih hrest indent depth
  | branchElse condition margin deeper body elseMargin elseDeeper elseBody rest ihBody ihElse ih =>
      obtain ⟨hcondition, hbody, helse, hrest⟩ := h
      have hotherwise : Action.otherwise.WellFormed names := trivial
      refine List.forall_mem_append.mpr
        ⟨List.forall_mem_append.mpr ⟨List.forall_mem_cons.mpr ⟨hcode _ _ _ hcondition, ?_⟩,
          List.forall_mem_cons.mpr ⟨hcode _ _ _ hotherwise, ?_⟩⟩, ?_⟩
      · exact ihBody hbody.2 _ _
      · exact ihElse helse.2 _ _
      · exact ih hrest indent depth

end Draft

/-! ## Levels of blocks -/

/-- The blocks around a line, as the indentation knows them. -/
structure Level where
  /-- Outermost first. -/
  fragments : List Fragment
  blank : ∀ fragment ∈ fragments, fragment.blanks.all isBlank = true
  ne_nil : ∀ fragment ∈ fragments, fragment.blanks ≠ []

namespace Level

/-- Outside of all blocks. -/
def top : Level := ⟨[], by simp, by simp⟩

/-- Inside one block more. -/
def push (level : Level) (deeper : Deeper) (kind : BlockKind) : Level where
  fragments := level.fragments ++ [⟨deeper.text, kind⟩]
  blank := List.forall_mem_append.mpr ⟨level.blank, by simpa using deeper.blank⟩
  ne_nil := List.forall_mem_append.mpr ⟨level.ne_nil, by simpa using deeper.ne_nil⟩

/-- The number of blocks. -/
def depth (level : Level) : Nat := level.fragments.length

/-- The blanks of all the blocks. -/
def indent (level : Level) : Blanks where
  text := level.fragments.flatMap Fragment.blanks
  blank := by simpa [List.all_flatMap] using level.blank

theorem fragments_push (level : Level) (deeper : Deeper) (kind : BlockKind) :
    (level.push deeper kind).fragments = level.fragments ++ [⟨deeper.text, kind⟩] := rfl

theorem depth_push (level : Level) (deeper : Deeper) (kind : BlockKind) :
    (level.push deeper kind).depth = level.depth + 1 := by
  simp [push, depth]

theorem indent_push (level : Level) (deeper : Deeper) (kind : BlockKind) :
    (level.push deeper kind).indent = level.indent.append deeper.toBlanks := by
  simp [push, indent, Blanks.append]

end Level

namespace Indentation

/-- The line read last stands inside the blocks of the level or deeper, and no block is due. -/
def Inside (ind : Indentation) (level : Level) : Prop :=
  ∃ inner, ind = ⟨level.fragments ++ inner, none⟩

/-- A statement can follow that stands on the level: it goes on there, or it is the first one of the
    innermost block. -/
inductive Ready (level : Level) : Indentation → Prop where
  | inside {ind : Indentation} (h : ind.Inside level) : Ready level ind
  | first (outer : Level) (deeper : Deeper) (kind : BlockKind)
      (h : level = outer.push deeper kind) : Ready level ⟨outer.fragments, some kind⟩

theorem Inside.of_push {ind : Indentation} {level : Level} {deeper : Deeper} {kind : BlockKind}
    (h : ind.Inside (level.push deeper kind)) : ind.Inside level := by
  obtain ⟨inner, rfl⟩ := h
  exact ⟨⟨deeper.text, kind⟩ :: inner, by simp [Level.push]⟩

theorem track_inside (level : Level) (inner : List Fragment) :
    track ⟨level.fragments ++ inner, none⟩ level.indent.text =
      (.ok ⟨level.depth, inner.reverse.map Fragment.opener⟩, ⟨level.fragments, none⟩) := by
  simp [track, stay, Level.indent, spell_append level.ne_nil, Level.depth, bind, Except.bind]

theorem track_first (level : Level) (deeper : Deeper) (kind : BlockKind) :
    track ⟨level.fragments, some kind⟩ (level.push deeper kind).indent.text =
      (.ok ⟨(level.push deeper kind).depth, []⟩, ⟨(level.push deeper kind).fragments, none⟩) := by
  have hafter : after? (level.fragments.flatMap Fragment.blanks)
      (level.push deeper kind).indent.text = some deeper.text := by
    rw [Level.indent_push]
    exact after?_eq_some_iff.mpr rfl
  have henter : enter level.fragments kind (level.push deeper kind).indent.text =
      .ok (⟨level.depth + 1, []⟩, (level.push deeper kind).fragments) := by
    obtain ⟨blank, blanks, hblanks⟩ := List.exists_cons_of_ne_nil deeper.ne_nil
    rw [enter, hafter, Level.fragments_push, hblanks]
    rfl
  simp [track, henter, Level.depth_push]

theorem track_of_ready {ind : Indentation} {level : Level} (h : ind.Ready level) :
    ∃ closed, ind.track level.indent.text =
      (.ok ⟨level.depth, closed⟩, ⟨level.fragments, none⟩) := by
  cases h with
  | inside h =>
      obtain ⟨inner, rfl⟩ := h
      exact ⟨_, track_inside level inner⟩
  | first outer deeper kind h =>
      subst h
      exact ⟨_, track_first outer deeper kind⟩

end Indentation

/-! ## Reading back -/

@[simp] theorem Action.opens?_unplaced (action : Action) :
    action.unplaced.opens? = action.opens? := by
  cases action <;> rfl

/-- Written lines are read back with nothing wrong, whatever follows, and take the indentation from
    one state to another. -/
def LinesReadBack (names : Names) (ind ind' : Indentation) (written : List WrittenLine) : Prop :=
  ∀ (number : Nat) (header? : Option Span), ∃ (read : List Line) (header?' : Option Span),
    read.map Line.unplaced = written.map WrittenLine.line ∧
      ∀ more, readTextLines names ind header?
          (numberLines number (written.map WrittenLine.text) ++ more) =
        (read ++ (readTextLines names ind' header?' more).1,
          (readTextLines names ind' header?' more).2)

namespace LinesReadBack

variable {names : Names} {ind ind' ind'' : Indentation} {written more : List WrittenLine}

theorem nil : LinesReadBack names ind ind [] :=
  fun _ header? => ⟨[], header?, rfl, fun _ => rfl⟩

theorem append (h : LinesReadBack names ind ind' written)
    (hmore : LinesReadBack names ind' ind'' more) :
    LinesReadBack names ind ind'' (written ++ more) := by
  intro number header?
  obtain ⟨read, header?', heq, hread⟩ := h number header?
  obtain ⟨readMore, header?'', heqMore, hreadMore⟩ := hmore (number + written.length) header?'
  refine ⟨read ++ readMore, header?'', by simp [heq, heqMore], fun lines => ?_⟩
  rw [List.map_append, numberLines_append, List.append_assoc, hread, List.length_map, hreadMore,
    List.append_assoc]

theorem cons {line : WrittenLine} (h : LinesReadBack names ind ind' [line])
    (hmore : LinesReadBack names ind' ind'' more) :
    LinesReadBack names ind ind'' (line :: more) :=
  h.append hmore

theorem of_isSilent {line : WrittenLine} (hline : line.line = .silent)
    (h : ∀ number, isSilent ⟨number, line.text⟩ = true) : LinesReadBack names ind ind [line] := by
  intro number header?
  refine ⟨[.silent], header?, by simp [Line.unplaced, hline], fun more => ?_⟩
  simp [readTextLines, h number]

/-- Lines that are the whole text segment are read with nothing wrong if no block is due at their
    end. -/
theorem readTextLines_eq (h : LinesReadBack names ind ind' written) (hpending : ind'.pending = none)
    (number : Nat) (header? : Option Span) :
    ∃ read, readTextLines names ind header? (numberLines number (written.map WrittenLine.text)) =
      (read, []) ∧ read.map Line.unplaced = written.map WrittenLine.line := by
  obtain ⟨read, header?', heq, hread⟩ := h number header?
  refine ⟨read, ?_, heq⟩
  have hall := hread []
  simpa [readTextLines, missingBlock?, hpending] using hall

end LinesReadBack

section Statements

variable {names : Names} (action : Action) {ind : Indentation} {level : Level}
  {closed : List BlockKind}

/-- A statement is read back where the indentation accepts it, and makes its block due. An `else`
    has to follow an `if` block. -/
theorem readCodeLine_written (hnames : names.Legible) (h : action.WellFormed names)
    (htrack : ind.track level.indent.text = (.ok ⟨level.depth, closed⟩, ⟨level.fragments, none⟩))
    (helse : action.opens? = some .elseBlock → closed.getLast? = some .ifBlock) (number : Nat) :
    ∃ statement, readCodeLine names ind number (level.indent.text ++ action.render) =
        (.ok (.code level.depth statement), ⟨level.fragments, action.opens?⟩) ∧
      statement.action.unplaced = action.unplaced := by
  have hstart := Action.startsOperand_render hnames h
  have hrest : (Cursor.start number (level.indent.text ++ action.render)).skipBlanks.rest =
      action.render := afterBlanks_indent_append hstart
  obtain ⟨statement, hstatement, hsame⟩ := readStatement_written hnames h hrest
  have hopens : (Cursor.start number (level.indent.text ++ action.render)).skipBlanks.opener? =
      action.opens? := by
    rw [← (wellFormed_of_readStatement hstatement).2, ← action.opens?_unplaced, ← hsame,
      Action.opens?_unplaced]
    rfl
  have hplaced : readPlaced names ⟨level.depth, closed⟩
      (Cursor.start number (level.indent.text ++ action.render)).skipBlanks =
        .ok (.code level.depth statement) := by
    rw [readPlaced, hopens, if_neg, hstatement]
    · rfl
    · rintro ⟨hotherwise, hclosed⟩
      simp [Placement.closedIf, helse hotherwise] at hclosed
  refine ⟨statement, ?_, hsame⟩
  rw [readCodeLine, leadingBlanks_append hstart, htrack]
  dsimp only
  rw [hplaced, hopens]
  cases action.opens? <;> rfl

theorem linesReadBack_code (hnames : names.Legible) (h : action.WellFormed names)
    (htrack : ind.track level.indent.text = (.ok ⟨level.depth, closed⟩, ⟨level.fragments, none⟩))
    (helse : action.opens? = some .elseBlock → closed.getLast? = some .ifBlock) (margin : Margin) :
    LinesReadBack names ind ⟨level.fragments, action.opens?⟩
      [.code level.indent level.depth action margin] := by
  intro number header?
  have hcode := Action.isCodeText_render hnames h
  have hlegible := WrittenLine.legible_code hnames h level.indent level.depth margin
  have hlabel : labelOf? ⟨number, lineText level.indent action.render margin⟩ = none :=
    Option.map_eq_none_iff.mp (hlegible.label number)
  have hsilent : isSilent ⟨number, lineText level.indent action.render margin⟩ = false := by
    simp [isSilent, saysNothing_lineText hcode (Action.startsOperand_render hnames h), hlabel]
  obtain ⟨statement, hread, hsame⟩ := readCodeLine_written action hnames h htrack helse number
  refine ⟨[.code level.depth statement],
    if action.opens?.isSome then
      some ⟨number, 1, byteLength (level.indent.text ++ action.render) + 1⟩
    else header?,
    by simp [Line.unplaced, WrittenLine.code, hsame], fun more => ?_⟩
  simp only [WrittenLine.code, List.map_cons, List.map_nil, numberLines_cons, numberLines_nil,
    List.cons_append, List.nil_append]
  rw [readTextLines, hsilent, trimEnd_codePart_lineText hcode]
  dsimp only
  rw [hread]
  rfl

/-- A statement other than `else` is read back wherever it can stand. -/
theorem linesReadBack_of_ready (hnames : names.Legible) (h : action.WellFormed names)
    (hready : ind.Ready level) (helse : action.opens? ≠ some .elseBlock) (margin : Margin) :
    LinesReadBack names ind ⟨level.fragments, action.opens?⟩
      [.code level.indent level.depth action margin] := by
  obtain ⟨closed, htrack⟩ := Indentation.track_of_ready hready
  exact linesReadBack_code action hnames h htrack (fun hopens => absurd hopens helse) margin

end Statements

namespace Draft

/-- The draft is read back wherever its statements can stand. A statement in it leaves no block
    due. -/
def ReadsBack (names : Names) (draft : Draft) : Prop :=
  ∀ (level : Level) (ind : Indentation), ind.Ready level →
    ∃ ind', LinesReadBack names ind ind' (draft.written level.indent level.depth) ∧
      (draft.hasCode = true ∨ ind.Inside level → ind'.Inside level)

variable {names : Names} {draft body rest : Draft} {level : Level} {ind : Indentation}

theorem ReadsBack.of_isSilent (hrest : rest.ReadsBack names) (line : WrittenLine)
    (hline : line.line = .silent) (hsilent : ∀ number, isSilent ⟨number, line.text⟩ = true)
    (hwritten : ∀ indent depth,
      draft.written indent depth = line :: rest.written indent depth)
    (hcode : draft.hasCode = rest.hasCode) : draft.ReadsBack names := by
  intro level ind hready
  obtain ⟨ind', hread, hinside⟩ := hrest level ind hready
  refine ⟨ind', ?_, hcode ▸ hinside⟩
  rw [hwritten]
  exact (LinesReadBack.of_isSilent hline hsilent).cons hread

/-- What follows a statement that leaves no block due. -/
theorem ReadsBack.exists_inside (hrest : rest.ReadsBack names) (hinside : ind.Inside level) :
    ∃ ind', LinesReadBack names ind ind' (rest.written level.indent level.depth) ∧
      ind'.Inside level := by
  obtain ⟨ind', hread, hafter⟩ := hrest level ind (.inside hinside)
  exact ⟨ind', hread, hafter (.inr hinside)⟩

/-- A header makes its block due, and the block is read back if there is a statement in it. -/
theorem ReadsBack.exists_block (hbody : body.ReadsBack names) (hcode : body.hasCode = true)
    {header : WrittenLine} {kind : BlockKind}
    (hheader : LinesReadBack names ind ⟨level.fragments, some kind⟩ [header]) (deeper : Deeper) :
    ∃ ind', LinesReadBack names ind ind'
        (header :: body.written (level.indent.append deeper.toBlanks) (level.depth + 1)) ∧
      ind'.Inside (level.push deeper kind) := by
  have hready : Indentation.Ready (level.push deeper kind) ⟨level.fragments, some kind⟩ :=
    .first level deeper kind rfl
  obtain ⟨ind', hread, hinside⟩ := hbody _ _ hready
  rw [Level.indent_push, Level.depth_push] at hread
  exact ⟨ind', hheader.cons hread, hinside (.inl hcode)⟩

theorem ReadsBack.of_block (hbody : body.ReadsBack names) (hcode : body.hasCode = true)
    (hrest : rest.ReadsBack names) (hnames : names.Legible) (header : Action)
    (hheader : header.WellFormed names) {kind : BlockKind} (hopens : header.opens? = some kind)
    (hkind : kind ≠ .elseBlock) (margin : Margin) (deeper : Deeper)
    (hwritten : ∀ indent depth, draft.written indent depth =
      .code indent depth header margin ::
        body.written (indent.append deeper.toBlanks) (depth + 1) ++ rest.written indent depth) :
    draft.ReadsBack names := by
  intro level ind hready
  have hline := linesReadBack_of_ready header hnames hheader hready (by simpa [hopens]) margin
  rw [hopens] at hline
  obtain ⟨ind₁, hblock, hinside₁⟩ := hbody.exists_block hcode hline deeper
  obtain ⟨ind₂, hread, hinside₂⟩ := hrest.exists_inside hinside₁.of_push
  rw [hwritten]
  exact ⟨ind₂, hblock.append hread, fun _ => hinside₂⟩

/-- A draft that makes sense is read back. The induction is over the draft; what the indentation
    has to accept is stated for every level, since a block is read one level deeper. -/
theorem readsBack (hnames : names.Legible) (h : draft.WellFormed names) :
    draft.ReadsBack names := by
  induction draft with
  | done =>
      intro level ind hready
      exact ⟨ind, .nil, fun hinside => hinside.resolve_left (by simp [hasCode])⟩
  | quiet line rest ih =>
      refine (ih h).of_isSilent (.quiet line) rfl (fun number => ?_) (fun _ _ => rfl) rfl
      simp [isSilent, WrittenLine.quiet, line.quiet]
  | label blanks name margin rest ih =>
      refine (ih h.2).of_isSilent (.label blanks name margin) rfl (fun number => ?_)
        (fun _ _ => rfl) rfl
      have hlabel := (WrittenLine.legible_label blanks h.1.1 h.1.2 margin).label number
      obtain ⟨ident, hident, -⟩ := Option.map_eq_some_iff.mp hlabel
      simp [isSilent, hident]
  | plain action hplain margin rest ih =>
      intro level ind hready
      have hcode := linesReadBack_of_ready action hnames h.1 hready (by simp [hplain]) margin
      rw [hplain] at hcode
      have hhere : Indentation.Inside ⟨level.fragments, none⟩ level := ⟨[], by simp⟩
      obtain ⟨ind', hread, hinside⟩ := (ih h.2).exists_inside hhere
      exact ⟨ind', hcode.cons hread, fun _ => hinside⟩
  | branch condition margin deeper body rest ihBody ih =>
      obtain ⟨hcondition, hbody, hrest⟩ := h
      exact (ihBody hbody.2).of_block hbody.1 (ih hrest) hnames (.ifTrue condition) hcondition
        rfl (by decide) margin deeper fun _ _ => rfl
  | loop condition margin deeper body rest ihBody ih =>
      obtain ⟨hcondition, hbody, hrest⟩ := h
      exact (ihBody hbody.2).of_block hbody.1 (ih hrest) hnames (.whileTrue condition) hcondition
        rfl (by decide) margin deeper fun _ _ => rfl
  | branchElse condition margin deeper body elseMargin elseDeeper elseBody rest ihBody ihElse ih =>
      obtain ⟨hcondition, hbody, helse, hrest⟩ := h
      intro level ind hready
      have hif := linesReadBack_of_ready (.ifTrue condition) hnames hcondition hready
        (by simp [Action.opens?, Statement.opens?]) margin
      obtain ⟨ind₁, hblock, inner, rfl⟩ := (ihBody hbody.2).exists_block hbody.1 hif deeper
      -- the blocks that the `else` leaves end with the block of its `if`
      have htrack := Indentation.track_inside level (⟨deeper.text, .ifBlock⟩ :: inner)
      rw [← List.singleton_append, ← List.append_assoc] at htrack
      have hotherwise := linesReadBack_code .otherwise hnames trivial htrack (by simp) elseMargin
      obtain ⟨ind₂, helseBlock, hinside₂⟩ :=
        (ihElse helse.2).exists_block helse.1 hotherwise elseDeeper
      obtain ⟨ind₃, hread, hinside₃⟩ := (ih hrest).exists_inside hinside₂.of_push
      exact ⟨ind₃, (hblock.append helseBlock).append hread, fun _ => hinside₃⟩

end Draft

end TapePuzzle
