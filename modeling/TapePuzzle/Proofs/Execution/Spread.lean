import TapePuzzle.Proofs.Execution.Progress
import TapePuzzle.Proofs.Execution.Runs
import TapePuzzle.Proofs.Grammar.Trees

/-!
# Programs with silent lines between their lines

The lines of a program can be spread out over more lines as long as the lines between them are
silent. Every index then changes, that of a label as well as that of a header, but all searches go
through the lines with a statement in the same order. Main statement: the run of the spread program
is the run of the program, line for line, with every index moved.
-/

namespace TapePuzzle

/-! ## Lines -/

/-- The second lines are the first ones, apart from places, with silent lines between them: line `i`
    has become line `f i`. -/
structure Spread (f : Nat → Nat) (lines lines' : List Line) : Prop where
  increasing : ∀ i j, i < j → f i < f j
  kept : ∀ i line, lines[i]? = some line →
    ∃ line', lines'[f i]? = some line' ∧ line'.unplaced = line.unplaced
  code : ∀ j depth statement, lines'[j]? = some (.code depth statement) →
    ∃ i, i < lines.length ∧ f i = j

/-- Whether the line at `index` has a statement at an accepted depth. -/
def acceptedAt (lines : List Line) (accept : Nat → Bool) (index : Nat) : Bool :=
  lines[index]?.any fun line => line.depth?.any accept

theorem exists_code_of_acceptedAt {lines : List Line} {accept : Nat → Bool} {index : Nat}
    (h : acceptedAt lines accept index = true) :
    ∃ depth statement, lines[index]? = some (.code depth statement) := by
  unfold acceptedAt at h
  cases hline : lines[index]? with
  | none =>
      rw [hline] at h
      cases h
  | some line =>
      cases line with
      | silent =>
          rw [hline] at h
          cases h
      | code depth statement => exact ⟨depth, statement, rfl⟩

theorem Line.exists_code_of_unplaced {line : Line} {depth : Nat} {statement : Statement}
    (h : line.unplaced = (Line.code depth statement).unplaced) :
    ∃ statement', line = .code depth statement' ∧
      statement'.action.unplaced = statement.action.unplaced := by
  cases line with
  | silent => cases h
  | code depth' statement' =>
      simp only [unplaced, Line.code.injEq, Statement.mk.injEq, and_true] at h
      obtain ⟨rfl, haction⟩ := h
      exact ⟨statement', rfl, haction⟩

theorem Line.eq_silent_of_unplaced {line : Line} (h : line.unplaced = Line.silent.unplaced) :
    line = .silent := by
  cases line with
  | silent => rfl
  | code depth statement => cases h

theorem Statement.opens?_of_unplaced {statement statement' : Statement}
    (h : statement'.action.unplaced = statement.action.unplaced) :
    statement'.opens? = statement.opens? := by
  obtain ⟨action, s⟩ := statement
  obtain ⟨action', s'⟩ := statement'
  cases action <;> cases action' <;> first | rfl | cases h

theorem Line.isElse_of_unplaced {line line' : Line} (h : line'.unplaced = line.unplaced) :
    line'.isElse = line.isElse := by
  cases line with
  | silent => rw [Line.eq_silent_of_unplaced h]
  | code depth statement =>
      obtain ⟨statement', rfl, haction⟩ := Line.exists_code_of_unplaced h
      obtain ⟨action, s⟩ := statement
      obtain ⟨action', s'⟩ := statement'
      cases action <;> cases action' <;> first | rfl | cases haction

theorem Line.depth?_of_unplaced {line line' : Line} (h : line'.unplaced = line.unplaced) :
    line'.depth? = line.depth? := by
  cases line with
  | silent => rw [Line.eq_silent_of_unplaced h]
  | code depth statement =>
      obtain ⟨statement', rfl, -⟩ := Line.exists_code_of_unplaced h
      rfl

namespace Spread

variable {f : Nat → Nat} {lines lines' : List Line} {i j : Nat}

theorem lt_of_lt (h : Spread f lines lines') (hlt : f i < f j) : i < j := by
  by_cases hji : j < i
  · have hle := h.increasing j i hji
    omega
  · by_cases heq : i = j
    · subst heq
      omega
    · omega

theorem injective (h : Spread f lines lines') (heq : f i = f j) : i = j := by
  by_cases hij : i < j
  · have hlt := h.increasing i j hij
    omega
  · by_cases hji : j < i
    · have hlt := h.increasing j i hji
      omega
    · omega

theorem exists_code (h : Spread f lines lines') {depth : Nat} {statement : Statement}
    (hline : lines[i]? = some (.code depth statement)) :
    ∃ statement', lines'[f i]? = some (.code depth statement') ∧
      statement'.action.unplaced = statement.action.unplaced := by
  obtain ⟨line', hline', hunplaced⟩ := h.kept i _ hline
  obtain ⟨statement', rfl, haction⟩ := Line.exists_code_of_unplaced hunplaced
  exact ⟨statement', hline', haction⟩

/-- A line that comes from beyond the end of the first lines has no statement. -/
theorem acceptedAt_eq (h : Spread f lines lines') (accept : Nat → Bool) (i : Nat) :
    acceptedAt lines' accept (f i) = acceptedAt lines accept i := by
  unfold acceptedAt
  cases hline : lines[i]? with
  | some line =>
      obtain ⟨line', hline', hunplaced⟩ := h.kept i line hline
      rw [hline', Option.any_some, Option.any_some, Line.depth?_of_unplaced hunplaced]
  | none =>
      rw [List.getElem?_eq_none_iff] at hline
      cases hline' : lines'[f i]? with
      | none => rfl
      | some line' =>
          cases line' with
          | silent => rfl
          | code depth statement =>
              obtain ⟨i', hi', heq⟩ := h.code (f i) depth statement hline'
              have hsame := h.injective heq
              omega

theorem exists_of_acceptedAt (h : Spread f lines lines') {accept : Nat → Bool}
    (haccepted : acceptedAt lines' accept j = true) : ∃ i, f i = j := by
  obtain ⟨depth, statement, hline⟩ := exists_code_of_acceptedAt haccepted
  obtain ⟨i, -, heq⟩ := h.code j depth statement hline
  exact ⟨i, heq⟩

end Spread

/-! ## Searches -/

theorem findIdx?_eq_some_iff_any {α : Type} {p : α → Bool} {items : List α} {index : Nat} :
    items.findIdx? p = some index ↔
      items[index]?.any p = true ∧ ∀ j < index, items[j]?.any p = false := by
  rw [List.findIdx?_eq_some_iff_getElem]
  constructor
  · rintro ⟨hlength, hitem, hbefore⟩
    refine ⟨by simp [hlength, hitem], fun j hj => ?_⟩
    have hfalse := hbefore j hj
    simp [Nat.lt_trans hj hlength, hfalse]
  · rintro ⟨hitem, hbefore⟩
    cases hget : items[index]? with
    | none => simp [hget] at hitem
    | some item =>
        obtain ⟨hlength, rfl⟩ := List.getElem?_eq_some_iff.mp hget
        refine ⟨hlength, by simpa [hget] using hitem, fun j hj => ?_⟩
        simpa [Nat.lt_trans hj hlength] using hbefore j hj

theorem findIdx?_eq_none_iff_any {α : Type} {p : α → Bool} {items : List α} :
    items.findIdx? p = none ↔ ∀ j : Nat, items[j]?.any p = false := by
  rw [List.findIdx?_eq_none_iff]
  constructor
  · intro h j
    cases hget : items[j]? with
    | none => rfl
    | some item => exact h item (List.mem_of_getElem? hget)
  · intro h item hitem
    obtain ⟨j, hget⟩ := List.getElem?_of_mem hitem
    simpa [hget] using h j

namespace Control

section NextCodeLine

variable {lines : List Line} {accept : Nat → Bool} {origin : Nat}

theorem findIdx?_drop_eq_some_iff {distance : Nat} :
    ((lines.drop (origin + 1)).findIdx? fun line => line.depth?.any accept) = some distance ↔
      acceptedAt lines accept (origin + 1 + distance) = true ∧
        ∀ j, origin < j → j < origin + 1 + distance → acceptedAt lines accept j = false := by
  rw [findIdx?_eq_some_iff_any]
  simp only [List.getElem?_drop]
  refine and_congr_right fun _ => ⟨fun hbefore j hj hlt => ?_, fun hbefore j hj => ?_⟩
  · have hfalse := hbefore (j - (origin + 1)) (by omega)
    rwa [show origin + 1 + (j - (origin + 1)) = j by omega] at hfalse
  · exact hbefore (origin + 1 + j) (by omega) (by omega)

theorem findIdx?_drop_eq_none_iff :
    ((lines.drop (origin + 1)).findIdx? fun line => line.depth?.any accept) = none ↔
      ∀ j, origin < j → acceptedAt lines accept j = false := by
  rw [findIdx?_eq_none_iff_any]
  simp only [List.getElem?_drop]
  refine ⟨fun hnone j hj => ?_, fun hnone j => hnone (origin + 1 + j) (by omega)⟩
  have hfalse := hnone (j - (origin + 1))
  rwa [show origin + 1 + (j - (origin + 1)) = j by omega] at hfalse

/-- The next line is the first accepted one behind `origin`, or else the first of all. -/
theorem nextCodeLine_eq_ok_iff {target : Nat} :
    nextCodeLine lines accept origin = .ok target ↔
      acceptedAt lines accept target = true ∧
        (origin < target ∧
            (∀ j, origin < j → j < target → acceptedAt lines accept j = false) ∨
          (∀ j, origin < j → acceptedAt lines accept j = false) ∧
            ∀ j < target, acceptedAt lines accept j = false) := by
  constructor
  · intro h
    unfold nextCodeLine at h
    dsimp only at h
    split at h
    · rename_i distance hbehind
      cases h
      obtain ⟨haccepted, hbetween⟩ := findIdx?_drop_eq_some_iff.mp hbehind
      exact ⟨haccepted, .inl ⟨by omega, hbetween⟩⟩
    · rename_i hbehind
      split at h
      · rename_i index hfirst
        cases h
        obtain ⟨haccepted, hbefore⟩ := findIdx?_eq_some_iff_any.mp hfirst
        exact ⟨haccepted, .inr ⟨findIdx?_drop_eq_none_iff.mp hbehind, hbefore⟩⟩
      · cases h
  · rintro ⟨haccepted, ⟨hlt, hbetween⟩ | ⟨hnone, hbefore⟩⟩
    · obtain ⟨distance, rfl⟩ := Nat.exists_eq_add_of_lt hlt
      rw [Nat.add_right_comm] at haccepted hbetween ⊢
      have hbehind := findIdx?_drop_eq_some_iff.mpr ⟨haccepted, hbetween⟩
      simp [nextCodeLine, hbehind]
    · have hbehind := findIdx?_drop_eq_none_iff.mpr hnone
      have hfirst := findIdx?_eq_some_iff_any.mpr ⟨haccepted, hbefore⟩
      simp only [nextCodeLine, hbehind, hfirst]

end NextCodeLine

theorem depthAt_eq_ok_iff {lines : List Line} {index depth : Nat} :
    depthAt lines index = .ok depth ↔
      ∃ statement, lines[index]? = some (.code depth statement) := by
  unfold depthAt
  cases lines[index]? with
  | none => simp
  | some line => cases line <;> simp [Line.depth?]

theorem firstCodeLine_eq_ok_iff {lines : List Line} {index : Nat} :
    firstCodeLine lines = .ok index ↔
      acceptedAt lines (fun _ => true) index = true ∧
        ∀ j < index, acceptedAt lines (fun _ => true) j = false := by
  unfold firstCodeLine acceptedAt
  rw [Line.any_depth?, ← findIdx?_eq_some_iff_any]
  cases lines.findIdx? Line.isCode with
  | none => simp
  | some found => simp

/-- Looking upwards passes over a line without a statement. -/
theorem enclosing_of_not_code {lines : List Line} {index : Nat} (target wanted : Nat)
    (h : acceptedAt lines (fun _ => true) index = false) :
    enclosing lines target (wanted + 1) (index + 1) =
      enclosing lines target (wanted + 1) index := by
  rw [enclosing]
  split
  · rename_i depth statement hline
    simp [acceptedAt, hline, Line.depth?] at h
  · rfl

theorem enclosing_of_not_code_above {lines : List Line} (target wanted index : Nat) {gap : Nat}
    (h : ∀ j, index ≤ j → j < index + gap → acceptedAt lines (fun _ => true) j = false) :
    enclosing lines target (wanted + 1) (index + gap) =
      enclosing lines target (wanted + 1) index := by
  induction gap with
  | zero => rfl
  | succ gap ih =>
      rw [← Nat.add_assoc, enclosing_of_not_code target wanted (h _ (by omega) (by omega))]
      exact ih fun j hj hlt => h j hj (by omega)

end Control

/-! ## The next line -/

/-- The block around the line that its header has become. -/
def OpenBlock.moved (f : Nat → Nat) (block : OpenBlock) : OpenBlock := ⟨f block.header, block.kind⟩

def Onward.moved (f : Nat → Nat) : Onward → Onward
  | fallThrough => fallThrough
  | enterBlock => enterBlock
  | jumpTo label => jumpTo (f label)

/-- The position among the lines that the lines have become. -/
def Control.moved (f : Nat → Nat) (c : Control) : Control where
  position := c.position.map f
  onward := c.onward.moved f
  blocks := c.blocks.map (OpenBlock.moved f)

/-- A line and the blocks around it, where they have moved to. -/
def movedPlace (f : Nat → Nat) (place : Nat × List OpenBlock) : Nat × List OpenBlock :=
  (f place.1, place.2.map (OpenBlock.moved f))

namespace Spread

open Control

variable {f : Nat → Nat} {lines lines' : List Line} {accept : Nat → Bool} {origin target : Nat}

/-- No line is accepted that has not been one of the lines. -/
theorem acceptedAt_eq_false (h : Spread f lines lines') {j : Nat}
    (hold : ∀ i, f i = j → acceptedAt lines accept i = false) :
    acceptedAt lines' accept j = false := by
  cases haccepted : acceptedAt lines' accept j with
  | false => rfl
  | true =>
      obtain ⟨i, rfl⟩ := h.exists_of_acceptedAt haccepted
      rw [h.acceptedAt_eq, hold i rfl] at haccepted
      cases haccepted

theorem nextCodeLine (h : Spread f lines lines')
    (hnext : Control.nextCodeLine lines accept origin = .ok target) :
    Control.nextCodeLine lines' accept (f origin) = .ok (f target) := by
  rw [nextCodeLine_eq_ok_iff] at hnext ⊢
  rw [h.acceptedAt_eq]
  obtain ⟨haccepted, ⟨horigin, hbetween⟩ | ⟨hnone, hbefore⟩⟩ := hnext
  · refine ⟨haccepted, .inl ⟨h.increasing _ _ horigin, fun j hj hlt => ?_⟩⟩
    refine h.acceptedAt_eq_false ?_
    rintro i rfl
    exact hbetween i (h.lt_of_lt hj) (h.lt_of_lt hlt)
  · refine ⟨haccepted, .inr ⟨fun j hj => ?_, fun j hlt => ?_⟩⟩
    · refine h.acceptedAt_eq_false ?_
      rintro i rfl
      exact hnone i (h.lt_of_lt hj)
    · refine h.acceptedAt_eq_false ?_
      rintro i rfl
      exact hbefore i (h.lt_of_lt hlt)

theorem firstCodeLine (h : Spread f lines lines')
    (hfirst : Control.firstCodeLine lines = .ok target) :
    Control.firstCodeLine lines' = .ok (f target) := by
  rw [firstCodeLine_eq_ok_iff] at hfirst ⊢
  rw [h.acceptedAt_eq]
  refine ⟨hfirst.1, fun j hlt => h.acceptedAt_eq_false ?_⟩
  rintro i rfl
  exact hfirst.2 i (h.lt_of_lt hlt)

theorem depthAt (h : Spread f lines lines') {depth : Nat}
    (hdepth : Control.depthAt lines target = .ok depth) :
    Control.depthAt lines' (f target) = .ok depth := by
  rw [depthAt_eq_ok_iff] at hdepth ⊢
  obtain ⟨statement, hline⟩ := hdepth
  obtain ⟨statement', hline', -⟩ := h.exists_code hline
  exact ⟨statement', hline'⟩

theorem isElseAt (h : Spread f lines lines') {line : Line} (hline : lines[target]? = some line) :
    Control.isElseAt lines' (f target) = Control.isElseAt lines target := by
  obtain ⟨line', hline', hunplaced⟩ := h.kept _ _ hline
  unfold Control.isElseAt
  rw [hline, hline', Option.any_some, Option.any_some, Line.isElse_of_unplaced hunplaced]

theorem landing (h : Spread f lines lines') (hlanding : Control.landing lines origin = .ok target) :
    Control.landing lines' (f origin) = .ok (f target) := by
  obtain ⟨depth, hdepth, hnext⟩ := bind_eq_ok_iff.mp hlanding
  exact bind_eq_ok_iff.mpr ⟨depth, h.depthAt hdepth, h.nextCodeLine hnext⟩

theorem close (h : Spread f lines lines') {blocks : List OpenBlock} {place : Nat × List OpenBlock}
    (hclose : Control.close lines target blocks = .ok place) :
    Control.close lines' (f target) (blocks.map (OpenBlock.moved f)) =
      .ok (movedPlace f place) := by
  induction blocks generalizing target with
  | nil =>
      cases hclose
      rfl
  | cons block outer ih =>
      obtain ⟨depth, hdepth, hclose⟩ := bind_eq_ok_iff.mp hclose
      obtain ⟨statement, hline⟩ := depthAt_eq_ok_iff.mp hdepth
      refine bind_eq_ok_iff.mpr ⟨depth, h.depthAt hdepth, ?_⟩
      rw [List.length_map, h.isElseAt hline, show (block.moved f).kind = block.kind from rfl]
      split at hclose
      · rename_i hinside
        cases hclose
        rw [if_pos hinside]
        rfl
      · rename_i hinside
        rw [if_neg hinside]
        split at hclose
        · cases hclose
          rfl
        · split at hclose
          · rename_i helse
            obtain ⟨next, hlanding, hclose⟩ := bind_eq_ok_iff.mp hclose
            rw [if_pos helse]
            exact bind_eq_ok_iff.mpr ⟨f next, h.landing hlanding, ih hclose⟩
          · rename_i helse
            rw [if_neg helse]
            exact ih hclose
        · exact ih hclose

/-- Between a line and the one that was next to it there is nothing but silent lines. -/
theorem enclosing_succ (h : Spread f lines lines') (target wanted index : Nat) :
    Control.enclosing lines' target (wanted + 1) (f (index + 1)) =
      Control.enclosing lines' target (wanted + 1) (f index + 1) := by
  have hlt := h.increasing index (index + 1) (Nat.lt_succ_self index)
  have hgap : f (index + 1) = f index + 1 + (f (index + 1) - (f index + 1)) := by omega
  rw [hgap]
  refine enclosing_of_not_code_above target wanted (f index + 1) fun j hj hlt => ?_
  refine h.acceptedAt_eq_false ?_
  rintro i rfl
  have hbehind : index < i := h.lt_of_lt hj
  have hbefore : i < index + 1 := h.lt_of_lt (by omega)
  omega

theorem enclosing (h : Spread f lines lines') {wanted below : Nat} {blocks : List OpenBlock}
    (henclosing : Control.enclosing lines target wanted below = .ok blocks) (target' : Nat) :
    Control.enclosing lines' target' wanted (f below) = .ok (blocks.map (OpenBlock.moved f)) := by
  induction below generalizing wanted blocks with
  | zero =>
      cases wanted with
      | zero =>
          cases henclosing
          simp [Control.enclosing]
      | succ wanted => cases henclosing
  | succ index ih =>
      cases wanted with
      | zero =>
          cases henclosing
          simp [Control.enclosing]
      | succ wanted =>
          -- the silent lines that were put in below `index` are behind us now
          rw [h.enclosing_succ]
          cases hcode : acceptedAt lines (fun _ => true) index with
          | false =>
              rw [enclosing_of_not_code _ _ hcode] at henclosing
              rw [enclosing_of_not_code _ _ ((h.acceptedAt_eq _ index).trans hcode)]
              exact ih henclosing
          | true =>
              obtain ⟨depth, statement, hline⟩ := exists_code_of_acceptedAt hcode
              obtain ⟨statement', hline', haction⟩ := h.exists_code hline
              simp only [Control.enclosing, hline] at henclosing
              simp only [Control.enclosing, hline', Statement.opens?_of_unplaced haction]
              split at henclosing
              · rename_i hdepth
                rw [if_pos hdepth]
                split at henclosing
                · cases henclosing
                · obtain ⟨outer, houter, hblocks⟩ := bind_eq_ok_iff.mp henclosing
                  cases hblocks
                  exact bind_eq_ok_iff.mpr ⟨_, ih houter, rfl⟩
              · rename_i hdepth
                rw [if_neg hdepth]
                exact ih henclosing

theorem jump (h : Spread f lines lines') {label : Nat} {place : Nat × List OpenBlock}
    (hjump : Control.jump lines label = .ok place) :
    Control.jump lines' (f label) = .ok (movedPlace f place) := by
  obtain ⟨target, hnext, hjump⟩ := bind_eq_ok_iff.mp hjump
  obtain ⟨depth, hdepth, hjump⟩ := bind_eq_ok_iff.mp hjump
  obtain ⟨blocks, hblocks, hplace⟩ := bind_eq_ok_iff.mp hjump
  cases hplace
  refine bind_eq_ok_iff.mpr ⟨f target, h.nextCodeLine hnext, ?_⟩
  refine bind_eq_ok_iff.mpr ⟨depth, h.depthAt hdepth, ?_⟩
  exact bind_eq_ok_iff.mpr ⟨_, h.enclosing hblocks _, rfl⟩

theorem enter (h : Spread f lines lines') {blocks : List OpenBlock} {place : Nat × List OpenBlock}
    (henter : Control.enter lines origin blocks = .ok place) :
    Control.enter lines' (f origin) (blocks.map (OpenBlock.moved f)) =
      .ok (movedPlace f place) := by
  unfold Control.enter at henter ⊢
  split at henter
  · cases henter
  · rename_i kind hopens
    obtain ⟨statement, hstatement, hkind⟩ := Option.bind_eq_some_iff.mp hopens
    obtain ⟨line, hline, hstatement⟩ := Option.bind_eq_some_iff.mp hstatement
    cases line with
    | silent => cases hstatement
    | code depth statement =>
        cases hstatement
        obtain ⟨statement', hline', haction⟩ := h.exists_code hline
        rw [hline', Option.bind_some, Line.statement?, Option.bind_some,
          Statement.opens?_of_unplaced haction, hkind]
        obtain ⟨target, hnext, hplace⟩ := bind_eq_ok_iff.mp henter
        cases hplace
        exact bind_eq_ok_iff.mpr ⟨f target, h.nextCodeLine hnext, rfl⟩

/-- Wherever the run goes on, it goes on there as well among the lines that the lines have
    become. -/
theorem next (h : Spread f lines lines') {c : Control} {place : Nat × List OpenBlock}
    (hnext : c.next lines = .ok place) : (c.moved f).next lines' = .ok (movedPlace f place) := by
  obtain ⟨position, onward, blocks⟩ := c
  cases position with
  | none =>
      obtain ⟨index, hfirst, hplace⟩ := bind_eq_ok_iff.mp hnext
      cases hplace
      exact bind_eq_ok_iff.mpr ⟨f index, h.firstCodeLine hfirst, rfl⟩
  | some origin =>
      cases onward with
      | jumpTo label => exact h.jump hnext
      | enterBlock => exact h.enter hnext
      | fallThrough =>
          obtain ⟨target, hlanding, hclose⟩ := bind_eq_ok_iff.mp hnext
          exact bind_eq_ok_iff.mpr ⟨f target, h.landing hlanding, h.close hclose⟩

end Spread

/-! ## Statements -/

open Eval

/-- Places play no part in the value of an equation. -/
theorem Expr.eval_unplaced (e : Expr) : e.unplaced.eval = e.eval := by
  induction e with
  | number value s => rfl
  | slot name reference s => rfl
  | slotAt name offset reference s ih => simp only [unplaced, eval, ih, Ident.unplaced]
  | call function s => rfl
  | callWith function argument s ih => simp only [unplaced, eval, ih]
  | method object verb s => rfl
  | methodWith object verb argument s ih => simp only [unplaced, eval, ih, Ident.unplaced]
  | unary op operand s ih => simp only [unplaced, eval, ih]
  | binary left op right s ihLeft ihRight => simp only [unplaced, eval, ihLeft, ihRight]

theorem assign_unplaced (target : SlotRef) (value : Expr) :
    assign target.unplaced value.unplaced = assign target value := by
  obtain ⟨name, offset?, s⟩ := target
  cases offset? <;>
    simp [assign, SlotRef.resolve, SlotRef.unplaced, Ident.unplaced, Expr.eval_unplaced]

theorem Run.perform_unplaced (p : Program) (statement : Statement) :
    perform p ⟨statement.action.unplaced, .nowhere⟩ = perform p statement := by
  obtain ⟨action, s⟩ := statement
  cases action <;>
    simp [perform, Action.unplaced, assign_unplaced, Expr.eval_unplaced, Ident.unplaced]

theorem Eval.run_map {α β : Type} (g : α → β) (x : Eval α) (m : Machine) :
    (g <$> x).run m = ((x.run m).1.map g, (x.run m).2) := by
  rw [map_eq_pure_bind, run_bind]
  rcases x.run m with ⟨result, m'⟩
  cases result <;> rfl

/-- Only a jump looks at where lines stand. -/
theorem Run.perform_moved {f : Nat → Nat} {p p' : Program}
    (hlabels : ∀ name, p'.label? name = (p.label? name).map f) (statement : Statement) :
    perform p' statement = Onward.moved f <$> perform p statement := by
  have hbranch : ∀ value : Int, (if value = 0 then Onward.fallThrough else .enterBlock).moved f =
      if value = 0 then .fallThrough else .enterBlock := by
    intro value
    split <;> rfl
  unfold perform
  split
  · simp [Onward.moved]
  · simp [Onward.moved]
  · simp [hbranch]
  · simp [hbranch]
  · simp [Onward.moved]
  · rw [hlabels]
    cases p.label? _ with
    | none => rfl
    | some line => rfl

/-! ## Runs -/

/-- The second program is the first one with silent lines between its lines. -/
structure Program.Spread (f : Nat → Nat) (p p' : Program) : Prop where
  tape : p'.tape = p.tape
  objects : p'.objects = p.objects
  label : ∀ name, p'.label? name = (p.label? name).map f
  lines : TapePuzzle.Spread f p.lines p'.lines

namespace Run

/-- The run at the same point in the program `p'` that its program has become. -/
def moved (f : Nat → Nat) (p' : Program) (r : Run) : Run :=
  { r with program := p', control := r.control.moved f }

variable {f : Nat → Nat} {p p' : Program} {r : Run}

theorem settle_moved (r : Run) (stop : Stop) :
    (r.moved f p').settle stop = (r.settle stop).moved f p' :=
  settle_recast (fun _ => p') id (Control.moved f) r stop

theorem checkOutput_moved (r : Run) :
    (r.moved f p').checkOutput = r.checkOutput.moved f p' :=
  checkOutput_recast (fun _ => p') id (Control.moved f) r

theorem executeLine_moved (h : r.program.Spread f p') {index depth : Nat} {statement : Statement}
    (hline : r.program.lines[index]? = some (.code depth statement)) :
    (r.moved f p').executeLine (f index) = (r.executeLine index).moved f p' := by
  obtain ⟨statement', hline', haction⟩ := h.lines.exists_code hline
  have hperform : perform p' statement' = Onward.moved f <$> perform r.program statement := by
    rw [← perform_unplaced p', haction, perform_unplaced p', perform_moved h.label]
  unfold executeLine
  rw [show (r.moved f p').program = p' from rfl, hline', hline,
    show (r.moved f p').memory = r.memory from rfl]
  simp only [Option.bind_some, Line.statement?, hperform, run_map]
  rcases (perform r.program statement).run ⟨r.memory, []⟩ with ⟨result, machine⟩
  cases result with
  | ok onward => rfl
  | error stop =>
      exact settle_moved { r with memory := machine.memory, events := machine.events } stop

theorem hasCode_of_spread (h : p.Spread f p') : p'.hasCode = p.hasCode := by
  have hcode : ∀ lines : List Line,
      lines.any Line.isCode = true ↔ ∃ i, acceptedAt lines (fun _ => true) i = true := by
    intro lines
    rw [← List.findIdx?_isSome, Option.isSome_iff_ne_none, ne_eq, findIdx?_eq_none_iff_any,
      Classical.not_forall, ← Line.any_depth?]
    simp [acceptedAt]
  rw [Bool.eq_iff_iff, Program.hasCode, Program.hasCode, hcode, hcode]
  constructor
  · rintro ⟨j, hj⟩
    obtain ⟨i, rfl⟩ := h.lines.exists_of_acceptedAt hj
    exact ⟨i, (h.lines.acceptedAt_eq _ i).symm.trans hj⟩
  · rintro ⟨i, hi⟩
    exact ⟨f i, (h.lines.acceptedAt_eq _ i).trans hi⟩

/-- A step does the same in the spread program. -/
theorem step_moved {names : Names} {good : Int → Prop} (h : p.Spread f p') (hp : p.Sound names)
    (hr : r.Sound p good) : (r.moved f p').step = r.step.moved f p' := by
  suffices hplain : (r.moved f p').plainStep = r.plainStep.moved f p' by
    rw [step, hplain, checkOutput_moved]
    rfl
  obtain rfl := hr.program
  cases hover : r.isOver with
  | true =>
      rw [plainStep_of_isOver hover, plainStep_of_isOver (r := r.moved f p') hover]
      rfl
  | false =>
      have hsame := hasCode_of_spread h
      cases hcode : r.program.hasCode with
      | false =>
          rw [plainStep_of_not_hasCode hover hcode,
            plainStep_of_not_hasCode (r := r.moved f p') hover (hsame.trans hcode)]
          rfl
      | true =>
          obtain ⟨index, blocks, hnext, ⟨statement, hline⟩, -⟩ :=
            hr.control.next hp.nested ((Program.hasCode_iff _).mp hcode)
          have hnext' := h.lines.next hnext
          rw [plainStep_eq hover hcode hnext,
            plainStep_eq (r := r.moved f p') hover (hsame.trans hcode) hnext']
          -- nothing but the line is left to compare, as the limit and the count are the same
          have hmoved : (r.moved f p').moveTo (f index) (blocks.map (OpenBlock.moved f)) =
              (r.moveTo index blocks).moved f p' := rfl
          rw [hmoved]
          show (if r.limit < r.executed + 1 then _ else _) = _
          split
          · rfl
          · exact executeLine_moved (r := r.moveTo index blocks) h hline

/-- The run of the spread program is the run of the program, with every line moved. -/
theorem after_moved {names : Names} (h : p.Spread f p') (hp : p.Sound names)
    (hvalid : p.isValid = true) (hvalid' : p'.isValid = true) (case : TestCase)
    (limit count : Nat) : after p' case limit count = (after p case limit count).moved f p' := by
  induction count with
  | zero =>
      unfold after start
      rw [hvalid, hvalid', Memory.load, h.tape, h.objects]
      rfl
  | succ count ih =>
      rw [after, ih]
      exact step_moved h hp (sound_after_of_sound hp hvalid case limit count)

end Run

end TapePuzzle
