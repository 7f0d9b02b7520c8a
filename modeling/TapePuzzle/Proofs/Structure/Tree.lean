import TapePuzzle.Proofs.Nesting

/-!
# Programs as trees of blocks

Lines that nest properly and do not jump are the lines of a tree: statements in a row, some of which
have blocks of their own. Main statement: there is exactly one such tree.
-/

namespace TapePuzzle

/-- A statement that neither opens a block nor jumps. -/
inductive Plain where
  | assign (target : SlotRef) (value : Expr)
  | evaluate (equation : Expr)
  deriving DecidableEq, Repr

def Plain.action : Plain → Action
  | assign target value => .assign target value
  | evaluate equation => .evaluate equation

/-- The statements of a block in a row, each with the line it stands on. A header has the block that
    it opens with it, and an `if` has its `else` with it. -/
inductive Block where
  | done
  | plain (index : Nat) (statement : Plain) (rest : Block)
  | branch (index : Nat) (condition : Expr) (body rest : Block)
  | branchElse (index : Nat) (condition : Expr) (body : Block) (elseIndex : Nat)
      (elseBody rest : Block)
  | loop (index : Nat) (condition : Expr) (body rest : Block)
  deriving DecidableEq, Repr

/-- A line as far as its block structure goes: its place, its depth and what it does. -/
structure Entry where
  index : Nat
  depth : Nat
  action : Action
  deriving DecidableEq, Repr

def CodeLine.entry (line : CodeLine) : Entry := ⟨line.index, line.depth, line.statement.action⟩

theorem CodeLine.entry_eq_iff {line : CodeLine} {index depth : Nat} {action : Action} :
    line.entry = ⟨index, depth, action⟩ ↔
      line.index = index ∧ line.depth = depth ∧ line.statement.action = action := by
  simp [CodeLine.entry]

namespace Block

/-- The lines of a block whose statements are `depth` blocks deep. -/
def entries : Block → (depth : Nat) → List Entry
  | done, _ => []
  | plain index statement rest, depth => ⟨index, depth, statement.action⟩ :: rest.entries depth
  | branch index condition body rest, depth =>
      ⟨index, depth, .ifTrue condition⟩ :: (body.entries (depth + 1) ++ rest.entries depth)
  | branchElse index condition body elseIndex elseBody rest, depth =>
      ⟨index, depth, .ifTrue condition⟩ :: (body.entries (depth + 1) ++
        ⟨elseIndex, depth, .otherwise⟩ :: (elseBody.entries (depth + 1) ++ rest.entries depth))
  | loop index condition body rest, depth =>
      ⟨index, depth, .whileTrue condition⟩ :: (body.entries (depth + 1) ++ rest.entries depth)

section Entries

variable (index elseIndex depth : Nat) (statement : Plain) (condition : Expr)
  (body elseBody rest : Block)

theorem entries_done : done.entries depth = [] := rfl

theorem entries_plain : (plain index statement rest).entries depth =
    ⟨index, depth, statement.action⟩ :: rest.entries depth := rfl

theorem entries_branch : (branch index condition body rest).entries depth =
    ⟨index, depth, .ifTrue condition⟩ :: (body.entries (depth + 1) ++ rest.entries depth) := rfl

theorem entries_branchElse :
    (branchElse index condition body elseIndex elseBody rest).entries depth =
      ⟨index, depth, .ifTrue condition⟩ :: (body.entries (depth + 1) ++
        ⟨elseIndex, depth, .otherwise⟩ :: (elseBody.entries (depth + 1) ++ rest.entries depth)) :=
  rfl

theorem entries_loop : (loop index condition body rest).entries depth =
    ⟨index, depth, .whileTrue condition⟩ :: (body.entries (depth + 1) ++ rest.entries depth) := rfl

end Entries

end Block

/-! ## One tree at most -/

theorem Plain.action_injective {s s' : Plain} (h : s.action = s'.action) : s = s' := by
  cases s <;> cases s' <;> cases h <;> rfl

/-- Lines after a block at `depth`: the first of them is outside. -/
def Leaves (depth : Nat) (after : List Entry) : Prop :=
  ∀ entry, after.head? = some entry → entry.depth < depth

theorem leaves_nil (depth : Nat) : Leaves depth [] := by
  intro entry hentry
  cases hentry

theorem leaves_cons {entry : Entry} {depth : Nat} {after : List Entry} (h : entry.depth < depth) :
    Leaves depth (entry :: after) := by
  intro first hfirst
  cases hfirst
  exact h

theorem not_leaves_cons {index depth : Nat} {action : Action} {after : List Entry} :
    ¬Leaves depth (⟨index, depth, action⟩ :: after) := by
  intro h
  exact Nat.lt_irrefl depth (h _ rfl)

namespace Block

/-- A block that is not empty begins with a line of its own depth, which is no `else`. -/
theorem exists_head_entries {b : Block} (h : b ≠ done) (depth : Nat) :
    ∃ first more, b.entries depth = first :: more ∧ first.depth = depth ∧
      first.action ≠ .otherwise := by
  cases b with
  | done => exact absurd rfl h
  | plain index statement rest => exact ⟨_, _, rfl, rfl, by cases statement <;> simp [Plain.action]⟩
  | branch | branchElse | loop => exact ⟨_, _, rfl, rfl, by simp⟩

theorem leaves_entries_append (b : Block) {depth : Nat} {after : List Entry}
    (h : Leaves depth after) : Leaves (depth + 1) (b.entries depth ++ after) := by
  by_cases hb : b = done
  · subst hb
    intro entry hentry
    exact Nat.lt_succ_of_lt (h entry hentry)
  · obtain ⟨first, more, hentries, hdepth, -⟩ := exists_head_entries hb depth
    rw [hentries]
    exact leaves_cons (by omega)

/-- No block is followed by an `else` of its own depth. -/
theorem entries_append_ne_otherwise (b : Block) {depth index : Nat} {after more : List Entry}
    (h : Leaves depth after) : b.entries depth ++ after ≠ ⟨index, depth, .otherwise⟩ :: more := by
  intro heq
  by_cases hb : b = done
  · subst hb
    rw [show after = _ from heq] at h
    exact not_leaves_cons h
  · obtain ⟨first, more', hentries, -, haction⟩ := exists_head_entries hb depth
    rw [hentries, List.cons_append, List.cons.injEq] at heq
    exact haction (congrArg Entry.action heq.1)

/-- Only the empty block adds nothing to lines that are outside of it. -/
theorem eq_done_of_entries_append {b : Block} {depth : Nat} {after after' : List Entry}
    (h : b.entries depth ++ after = after') (hafter' : Leaves depth after') : b = done := by
  by_cases hb : b = done
  · exact hb
  · obtain ⟨first, more, hentries, hdepth, -⟩ := exists_head_entries hb depth
    rw [← h, hentries] at hafter'
    have hout := hafter' first rfl
    omega

section Inversion

variable {b : Block} {index depth : Nat} {after tail : List Entry} (hafter : Leaves depth after)

include hafter

/-- A block whose lines begin with a plain statement begins with that statement. -/
theorem exists_of_entries_plain {statement : Plain}
    (h : b.entries depth ++ after = ⟨index, depth, statement.action⟩ :: tail) :
    ∃ rest, b = plain index statement rest ∧ rest.entries depth ++ after = tail := by
  cases b with
  | done =>
      rw [show after = _ from h] at hafter
      exact absurd hafter not_leaves_cons
  | plain index' statement' rest =>
      simp only [entries_plain, List.cons_append, List.cons.injEq, Entry.mk.injEq] at h
      obtain ⟨⟨rfl, -, haction⟩, htail⟩ := h
      obtain rfl := Plain.action_injective haction
      exact ⟨rest, rfl, htail⟩
  | branch | branchElse | loop =>
      simp only [entries_branch, entries_branchElse, entries_loop, List.cons_append,
        List.cons.injEq, Entry.mk.injEq] at h
      cases statement <;> cases h.1.2.2

/-- A block whose lines begin with an `if` begins with a branch, with or without an `else`. -/
theorem exists_of_entries_ifTrue {condition : Expr}
    (h : b.entries depth ++ after = ⟨index, depth, .ifTrue condition⟩ :: tail) :
    (∃ body rest, b = branch index condition body rest ∧
        body.entries (depth + 1) ++ (rest.entries depth ++ after) = tail) ∨
      ∃ body elseIndex elseBody rest,
        b = branchElse index condition body elseIndex elseBody rest ∧
        body.entries (depth + 1) ++ ⟨elseIndex, depth, .otherwise⟩ ::
          (elseBody.entries (depth + 1) ++ (rest.entries depth ++ after)) = tail := by
  cases b with
  | done =>
      rw [show after = _ from h] at hafter
      exact absurd hafter not_leaves_cons
  | branch index' condition' body rest =>
      simp only [entries_branch, List.cons_append, List.append_assoc, List.cons.injEq,
        Entry.mk.injEq, Action.ifTrue.injEq] at h
      obtain ⟨⟨rfl, -, rfl⟩, htail⟩ := h
      exact .inl ⟨body, rest, rfl, htail⟩
  | branchElse index' condition' body elseIndex elseBody rest =>
      simp only [entries_branchElse, List.cons_append, List.append_assoc, List.cons.injEq,
        Entry.mk.injEq, Action.ifTrue.injEq] at h
      obtain ⟨⟨rfl, -, rfl⟩, htail⟩ := h
      exact .inr ⟨body, elseIndex, elseBody, rest, rfl, htail⟩
  | plain index' statement rest =>
      simp only [entries_plain, List.cons_append, List.cons.injEq, Entry.mk.injEq] at h
      cases statement <;> cases h.1.2.2
  | loop =>
      simp only [entries_loop, List.cons_append, List.cons.injEq, Entry.mk.injEq] at h
      cases h.1.2.2

theorem exists_of_entries_whileTrue {condition : Expr}
    (h : b.entries depth ++ after = ⟨index, depth, .whileTrue condition⟩ :: tail) :
    ∃ body rest, b = loop index condition body rest ∧
      body.entries (depth + 1) ++ (rest.entries depth ++ after) = tail := by
  cases b with
  | done =>
      rw [show after = _ from h] at hafter
      exact absurd hafter not_leaves_cons
  | loop index' condition' body rest =>
      simp only [entries_loop, List.cons_append, List.append_assoc, List.cons.injEq, Entry.mk.injEq,
        Action.whileTrue.injEq] at h
      obtain ⟨⟨rfl, -, rfl⟩, htail⟩ := h
      exact ⟨body, rest, rfl, htail⟩
  | plain index' statement rest =>
      simp only [entries_plain, List.cons_append, List.cons.injEq, Entry.mk.injEq] at h
      cases statement <;> cases h.1.2.2
  | branch | branchElse =>
      simp only [entries_branch, entries_branchElse, List.cons_append, List.cons.injEq,
        Entry.mk.injEq] at h
      cases h.1.2.2

end Inversion

/-- The lines of a block, with what follows outside of it, determine the block. The induction is
    over one of the blocks; its first line decides how the other begins. -/
theorem entries_append_inj {b b' : Block} {depth : Nat} {after after' : List Entry}
    (h : b.entries depth ++ after = b'.entries depth ++ after') (hafter : Leaves depth after)
    (hafter' : Leaves depth after') : b = b' ∧ after = after' := by
  induction b generalizing b' depth after after' with
  | done =>
      obtain rfl : b' = done := eq_done_of_entries_append h.symm hafter
      exact ⟨rfl, h⟩
  | plain index statement rest ih =>
      obtain ⟨rest', rfl, htail⟩ := exists_of_entries_plain hafter' h.symm
      obtain ⟨rfl, rfl⟩ := ih htail.symm hafter hafter'
      exact ⟨rfl, rfl⟩
  | branch index condition body rest ihBody ihRest =>
      rw [entries_branch, List.cons_append, List.append_assoc] at h
      have hinside := leaves_entries_append rest hafter
      rcases exists_of_entries_ifTrue hafter' h.symm with
        ⟨body', rest', rfl, htail⟩ | ⟨body', elseIndex', elseBody', rest', rfl, htail⟩
      · obtain ⟨rfl, hrest⟩ := ihBody htail.symm hinside (leaves_entries_append rest' hafter')
        obtain ⟨rfl, rfl⟩ := ihRest hrest hafter hafter'
        exact ⟨rfl, rfl⟩
      · obtain ⟨-, helse⟩ := ihBody htail.symm hinside (leaves_cons (by simp))
        exact absurd helse (entries_append_ne_otherwise rest hafter)
  | branchElse index condition body elseIndex elseBody rest ihBody ihElse ihRest =>
      rw [entries_branchElse, List.cons_append, List.append_assoc, List.cons_append,
        List.append_assoc] at h
      rcases exists_of_entries_ifTrue hafter' h.symm with
        ⟨body', rest', rfl, htail⟩ | ⟨body', elseIndex', elseBody', rest', rfl, htail⟩
      · obtain ⟨-, helse⟩ :=
          ihBody htail.symm (leaves_cons (by simp)) (leaves_entries_append rest' hafter')
        exact absurd helse.symm (entries_append_ne_otherwise rest' hafter')
      · obtain ⟨rfl, helse⟩ := ihBody htail.symm (leaves_cons (by simp)) (leaves_cons (by simp))
        obtain ⟨hentry, helseBody⟩ := List.cons.inj helse
        obtain ⟨rfl, -⟩ := Entry.mk.inj hentry
        obtain ⟨rfl, hrest⟩ := ihElse helseBody (leaves_entries_append rest hafter)
          (leaves_entries_append rest' hafter')
        obtain ⟨rfl, rfl⟩ := ihRest hrest hafter hafter'
        exact ⟨rfl, rfl⟩
  | loop index condition body rest ihBody ihRest =>
      rw [entries_loop, List.cons_append, List.append_assoc] at h
      obtain ⟨body', rest', rfl, htail⟩ := exists_of_entries_whileTrue hafter' h.symm
      obtain ⟨rfl, hrest⟩ := ihBody htail.symm (leaves_entries_append rest hafter)
        (leaves_entries_append rest' hafter')
      obtain ⟨rfl, rfl⟩ := ihRest hrest hafter hafter'
      exact ⟨rfl, rfl⟩

theorem entries_inj {b b' : Block} {depth : Nat} (h : b.entries depth = b'.entries depth) :
    b = b' := by
  have happend : b.entries depth ++ [] = b'.entries depth ++ [] := by rw [h]
  exact (entries_append_inj happend (leaves_nil depth) (leaves_nil depth)).1

/-- The lines are those of the block at `depth`. -/
def Covers (b : Block) (depth : Nat) (lines : List CodeLine) : Prop :=
  lines.map CodeLine.entry = b.entries depth

section Covers

variable {index elseIndex depth : Nat} {statement : Plain} {condition : Expr}
  {body elseBody rest : Block} {lines : List CodeLine}

theorem covers_done_iff : done.Covers depth lines ↔ lines = [] := by
  simp [Covers, entries_done]

theorem covers_plain_iff : (plain index statement rest).Covers depth lines ↔
    ∃ line more, lines = line :: more ∧ line.entry = ⟨index, depth, statement.action⟩ ∧
      rest.Covers depth more := by
  simp only [Covers, entries_plain, List.map_eq_cons_iff]

theorem covers_branch_iff : (branch index condition body rest).Covers depth lines ↔
    ∃ line inside more, lines = line :: (inside ++ more) ∧
      line.entry = ⟨index, depth, .ifTrue condition⟩ ∧ body.Covers (depth + 1) inside ∧
      rest.Covers depth more := by
  simp only [Covers, entries_branch, List.map_eq_cons_iff, List.map_eq_append_iff]
  constructor
  · rintro ⟨line, _, rfl, hline, inside, more, rfl, hbody, hrest⟩
    exact ⟨line, inside, more, rfl, hline, hbody, hrest⟩
  · rintro ⟨line, inside, more, rfl, hline, hbody, hrest⟩
    exact ⟨line, _, rfl, hline, inside, more, rfl, hbody, hrest⟩

theorem covers_loop_iff : (loop index condition body rest).Covers depth lines ↔
    ∃ line inside more, lines = line :: (inside ++ more) ∧
      line.entry = ⟨index, depth, .whileTrue condition⟩ ∧ body.Covers (depth + 1) inside ∧
      rest.Covers depth more := by
  simp only [Covers, entries_loop, List.map_eq_cons_iff, List.map_eq_append_iff]
  constructor
  · rintro ⟨line, _, rfl, hline, inside, more, rfl, hbody, hrest⟩
    exact ⟨line, inside, more, rfl, hline, hbody, hrest⟩
  · rintro ⟨line, inside, more, rfl, hline, hbody, hrest⟩
    exact ⟨line, _, rfl, hline, inside, more, rfl, hbody, hrest⟩

theorem covers_branchElse_iff :
    (branchElse index condition body elseIndex elseBody rest).Covers depth lines ↔
      ∃ line inside elseLine elseInside more,
        lines = line :: (inside ++ elseLine :: (elseInside ++ more)) ∧
        line.entry = ⟨index, depth, .ifTrue condition⟩ ∧ body.Covers (depth + 1) inside ∧
        elseLine.entry = ⟨elseIndex, depth, .otherwise⟩ ∧
        elseBody.Covers (depth + 1) elseInside ∧ rest.Covers depth more := by
  simp only [Covers, entries_branchElse, List.map_eq_cons_iff, List.map_eq_append_iff]
  constructor
  · rintro ⟨line, _, rfl, hline, inside, _, rfl, hbody, elseLine, _, rfl, helse, elseInside, more,
      rfl, helseBody, hrest⟩
    exact ⟨line, inside, elseLine, elseInside, more, rfl, hline, hbody, helse, helseBody, hrest⟩
  · rintro ⟨line, inside, elseLine, elseInside, more, rfl, hline, hbody, helse, helseBody, hrest⟩
    exact ⟨line, _, rfl, hline, inside, _, rfl, hbody, elseLine, _, rfl, helse, elseInside, more,
      rfl, helseBody, hrest⟩

theorem le_depth_of_mem_entries {b : Block} {depth : Nat} {entry : Entry}
    (h : entry ∈ b.entries depth) : depth ≤ entry.depth := by
  induction b generalizing depth with
  | done => cases h
  | plain index statement rest ih =>
      rcases List.mem_cons.mp h with rfl | h
      · exact Nat.le_refl _
      · exact ih h
  | branch index condition body rest ihBody ihRest
  | loop index condition body rest ihBody ihRest =>
      rcases List.mem_cons.mp h with rfl | h
      · exact Nat.le_refl _
      · rcases List.mem_append.mp h with h | h
        · exact Nat.le_of_succ_le (ihBody h)
        · exact ihRest h
  | branchElse index condition body elseIndex elseBody rest ihBody ihElse ihRest =>
      rcases List.mem_cons.mp h with rfl | h
      · exact Nat.le_refl _
      · rcases List.mem_append.mp h with h | h
        · exact Nat.le_of_succ_le (ihBody h)
        · rcases List.mem_cons.mp h with rfl | h
          · exact Nat.le_refl _
          · rcases List.mem_append.mp h with h | h
            · exact Nat.le_of_succ_le (ihElse h)
            · exact ihRest h

/-- The lines of a block are at least as deep as its statements. -/
theorem Covers.le_depth {b : Block} {depth : Nat} {lines : List CodeLine}
    (h : b.Covers depth lines) {line : CodeLine} (hline : line ∈ lines) : depth ≤ line.depth := by
  have hentry : line.entry ∈ lines.map CodeLine.entry := List.mem_map_of_mem hline
  rw [show lines.map CodeLine.entry = _ from h] at hentry
  exact le_depth_of_mem_entries hentry

/-- The first line of a block is one of its statements, and no `else`. -/
theorem Covers.head {b : Block} {depth : Nat} {line : CodeLine} {more : List CodeLine}
    (h : b.Covers depth (line :: more)) : line.depth = depth ∧ line.isElse = false := by
  have hdone : b ≠ .done := by
    rintro rfl
    cases h
  obtain ⟨first, tail, hentries, hdepth, haction⟩ := exists_head_entries hdone depth
  have hcons : line.entry :: more.map CodeLine.entry = first :: tail := h.trans hentries
  obtain ⟨rfl, -⟩ := List.cons.inj hcons
  refine ⟨hdepth, ?_⟩
  cases helse : line.isElse with
  | false => rfl
  | true => exact absurd (CodeLine.isElse_iff.mp helse) haction

end Covers

end Block

/-! ## A tree for all lines that nest -/

/-- Lines go on inside of `blocks`, given innermost first: there is the rest of the innermost block,
    for an `if` its `else` may follow, and the lines after that go on inside of the other blocks. -/
def Continues : (blocks : List OpenBlock) → List CodeLine → Prop
  | [], lines => ∃ b : Block, b.Covers 0 lines
  | block :: outer, lines =>
      ∃ (body : Block) (inside outside : List CodeLine), lines = inside ++ outside ∧
        body.Covers (outer.length + 1) inside ∧
        (Continues outer outside ∨
          block.kind = .ifBlock ∧
            ∃ (line : CodeLine) (elseBody : Block) (inside' outside' : List CodeLine),
              outside = line :: (inside' ++ outside') ∧ line.statement.action = .otherwise ∧
              line.depth = outer.length ∧ elseBody.Covers (outer.length + 1) inside' ∧
              Continues outer outside')

namespace Continues

variable {blocks : List OpenBlock} {lines : List CodeLine}

/-- Nothing may be left of the innermost block. -/
theorem inside (h : Continues blocks lines) (block : OpenBlock) :
    Continues (block :: blocks) lines :=
  ⟨.done, [], lines, rfl, rfl, .inl h⟩

theorem inside_append (h : Continues blocks lines) (closed : List OpenBlock) :
    Continues (closed ++ blocks) lines := by
  induction closed with
  | nil => exact h
  | cons block closed ih => exact ih.inside block

theorem nil (blocks : List OpenBlock) : Continues blocks [] := by
  induction blocks with
  | nil => exact ⟨.done, rfl⟩
  | cons block outer ih => exact ih.inside block

/-- Lines before the rest of the innermost block belong to that block, if they extend any block at
    its depth. -/
theorem extend (h : Continues blocks lines) {front : List CodeLine}
    (hfront : ∀ (rest : Block) (more : List CodeLine), rest.Covers blocks.length more →
      ∃ b : Block, b.Covers blocks.length (front ++ more)) :
    Continues blocks (front ++ lines) := by
  cases blocks with
  | nil =>
      obtain ⟨rest, hrest⟩ := h
      exact hfront rest lines hrest
  | cons block outer =>
      obtain ⟨body, inside, outside, rfl, hbody, hcontinues⟩ := h
      obtain ⟨body', hbody'⟩ := hfront body inside hbody
      exact ⟨body', front ++ inside, outside, by simp, hbody', hcontinues⟩

/-- A line that is no `else` goes before the rest of the innermost block, together with the block
    that it opens. -/
theorem line {line : CodeLine} (hdepth : line.depth = blocks.length)
    (helse : line.statement.action ≠ .otherwise)
    (hjump : ∀ label, line.statement.action ≠ .jump label)
    (h : Continues (line.block?.toList ++ blocks) lines) : Continues blocks (line :: lines) := by
  unfold CodeLine.block? Statement.opens? at h
  cases haction : line.statement.action with
  | assign target value =>
      rw [haction] at h
      have hentry := CodeLine.entry_eq_iff.mpr ⟨rfl, hdepth, haction⟩
      rw [← List.singleton_append]
      apply extend h
      intro rest more hrest
      exact ⟨.plain line.index (.assign target value) rest,
        Block.covers_plain_iff.mpr ⟨line, more, rfl, hentry, hrest⟩⟩
  | evaluate equation =>
      rw [haction] at h
      have hentry := CodeLine.entry_eq_iff.mpr ⟨rfl, hdepth, haction⟩
      rw [← List.singleton_append]
      apply extend h
      intro rest more hrest
      exact ⟨.plain line.index (.evaluate equation) rest,
        Block.covers_plain_iff.mpr ⟨line, more, rfl, hentry, hrest⟩⟩
  | ifTrue condition =>
      rw [haction] at h
      have hentry := CodeLine.entry_eq_iff.mpr ⟨rfl, hdepth, haction⟩
      obtain ⟨body, inside, outside, rfl, hbody, houtside⟩ := h
      rcases houtside with houtside |
        ⟨-, elseLine, elseBody, elseInside, outside', rfl, helseAction, helseDepth, helseBody,
          houtside⟩
      · rw [← List.cons_append]
        apply extend houtside
        intro rest more hrest
        exact ⟨.branch line.index condition body rest,
          Block.covers_branch_iff.mpr ⟨line, inside, more, rfl, hentry, hbody, hrest⟩⟩
      · rw [← List.cons_append, ← List.cons_append, ← List.append_assoc]
        apply extend houtside
        intro rest more hrest
        have helseEntry := CodeLine.entry_eq_iff.mpr ⟨rfl, helseDepth, helseAction⟩
        exact ⟨.branchElse line.index condition body elseLine.index elseBody rest,
          Block.covers_branchElse_iff.mpr ⟨line, inside, elseLine, elseInside, more, by simp,
            hentry, hbody, helseEntry, helseBody, hrest⟩⟩
  | whileTrue condition =>
      rw [haction] at h
      have hentry := CodeLine.entry_eq_iff.mpr ⟨rfl, hdepth, haction⟩
      obtain ⟨body, inside, outside, rfl, hbody, houtside | ⟨hkind, -⟩⟩ := h
      · rw [← List.cons_append]
        apply extend houtside
        intro rest more hrest
        exact ⟨.loop line.index condition body rest,
          Block.covers_loop_iff.mpr ⟨line, inside, more, rfl, hentry, hbody, hrest⟩⟩
      · cases hkind
  | otherwise => exact absurd haction helse
  | jump label => exact absurd haction (hjump label)

/-- An `else` follows what is left of its `if`. -/
theorem elseLine {line : CodeLine} {block : OpenBlock} (hdepth : line.depth = blocks.length)
    (helse : line.statement.action = .otherwise) (hkind : block.kind = .ifBlock)
    (h : Continues (line.block?.toList ++ blocks) lines) :
    Continues (block :: blocks) (line :: lines) := by
  have hblock : line.block? = some ⟨line.index, .elseBlock⟩ := by
    simp [CodeLine.block?, Statement.opens?, helse]
  rw [hblock] at h
  obtain ⟨body, inside, outside, rfl, hbody, houtside | ⟨hkind', -⟩⟩ := h
  · exact ⟨.done, [], _, rfl, rfl,
      .inr ⟨hkind, line, body, inside, outside, rfl, helse, hdepth, hbody, houtside⟩⟩
  · cases hkind'

end Continues

/-- Lines that nest properly and do not jump go on inside of the blocks that they nest in. -/
theorem Nested.continues {blocks : List OpenBlock} {due : Option OpenBlock} {lines : List CodeLine}
    (h : Nested blocks due lines)
    (hjump : ∀ line ∈ lines, ∀ label, line.statement.action ≠ .jump label) :
    Continues (due.toList ++ blocks) lines := by
  induction h with
  | done => exact Continues.nil _
  | @enter blocks block line rest hdepth helse hrest ih =>
      have hrest := ih fun line' hline' => hjump line' (List.mem_cons_of_mem _ hline')
      refine Continues.line hdepth ?_ (hjump line List.mem_cons_self) hrest
      intro haction
      rw [CodeLine.isElse_iff.mpr haction] at helse
      cases helse
  | @stay blocks closed kept line rest hblocks hdepth helse hrest ih =>
      have hrest := ih fun line' hline' => hjump line' (List.mem_cons_of_mem _ hline')
      subst hblocks
      by_cases haction : line.statement.action = .otherwise
      · obtain ⟨block, hlast, hkind⟩ := helse (CodeLine.isElse_iff.mpr haction)
        obtain ⟨closed', rfl⟩ := List.getLast?_eq_some_iff.mp hlast
        have hblock := Continues.elseLine hdepth haction hkind hrest
        simpa using hblock.inside_append closed'
      · have hkept := Continues.line hdepth haction (hjump line List.mem_cons_self) hrest
        exact hkept.inside_append closed

/-- There is exactly one tree for properly nested lines that do not jump. -/
theorem Nested.exists_block {lines : List CodeLine} (h : Nested [] none lines)
    (hjump : ∀ line ∈ lines, ∀ label, line.statement.action ≠ .jump label) :
    ∃ tree : Block, ∀ b : Block, b.Covers 0 lines ↔ b = tree := by
  obtain ⟨tree, htree⟩ := h.continues hjump
  refine ⟨tree, fun b => ⟨fun hb => ?_, fun hb => ?_⟩⟩
  · exact Block.entries_inj (hb.symm.trans htree)
  · rw [hb]
    exact htree

end TapePuzzle
