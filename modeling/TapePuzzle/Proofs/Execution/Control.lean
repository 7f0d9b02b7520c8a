import TapePuzzle.Proofs.Nesting

/-!
# Moving along nested lines

The search for the next line, on lines that nest properly. Main statement: from a line that stands
in the open blocks, every way of going on finds a line, and the blocks kept are those that this
line stands in. The blocks found by looking upwards from a line are the same.
-/

namespace TapePuzzle

/-- The line at `index` has a statement, and stands in `blocks`. -/
def Standing (lines : List Line) (index : Nat) (blocks : List OpenBlock) : Prop :=
  (∃ statement, lines[index]? = some (.code blocks.length statement)) ∧
    Encloses (codeFrom 0 (lines.take index)) blocks

theorem standing_of_split {lines : List Line} {above behind : List CodeLine} {line : CodeLine}
    {blocks : List OpenBlock} (hsplit : codeFrom 0 lines = above ++ line :: behind)
    (habove : Encloses above blocks) (hlength : blocks.length = line.depth) :
    Standing lines line.index blocks := by
  refine ⟨⟨line.statement, ?_⟩, ?_⟩
  · rw [getElem?_of_split hsplit, hlength]
    rfl
  · rw [above_of_split hsplit]
    exact habove

theorem Standing.exists_split {lines : List Line} {index : Nat} {blocks : List OpenBlock}
    (h : Standing lines index blocks) :
    ∃ above line behind, codeFrom 0 lines = above ++ line :: behind ∧ line.index = index ∧
      Encloses above blocks ∧ blocks.length = line.depth := by
  obtain ⟨⟨statement, hline⟩, habove⟩ := h
  exact ⟨_, _, _, exists_split_of_getElem? hline, rfl, habove, rfl⟩

theorem Line.any_depth? :
    (fun line : Line => line.depth?.any fun _ => true) = Line.isCode := by
  funext line
  cases line <;> rfl

namespace Control

/-! ## Single searches -/

section Search

variable {lines : List Line} {above behind : List CodeLine} {line : CodeLine}

theorem depthAt_of_split (h : codeFrom 0 lines = above ++ line :: behind) :
    depthAt lines line.index = .ok line.depth := by
  simp [depthAt, getElem?_of_split h, CodeLine.toLine, Line.depth?]

theorem isElseAt_of_split (h : codeFrom 0 lines = above ++ line :: behind) :
    isElseAt lines line.index = line.isElse := by
  simp [isElseAt, getElem?_of_split h, CodeLine.isElse]

/-- Counting lines up to a depth is looking for it among the lines that have a statement. -/
theorem findIdx?_map_add (accept : Nat → Bool) (start : Nat) (lines : List Line) :
    (lines.findIdx? fun line => line.depth?.any accept).map (start + ·) =
      ((codeFrom start lines).find? fun line => accept line.depth).map CodeLine.index := by
  induction lines generalizing start with
  | nil => rfl
  | cons first lines ih =>
      rw [List.findIdx?_cons]
      have hshift : (fun distance => start + distance) ∘ (fun distance => distance + 1) =
          (fun distance => start + 1 + distance) := by
        funext distance
        simp only [Function.comp_apply]
        omega
      cases first with
      | silent =>
          rw [codeFrom_silent, ← ih, ← hshift, ← Option.map_map]
          simp
      | code depth statement =>
          rw [codeFrom_code, List.find?_cons]
          cases haccept : accept depth with
          | true => simp [haccept]
          | false =>
              rw [← ih, ← hshift, ← Option.map_map]
              simp [haccept]

/-- The next line is found among the lines behind, and then among all lines from the first. -/
theorem nextCodeLine_eq (lines : List Line) (accept : Nat → Bool) (origin : Nat) :
    nextCodeLine lines accept origin =
      match (codeFrom (origin + 1) (lines.drop (origin + 1)) ++ codeFrom 0 lines).find?
          fun line => accept line.depth with
      | some line => .ok line.index
      | none => .error (.noLanding origin) := by
  have hbehind := findIdx?_map_add accept (origin + 1) (lines.drop (origin + 1))
  have hall := findIdx?_map_add accept 0 lines
  simp only [nextCodeLine, List.find?_append]
  cases hfound : (lines.drop (origin + 1)).findIdx? fun line => line.depth?.any accept with
  | some distance =>
      rw [hfound, Option.map_some] at hbehind
      obtain ⟨line, hline, hindex⟩ := Option.map_eq_some_iff.mp hbehind.symm
      simp [hline, hindex]
  | none =>
      rw [hfound, Option.map_none, eq_comm, Option.map_eq_none_iff] at hbehind
      rw [hbehind, Option.none_or]
      cases hfirst : lines.findIdx? fun line => line.depth?.any accept with
      | some index =>
          rw [hfirst, Option.map_some, Nat.zero_add] at hall
          obtain ⟨line, hline, hindex⟩ := Option.map_eq_some_iff.mp hall.symm
          simp [hline, hindex]
      | none =>
          rw [hfirst, Option.map_none, eq_comm, Option.map_eq_none_iff] at hall
          simp [hall]

/-- Without a condition on the depth, the next line is the next one that has a statement. -/
theorem nextCodeLine_of_head? {next : CodeLine} {origin : Nat}
    (hnext : (codeFrom (origin + 1) (lines.drop (origin + 1)) ++ codeFrom 0 lines).head? =
      some next) :
    nextCodeLine lines (fun _ => true) origin = .ok next.index := by
  rw [nextCodeLine_eq]
  generalize codeFrom (origin + 1) (lines.drop (origin + 1)) ++ codeFrom 0 lines = ahead at hnext
  cases ahead with
  | nil => cases hnext
  | cons first rest =>
      cases hnext
      simp

/-- Lines that are deeper than the origin are passed over. -/
theorem landing_of_head? {deeper rest : List CodeLine} {next : CodeLine}
    (hsplit : codeFrom 0 lines = above ++ line :: (deeper ++ rest))
    (hdeeper : ∀ passed ∈ deeper, line.depth < passed.depth)
    (hnext : (rest ++ codeFrom 0 lines).head? = some next) (hdepth : next.depth ≤ line.depth) :
    landing lines line.index = .ok next.index := by
  have hskip : deeper.find? (fun passed => decide (passed.depth ≤ line.depth)) = none := by
    rw [List.find?_eq_none]
    intro passed hpassed
    have := hdeeper passed hpassed
    simp only [decide_eq_true_eq]
    omega
  simp only [landing, depthAt_of_split hsplit, bind, Except.bind, nextCodeLine_eq,
    behind_of_split hsplit]
  rw [List.append_assoc, List.find?_append, hskip, Option.none_or]
  generalize rest ++ codeFrom 0 lines = ahead at hnext
  cases ahead with
  | nil => cases hnext
  | cons first rest =>
      cases hnext
      simp [hdepth]

/-- A header is entered by its next line. -/
theorem enter_of_split {first : CodeLine} {more : List CodeLine} {block : OpenBlock}
    (hsplit : codeFrom 0 lines = above ++ line :: first :: more)
    (hblock : line.block? = some block) (blocks : List OpenBlock) :
    enter lines line.index blocks = .ok (first.index, block :: blocks) := by
  obtain ⟨kind, hopens, rfl⟩ := Option.map_eq_some_iff.mp hblock
  have hnext : nextCodeLine lines (fun _ => true) line.index = .ok first.index :=
    nextCodeLine_of_head? (by rw [behind_of_split hsplit]; rfl)
  simp [enter, getElem?_of_split hsplit, CodeLine.toLine, Line.statement?, hopens, hnext, bind,
    Except.bind]

theorem firstCodeLine_of_head? {first : CodeLine} (h : (codeFrom 0 lines).head? = some first) :
    firstCodeLine lines = .ok first.index := by
  have hall := findIdx?_map_add (fun _ => true) 0 lines
  have hfirst : (codeFrom 0 lines).find? (fun _ => true) = some first := by
    cases hlines : codeFrom 0 lines with
    | nil => simp [hlines] at h
    | cons line rest => simpa [hlines] using h
  rw [Line.any_depth?, hfirst, Option.map_some] at hall
  obtain ⟨index, hindex, hsum⟩ := Option.map_eq_some_iff.mp hall
  simp only [firstCodeLine, hindex, ← hsum, Nat.zero_add]

end Search

/-- Looking upwards from a line finds the blocks that it stands in. -/
theorem enclosing_eq_of_encloses {lines : List Line} {blocks : List OpenBlock} (target : Nat)
    {below : Nat} (hbelow : below ≤ lines.length)
    (h : Encloses (codeFrom 0 (lines.take below)) blocks) :
    enclosing lines target blocks.length below = .ok blocks := by
  induction below generalizing blocks with
  | zero =>
      rw [encloses_nil_iff.mp h]
      rfl
  | succ index ih =>
      cases blocks with
      | nil => rfl
      | cons block outer =>
          have hline : lines[index]? = some lines[index] := List.getElem?_eq_getElem (by omega)
          have htake : codeFrom 0 (lines.take (index + 1)) =
              codeFrom 0 (lines.take index) ++ codeFrom index [lines[index]] := by
            rw [List.take_add_one, hline, codeFrom_append, List.length_take_of_le (by omega)]
            simp
          rw [htake] at h
          simp only [List.length_cons, enclosing, hline]
          generalize lines[index] = line at h
          cases line with
          | silent => exact ih (by omega) (by simpa using h)
          | code depth statement =>
              obtain ⟨before, header, between, habove, hblock, hdepth, hbetween, houter⟩ := h
              rcases List.eq_nil_or_concat between with rfl | ⟨between, last, rfl⟩
              · -- the line is the header of the innermost block
                obtain ⟨hbefore, hheader⟩ := List.append_inj' habove rfl
                obtain rfl : _ = header := by simpa using hheader
                obtain ⟨kind, hopens, rfl⟩ := Option.map_eq_some_iff.mp hblock
                have houter := ih (by omega) (hbefore ▸ houter)
                simp [show depth = outer.length from hdepth, show statement.opens? = some kind from
                  hopens, houter, bind, Except.bind]
              · -- the line is deeper, and the header is further up
                rw [List.concat_eq_append, ← List.cons_append, ← List.append_assoc] at habove
                obtain ⟨hbefore, hlast⟩ := List.append_inj' habove rfl
                obtain rfl : _ = last := by simpa using hlast
                have hdeep : outer.length < depth := hbetween ⟨index, depth, statement⟩ (by simp)
                have hhigher : Encloses (codeFrom 0 (lines.take index)) (block :: outer) :=
                  ⟨before, header, between, hbefore, hblock, hdepth,
                    fun line hline => hbetween line (by simp [hline]), houter⟩
                simpa [show depth ≠ outer.length by omega] using ih (by omega) hhigher

end Control

/-! ## Lines and their blocks -/

namespace Standing

variable {lines : List Line} {index : Nat} {blocks : List OpenBlock}

theorem enclosing_eq (h : Standing lines index blocks) (target : Nat) :
    Control.enclosing lines target blocks.length index = .ok blocks := by
  obtain ⟨⟨statement, hline⟩, habove⟩ := h
  obtain ⟨hindex, -⟩ := List.getElem?_eq_some_iff.mp hline
  exact Control.enclosing_eq_of_encloses target (by omega) habove

/-- A line stands in one list of blocks only. -/
theorem unique {blocks' : List OpenBlock} (h : Standing lines index blocks)
    (h' : Standing lines index blocks') : blocks = blocks' := by
  obtain ⟨statement, hline⟩ := h.1
  obtain ⟨statement', hline'⟩ := h'.1
  have hlength : blocks.length = blocks'.length := by
    rw [hline] at hline'
    exact (Line.code.inj (Option.some.inj hline')).1
  have hfound := h.enclosing_eq index
  rw [hlength, h'.enclosing_eq index] at hfound
  exact (Except.ok.inj hfound).symm

/-- The header of the innermost block stands in the other blocks. -/
theorem header {block : OpenBlock} {outer : List OpenBlock}
    (h : Standing lines index (block :: outer)) : Standing lines block.header outer := by
  obtain ⟨above, line, behind, hsplit, -, habove, -⟩ := h.exists_split
  obtain ⟨before, header, between, rfl, hblock, hdepth, houter⟩ := habove.header
  obtain ⟨kind, -, rfl⟩ := Option.map_eq_some_iff.mp hblock
  rw [List.append_assoc, List.cons_append] at hsplit
  exact standing_of_split hsplit houter hdepth

end Standing

/-- In properly nested lines, every line that has a statement stands in some blocks. -/
theorem exists_standing {lines : List Line} (hnested : Nested [] none (codeFrom 0 lines))
    {line : CodeLine} (hline : line ∈ codeFrom 0 lines) :
    ∃ blocks, blocks.length = line.depth ∧ Standing lines line.index blocks := by
  obtain ⟨above, behind, hsplit⟩ := List.append_of_mem hline
  rw [hsplit] at hnested
  obtain ⟨blocks, habove, hlength, -⟩ := hnested.split
  exact ⟨blocks, hlength, standing_of_split hsplit habove hlength⟩

/-! ## Ways of going on -/

namespace Control

section Moves

variable {lines : List Line} (hnested : Nested [] none (codeFrom 0 lines))

include hnested

/-- The next line that is not deeper stands in some of the blocks, from the outermost on. -/
theorem landing_standing {origin : Nat} {blocks : List OpenBlock}
    (h : Standing lines origin blocks) :
    ∃ target closed kept, landing lines origin = .ok target ∧ blocks = closed ++ kept ∧
      Standing lines target kept := by
  obtain ⟨above, line, behind, hsplit, rfl, habove, hlength⟩ := h.exists_split
  let deeper := behind.takeWhile fun passed => decide (line.depth < passed.depth)
  have hdeeper : ∀ passed ∈ deeper, line.depth < passed.depth := by
    intro passed hpassed
    simpa using List.all_eq_true.mp List.all_takeWhile passed hpassed
  have hbehind : deeper ++ behind.dropWhile (fun passed => decide (line.depth < passed.depth)) =
      behind := List.takeWhile_append_dropWhile
  rw [← hbehind] at hsplit
  cases hrest : behind.dropWhile fun passed => decide (line.depth < passed.depth) with
  | nil =>
      -- nothing but deeper lines follow, and the search goes on from the first line
      rw [hrest] at hsplit
      cases hcode : codeFrom 0 lines with
      | nil => simp [hcode] at hsplit
      | cons first rest =>
          have hfirst : first.depth = 0 := (hcode ▸ hnested).depth_head
          have hsplit' : codeFrom 0 lines = [] ++ first :: rest := hcode
          refine ⟨first.index, blocks, [], ?_, by simp, ?_⟩
          · exact landing_of_head? hsplit hdeeper (by simp [hcode]) (by omega)
          · exact standing_of_split hsplit' trivial (by simp [hfirst])
  | cons next rest =>
      rw [hrest] at hsplit
      have hdepth : next.depth ≤ line.depth := by
        have hstop := List.head?_dropWhile_not
          (fun passed : CodeLine => decide (line.depth < passed.depth)) behind
        rw [hrest] at hstop
        simpa using hstop
      have hkept : Encloses above (blocks.drop (blocks.length - next.depth)) := by
        rw [← List.take_append_drop (blocks.length - next.depth) blocks] at habove
        exact habove.of_append
      have hkeptLength : (blocks.drop (blocks.length - next.depth)).length = next.depth := by
        rw [List.length_drop]
        omega
      have hsplit' : codeFrom 0 lines = (above ++ line :: deeper) ++ next :: rest := by
        rw [hsplit]
        simp
      refine ⟨next.index, blocks.take (blocks.length - next.depth), _, ?_,
        (List.take_append_drop _ _).symm, standing_of_split hsplit' (hkept.append ?_) hkeptLength⟩
      · exact landing_of_head? hsplit hdeeper rfl hdepth
      · intro passed hpassed
        rw [hkeptLength]
        rcases List.mem_cons.mp hpassed with rfl | hpassed
        · exact hdepth
        · have := hdeeper passed hpassed
          omega

/-- Closing blocks ends at a line that stands in the blocks that stay open. The induction is over
    the open blocks; they are those of some line, so that the header of each stands in the
    others. -/
theorem close_standing {blocks closed kept : List OpenBlock} {inside target : Nat}
    (hinside : Standing lines inside blocks) (hblocks : blocks = closed ++ kept)
    (htarget : Standing lines target kept) :
    ∃ next around, close lines target blocks = .ok (next, around) ∧
      Standing lines next around := by
  induction blocks generalizing inside target closed kept with
  | nil =>
      obtain ⟨-, rfl⟩ := List.append_eq_nil_iff.mp hblocks.symm
      exact ⟨target, [], rfl, htarget⟩
  | cons block outer ih =>
      obtain ⟨above, line, behind, hsplit, rfl, -, hlength⟩ := htarget.exists_split
      simp only [close, depthAt_of_split hsplit, ← hlength, bind, Except.bind]
      cases closed with
      | nil =>
          rw [List.nil_append] at hblocks
          subst hblocks
          exact ⟨line.index, block :: outer, by simp, htarget⟩
      | cons top closed =>
          rw [List.cons_append, List.cons.injEq] at hblocks
          obtain ⟨rfl, rfl⟩ := hblocks
          have hheader := hinside.header
          rw [if_neg (by simp)]
          cases block.kind with
          | whileBlock => exact ⟨_, _, rfl, hheader⟩
          | elseBlock => exact ih hheader rfl htarget
          | ifBlock =>
              dsimp only
              split
              · -- the `else` at the target is passed over, and nothing but its blocks is left
                rename_i hskip
                obtain ⟨next, closed', kept', hlanding, hkept, hnext⟩ :=
                  landing_standing hnested htarget
                rw [hlanding]
                obtain rfl : closed = [] := by
                  have := hskip.1
                  rw [List.length_append] at this
                  exact List.length_eq_zero_iff.mp (by omega)
                exact ih hheader (by simpa using hkept) hnext
              · exact ih hheader rfl htarget

theorem fallThrough_standing {origin : Nat} {blocks : List OpenBlock}
    (h : Standing lines origin blocks) :
    ∃ next around, fallThrough lines origin blocks = .ok (next, around) ∧
      Standing lines next around := by
  obtain ⟨target, closed, kept, hlanding, hblocks, htarget⟩ := landing_standing hnested h
  simp only [fallThrough, hlanding, bind, Except.bind]
  exact close_standing hnested h hblocks htarget

/-- A header is followed by a line of its block. -/
theorem enter_standing {origin depth : Nat} {statement : Statement} {kind : BlockKind}
    {blocks : List OpenBlock} (h : Standing lines origin blocks)
    (hline : lines[origin]? = some (.code depth statement))
    (hopens : statement.opens? = some kind) :
    ∃ next around, enter lines origin blocks = .ok (next, around) ∧
      Standing lines next around := by
  obtain ⟨above, line, behind, hsplit, rfl, habove, hlength⟩ := h.exists_split
  have hsame : line.toLine = .code depth statement := by
    rw [getElem?_of_split hsplit] at hline
    exact Option.some.inj hline
  have hblock : line.block? = some ⟨line.index, kind⟩ := by
    cases hsame
    simp [CodeLine.block?, hopens]
  rw [hsplit] at hnested
  obtain ⟨around, -, haround, hbehind⟩ := hnested.split
  rw [hblock] at hbehind
  obtain ⟨first, more, rfl, hfirst⟩ := hbehind.head_of_due
  have hfirstBlocks := habove.concat hlength
  have hsplit' : codeFrom 0 lines = (above ++ [line]) ++ first :: more := by
    rw [hsplit]
    simp
  refine ⟨first.index, ⟨line.index, kind⟩ :: blocks, enter_of_split hsplit hblock blocks,
    standing_of_split hsplit' ?_ ?_⟩
  · simpa [hblock] using hfirstBlocks
  · rw [List.length_cons]
    omega

/-- A jump finds a line, and looking upwards from there finds its blocks. -/
theorem jump_standing (hcode : codeFrom 0 lines ≠ []) (label : Nat) :
    ∃ next around, jump lines label = .ok (next, around) ∧ Standing lines next around := by
  have hdrop : ∀ line ∈ codeFrom (label + 1) (lines.drop (label + 1)), line ∈ codeFrom 0 lines := by
    intro line hline
    rw [← codeFrom_take_append_drop lines (label + 1)]
    exact List.mem_append_right _ hline
  cases hahead : codeFrom (label + 1) (lines.drop (label + 1)) ++ codeFrom 0 lines with
  | nil => exact absurd (List.append_eq_nil_iff.mp hahead).2 hcode
  | cons next rest =>
      have hmem : next ∈ codeFrom 0 lines := by
        have hnext : next ∈ codeFrom (label + 1) (lines.drop (label + 1)) ++ codeFrom 0 lines := by
          rw [hahead]
          exact List.mem_cons_self
        exact (List.mem_append.mp hnext).elim (hdrop next) id
      obtain ⟨blocks, hlength, hstanding⟩ := exists_standing hnested hmem
      obtain ⟨above, behind, hsplit⟩ := List.append_of_mem hmem
      refine ⟨next.index, blocks, ?_, hstanding⟩
      simp [jump, nextCodeLine_of_head? (by rw [hahead]; rfl), depthAt_of_split hsplit,
        ← hlength, hstanding.enclosing_eq, bind, Except.bind]

end Moves

/-- The open blocks of a position are those that it stands in, and a block is only entered from its
    header. -/
structure Sound (lines : List Line) (c : Control) : Prop where
  start : c.position = none → c.blocks = []
  standing : ∀ index, c.position = some index → Standing lines index c.blocks
  header : ∀ index, c.position = some index → c.onward = .enterBlock →
    ∃ depth statement kind, lines[index]? = some (.code depth statement) ∧
      statement.opens? = some kind

/-- There always is a next line, and its blocks are those that it stands in. -/
theorem Sound.next {lines : List Line} {c : Control}
    (hnested : Nested [] none (codeFrom 0 lines)) (hcode : codeFrom 0 lines ≠ [])
    (h : Sound lines c) :
    ∃ index blocks, c.next lines = .ok (index, blocks) ∧ Standing lines index blocks := by
  obtain ⟨position, onward, blocks⟩ := c
  cases position with
  | none =>
      obtain rfl : blocks = [] := h.start rfl
      cases hlines : codeFrom 0 lines with
      | nil => exact absurd hlines hcode
      | cons first rest =>
          have hsplit : codeFrom 0 lines = [] ++ first :: rest := hlines
          have hdepth : first.depth = 0 := (hlines ▸ hnested).depth_head
          refine ⟨first.index, [], ?_, standing_of_split hsplit trivial (by simp [hdepth])⟩
          simp [Control.next, firstCodeLine_of_head? (by rw [hlines]; rfl), bind, Except.bind]
  | some origin =>
      have hstanding := h.standing origin rfl
      cases onward with
      | fallThrough => exact fallThrough_standing hnested hstanding
      | enterBlock =>
          obtain ⟨depth, statement, kind, hline, hopens⟩ := h.header origin rfl rfl
          exact enter_standing hnested hstanding hline hopens
      | jumpTo label => exact jump_standing hnested hcode label

end Control

end TapePuzzle
