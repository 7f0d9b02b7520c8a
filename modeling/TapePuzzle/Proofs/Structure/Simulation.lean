import TapePuzzle.Proofs.Structure.Steps

/-!
# Runs follow the tree of blocks

Main statement: from where the lines of a block begin, a run comes to where they are left behind,
and it is then in the state in which the walk through the block ends.
-/

namespace TapePuzzle

/-! ## Several steps -/

/-- Steps lead from one run to another, each of them to the next of the lines. -/
inductive Run.Comes : Run → List Nat → Run → Prop where
  | refl (r : Run) : Comes r [] r
  | step {r r' : Run} {index : Nat} {more : List Nat} (hover : r.isOver = false)
      (hposition : r.step.control.position = some index) (hmore : Comes r.step more r') :
      Comes r (index :: more) r'

theorem Run.Comes.trans {r r' r'' : Run} {front back : List Nat} (h : r.Comes front r')
    (h' : r'.Comes back r'') : r.Comes (front ++ back) r'' := by
  induction h with
  | refl => exact h'
  | step hover hposition _ ih => exact .step hover hposition (ih h')

/-- From `r`, a run that is where the walk `w` is, steps lead to a run that is as `goal` says of it
    and the walk `w'`. -/
def Reaches (goal : Run → Walk → Prop) (r : Run) (w w' : Walk) : Prop :=
  ∃ r' lines, r.Comes lines r' ∧ w'.visited = w.visited ++ lines ∧ goal r' w'

namespace Reaches

variable {goal goal' : Run → Walk → Prop} {r : Run} {w w' w'' : Walk}

theorem refl (h : goal r w) : Reaches goal r w w :=
  ⟨r, [], .refl r, by simp, h⟩

theorem trans (h : Reaches goal r w w')
    (h' : ∀ r', goal r' w' → Reaches goal' r' w' w'') : Reaches goal' r w w'' := by
  obtain ⟨r', front, hfront, hvisited, hgoal⟩ := h
  obtain ⟨r'', back, hback, hvisited', hgoal'⟩ := h' r' hgoal
  refine ⟨r'', front ++ back, hfront.trans hback, ?_, hgoal'⟩
  rw [hvisited', hvisited, List.append_assoc]

theorem of_close {p : Program} {limit : Nat} {ahead ahead' : CodeLine}
    {blocks blocks' : List OpenBlock} (h : Reaches (SamePoint p limit ahead blocks) r w w')
    (hclose : Control.close p.lines ahead.index blocks =
      Control.close p.lines ahead'.index blocks') :
    Reaches (SamePoint p limit ahead' blocks') r w w' :=
  h.trans fun _ hpoint => refl (hpoint.of_close hclose)

end Reaches

/-! ## Going on after a line -/

/-- A line that goes on without entering a block goes on with the next one that is not deeper. -/
theorem next_fallThrough {p : Program} {line ahead : CodeLine} {deeper rest : List CodeLine}
    {blocks : List OpenBlock} (hcode : line :: (deeper ++ rest) <:+ p.code)
    (hdepth : line.depth = blocks.length)
    (hdeeper : ∀ passed ∈ deeper, blocks.length < passed.depth)
    (hahead : (rest ++ p.code).head? = some ahead) (hle : ahead.depth ≤ blocks.length) :
    Control.next p.lines ⟨some line.index, .fallThrough, blocks⟩ =
      Control.close p.lines ahead.index blocks := by
  obtain ⟨above, hsplit⟩ := hcode
  rw [← hdepth] at hdeeper hle
  simp only [Control.next, Control.fallThrough,
    Control.landing_of_head? hsplit.symm hdeeper hahead hle, bind, Except.bind]

namespace SamePoint

variable {p : Program} {limit : Nat} {line ahead : CodeLine} {blocks blocks' : List OpenBlock}
  {r : Run} {w : Walk} {behind : List CodeLine}

/-- Executing a line that always goes on in the same way. -/
theorem visit {α : Type} {work : Eval α} {onward : Onward} (h : SamePoint p limit line blocks r w)
    (hcode : line :: behind <:+ p.code) (hdepth : line.depth = blocks.length)
    (hperform : Run.perform p line.statement = work >>= fun _ => pure onward)
    (hnext : Control.next p.lines ⟨some line.index, onward, blocks⟩ =
      Control.close p.lines ahead.index blocks') :
    Reaches (SamePoint p limit ahead blocks') r w (w.visit line.index work).2 := by
  cases hover : r.isOver with
  | true =>
      have hwalk : w.visit line.index work = (none, w) := if_pos (h.isOver_eq.trans hover)
      rw [hwalk]
      exact .refl (h.of_isOver hover)
  | false =>
      obtain ⟨above, hsplit⟩ := hcode
      obtain ⟨value?, hvisit, hagrees, hposition, hgoing⟩ :=
        h.step hover hsplit.symm hdepth hperform
      rw [hvisit]
      refine ⟨r.step, [line.index], .step hover hposition (.refl _), rfl, hagrees, ?_⟩
      intro hlive
      obtain ⟨value, -, hcontrol⟩ := hgoing hlive
      rw [hcontrol]
      exact hnext

/-- Executing a header leads into its block if the condition holds, and past it otherwise. -/
theorem test {condition : Expr} {first : CodeLine} (h : SamePoint p limit line blocks r w)
    (hcode : line :: behind <:+ p.code) (hdepth : line.depth = blocks.length)
    (hperform : Run.perform p line.statement = condition.eval >>= fun value =>
      pure (if value ≠ 0 then .enterBlock else .fallThrough))
    (henter : Control.next p.lines ⟨some line.index, .enterBlock, blocks⟩ =
      Control.close p.lines first.index blocks')
    (hpass : Control.next p.lines ⟨some line.index, .fallThrough, blocks⟩ =
      Control.close p.lines ahead.index blocks) :
    (∃ w', w.test line.index condition = (true, w') ∧ w.visited.length < w'.visited.length ∧
        Reaches (SamePoint p limit first blocks') r w w') ∨
      ∃ w', w.test line.index condition = (false, w') ∧
        Reaches (SamePoint p limit ahead blocks) r w w' := by
  cases hover : r.isOver with
  | true =>
      have hwalk : w.visit line.index condition.eval = (none, w) :=
        if_pos (h.isOver_eq.trans hover)
      refine .inr ⟨w, ?_, .refl (h.of_isOver hover)⟩
      rw [Walk.test, hwalk]
      rfl
  | false =>
      obtain ⟨above, hsplit⟩ := hcode
      obtain ⟨value?, hvisit, hagrees, hposition, hgoing⟩ :=
        h.step hover hsplit.symm hdepth hperform
      have hcomes : r.Comes [line.index] r.step := .step hover hposition (.refl _)
      have htest : w.test line.index condition =
          (value?.any (· ≠ 0), ⟨r.step.bare, w.visited ++ [line.index]⟩) := by
        rw [Walk.test, hvisit]
      cases hholds : value?.any (· ≠ 0) with
      | true =>
          refine .inl ⟨_, hholds ▸ htest, by simp, r.step, _, hcomes, rfl, hagrees, ?_⟩
          intro hlive
          obtain ⟨value, rfl, hcontrol⟩ := hgoing hlive
          have hvalue : value ≠ 0 := by simpa using hholds
          rw [hcontrol, if_pos hvalue]
          exact henter
      | false =>
          refine .inr ⟨_, hholds ▸ htest, r.step, _, hcomes, rfl, hagrees, ?_⟩
          intro hlive
          obtain ⟨value, rfl, hcontrol⟩ := hgoing hlive
          have hvalue : ¬value ≠ 0 := by simpa using hholds
          rw [hcontrol, if_neg hvalue]
          exact hpass

end SamePoint

/-! ## Around a block -/

/-- Behind a block at `depth` and before the lines `after`, the program goes on at the line `ahead`:
    the first of these lines, or the first of all if there are none. This line is not in a block
    deeper than `depth`, and is no `else` at `depth`. -/
structure Resumes (code : List CodeLine) (depth : Nat) (after : List CodeLine) (ahead : CodeLine) :
    Prop where
  head : (after ++ code).head? = some ahead
  outside : ahead.depth < depth ∨ ahead.depth = depth ∧ ahead.isElse = false

namespace Resumes

variable {code after : List CodeLine} {depth : Nat} {ahead : CodeLine}

theorem le (h : Resumes code depth after ahead) : ahead.depth ≤ depth := by
  rcases h.outside with hless | ⟨heq, -⟩
  · exact Nat.le_of_lt hless
  · exact Nat.le_of_eq heq

theorem inside (h : Resumes code depth after ahead) : Resumes code (depth + 1) after ahead :=
  ⟨h.head, .inl (Nat.lt_succ_of_le h.le)⟩

theorem exists_split (h : Resumes code depth after ahead) (hcode : after <:+ code) :
    ∃ before behind, code = before ++ ahead :: behind := by
  apply List.append_of_mem
  rcases List.mem_append.mp (List.mem_of_mem_head? h.head) with hmem | hmem
  · exact hcode.subset hmem
  · exact hmem

/-- Before more statements of the block, the program goes on with the first of them. -/
theorem before (h : Resumes code depth after ahead) {rest : Block} {more : List CodeLine}
    (hrest : rest.Covers depth more) : ∃ first, Resumes code depth (more ++ after) first := by
  cases more with
  | nil => exact ⟨ahead, h⟩
  | cons line more => exact ⟨line, rfl, .inr hrest.head⟩

end Resumes

/-- A line opens `block` if `condition` holds, and passes it over otherwise. -/
structure CodeLine.Tests (line : CodeLine) (block : OpenBlock) (condition : Expr) : Prop where
  block : line.block? = some block
  perform : ∀ p, Run.perform p line.statement = condition.eval >>= fun value =>
    pure (if value ≠ 0 then .enterBlock else .fallThrough)

theorem CodeLine.tests_ifTrue {line : CodeLine} {condition : Expr}
    (haction : line.statement.action = .ifTrue condition) :
    line.Tests ⟨line.index, .ifBlock⟩ condition := by
  refine ⟨by simp [CodeLine.block?, Statement.opens?, haction], fun p => ?_⟩
  rw [Run.perform, haction]

theorem CodeLine.tests_whileTrue {line : CodeLine} {condition : Expr}
    (haction : line.statement.action = .whileTrue condition) :
    line.Tests ⟨line.index, .whileBlock⟩ condition := by
  refine ⟨by simp [CodeLine.block?, Statement.opens?, haction], fun p => ?_⟩
  rw [Run.perform, haction]

section Headers

variable {p : Program} (hnested : Nested [] none p.code) {limit : Nat} {blocks : List OpenBlock}

include hnested

/-- A header is followed by the first line of its block. -/
theorem exists_next_enterBlock {behind : List CodeLine} {line : CodeLine} {block : OpenBlock}
    (hcode : line :: behind <:+ p.code) (hblock : line.block? = some block)
    (hdepth : line.depth = blocks.length) :
    ∃ first, (behind ++ p.code).head? = some first ∧
      Control.next p.lines ⟨some line.index, .enterBlock, blocks⟩ =
        Control.close p.lines first.index (block :: blocks) := by
  obtain ⟨above, hsplit⟩ := hcode
  rw [← hsplit] at hnested
  obtain ⟨around, -, hlength, hbehind⟩ := hnested.split
  rw [hblock] at hbehind
  obtain ⟨first, more, rfl, hfirst⟩ := hbehind.head_of_due
  have hsplit' : p.code = (above ++ [line]) ++ first :: more := by
    rw [← hsplit]
    simp
  have hinside : (block :: blocks).length ≤ first.depth := by
    rw [List.length_cons]
    omega
  refine ⟨first, rfl, ?_⟩
  rw [Control.close_of_inside hsplit' hinside]
  exact Control.enter_of_split hsplit.symm hblock blocks

/-- Executing a header leads to the first line of its block, or to the line behind the block. -/
theorem SamePoint.header {inside after : List CodeLine} {line ahead : CodeLine}
    {block : OpenBlock} {body : Block} {condition : Expr} {r : Run} {w : Walk}
    (h : SamePoint p limit line blocks r w) (hcode : line :: (inside ++ after) <:+ p.code)
    (hdepth : line.depth = blocks.length) (hinside : body.Covers (blocks.length + 1) inside)
    (hahead : (after ++ p.code).head? = some ahead) (hle : ahead.depth ≤ blocks.length)
    (htests : line.Tests block condition) :
    (∃ w' first, w.test line.index condition = (true, w') ∧
        w.visited.length < w'.visited.length ∧ (inside ++ after ++ p.code).head? = some first ∧
        Reaches (SamePoint p limit first (block :: blocks)) r w w') ∨
      ∃ w', w.test line.index condition = (false, w') ∧
        Reaches (SamePoint p limit ahead blocks) r w w' := by
  obtain ⟨first, hfirst, henter⟩ := exists_next_enterBlock hnested hcode htests.block hdepth
  have hpass := next_fallThrough hcode hdepth (fun passed hpassed => hinside.le_depth hpassed)
    hahead hle
  rcases h.test hcode hdepth (htests.perform p) henter hpass with
    ⟨w', htest, hlength, hreaches⟩ | ⟨w', htest, hreaches⟩
  · exact .inl ⟨w', first, htest, hlength, hfirst, hreaches⟩
  · exact .inr ⟨w', htest, hreaches⟩

end Headers

theorem Plain.perform_eq (p : Program) {statement : Statement} {plain : Plain}
    (haction : statement.action = plain.action) :
    Run.perform p statement = plain.carryOut >>= fun _ => pure .fallThrough := by
  unfold Run.perform
  rw [haction]
  cases plain with
  | assign target value => rfl
  | evaluate equation => simp [Plain.action, Plain.carryOut]

/-- Repetition, of which each round comes back to the same line or reaches the goal. There are
    rounds enough, since each one meets a line and the limit is below their number. -/
theorem SamePoint.loop {p : Program} {limit : Nat} {blocks : List OpenBlock} {here : CodeLine}
    {goal : Run → Walk → Prop} {test : Walk → Bool × Walk} {body : Walk → Walk}
    (hgoal : ∀ r w, SamePoint p limit here blocks r w → r.isOver = true → goal r w)
    (hround : ∀ r w, SamePoint p limit here blocks r w →
      (∃ w', test w = (true, w') ∧ w.visited.length < (body w').visited.length ∧
          Reaches (SamePoint p limit here blocks) r w (body w')) ∨
        ∃ w', test w = (false, w') ∧ Reaches goal r w w')
    {passes : Nat} {r : Run} {w : Walk} (h : SamePoint p limit here blocks r w)
    (hpasses : limit < passes + w.visited.length) :
    Reaches goal r w (Walk.loop test body passes w) := by
  induction passes generalizing r w with
  | zero =>
      have hover : r.isOver = true := by
        cases hlive : r.isOver with
        | true => rfl
        | false =>
            have hbound := h.live hlive
            have hcount := h.count
            omega
      exact .refl (hgoal r w h hover)
  | succ passes ih =>
      unfold Walk.loop
      rcases hround r w h with ⟨w', htest, hlength, hreaches⟩ | ⟨w', htest, hreaches⟩
      · rw [htest]
        exact hreaches.trans fun r' hpoint => ih hpoint (by omega)
      · rw [htest]
        exact hreaches

/-! ## Blocks -/

/-- Walking through the block is what a run does from the first of its lines to the line where the
    program goes on behind it, wherever the lines of the block stand in the program. -/
def Block.Followed (p : Program) (limit passes : Nat) (b : Block) : Prop :=
  ∀ {lines after : List CodeLine} {here there : CodeLine} {blocks : List OpenBlock} {r : Run}
    {w : Walk}, SamePoint p limit here blocks r w → lines ++ after <:+ p.code →
    b.Covers blocks.length lines → (lines ++ after ++ p.code).head? = some here →
    Resumes p.code blocks.length after there →
    Reaches (SamePoint p limit there blocks) r w (b.exec passes w)

namespace Block

variable {p : Program} {limit passes index elseIndex : Nat} {condition : Expr}
  {body elseBody rest : Block}

theorem followed_done : done.Followed p limit passes := by
  intro lines after here there blocks r w h hcode hcovers hhere hthere
  obtain rfl := covers_done_iff.mp hcovers
  obtain rfl : here = there := Option.some.inj (hhere.symm.trans hthere.head)
  exact .refl h

theorem followed_plain {statement : Plain} (hrest : rest.Followed p limit passes) :
    (plain index statement rest).Followed p limit passes := by
  intro lines after here there blocks r w h hcode hcovers hhere hthere
  obtain ⟨line, more, rfl, hentry, hmore⟩ := covers_plain_iff.mp hcovers
  obtain ⟨rfl, hdepth, haction⟩ := CodeLine.entry_eq_iff.mp hentry
  obtain rfl : line = here := Option.some.inj hhere
  obtain ⟨ahead, hahead⟩ := hthere.before hmore
  have hbehind : more ++ after <:+ p.code := (List.suffix_cons line _).trans hcode
  have hline : line :: ([] ++ (more ++ after)) <:+ p.code := hcode
  have hnext := next_fallThrough hline hdepth (by simp) hahead.head hahead.le
  refine (h.visit hcode hdepth (Plain.perform_eq p haction) hnext).trans fun r' hpoint => ?_
  exact hrest hpoint hbehind hmore hahead.head hthere

section Headers

variable (hnested : Nested [] none p.code) (hbody : body.Followed p limit passes)
  (hrest : rest.Followed p limit passes)

include hnested hbody hrest

theorem followed_branch : (branch index condition body rest).Followed p limit passes := by
  intro lines after here there blocks r w h hcode hcovers hhere hthere
  obtain ⟨line, inside, more, rfl, hentry, hinside, hmore⟩ := covers_branch_iff.mp hcovers
  obtain ⟨rfl, hdepth, haction⟩ := CodeLine.entry_eq_iff.mp hentry
  obtain rfl : line = here := Option.some.inj hhere
  obtain ⟨ahead, hahead⟩ := hthere.before hmore
  rw [List.cons_append, List.append_assoc] at hcode
  have hbehind : inside ++ (more ++ after) <:+ p.code := (List.suffix_cons line _).trans hcode
  have hbehind' : more ++ after <:+ p.code := (List.suffix_append inside _).trans hbehind
  obtain ⟨above, below, hsplit⟩ := hahead.exists_split hbehind'
  unfold exec
  rcases h.header hnested hcode hdepth hinside hahead.head hahead.le
    (CodeLine.tests_ifTrue haction) with
    ⟨w', first, htest, -, hfirst, hreaches⟩ | ⟨w', htest, hreaches⟩
  · rw [htest]
    refine hreaches.trans fun r' hpoint => ?_
    have hleft := hbody hpoint hbehind hinside hfirst hahead.inside
    have hclosed := hleft.of_close (Control.close_if hsplit hahead.outside)
    exact hclosed.trans fun r'' hpoint' => hrest hpoint' hbehind' hmore hahead.head hthere
  · rw [htest]
    exact hreaches.trans fun r' hpoint => hrest hpoint hbehind' hmore hahead.head hthere

theorem followed_branchElse (helseBody : elseBody.Followed p limit passes) :
    (branchElse index condition body elseIndex elseBody rest).Followed p limit passes := by
  intro lines after here there blocks r w h hcode hcovers hhere hthere
  obtain ⟨line, inside, elseLine, elseInside, more, rfl, hentry, hinside, helseEntry, helseInside,
    hmore⟩ := covers_branchElse_iff.mp hcovers
  obtain ⟨rfl, hdepth, haction⟩ := CodeLine.entry_eq_iff.mp hentry
  obtain ⟨rfl, helseDepth, helseAction⟩ := CodeLine.entry_eq_iff.mp helseEntry
  obtain rfl : line = here := Option.some.inj hhere
  obtain ⟨ahead, hahead⟩ := hthere.before hmore
  rw [List.cons_append, List.append_assoc, List.cons_append, List.append_assoc] at hcode
  have hbehind : inside ++ elseLine :: (elseInside ++ (more ++ after)) <:+ p.code :=
    (List.suffix_cons line _).trans hcode
  have helseCode : elseLine :: (elseInside ++ (more ++ after)) <:+ p.code :=
    (List.suffix_append inside _).trans hbehind
  have helseBehind : elseInside ++ (more ++ after) <:+ p.code :=
    (List.suffix_cons elseLine _).trans helseCode
  have hbehind' : more ++ after <:+ p.code := (List.suffix_append elseInside _).trans helseBehind
  unfold exec
  rcases h.header hnested hcode hdepth hinside rfl (Nat.le_of_eq helseDepth)
    (CodeLine.tests_ifTrue haction) with
    ⟨w', first, htest, -, hfirst, hreaches⟩ | ⟨w', htest, hreaches⟩
  · -- the body ends at the `else`, which is passed over
    rw [htest]
    refine hreaches.trans fun r' hpoint => ?_
    have helse : Resumes p.code (blocks.length + 1)
        (elseLine :: (elseInside ++ (more ++ after))) elseLine := ⟨rfl, .inl (by omega)⟩
    have hleft := hbody hpoint hbehind hinside hfirst helse
    obtain ⟨above, hsplit⟩ := helseCode
    have hlanding := Control.landing_of_head? hsplit.symm
      (fun passed hpassed => helseDepth ▸ helseInside.le_depth hpassed) hahead.head
      (helseDepth ▸ hahead.le)
    have hclosed := hleft.of_close (Control.close_if_of_isElse hsplit.symm helseDepth
      (CodeLine.isElse_iff.mpr helseAction) hlanding)
    exact hclosed.trans fun r'' hpoint' => hrest hpoint' hbehind' hmore hahead.head hthere
  · -- the `else` is a line of its own, which enters its block
    rw [htest]
    refine hreaches.trans fun r' hpoint => ?_
    have hblock : elseLine.block? = some ⟨elseLine.index, .elseBlock⟩ := by
      simp [CodeLine.block?, Statement.opens?, helseAction]
    have hperform : Run.perform p elseLine.statement =
        (pure () : Eval Unit) >>= fun _ => pure .enterBlock := by
      rw [Run.perform, helseAction]
      rfl
    obtain ⟨first, hfirst, henter⟩ := exists_next_enterBlock hnested helseCode hblock helseDepth
    refine (hpoint.visit helseCode helseDepth hperform henter).trans fun r'' hpoint' => ?_
    have hleft := helseBody hpoint' helseBehind helseInside hfirst hahead.inside
    obtain ⟨above, below, hsplit⟩ := hahead.exists_split hbehind'
    have hclosed := hleft.of_close (Control.close_else hsplit hahead.le)
    exact hclosed.trans fun _ hpoint'' => hrest hpoint'' hbehind' hmore hahead.head hthere

theorem followed_loop (hpasses : limit < passes) :
    (loop index condition body rest).Followed p limit passes := by
  intro lines after here there blocks r w h hcode hcovers hhere hthere
  obtain ⟨line, inside, more, rfl, hentry, hinside, hmore⟩ := covers_loop_iff.mp hcovers
  obtain ⟨rfl, hdepth, haction⟩ := CodeLine.entry_eq_iff.mp hentry
  obtain rfl : line = here := Option.some.inj hhere
  obtain ⟨ahead, hahead⟩ := hthere.before hmore
  rw [List.cons_append, List.append_assoc] at hcode
  have hbehind : inside ++ (more ++ after) <:+ p.code := (List.suffix_cons line _).trans hcode
  have hbehind' : more ++ after <:+ p.code := (List.suffix_append inside _).trans hbehind
  -- leaving the body leads back to the header
  have hback : Control.close p.lines ahead.index (⟨line.index, .whileBlock⟩ :: blocks) =
      Control.close p.lines line.index blocks := by
    obtain ⟨above, below, hsplit⟩ := hahead.exists_split hbehind'
    obtain ⟨above', hsplit'⟩ := hcode
    rw [Control.close_while hsplit hahead.le,
      Control.close_of_inside hsplit'.symm (Nat.le_of_eq hdepth.symm)]
  have hround : ∀ r w, SamePoint p limit line blocks r w →
      (∃ w', w.test line.index condition = (true, w') ∧
          w.visited.length < (body.exec passes w').visited.length ∧
          Reaches (SamePoint p limit line blocks) r w (body.exec passes w')) ∨
        ∃ w', w.test line.index condition = (false, w') ∧
          Reaches (SamePoint p limit ahead blocks) r w w' := by
    intro r w h
    rcases h.header hnested hcode hdepth hinside hahead.head hahead.le
      (CodeLine.tests_whileTrue haction) with
      ⟨w', first, htest, hlength, hfirst, hreaches⟩ | ⟨w', htest, hreaches⟩
    · have hmeets := (visited_prefix_exec passes body w').length_le
      refine .inl ⟨w', htest, Nat.lt_of_lt_of_le hlength hmeets, hreaches.trans fun r' hpoint => ?_⟩
      exact (hbody hpoint hbehind hinside hfirst hahead.inside).of_close hback
    · exact .inr ⟨w', htest, hreaches⟩
  have hloop := SamePoint.loop (fun r w h hover => h.of_isOver hover) hround h
    (Nat.lt_of_lt_of_le hpasses (Nat.le_add_right _ _))
  exact hloop.trans fun r' hpoint => hrest hpoint hbehind' hmore hahead.head hthere

end Headers

/-- Runs do what walking through a block does, whatever the block is made of. -/
theorem followed (hnested : Nested [] none p.code) (hpasses : limit < passes) (b : Block) :
    b.Followed p limit passes := by
  induction b with
  | done => exact followed_done
  | plain index statement rest hrest => exact followed_plain hrest
  | branch index condition body rest hbody hrest => exact followed_branch hnested hbody hrest
  | branchElse index condition body elseIndex elseBody rest hbody helseBody hrest =>
      exact followed_branchElse hnested hbody hrest helseBody
  | loop index condition body rest hbody hrest => exact followed_loop hnested hbody hrest hpasses

end Block

end TapePuzzle
