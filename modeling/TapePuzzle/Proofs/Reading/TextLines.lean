import TapePuzzle.Proofs.Nesting
import TapePuzzle.Proofs.Reading.Statements

/-!
# What reading the text segment guarantees

Leading blanks are accepted line by line, and so is the nesting of blocks: the levels of the
indentation are the blocks that the line read last stands in. Main statement: if nothing is wrong
with the lines of a text segment, they nest properly and all their statements make sense.
-/

namespace TapePuzzle

namespace Indentation

/-- What is kept is what the blanks spell out, and nothing is lost. -/
theorem split_of_spell {fragments kept dropped : List Fragment} {blanks : List Char}
    (h : spell fragments blanks = .ok (kept, dropped)) :
    fragments = kept ++ dropped ∧ blanks = kept.flatMap Fragment.blanks := by
  induction fragments generalizing blanks kept with
  | nil =>
      cases blanks with
      | nil =>
          cases h
          exact ⟨rfl, rfl⟩
      | cons blank blanks => cases h
  | cons fragment fragments ih =>
      cases blanks with
      | nil =>
          cases h
          exact ⟨rfl, rfl⟩
      | cons blank blanks =>
          simp only [spell] at h
          split at h
          · cases h
          · rename_i rest hafter
            obtain ⟨⟨kept', dropped'⟩, hspell, h⟩ := bind_eq_ok_iff.mp h
            cases h
            obtain ⟨rfl, rfl⟩ := ih hspell
            exact ⟨rfl, after?_eq_some_iff.mp hafter⟩

theorem spell_append {kept : List Fragment} (hne : ∀ fragment ∈ kept, fragment.blanks ≠ [])
    (dropped : List Fragment) :
    spell (kept ++ dropped) (kept.flatMap Fragment.blanks) = .ok (kept, dropped) := by
  induction kept with
  | nil => cases dropped <;> rfl
  | cons fragment kept ih =>
      obtain ⟨hfragment, hkept⟩ := List.forall_mem_cons.mp hne
      have hafter : after? fragment.blanks
          (fragment.blanks ++ kept.flatMap Fragment.blanks) =
            some (kept.flatMap Fragment.blanks) := after?_eq_some_iff.mpr rfl
      obtain ⟨blank, blanks, hblanks⟩ := List.exists_cons_of_ne_nil hfragment
      rw [List.flatMap_cons, List.cons_append]
      -- the blanks have to be seen to go on before the reader looks at the fragment
      rw [hblanks, List.cons_append] at hafter ⊢
      rw [spell, hblanks, hafter]
      · simp [ih hkept, bind, Except.bind]
      · simp

theorem pending_track (ind : Indentation) (blanks : List Char) :
    (ind.track blanks).2.pending = none := by
  unfold track
  dsimp only
  split <;> rfl

/-- The levels of the indentation are the blocks around the line read last, and the block whose
    first line is due is the same. -/
structure Tracks (ind : Indentation) (blocks : List OpenBlock) (due : Option OpenBlock) : Prop where
  openers : blocks.map OpenBlock.kind = (ind.fragments.map Fragment.opener).reverse
  pending : ind.pending = due.map OpenBlock.kind

/-- The first line of a block is one level deeper. -/
theorem track_of_pending {ind tracked : Indentation} {kind : BlockKind} {blanks : List Char}
    {placement : Placement} (hpending : ind.pending = some kind)
    (h : ind.track blanks = (.ok placement, tracked)) :
    placement = ⟨ind.fragments.length + 1, []⟩ ∧ tracked.pending = none ∧
      tracked.fragments.map Fragment.opener = ind.fragments.map Fragment.opener ++ [kind] := by
  simp only [track, hpending, enter] at h
  split at h
  · rename_i placement' fragments haccepted
    split at haccepted
    · cases haccepted
    · cases haccepted
    · cases haccepted
      cases h
      simp
  · cases h

/-- Any other line keeps the outer levels. -/
theorem track_of_not_pending {ind tracked : Indentation} {blanks : List Char}
    {placement : Placement} (hpending : ind.pending = none)
    (h : ind.track blanks = (.ok placement, tracked)) :
    ∃ kept dropped, ind.fragments = kept ++ dropped ∧
      placement = ⟨kept.length, dropped.reverse.map Fragment.opener⟩ ∧
      tracked = ⟨kept, none⟩ := by
  simp only [track, hpending] at h
  split at h
  · rename_i placement' fragments haccepted
    obtain ⟨⟨kept, dropped⟩, hspell, haccepted⟩ := bind_eq_ok_iff.mp haccepted
    cases haccepted
    cases h
    exact ⟨fragments, dropped, (split_of_spell hspell).1, rfl, rfl⟩
  · cases h

end Indentation

open Indentation

theorem CodeLine.opens?_of_isElse {line : CodeLine} (h : line.isElse = true) :
    line.statement.opens? = some .elseBlock := by
  rw [Statement.opens?, CodeLine.isElse_iff.mp h]

/-- A line that is placed has the level of its place, and is an `else` only where an `if` ended. -/
theorem line_of_readPlaced {names : Names} {placement : Placement} {c : Cursor} {line : Line}
    (h : readPlaced names placement c = .ok line) :
    ∃ statement, line = .code placement.level statement ∧ statement.action.WellFormed names ∧
      statement.opens? = c.opener? ∧ (c.opener? = some .elseBlock → placement.closedIf = true) := by
  unfold readPlaced at h
  split at h
  · cases h
  · rename_i helse
    obtain ⟨statement, hstatement, h⟩ := bind_eq_ok_iff.mp h
    cases h
    obtain ⟨hwell, hopens⟩ := wellFormed_of_readStatement hstatement
    refine ⟨statement, rfl, hwell, hopens, ?_⟩
    intro hopener
    simpa [hopener] using helse

/-- A line that is read nests properly in front of whatever nests properly behind it. -/
theorem nested_of_readCodeLine {names : Names} {ind ind' : Indentation} {number : Nat}
    {text : List Char} {line : Line} {blocks : List OpenBlock} {due : Option OpenBlock}
    (h : readCodeLine names ind number text = (.ok line, ind')) (htracks : ind.Tracks blocks due)
    (index : Nat) :
    ∃ depth statement around, line = .code depth statement ∧
      statement.action.WellFormed names ∧
      ind'.Tracks around (CodeLine.mk index depth statement).block? ∧
      ∀ rest, Nested around (CodeLine.mk index depth statement).block? rest →
        Nested blocks due (⟨index, depth, statement⟩ :: rest) := by
  simp only [readCodeLine] at h
  split at h
  · cases h
  · rename_i placement tracked htrack
    rw [Prod.mk.injEq] at h
    obtain ⟨hplaced, hopened⟩ := h
    obtain ⟨statement, rfl, hwell, hopens, helse⟩ := line_of_readPlaced hplaced
    -- whatever the tracker did before, the block due afterwards is the one that the line opens
    have hpending : tracked.pending = none → ind'.pending = statement.opens? := by
      intro hnone
      rw [← hopened, hopens]
      split
      · rename_i kind hopener
        rw [hopener]
        rfl
      · rename_i hopener
        rw [hopener, hnone]
    have hfragments : ind'.fragments = tracked.fragments := by
      rw [← hopened]
      split <;> rfl
    have hblock : (CodeLine.mk index placement.level statement).block?.map OpenBlock.kind =
        statement.opens? := by
      simp [CodeLine.block?, Function.comp_def]
    have hleaves : (CodeLine.mk index placement.level statement).isElse = true →
        placement.closed.getLast? = some .ifBlock := by
      intro hisElse
      have hopener := CodeLine.opens?_of_isElse hisElse
      simpa [Placement.closedIf] using helse (hopens ▸ hopener)
    cases due with
    | some block =>
        obtain ⟨hplacement, hnone, hopeners⟩ := track_of_pending htracks.pending htrack
        refine ⟨placement.level, statement, block :: blocks, rfl, hwell, ⟨?_, ?_⟩, ?_⟩
        · rw [hfragments, hopeners, List.map_cons, htracks.openers]
          simp
        · rw [hpending hnone, hblock]
        · intro rest hrest
          refine .enter ?_ ?_ hrest
          · have hlength := congrArg List.length htracks.openers
            simp only [List.length_map, List.length_reverse] at hlength
            rw [hplacement, hlength]
          · cases hisElse : (CodeLine.mk index placement.level statement).isElse with
            | false => rfl
            | true => simpa [hplacement] using hleaves hisElse
    | none =>
        obtain ⟨kept, dropped, hsplit, hplacement, rfl⟩ :=
          track_of_not_pending htracks.pending htrack
        have hopeners := htracks.openers
        rw [hsplit, List.map_append, List.reverse_append, List.map_eq_append_iff] at hopeners
        obtain ⟨closedBlocks, keptBlocks, hblocks, hclosed, hkept⟩ := hopeners
        refine ⟨placement.level, statement, keptBlocks, rfl, hwell, ⟨?_, ?_⟩, ?_⟩
        · rw [hfragments, hkept]
        · rw [hpending rfl, hblock]
        · intro rest hrest
          refine .stay hblocks ?_ ?_ hrest
          · have hlength := congrArg List.length hkept
            simp only [List.length_map, List.length_reverse] at hlength
            rw [hplacement, hlength]
          · intro hisElse
            have hlast := hleaves hisElse
            rw [hplacement, List.map_reverse, ← hclosed, List.getLast?_map,
              Option.map_eq_some_iff] at hlast
            exact hlast

/-- If nothing is wrong with the lines of a text segment, they nest properly and their statements
    make sense. A block can only be due where the header is remembered that it is due after. -/
theorem nested_of_readTextLines {names : Names} {ind : Indentation} {header? : Option Span}
    {lines : List SourceLine} {read : List Line} {blocks : List OpenBlock} {due : Option OpenBlock}
    (h : readTextLines names ind header? lines = (read, [])) (htracks : ind.Tracks blocks due)
    (hheader : ind.pending.isSome = true → header?.isSome = true) (start : Nat) :
    Nested blocks due (codeFrom start read) ∧
      ∀ line ∈ codeFrom start read, line.statement.action.WellFormed names := by
  induction lines generalizing ind header? read blocks due start with
  | nil =>
      simp only [readTextLines, Prod.mk.injEq] at h
      obtain ⟨rfl, hmissing⟩ := h
      have hnone : due = none := by
        cases due with
        | none => rfl
        | some block =>
            have hpending := htracks.pending
            obtain ⟨span, hspan⟩ := Option.isSome_iff_exists.mp (hheader (by simp [hpending]))
            simp [missingBlock?, hpending, hspan] at hmissing
      subst hnone
      exact ⟨.done, by simp⟩
  | cons line lines ih =>
      simp only [readTextLines] at h
      split at h
      · rw [Prod.mk.injEq] at h
        obtain ⟨rfl, hfindings⟩ := h
        rw [codeFrom_silent]
        exact ih (Prod.ext rfl hfindings) htracks hheader (start + 1)
      · split at h
        · rename_i code hresult
          rw [Prod.mk.injEq] at h
          obtain ⟨rfl, hfindings⟩ := h
          obtain ⟨depth, statement, around, rfl, hwell, htracks', hnested⟩ :=
            nested_of_readCodeLine (Prod.ext hresult rfl) htracks start
          obtain ⟨hrest, hall⟩ := ih (Prod.ext rfl hfindings) htracks' (by
            intro hpending
            rw [if_pos hpending]
            rfl) (start + 1)
          rw [codeFrom_code]
          refine ⟨hnested _ hrest, ?_⟩
          intro line' hline'
          rcases List.mem_cons.mp hline' with rfl | hline'
          · exact hwell
          · exact hall line' hline'
        · cases h

end TapePuzzle
