import TapePuzzle.Proofs.Reading.TextLines

/-!
# Levels of indentation over a whole text

Between two lines, an indentation is a list of fragments, one for each level, and perhaps a block
whose first line is due. Main statement: after any requests, in any order, it is the fragments that
decide about the next line, by the texts which they make up one after the other.
-/

namespace TapePuzzle

namespace Indentation

variable {ind tracked : Indentation} {fragments kept : List Fragment} {kind : BlockKind}
variable {blanks : List Char} {placement : Placement} {issue : IndentIssue}

/-! ## One line -/

/-- The first line of a block has the blanks of the current level and more. -/
theorem enter_eq_ok_iff :
    enter fragments kind blanks = .ok (placement, kept) ↔
      ∃ extra, extra ≠ [] ∧ blanks = fragments.flatMap Fragment.blanks ++ extra ∧
        placement = ⟨fragments.length + 1, []⟩ ∧ kept = fragments ++ [⟨extra, kind⟩] := by
  unfold enter
  constructor
  · intro h
    split at h
    · cases h
    · cases h
    · rename_i extra hne hafter
      cases h
      exact ⟨extra, hne, after?_eq_some_iff.mp hafter, rfl, rfl⟩
  · rintro ⟨extra, hne, rfl, rfl, rfl⟩
    rw [after?_eq_some_iff.mpr rfl]
    cases extra with
    | nil => exact absurd rfl hne
    | cons blank more => rfl

theorem enter_eq_expectedIncrease_iff :
    enter fragments kind blanks = .error .expectedIncrease ↔
      blanks = fragments.flatMap Fragment.blanks := by
  unfold enter
  constructor
  · intro h
    split at h
    · cases h
    · rename_i hafter
      simpa using after?_eq_some_iff.mp hafter
    · cases h
  · rintro rfl
    have hafter : after? (fragments.flatMap Fragment.blanks) (fragments.flatMap Fragment.blanks) =
        some [] := after?_eq_some_iff.mpr (List.append_nil _).symm
    rw [hafter]

/-- Any other line has the blanks of a level that is open. Since no fragment is empty, different
    levels have different blanks. -/
theorem stay_eq_ok_iff (hne : ∀ fragment ∈ fragments, fragment.blanks ≠ []) :
    stay fragments blanks = .ok (placement, kept) ↔
      ∃ dropped, fragments = kept ++ dropped ∧ blanks = kept.flatMap Fragment.blanks ∧
        placement = ⟨kept.length, dropped.reverse.map Fragment.opener⟩ := by
  rw [stay, bind_eq_ok_iff]
  constructor
  · rintro ⟨⟨spelled, dropped⟩, hspell, h⟩
    cases h
    obtain ⟨hfragments, hblanks⟩ := split_of_spell hspell
    exact ⟨dropped, hfragments, hblanks, rfl⟩
  · rintro ⟨dropped, rfl, rfl, rfl⟩
    have hkept : ∀ fragment ∈ kept, fragment.blanks ≠ [] :=
      fun fragment hmem => hne fragment (List.mem_append_left dropped hmem)
    exact ⟨(kept, dropped), spell_append hkept dropped, rfl⟩

/-- What becomes of the fragments, and where the line stands. -/
def answer (ind : Indentation) (blanks : List Char) :
    Except IndentIssue (Placement × List Fragment) :=
  match ind.pending with
  | some kind => enter ind.fragments kind blanks
  | none => stay ind.fragments blanks

theorem track_eq_answer (ind : Indentation) (blanks : List Char) :
    ind.track blanks =
      match ind.answer blanks with
      | .ok (placement, fragments) => (.ok placement, ⟨fragments, none⟩)
      | .error issue => (.error issue, ⟨ind.fragments, none⟩) := rfl

theorem track_eq_ok_iff :
    ind.track blanks = (.ok placement, tracked) ↔
      ind.answer blanks = .ok (placement, tracked.fragments) ∧ tracked.pending = none := by
  rw [track_eq_answer]
  cases ind.answer blanks with
  | error issue => simp
  | ok accepted =>
      obtain ⟨fragments, pending⟩ := tracked
      simp [Prod.ext_iff, eq_comm, and_assoc]

theorem track_eq_error_iff :
    ind.track blanks = (.error issue, tracked) ↔
      ind.answer blanks = .error issue ∧ tracked = ⟨ind.fragments, none⟩ := by
  rw [track_eq_answer]
  cases ind.answer blanks with
  | error found => simp [eq_comm]
  | ok accepted => simp

theorem track_eq_ok_iff_of_due (h : ind.pending = some kind) :
    ind.track blanks = (.ok placement, tracked) ↔
      ∃ extra, extra ≠ [] ∧ blanks = ind.blanks ++ extra ∧ placement = ⟨ind.level + 1, []⟩ ∧
        tracked = ⟨ind.fragments ++ [⟨extra, kind⟩], none⟩ := by
  obtain ⟨fragments, pending⟩ := tracked
  simp only [track_eq_ok_iff, answer, h, enter_eq_ok_iff]
  constructor
  · rintro ⟨⟨extra, hextra, hblanks, hplacement, rfl⟩, rfl⟩
    exact ⟨extra, hextra, hblanks, hplacement, rfl⟩
  · rintro ⟨extra, hextra, hblanks, hplacement, ⟨⟩⟩
    exact ⟨⟨extra, hextra, hblanks, hplacement, rfl⟩, rfl⟩

/-- Every level is deeper than the one around it. -/
def Deepens (ind : Indentation) : Prop := ∀ fragment ∈ ind.fragments, fragment.blanks ≠ []

theorem Deepens.track_eq_ok_iff_of_none (hdeep : ind.Deepens) (h : ind.pending = none) :
    ind.track blanks = (.ok placement, tracked) ↔
      ∃ kept dropped, ind.fragments = kept ++ dropped ∧ blanks = kept.flatMap Fragment.blanks ∧
        placement = ⟨kept.length, dropped.reverse.map Fragment.opener⟩ ∧
        tracked = ⟨kept, none⟩ := by
  obtain ⟨fragments, pending⟩ := tracked
  simp only [track_eq_ok_iff, answer, h, stay_eq_ok_iff hdeep]
  constructor
  · rintro ⟨⟨dropped, hfragments, hblanks, hplacement⟩, rfl⟩
    exact ⟨fragments, dropped, hfragments, hblanks, hplacement, rfl⟩
  · rintro ⟨kept, dropped, hfragments, hblanks, hplacement, ⟨⟩⟩
    exact ⟨⟨dropped, hfragments, hblanks, hplacement⟩, rfl⟩

theorem track_eq_expectedIncrease_iff (h : ind.pending = some kind) :
    (ind.track blanks).1 = .error .expectedIncrease ↔ blanks = ind.blanks := by
  have hanswer : (ind.track blanks).1 = .error .expectedIncrease ↔
      ind.answer blanks = .error .expectedIncrease := by
    rw [track_eq_answer]
    cases ind.answer blanks <;> simp
  rw [hanswer, answer, h]
  exact enter_eq_expectedIncrease_iff

/-- An accepted line leaves the levels whose blanks it has. The block that it ends last is that of
    the first level left. -/
theorem Deepens.placement_of_track (hdeep : ind.Deepens)
    (h : ind.track blanks = (.ok placement, tracked)) :
    tracked.Deepens ∧ tracked.blanks = blanks ∧ placement.level = tracked.level ∧
      placement.closed = (ind.fragments.drop tracked.level).reverse.map Fragment.opener := by
  cases hpending : ind.pending with
  | some kind =>
      obtain ⟨extra, hextra, rfl, rfl, rfl⟩ := (track_eq_ok_iff_of_due hpending).mp h
      have hdeepens : Deepens ⟨ind.fragments ++ [⟨extra, kind⟩], none⟩ := by
        intro fragment hmem
        rcases List.mem_append.mp hmem with hold | hnew
        · exact hdeep fragment hold
        · rw [List.mem_singleton.mp hnew]
          exact hextra
      refine ⟨hdeepens, ?_, ?_, ?_⟩
      · simp [Indentation.blanks]
      · simp [level]
      · simp [level]
  | none =>
      obtain ⟨kept, dropped, hfragments, rfl, rfl, rfl⟩ :=
        (hdeep.track_eq_ok_iff_of_none hpending).mp h
      have hdeepens : Deepens ⟨kept, none⟩ := by
        intro fragment hmem
        exact hdeep fragment (hfragments ▸ List.mem_append_left dropped hmem)
      refine ⟨hdeepens, rfl, rfl, ?_⟩
      simp [level, hfragments]

/-! ## Any number of requests -/

/-- What an indentation can be asked for. -/
inductive Request where
  | expectBlock (kind : BlockKind)
  | track (blanks : List Char)
  deriving DecidableEq, Repr

/-- The indentation behind a request, whatever the answer is. -/
def obey (ind : Indentation) : Request → Indentation
  | .expectBlock kind => ind.expectBlock kind
  | .track blanks => (ind.track blanks).2

/-- The indentation behind some requests, made one after the other from the start of a text. -/
def after (requests : List Request) : Indentation := requests.foldl obey {}

theorem Deepens.obey (h : ind.Deepens) (request : Request) : (ind.obey request).Deepens := by
  cases request with
  | expectBlock kind => exact h
  | track blanks =>
      rcases htrack : ind.track blanks with ⟨issue | placement, tracked⟩
      · obtain ⟨-, rfl⟩ := track_eq_error_iff.mp htrack
        rw [Indentation.obey, htrack]
        exact h
      · rw [Indentation.obey, htrack]
        exact (h.placement_of_track htrack).1

theorem deepens_after (requests : List Request) : (after requests).Deepens := by
  have hrun : ∀ ind : Indentation, ind.Deepens → (requests.foldl Indentation.obey ind).Deepens := by
    induction requests with
    | nil => exact fun ind h => h
    | cons request requests ih => exact fun ind h => ih _ (h.obey request)
  exact hrun {} (by simp [Deepens])

/-- Whatever was asked for before, no level is empty, and the texts of the levels alone decide about
    a line. Where a block is due, its first line goes on after all of them, and what it goes on with
    is a new level; any other line has the text of some outer levels, and the others end. The text
    of an accepted line is that of the levels that remain, a refused line leaves them as they are,
    and nothing is due behind either. -/
theorem track_follows_levels (requests : List Request) (blanks : List Char) :
    let ind := after requests
    (∀ fragment ∈ ind.fragments, fragment.blanks ≠ []) ∧
    (∀ kind, ind.pending = some kind →
      (∀ placement tracked, ind.track blanks = (.ok placement, tracked) ↔
        ∃ extra, extra ≠ [] ∧ blanks = ind.blanks ++ extra ∧ placement = ⟨ind.level + 1, []⟩ ∧
          tracked = ⟨ind.fragments ++ [⟨extra, kind⟩], none⟩) ∧
      ((ind.track blanks).1 = .error .expectedIncrease ↔ blanks = ind.blanks)) ∧
    (ind.pending = none →
      ∀ placement tracked, ind.track blanks = (.ok placement, tracked) ↔
        ∃ kept dropped, ind.fragments = kept ++ dropped ∧ blanks = kept.flatMap Fragment.blanks ∧
          placement = ⟨kept.length, dropped.reverse.map Fragment.opener⟩ ∧
          tracked = ⟨kept, none⟩) ∧
    (∀ placement tracked, ind.track blanks = (.ok placement, tracked) →
      tracked.blanks = blanks ∧ placement.level = tracked.level ∧
        (placement.closedIf = true ↔
          ∃ outermost, (ind.fragments.drop tracked.level).head? = some outermost ∧
            outermost.opener = .ifBlock)) ∧
    (∀ issue tracked, ind.track blanks = (.error issue, tracked) →
      tracked.fragments = ind.fragments) ∧
    (ind.track blanks).2.pending = none := by
  intro ind
  have hdeep : ind.Deepens := deepens_after requests
  refine ⟨hdeep, ?_, ?_, ?_, ?_, ind.pending_track blanks⟩
  · intro kind hpending
    exact ⟨fun _ _ => track_eq_ok_iff_of_due hpending, track_eq_expectedIncrease_iff hpending⟩
  · intro hpending _ _
    exact hdeep.track_eq_ok_iff_of_none hpending
  · intro placement tracked htrack
    obtain ⟨-, hblanks, hlevel, hclosed⟩ := hdeep.placement_of_track htrack
    refine ⟨hblanks, hlevel, ?_⟩
    rw [Placement.closedIf, hclosed]
    simp
  · intro issue tracked htrack
    obtain ⟨-, rfl⟩ := track_eq_error_iff.mp htrack
    rfl

/-- A loop indented by a tab and a condition in it indented by two spaces more, with lines in
    between that are refused. -/
def tabThenSpaces : List Request :=
  [.track [' '], .expectBlock .whileBlock, .track ['\t'], .expectBlock .elseBlock, .track ['\t'],
    .expectBlock .ifBlock, .track ['\t', ' ', ' '], .track ['\t', ' ']]

/-- Back in the loop the condition has ended. If a block were due, a line as deep as before would be
    refused for it. -/
theorem track_follows_levels_tabThenSpaces :
    let ind := after tabThenSpaces
    let due := after (tabThenSpaces ++ [.expectBlock .elseBlock])
    ind.pending = none ∧ ind.fragments = [⟨['\t'], .whileBlock⟩, ⟨[' ', ' '], .ifBlock⟩] ∧
      (∃ placement tracked, ind.track ['\t'] = (.ok placement, tracked) ∧
        placement = ⟨1, [.ifBlock]⟩ ∧ placement.closedIf = true ∧ tracked.blanks = ['\t']) ∧
      due.pending = some .elseBlock ∧
      (due.track ['\t', ' ', ' ']).1 = .error .expectedIncrease := by
  intro ind due
  have hpending : ind.pending = none := by decide
  have hfragments : ind.fragments = [⟨['\t'], .whileBlock⟩, ⟨[' ', ' '], .ifBlock⟩] := by decide
  have hdue : due.pending = some .elseBlock := by decide
  obtain ⟨-, -, hstay, hplaced, -⟩ := track_follows_levels tabThenSpaces ['\t']
  obtain ⟨-, henter, -⟩ :=
    track_follows_levels (tabThenSpaces ++ [.expectBlock .elseBlock]) ['\t', ' ', ' ']
  refine ⟨hpending, hfragments, ?_, hdue, (henter _ hdue).2.mpr (by decide)⟩
  have htrack : ind.track ['\t'] = (.ok ⟨1, [.ifBlock]⟩, ⟨[⟨['\t'], .whileBlock⟩], none⟩) :=
    (hstay hpending _ _).mpr ⟨_, [⟨[' ', ' '], .ifBlock⟩], hfragments, rfl, rfl, rfl⟩
  obtain ⟨hblanks, -, hclosed⟩ := hplaced _ _ htrack
  refine ⟨_, _, htrack, rfl, hclosed.mpr ?_, hblanks⟩
  exact ⟨⟨[' ', ' '], .ifBlock⟩, by decide, rfl⟩

end Indentation

end TapePuzzle
