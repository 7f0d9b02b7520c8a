import TapePuzzle.Proofs.Grammar.Trees

/-!
# Grouping by precedence

An equation is read as a run of operators and then grouped into a tree at the last of its weakest
operators. The operands of a run may be equations with operators of their own, in parentheses, so
`OperatorTree` keeps apart which operators were grouped and which were there before. Main statement:
of all ways to group a run there is one in which weaker operators stand above stronger ones and
equal operators group to the left, and both `shape` and precedence climbing find it.
-/

namespace TapePuzzle

/-- A way to group a run: its operands as they are, and the operators that join them. -/
inductive OperatorTree where
  | operand (e : Expr)
  | join (left : OperatorTree) (op : BinaryOp) (right : OperatorTree)
  deriving DecidableEq, Repr

/-- The equation that joins two operands and spans both. -/
def Expr.joined (left : Expr) (op : BinaryOp) (right : Expr) : Expr :=
  .binary left op right (left.span.merge right.span)

namespace OperatorTree

/-- The equation that is grouped in this way. -/
def toExpr : OperatorTree → Expr
  | operand e => e
  | join left op right => left.toExpr.joined op right.toExpr

/-- The operands and the operators from left to right. -/
def inOrder : OperatorTree → Expr × OperatorRun
  | operand e => (e, [])
  | join left op right =>
      (left.inOrder.1, left.inOrder.2 ++ (op, right.inOrder.1) :: right.inOrder.2)

/-- The operator that was joined last. -/
def root? : OperatorTree → Option BinaryOp
  | operand _ => none
  | join _ op _ => some op

/-- To the left of every operator the next one binds as tightly or more tightly, and to the right
    more tightly. -/
def Ordered : OperatorTree → Prop
  | operand _ => True
  | join left op right =>
      (∀ root ∈ left.root?, op.precedence ≤ root.precedence) ∧
        (∀ root ∈ right.root?, op.precedence < root.precedence) ∧ left.Ordered ∧ right.Ordered

variable {t t' : OperatorTree} {least : Nat}

theorem exists_mem_of_root? {op : BinaryOp} (h : op ∈ t.root?) :
    ∃ operand, (op, operand) ∈ t.inOrder.2 := by
  cases t with
  | operand e => cases h
  | join left root right =>
      cases h
      exact ⟨right.inOrder.1, by simp [inOrder]⟩

/-- No operator of an ordered tree binds less tightly than its root. -/
theorem Ordered.least_le (h : t.Ordered) (hroot : ∀ root ∈ t.root?, least ≤ root.precedence) :
    ∀ entry ∈ t.inOrder.2, least ≤ entry.1.precedence := by
  induction t generalizing least with
  | operand e => simp [inOrder]
  | join left op right ihLeft ihRight =>
      obtain ⟨hleft, hright, hleftOrdered, hrightOrdered⟩ := h
      have hop : least ≤ op.precedence := hroot op rfl
      intro entry hentry
      rcases List.mem_append.mp hentry with hbefore | hbehind
      · apply ihLeft hleftOrdered _ entry hbefore
        intro root hmem
        exact Nat.le_trans hop (hleft root hmem)
      · rcases List.mem_cons.mp hbehind with rfl | hbehind
        · exact hop
        · apply ihRight hrightOrdered _ entry hbehind
          intro root hmem
          exact Nat.le_trans hop (Nat.le_of_lt (hright root hmem))

/-- A run is grouped in one ordered way. -/
theorem Ordered.eq_of_inOrder (h : t.Ordered) (h' : t'.Ordered) (heq : t.inOrder = t'.inOrder) :
    t = t' := by
  induction t generalizing t' with
  | operand e =>
      cases t' with
      | operand e' => rw [(Prod.mk.inj heq).1]
      | join left op right => simp [inOrder] at heq
  | join left op right ihLeft ihRight =>
      cases t' with
      | operand e => simp [inOrder] at heq
      | join left' op' right' =>
          obtain ⟨hleft, hright, hleftOrdered, hrightOrdered⟩ := h
          obtain ⟨hleft', hright', hleftOrdered', hrightOrdered'⟩ := h'
          obtain ⟨hfirst, hrun⟩ := Prod.mk.inj heq
          obtain ⟨hbefore, hentry, hbehind⟩ := Grouping.cut_unique hrun
            (hleftOrdered.least_le hleft) (hrightOrdered.least_le hright)
            (hleftOrdered'.least_le hleft') (hrightOrdered'.least_le hright')
          obtain ⟨rfl, hsecond⟩ := Prod.mk.inj hentry
          rw [ihLeft hleftOrdered hleftOrdered' (Prod.ext hfirst hbefore),
            ihRight hrightOrdered hrightOrdered' (Prod.ext hsecond hbehind)]

end OperatorTree

/-! ## Splitting at the weakest operator -/

/-- The shape of a run is an ordered way to group it. -/
theorem exists_ordered_shapeWithin (size : Nat) (first : Expr) (run : OperatorRun)
    (hsize : run.length ≤ size) :
    ∃ t : OperatorTree, t.Ordered ∧ t.inOrder = (first, run) ∧
      t.toExpr = shapeWithin size first run := by
  induction size generalizing first run with
  | zero =>
      obtain rfl := List.length_eq_zero_iff.mp (Nat.le_zero.mp hsize)
      exact ⟨.operand first, trivial, rfl, rfl⟩
  | succ size ih =>
      cases run with
      | nil => exact ⟨.operand first, trivial, rfl, rfl⟩
      | cons entry run =>
          obtain ⟨before, ⟨op, operand⟩, behind, hsplit⟩ := splitWeakest?_cons entry run
          obtain ⟨hbefore, hbehind⟩ := precedence_of_splitWeakest? hsplit
          have happend := append_of_splitWeakest? hsplit
          rw [shapeWithin, hsplit]
          rw [← happend] at hsize ⊢
          simp only [List.length_append, List.length_cons] at hsize
          obtain ⟨left, hleft, hleftOrder, hleftExpr⟩ := ih first before (by omega)
          obtain ⟨right, hright, hrightOrder, hrightExpr⟩ := ih operand behind (by omega)
          refine ⟨.join left op right, ⟨?_, ?_, hleft, hright⟩, ?_, ?_⟩
          · intro root hroot
            obtain ⟨e, hmem⟩ := OperatorTree.exists_mem_of_root? hroot
            rw [hleftOrder] at hmem
            exact hbefore _ hmem
          · intro root hroot
            obtain ⟨e, hmem⟩ := OperatorTree.exists_mem_of_root? hroot
            rw [hrightOrder] at hmem
            exact hbehind _ hmem
          · rw [OperatorTree.inOrder, hleftOrder, hrightOrder]
          · rw [OperatorTree.toExpr, hleftExpr, hrightExpr]
            rfl

/-! ## Precedence climbing -/

/-- Reads a run from left to right, with `left` as the operand in front of it. It goes on for as
    long as operators bind at least as tightly as `least`; the right operand of an operator takes
    those that bind more tightly than it. What is left of the run is returned with the equation. -/
def climb (least : Nat) (left : Expr) (run : OperatorRun) :
    Expr × { rest : OperatorRun // rest.length ≤ run.length } :=
  match run with
  | [] => (left, ⟨[], Nat.le_refl _⟩)
  | (op, operand) :: behind =>
      if op.precedence < least then (left, ⟨(op, operand) :: behind, Nat.le_refl _⟩)
      else
        let right := climb (op.precedence + 1) operand behind
        let whole := climb least (left.joined op right.1) right.2.val
        (whole.1, ⟨whole.2.val,
          Nat.le_succ_of_le (Nat.le_trans whole.2.property right.2.property)⟩)
termination_by run.length
decreasing_by
  · simp
  · exact Nat.lt_succ_of_le right.2.property

/-- Climbing from the tree `t` ends in the tree `t'` and leaves `rest` of the run. -/
structure Climbs (least : Nat) (t : OperatorTree) (run : OperatorRun) (t' : OperatorTree)
    (rest : OperatorRun) : Prop where
  ordered : t'.Ordered
  root : ∀ root ∈ t'.root?, least ≤ root.precedence
  inOrder : ∃ taken, run = taken ++ rest ∧ t'.inOrder = (t.inOrder.1, t.inOrder.2 ++ taken)
  stop : ∀ entry ∈ rest.head?, entry.1.precedence < least

theorem Climbs.refl {least : Nat} {t : OperatorTree} {run : OperatorRun} (ht : t.Ordered)
    (hroot : ∀ root ∈ t.root?, least ≤ root.precedence)
    (hstop : ∀ entry ∈ run.head?, entry.1.precedence < least) : Climbs least t run t run :=
  ⟨ht, hroot, ⟨[], rfl, by simp⟩, hstop⟩

/-- An operator and its right operand are joined to the tree before climbing goes on. -/
theorem Climbs.join {least : Nat} {t right whole : OperatorTree} {op : BinaryOp} {operand : Expr}
    {behind rest last : OperatorRun}
    (hright : Climbs (op.precedence + 1) (.operand operand) behind right rest)
    (hwhole : Climbs least (.join t op right) rest whole last) :
    Climbs least t ((op, operand) :: behind) whole last := by
  obtain ⟨taken, hbehind, hrightOrder⟩ := hright.inOrder
  obtain ⟨more, hrest, hwholeOrder⟩ := hwhole.inOrder
  refine ⟨hwhole.ordered, hwhole.root, ⟨(op, operand) :: (taken ++ more), ?_, ?_⟩, hwhole.stop⟩
  · rw [hbehind, hrest, List.cons_append, List.append_assoc]
  · rw [hwholeOrder, OperatorTree.inOrder, hrightOrder]
    simp [OperatorTree.inOrder]

/-- The right operand of an operator takes all that binds more tightly, so that the operator met
    next never binds more tightly than the one joined last. -/
theorem exists_climbs (least : Nat) (left : Expr) (run : OperatorRun) (t : OperatorTree)
    (hleft : left = t.toExpr) (ht : t.Ordered)
    (hroot : ∀ root ∈ t.root?, least ≤ root.precedence)
    (hnext : ∀ root ∈ t.root?, ∀ entry ∈ run.head?, entry.1.precedence ≤ root.precedence) :
    ∃ t', (climb least left run).1 = t'.toExpr ∧
      Climbs least t run t' (climb least left run).2.val := by
  fun_induction climb least left run generalizing t with
  | case1 least left => exact ⟨t, hleft, .refl ht hroot (by simp)⟩
  | case2 least left op operand behind hop =>
      exact ⟨t, hleft, .refl ht hroot (by simpa using hop)⟩
  | case3 least left op operand behind hop right whole ihRight ihWhole =>
      obtain ⟨tree, htree, hright⟩ := ihRight (.operand operand) rfl trivial
        (by simp [OperatorTree.root?]) (by simp [OperatorTree.root?])
      have hjoined : (OperatorTree.join t op tree).Ordered := by
        refine ⟨?_, hright.root, ht, hright.ordered⟩
        intro root hmem
        exact hnext root hmem (op, operand) rfl
      obtain ⟨t', ht', hwhole⟩ := ihWhole (.join t op tree) (by rw [hleft, htree]; rfl) hjoined
        (by simpa [OperatorTree.root?] using hop)
        (by
          rintro root ⟨⟩ entry hentry
          exact Nat.le_of_lt_succ (hright.stop entry hentry))
      exact ⟨t', ht', hright.join hwhole⟩

/-- Climbing from the lowest precedence reads the whole run. -/
theorem exists_ordered_climb (first : Expr) (run : OperatorRun) :
    ∃ t : OperatorTree, t.Ordered ∧ t.inOrder = (first, run) ∧
      t.toExpr = (climb 0 first run).1 ∧ (climb 0 first run).2.val = [] := by
  obtain ⟨t, hexpr, hclimbs⟩ := exists_climbs 0 first run (.operand first) rfl trivial (by simp)
    (by simp [OperatorTree.root?])
  have hdone : (climb 0 first run).2.val = [] := by
    rw [← List.head?_eq_none_iff, Option.eq_none_iff_forall_not_mem]
    intro entry hentry
    exact Nat.not_lt_zero _ (hclimbs.stop entry hentry)
  obtain ⟨taken, hrun, horder⟩ := hclimbs.inOrder
  rw [hdone, List.append_nil] at hrun
  refine ⟨t, hclimbs.ordered, ?_, hexpr.symm, hdone⟩
  rw [horder, hrun]
  rfl

/-- A run has one ordered way to group it, and this is its shape. Climbing from the lowest of the
    precedences reads the whole run into the same equation. -/
theorem shape_is_the_ordered_tree (first : Expr) (run : OperatorRun) :
    ∃ t : OperatorTree, (∀ t', t'.inOrder = (first, run) ∧ t'.Ordered ↔ t' = t) ∧
      shape first run = t.toExpr ∧ (climb 0 first run).1 = shape first run ∧
      (climb 0 first run).2.val = [] := by
  obtain ⟨t, hordered, horder, hshape⟩ :=
    exists_ordered_shapeWithin run.length first run (Nat.le_refl _)
  obtain ⟨climbed, hclimbedOrdered, hclimbedOrder, hclimb, hdone⟩ := exists_ordered_climb first run
  have hunique : ∀ t' : OperatorTree, t'.inOrder = (first, run) ∧ t'.Ordered ↔ t' = t := by
    intro t'
    constructor
    · rintro ⟨horder', hordered'⟩
      exact hordered'.eq_of_inOrder hordered (horder'.trans horder.symm)
    · rintro rfl
      exact ⟨horder, hordered⟩
  have hsame : climbed = t := (hunique climbed).mp ⟨hclimbedOrder, hclimbedOrdered⟩
  refine ⟨t, hunique, hshape.symm, ?_, hdone⟩
  rw [← hclimb, hsame]
  exact hshape

/-- Products are grouped before differences, and differences from the left. -/
example (a b c d : Expr) :
    shape a [(.subtract, b), (.subtract, c), (.multiply, d)] =
      (a.joined .subtract b).joined .subtract (c.joined .multiply d) := rfl

/-- There are five levels, and each of them is weaker than the next. -/
example (a b c d e f : Expr) :
    shape a [(.or, b), (.and, c), (.equal, d), (.add, e), (.multiply, f)] =
      a.joined .or (b.joined .and (c.joined .equal (d.joined .add (e.joined .multiply f)))) := rfl

end TapePuzzle
