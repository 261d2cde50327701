import Mathlib.Data.List.Basic

/-! Comparisons that may fail, and the comparison of sequences that they give: the first position with a
difference decides, and the length where there is none. The laws of an order hold of the results there
are. -/
namespace MmRegression

structure Comparison (α : Type) where
  cmp : α → α → Option Ordering
  same : ∀ x y, cmp x y = some .eq ↔ x = y
  swap : ∀ x y, cmp y x = (cmp x y).map Ordering.swap
  trans : ∀ x y z, cmp x y = some .gt → cmp y z = some .gt → cmp x z = some .gt

def lexCompare {α : Type} (cmp : α → α → Option Ordering) : List α → List α → Option Ordering
  | [],[] => some .eq
  | [],_::_ => some .lt
  | _::_,[] => some .gt
  | x::xs,y::ys => if cmp x y = some .eq then lexCompare cmp xs ys else cmp x y

section Lexicographic

variable {α : Type} (c : Comparison α)

theorem lexSame (xs ys : List α) : lexCompare c.cmp xs ys = some .eq ↔ xs = ys := by
  induction xs generalizing ys with
  | nil => cases ys <;> simp [lexCompare]
  | cons x xs ih =>
    cases ys with
    | nil => simp [lexCompare]
    | cons y ys =>
      rw [lexCompare,List.cons.injEq,← c.same]
      split
      · rw [ih]
        exact (and_iff_right ‹_›).symm
      · exact iff_of_false ‹_› (fun both => absurd both.1 ‹_›)

theorem lexSwap (xs ys : List α) : lexCompare c.cmp ys xs = (lexCompare c.cmp xs ys).map Ordering.swap := by
  induction xs generalizing ys with
  | nil => cases ys <;> rfl
  | cons x xs ih =>
    cases ys with
    | nil => rfl
    | cons y ys =>
      have equal : c.cmp y x = some .eq ↔ c.cmp x y = some .eq := by rw [c.same,c.same,eq_comm]
      rw [lexCompare,lexCompare]
      split
      · rw [if_pos (equal.mp ‹_›),ih]
      · rw [if_neg (mt equal.mpr ‹_›),c.swap x y]

theorem lexTrans (xs ys zs : List α) (first : lexCompare c.cmp xs ys = some .gt)
    (second : lexCompare c.cmp ys zs = some .gt) : lexCompare c.cmp xs zs = some .gt := by
  induction xs generalizing ys zs with
  | nil => cases ys <;> cases first
  | cons x xs ih =>
    cases zs with
    | nil => rfl
    | cons z zs =>
      cases ys with
      | nil => cases second
      | cons y ys =>
        rw [lexCompare] at first second ⊢
        split at first
        · rename_i left
          cases (c.same x y).mp left
          split at second
          · rename_i right
            rw [if_pos right]
            exact ih ys zs first second
          · rwa [if_neg ‹_›]
        · rename_i left
          split at second
          · rename_i right
            cases (c.same y z).mp right
            rwa [if_neg left]
          · have whole := c.trans x y z first second
            rw [if_neg (by rw [whole]; decide)]
            exact whole

def Comparison.lexicographic : Comparison (List α) where
  cmp := lexCompare c.cmp
  same := lexSame c
  swap := lexSwap c
  trans := lexTrans c

/- A comparison of sequences fails where the comparison of the first members that differ does. -/
theorem lexFails {xs ys : List α} : lexCompare c.cmp xs ys = none ↔
    ∃ front x y xs' ys', xs = front ++ x::xs' ∧ ys = front ++ y::ys' ∧ c.cmp x y = none := by
  induction xs generalizing ys with
  | nil => cases ys <;> simp [lexCompare]
  | cons x xs ih =>
    cases ys with
    | nil => simp [lexCompare]
    | cons y ys =>
      rw [lexCompare]
      constructor
      · intro fails
        split at fails
        · rename_i equal
          cases (c.same x y).mp equal
          obtain ⟨front,u,v,us,vs,left,right,wrong⟩ := ih.mp fails
          exact ⟨x::front,u,v,us,vs,by rw [left,List.cons_append],by rw [right,List.cons_append],wrong⟩
        · exact ⟨[],x,y,xs,ys,rfl,rfl,fails⟩
      · intro fails
        obtain ⟨front,u,v,us,vs,left,right,wrong⟩ := fails
        cases front with
        | nil =>
          obtain ⟨rfl,-⟩ := List.cons.inj left
          obtain ⟨rfl,-⟩ := List.cons.inj right
          rw [if_neg (by rw [wrong]; decide)]
          exact wrong
        | cons w front =>
          obtain ⟨head,left⟩ := List.cons.inj left
          obtain ⟨other,right⟩ := List.cons.inj right
          rw [if_pos ((c.same x y).mpr (head.trans other.symm))]
          exact ih.mpr ⟨front,u,v,us,vs,left,right,wrong⟩

end Lexicographic

end MmRegression
