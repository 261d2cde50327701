import Mathlib.Data.List.Nodup
import Mathlib.Data.List.Perm.Subperm
import Mathlib.Logic.Relation

/-! A forest searched level by level. Nothing is marked: what keeps the search from meeting a node
twice is the shape of the forest. -/
namespace MmRegression.BreadthFirst

variable {α : Type}

/- The nodes under `level`, none where the fuel runs out. -/
def search (children : α → List α) : Nat → List α → Option (List α)
  | _, [] => some []
  | 0, _::_ => none
  | fuel+1, a::as => do
      let next := (a::as).flatMap children
      let rest ← search children fuel next
      some (next ++ rest)

def Child (children : α → List α) (p c : α) : Prop := c ∈ children p

structure Forest (children : α → List α) : Prop where
  single : ∀ {p q c}, c ∈ children p → c ∈ children q → p = q
  distinct : ∀ p, (children p).Nodup
  acyclic : ∀ p, ¬Relation.TransGen (Child children) p p

/- What the search has met: `done` is expanded, `level` is not. -/
structure Met (children : α → List α) (start : α) (done level : List α) : Prop where
  distinct : (done ++ level).Nodup
  under : ∀ c ∈ done ++ level, Relation.ReflTransGen (Child children) start c
  closed : ∀ p ∈ done, ∀ c ∈ children p, c ∈ done ++ level
  parent : ∀ c ∈ done ++ level, c = start ∨ ∃ p ∈ done, c ∈ children p ∧ [p,c].Sublist (done ++ level)

structure Subtree (children : α → List α) (start : α) (nodes : List α) : Prop where
  distinct : nodes.Nodup
  members : ∀ c, c ∈ nodes ↔ Relation.TransGen (Child children) start c
  ordered : ∀ p c, c ∈ nodes → c ∈ children p → p = start ∨ [p,c].Sublist nodes

variable {children : α → List α} {start : α} {done level : List α}

theorem metStart (children : α → List α) (start : α) : Met children start [] [start] where
  distinct := List.nodup_singleton start
  under := by
    intro c mem
    rw [List.nil_append,List.mem_singleton] at mem
    exact mem ▸ .refl
  closed := by simp
  parent := by
    intro c mem
    exact .inl (List.mem_singleton.mp mem)

theorem nextDistinct (forest : Forest children) (distinct : level.Nodup) : (level.flatMap children).Nodup := by
  refine List.nodup_flatMap.mpr ⟨fun p _ => forest.distinct p,distinct.imp ?_⟩
  intro p q different c left right
  exact different (forest.single left right)

/- A child of the level is new: its only parent has not been expanded, and the start has none here. -/
theorem nextFresh (forest : Forest children) (met : Met children start done level) {c : α}
    (old : c ∈ done ++ level) : c ∉ level.flatMap children := by
  intro new
  obtain ⟨q,mem,child⟩ := List.mem_flatMap.mp new
  rcases met.parent c old with rfl | ⟨p,expanded,other,-⟩
  · exact forest.acyclic c (.tail' (met.under q (List.mem_append_right done mem)) child)
  · have same := forest.single other child
    exact List.disjoint_of_nodup_append met.distinct (same ▸ expanded) mem

theorem metStep (forest : Forest children) (met : Met children start done level) :
    Met children start (done ++ level) (level.flatMap children) where
  distinct := by
    refine List.Nodup.append met.distinct (nextDistinct forest (List.Nodup.of_append_right met.distinct)) ?_
    intro c old new
    exact nextFresh forest met old new
  under := by
    intro c mem
    rcases List.mem_append.mp mem with old | new
    · exact met.under c old
    · obtain ⟨p,inside,child⟩ := List.mem_flatMap.mp new
      exact .tail (met.under p (List.mem_append_right done inside)) child
  closed := by
    intro p expanded c child
    rcases List.mem_append.mp expanded with old | new
    · exact List.mem_append_left _ (met.closed p old c child)
    · exact List.mem_append_right _ (List.mem_flatMap.mpr ⟨p,new,child⟩)
  parent := by
    intro c mem
    rcases List.mem_append.mp mem with old | new
    · rcases met.parent c old with same | ⟨p,expanded,child,before⟩
      · exact .inl same
      · exact .inr ⟨p,List.mem_append_left level expanded,child,before.trans (List.sublist_append_left _ _)⟩
    · obtain ⟨p,inside,child⟩ := List.mem_flatMap.mp new
      have seen := List.mem_append_right done inside
      exact .inr ⟨p,seen,child,(List.singleton_sublist.mpr seen).append (List.singleton_sublist.mpr new)⟩

theorem metBound {nodes : List α} (inside : ∀ p, ∀ c ∈ children p, c ∈ nodes) (met : Met children start done level) :
    done.length+level.length ≤ nodes.length+1 := by
  have subset : done ++ level ⊆ start::nodes := by
    intro c mem
    rcases met.parent c mem with rfl | ⟨p,-,child,-⟩
    · exact List.mem_cons_self
    · exact List.mem_cons_of_mem _ (inside p c child)
  rw [← List.length_append]
  exact (List.Nodup.subperm met.distinct subset).length_le

/- Every round expands a node that no earlier one did. -/
theorem searchMet (forest : Forest children) {nodes : List α} (inside : ∀ p, ∀ c ∈ children p, c ∈ nodes) {fuel : Nat}
    (enough : nodes.length < fuel+done.length) (met : Met children start done level) :
    ∃ rest, search children fuel level = some rest ∧ Met children start (done ++ level ++ rest) [] := by
  induction fuel generalizing done level with
  | zero =>
    have bound := metBound inside met
    have last : level = [] := List.length_eq_zero_iff.mp (by omega)
    rw [last] at met ⊢
    exact ⟨[],rfl,by simpa using met⟩
  | succ fuel ih =>
    cases level with
    | nil => exact ⟨[],rfl,by simpa using met⟩
    | cons a as =>
      have longer : nodes.length < fuel+(done ++ a::as).length := by
        rw [List.length_append,List.length_cons]
        omega
      obtain ⟨rest,searched,final⟩ := ih longer (metStep forest met)
      refine ⟨(a::as).flatMap children ++ rest,?_,?_⟩
      · rw [search,searched]
        rfl
      · rw [← List.append_assoc]
        exact final

/- What has been met when no level is left. -/
theorem metSubtree (forest : Forest children) {nodes : List α} (met : Met children start (start::nodes) []) :
    Subtree children start nodes := by
  have whole := met.distinct
  have closed := met.closed
  have parent := met.parent
  simp only [List.append_nil] at whole closed parent
  obtain ⟨apart,distinct⟩ := List.nodup_cons.mp whole
  refine ⟨distinct,fun c => ⟨?_,?_⟩,?_⟩
  · intro mem
    rcases Relation.reflTransGen_iff_eq_or_transGen.mp
      (met.under c (List.mem_append_left [] (List.mem_cons_of_mem start mem))) with rfl | path
    · exact absurd mem apart
    · exact path
  · intro path
    have reached : c ∈ start::nodes := by
      induction path with
      | single child => exact closed start List.mem_cons_self _ child
      | tail _ child ih => exact closed _ ih _ child
    rcases List.mem_cons.mp reached with rfl | mem
    · exact absurd path (forest.acyclic c)
    · exact mem
  · intro p c mem child
    rcases parent c (List.mem_cons_of_mem start mem) with rfl | ⟨q,-,other,before⟩
    · exact absurd mem apart
    · cases forest.single other child
      rcases List.sublist_cons_iff.mp before with later | ⟨rest,shape,-⟩
      · exact .inr later
      · exact .inl (List.cons.inj shape).1

theorem searchSubtree (forest : Forest children) {nodes : List α} (inside : ∀ p, ∀ c ∈ children p, c ∈ nodes)
    (start : α) : ∃ rest, search children (nodes.length+1) [start] = some rest ∧ Subtree children start rest := by
  obtain ⟨rest,searched,met⟩ := searchMet forest inside (Nat.lt_succ_self _) (metStart children start)
  exact ⟨rest,searched,metSubtree forest met⟩

theorem startApart (forest : Forest children) {nodes : List α} (subtree : Subtree children start nodes) :
    start ∉ nodes := fun mem => forest.acyclic start ((subtree.members start).mp mem)

end MmRegression.BreadthFirst
