import Mathlib.Data.List.Basic

/-! An address space and the calls that change which addresses are mapped: `mremap` with
MREMAP_FIXED, and `mmap` with a hint. Contents are of any type. Nothing here names the harness. -/
namespace MmRegression.Memory

variable {α : Type}

abbrev Mem (α : Type) := Int → Option α

def Inside (start : Int) (size : Nat) (a : Int) : Prop := start ≤ a ∧ a < start+size
instance (start : Int) (size : Nat) (a : Int) : Decidable (Inside start size a) := by
  unfold Inside; infer_instance

def Overlap (a b : Int) (size : Nat) : Prop := a < b+size ∧ b < a+size
instance (a b : Int) (size : Nat) : Decidable (Overlap a b size) := by unfold Overlap; infer_instance

def mappedAll (mem : Mem α) (start : Int) (size : Nat) : Bool :=
  (List.range size).all (fun r => (mem (start+r)).isSome)

def munmap (mem : Mem α) (start : Int) (size : Nat) : Mem α := fun a => if Inside start size a then none else mem a

def move (mem : Mem α) (old new : Int) (size : Nat) : Mem α := fun a =>
  if Inside new size a then mem (old+(a-new)) else if Inside old size a then none else mem a

/- `mremap(old, size, size, MREMAP_MAYMOVE|MREMAP_FIXED, new)`: EINVAL when the two ranges overlap;
else what is mapped at the new range goes, and EFAULT follows when the old one is not mapped. -/
def mremap (mem : Mem α) (old new : Int) (size : Nat) : Option Int × Mem α :=
  if Overlap old new size then (none,mem)
  else if mappedAll (munmap mem new size) old size then (some new,move mem old new size)
  else (none,munmap mem new size)

/- `mmap` without MAP_FIXED takes the hint when nothing is mapped there; else the kernel looks
elsewhere. -/
def mmapHint (mem : Mem α) (hint : Int) (size : Nat) (elsewhere : Option Int) : Option Int :=
  if size = 0 then none
  else if (∀ r, r < size → mem (hint+r) = none) then some hint else elsewhere.filter (fun a => a ≠ hint)

theorem mmapHintFree {mem : Mem α} {hint : Int} {size : Nat} {elsewhere : Option Int}
    (taken : mmapHint mem hint size elsewhere = some hint) : ∀ a, Inside hint size a → mem a = none := by
  simp only [mmapHint] at taken
  split at taken
  · contradiction
  · split at taken
    · rename_i free
      intro a inside
      have spot := free (a-hint).toNat (by obtain ⟨low,high⟩ := inside; omega)
      rwa [show hint+((a-hint).toNat : Int) = a by obtain ⟨low,high⟩ := inside; omega] at spot
    · have := Option.filter_eq_some_iff.mp taken
      simp at this

theorem mappedIff {mem : Mem α} {start : Int} {size : Nat} :
    mappedAll mem start size = true ↔ ∀ a, Inside start size a → (mem a).isSome := by
  rw [mappedAll,List.all_eq_true]
  constructor
  · intro each a inside
    have spot := each (a-start).toNat (List.mem_range.mpr (by obtain ⟨low,high⟩ := inside; omega))
    rwa [show start+((a-start).toNat : Int) = a by obtain ⟨low,high⟩ := inside; omega] at spot
  · intro each r mem
    have small := List.mem_range.mp mem
    exact each _ ⟨by omega,by omega⟩

theorem munmapOutside {mem : Mem α} {start a : Int} {size : Nat} (outside : ¬Inside start size a) :
    munmap mem start size a = mem a := if_neg outside

theorem mremapMoves {mem : Mem α} {old new : Int} {size : Nat} (apart : ¬Overlap old new size)
    (mapped : ∀ a, Inside old size a → (mem a).isSome) : mremap mem old new size = (some new,move mem old new size) := by
  have still : mappedAll (munmap mem new size) old size = true := by
    refine mappedIff.mpr (fun a inside => ?_)
    rw [munmapOutside]
    · exact mapped a inside
    · rintro ⟨low,high⟩
      obtain ⟨low',high'⟩ := inside
      exact apart ⟨by omega,by omega⟩
  rw [mremap,if_neg apart,if_pos still]

/- Outside the two ranges nothing changes, and nothing gets mapped outside the new one. -/
theorem mremapFrame (mem : Mem α) {old new a : Int} {size : Nat} (outside : ¬Inside new size a) (none : mem a = none) :
    (mremap mem old new size).2 a = Option.none := by
  simp only [mremap]
  split
  · exact none
  · split
    · simp only [move,if_neg outside]
      split
      · rfl
      · exact none
    · exact (munmapOutside outside).trans none

theorem mremapFails {mem : Mem α} {old new : Int} {size : Nat} (apart : ¬Overlap old new size)
    (failed : (mremap mem old new size).1 = none) {a : Int} (inside : Inside new size a) :
    (mremap mem old new size).2 a = none := by
  simp only [mremap,if_neg apart] at failed ⊢
  split at failed
  · contradiction
  · rename_i unmapped
    rw [if_neg unmapped]
    exact if_pos inside

theorem mremapClears {mem : Mem α} {old new a : Int} {size : Nat} (apart : ¬Overlap old new size)
    (passed : (mremap mem old new size).1 ≠ none) (inside : Inside old size a) : (mremap mem old new size).2 a = none := by
  simp only [mremap,if_neg apart] at passed ⊢
  split at passed
  · rename_i mapped
    have outside : ¬Inside new size a := by
      rintro ⟨low,high⟩
      obtain ⟨low',high'⟩ := inside
      exact apart ⟨by omega,by omega⟩
    rw [if_pos mapped]
    simp only [move,if_neg outside,if_pos inside]
  · contradiction

section Moves

variable {source target : Nat → Int} {size : Nat → Nat} {n : Nat}

def Separate (a : Int) (m : Nat) (b : Int) (n : Nat) : Prop := ∀ x, Inside a m x → ¬Inside b n x

/- Ranges that are moved one by one, none in the way of another. -/
structure Apart (source target : Nat → Int) (size : Nat → Nat) (n : Nat) : Prop where
  sources : ∀ k < n, ∀ l < n, k ≠ l → Separate (source k) (size k) (source l) (size l)
  targets : ∀ k < n, ∀ l < n, k ≠ l → Separate (target k) (size k) (target l) (size l)
  across : ∀ k < n, ∀ l < n, Separate (source k) (size k) (target l) (size l)
  positive : ∀ k < n, 0 < size k

theorem apartSwap (apart : Apart source target size n) : Apart target source size n :=
  ⟨apart.targets,apart.sources,fun k hk l hl x inside other => apart.across l hl k hk x other inside,apart.positive⟩

/- The first `k` ranges have been moved, the others have not, and nothing else has changed. -/
structure Moved (source target : Nat → Int) (size : Nat → Nat) (n : Nat) (start : Mem α) (k : Nat) (mem : Mem α) : Prop where
  done : ∀ l < n, l < k → ∀ r : Nat, r < size l → mem (target l+r) = start (source l+r)
  todo : ∀ l < n, k ≤ l → ∀ r : Nat, r < size l → mem (source l+r) = start (source l+r)
  frame : ∀ a, (∀ l < n, ¬Inside (source l) (size l) a ∧ ¬Inside (target l) (size l) a) → mem a = start a

theorem movedStart (start : Mem α) : Moved source target size n start 0 start :=
  ⟨fun l _ less => by omega,fun _ _ _ _ _ => rfl,fun _ _ => rfl⟩

theorem insideAdd {a : Int} {m r : Nat} (small : r < m) : Inside a m (a+r) := ⟨by omega,by omega⟩

theorem insideSplit {a x : Int} {m : Nat} (inside : Inside a m x) : ∃ r : Nat, r < m ∧ x = a+r := by
  obtain ⟨low,high⟩ := inside
  exact ⟨(x-a).toNat,by omega,by omega⟩

theorem apartOverlap (apart : Apart source target size n) {k : Nat} (small : k < n) :
    ¬Overlap (source k) (target k) (size k) := by
  rintro ⟨left,right⟩
  have positive := apart.positive k small
  rcases Int.le_total (source k) (target k) with order | order
  · exact apart.across k small k small (target k) ⟨order,right⟩ ⟨Int.le_refl _,by omega⟩
  · exact apart.across k small k small (source k) ⟨Int.le_refl _,by omega⟩ ⟨order,left⟩

theorem moveStep (apart : Apart source target size n) {start mem : Mem α} {k : Nat} (small : k < n)
    (mapped : ∀ l < n, ∀ a, Inside (source l) (size l) a → (start a).isSome)
    (moved : Moved source target size n start k mem) :
    mremap mem (source k) (target k) (size k) = (some (target k),move mem (source k) (target k) (size k)) ∧
      Moved source target size n start (k+1) (move mem (source k) (target k) (size k)) := by
  refine ⟨mremapMoves (apartOverlap apart small) (fun a inside => ?_),?_,?_,?_⟩
  · obtain ⟨r,less,rfl⟩ := insideSplit inside
    rw [moved.todo k small (Nat.le_refl k) r less]
    exact mapped k small _ inside
  · intro l hl upto r less
    have here := insideAdd (a := target l) less
    rcases Nat.eq_or_lt_of_le (Nat.le_of_lt_succ upto) with rfl | earlier
    · simp only [move,if_pos here]
      rw [show source l+(target l+r-target l) = source l+r by omega]
      exact moved.todo l hl (Nat.le_refl l) r less
    · have clean : ¬Inside (target k) (size k) (target l+r) := apart.targets l hl k small (by omega) _ here
      have kept : ¬Inside (source k) (size k) (target l+r) := fun inside => apart.across k small l hl _ inside here
      simp only [move,if_neg clean,if_neg kept]
      exact moved.done l hl earlier r less
  · intro l hl later r less
    have here := insideAdd (a := source l) less
    have clean : ¬Inside (target k) (size k) (source l+r) := apart.across l hl k small _ here
    have kept : ¬Inside (source k) (size k) (source l+r) := apart.sources l hl k small (by omega) _ here
    simp only [move,if_neg clean,if_neg kept]
    exact moved.todo l hl (by omega) r less
  · intro a outside
    simp only [move,if_neg (outside k small).2,if_neg (outside k small).1]
    exact moved.frame a outside

/- Moving everything there and back restores every address outside the targets. -/
theorem movedBack {start there back : Mem α}
    (forward : Moved source target size n start n there) (backward : Moved target source size n there n back)
    {a : Int} (outside : ∀ l < n, ¬Inside (target l) (size l) a) : back a = start a := by
  by_cases home : ∃ l < n, Inside (source l) (size l) a
  · obtain ⟨l,hl,inside⟩ := home
    obtain ⟨r,less,rfl⟩ := insideSplit inside
    rw [backward.done l hl hl r less,forward.done l hl hl r less]
  · have neither : ∀ l < n, ¬Inside (source l) (size l) a := fun l hl inside => home ⟨l,hl,inside⟩
    rw [backward.frame a (fun l hl => ⟨outside l hl,neither l hl⟩),
      forward.frame a (fun l hl => ⟨neither l hl,outside l hl⟩)]

end Moves

end MmRegression.Memory
