import Mathlib.Algebra.Order.BigOperators.Group.Finset
import Mathlib.Data.Finset.Card
import Mathlib.Order.Interval.Finset.Nat

/-! Marked positions and the aligned blocks of `b` positions that hold them. The blocks are known as the
positions come in order, and they have `b` positions each. Nothing here names the harness. -/
namespace MmRegression.Blocks

variable {marked : Nat → Bool} {b n : Nat}

/- The blocks with a marked position below `n`. -/
def blocks (b : Nat) (marked : Nat → Bool) (n : Nat) : Finset Nat :=
  ((Finset.range n).filter (fun q => marked q = true)).image (fun q => q/b)

theorem blocksMem {i : Nat} : i ∈ blocks b marked n ↔ ∃ q < n, marked q = true ∧ q/b = i := by
  simp only [blocks,Finset.mem_image,Finset.mem_filter,Finset.mem_range,and_assoc]

theorem blocksMarked (here : marked n = true) : blocks b marked (n+1) = insert (n/b) (blocks b marked n) := by
  rw [blocks,Finset.range_add_one,Finset.filter_insert,if_pos here,Finset.image_insert,blocks]

theorem blocksClear (clear : marked n = false) : blocks b marked (n+1) = blocks b marked n := by
  rw [blocks,Finset.range_add_one,Finset.filter_insert,if_neg (by simp [clear]),blocks]

theorem blocksBelow {i : Nat} (mem : i ∈ blocks b marked n) : i ≤ n/b := by
  obtain ⟨q,below,-,rfl⟩ := blocksMem.mp mem
  exact Nat.div_le_div_right (Nat.le_of_lt below)

theorem blocksMore {more : Nat → Bool} (less : ∀ q, marked q = true → more q = true) :
    blocks b marked n ⊆ blocks b more n := by
  intro i mem
  obtain ⟨q,below,here,same⟩ := blocksMem.mp mem
  exact blocksMem.mpr ⟨q,below,less q here,same⟩

/- Whole blocks, the last of which may reach beyond `n`. -/
def pages (b : Nat) (marked : Nat → Bool) (n : Nat) : Finset Nat :=
  (Finset.range ((n/b+1)*b)).filter (fun p => p/b ∈ blocks b marked n)

theorem pagesMem (some : 0 < b) {p : Nat} : p ∈ pages b marked n ↔ p/b ∈ blocks b marked n := by
  rw [pages,Finset.mem_filter,Finset.mem_range,and_iff_right_iff_imp]
  intro mem
  exact Nat.lt_mul_of_div_lt (Nat.lt_succ_of_le (blocksBelow mem)) some

theorem pagesCard (some : 0 < b) : (pages b marked n).card = b*(blocks b marked n).card := by
  have union : pages b marked n = (blocks b marked n).biUnion (fun i => Finset.Ico (i*b) (i*b+b)) := by
    ext p
    rw [pagesMem some,Finset.mem_biUnion]
    constructor
    · intro mem
      have parts := Nat.div_add_mod p b
      have rest := Nat.mod_lt p some
      rw [Nat.mul_comm] at parts
      exact ⟨p/b,mem,Finset.mem_Ico.mpr ⟨by omega,by omega⟩⟩
    · intro inside
      obtain ⟨i,mem,bounds⟩ := inside
      obtain ⟨low,high⟩ := Finset.mem_Ico.mp bounds
      rwa [Nat.div_eq_of_lt_le low (by rw [Nat.succ_mul]; exact high)]
  have apart : ∀ i ∈ blocks b marked n, ∀ j ∈ blocks b marked n, i ≠ j →
      Disjoint (Finset.Ico (i*b) (i*b+b)) (Finset.Ico (j*b) (j*b+b)) := by
    intro i _ j _ different
    refine Finset.disjoint_left.mpr (fun p left right => different ?_)
    obtain ⟨lowI,highI⟩ := Finset.mem_Ico.mp left
    obtain ⟨lowJ,highJ⟩ := Finset.mem_Ico.mp right
    rw [← Nat.div_eq_of_lt_le lowI (by rw [Nat.succ_mul]; exact highI)]
    exact Nat.div_eq_of_lt_le lowJ (by rw [Nat.succ_mul]; exact highJ)
  have size : ∀ i ∈ blocks b marked n, (Finset.Ico (i*b) (i*b+b)).card = b := by
    intro i _
    rw [Nat.card_Ico,Nat.add_sub_cancel_left]
  rw [union,Finset.card_biUnion apart,Finset.sum_const_nat size,Nat.mul_comm]

/- Larger blocks that smaller ones divide hold more positions. -/
theorem pagesWiden {c p : Nat} (mem : p/b ∈ blocks b marked n) : p/(b*c) ∈ blocks (b*c) marked n := by
  obtain ⟨q,below,here,same⟩ := blocksMem.mp mem
  exact blocksMem.mpr ⟨q,below,here,by rw [← Nat.div_div_eq_div_mul,same,Nat.div_div_eq_div_mul]⟩

end MmRegression.Blocks
