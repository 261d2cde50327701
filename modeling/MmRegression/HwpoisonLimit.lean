import MmRegression.Blocks
import MmRegression.CInt
import MmRegression.Shell

/-! `check_hwpoison_limit_in_buddy` of `lib/check_hwpoison_limit.sh`: the share of the memory that lies in
buddy blocks with a poisoned page, which a line of ruby counts over `/proc/kpageflags`. -/
namespace MmRegression.HwpoisonLimit

open CInt
open Blocks

def hwpoison (entry : BitVec 64) : Bool := entry &&& 0x80000#64 != 0#64

/- `%` of ruby has the sign of its right side, and raises an error where that is 0. -/
def modulo (a b : Int) : Option Int := if b = 0 then none else some (a.fmod b)

/- The entries from `pfn` on. -/
def countBlocks (block : Int) : List (BitVec 64) → Nat → Int → Nat → Option Nat
  | [], _, _, count => some count
  | entry::rest, pfn, tmp, count =>
      if hwpoison entry then do
        let offset ← modulo pfn block
        let tmp2 := pfn-offset
        if tmp ≠ tmp2 then countBlocks block rest (pfn+1) tmp2 (count+1)
        else countBlocks block rest (pfn+1) tmp count
      else countBlocks block rest (pfn+1) tmp count

/- What ruby prints, none where it raises an error. -/
def percentage (block : Int) (entries : List (BitVec 64)) : Option Int := do
  let count ← countBlocks block entries 0 (-1) 0
  if entries.length = 0 then none else some ((100*count*block).fdiv entries.length)

/- `$[2<<order]` in 64 bits; a shift by 64 or more is undefined. -/
def shiftedBlock (order : Nat) : Except Stop Int :=
  if order < 64 then .ok (2#64 <<< order).toInt else .error .undefined

def hwpoisonPercent (order : Nat) (entries : List (BitVec 64)) : Except Stop (Option Int) := do
  let block ← shiftedBlock order
  .ok (percentage block entries)

/- What is printed and the status. `-ge` fails on an empty text and on a number that 64 bits do not hold. -/
def checkHwpoisonLimitInBuddy (threshold : Int) (order : Option Nat) (entries : List (BitVec 64)) :
    Except Stop (Text × Nat) := do
  let percent ← hwpoisonPercent (order.getD 10) entries
  let text := ((percent.map intText).getD [])
  let affect := "hwpoison pages affect ".toList ++ (text ++ " % of total memory, that's ".toList)
  let limit := " threshold (".toList ++ (intText threshold ++ " %)".toList)
  if percent.any (fun p => decide (threshold ≤ p ∧ p < 9223372036854775808)) then
    .ok (affect ++ ("over".toList ++ limit),0)
  else .ok (affect ++ ("under".toList ++ limit),1)

/-! ### What the claim says -/

def poisoned (entries : List (BitVec 64)) (pfn : Nat) : Bool := entries[pfn]?.any hwpoison

/- The pages in aligned blocks of 2^order pages that contain a poisoned page. -/
def affected (order : Nat) (entries : List (BitVec 64)) : Nat :=
  ((Finset.range entries.length).filter (fun p => p/2^order ∈ blocks (2^order) (poisoned entries) entries.length)).card

def poison (entries : List (BitVec 64)) (pfn : Nat) : List (BitVec 64) := entries.modify pfn (fun e => e ||| 0x80000#64)

structure PoisonedShare (order : Nat) (entries : List (BitVec 64)) (percent : Int) : Prop where
  printed : hwpoisonPercent order entries = .ok (some percent)
  exact : percent = (100*affected order entries/entries.length : Nat)
  bounds : 0 ≤ percent ∧ percent ≤ 100
  grows : ∀ q < entries.length, ∃ more, hwpoisonPercent order (poison entries q) = .ok (some more) ∧ percent ≤ more

/- The places of the blocks of 2^(order+1) pages with a poisoned page that lie behind the last page, or in
a block of 2^order pages without one. -/
def extra (order : Nat) (entries : List (BitVec 64)) : Nat :=
  ((pages (2^(order+1)) (poisoned entries) entries.length).filter (fun p =>
    ¬(p < entries.length ∧ p/2^order ∈ blocks (2^order) (poisoned entries) entries.length))).card

/-! ### The count -/

section Count

variable {entries rest : List (BitVec 64)} {pfn b : Nat} {tmp : Int}

/- The block seen last: none so far, or the greatest. -/
def LastBlock (b : Nat) (seen : Finset Nat) (tmp : Int) : Prop :=
  (tmp = -1 ∧ seen = ∅) ∨ ∃ i, tmp = (i*b : Nat) ∧ i ∈ seen ∧ ∀ j ∈ seen, j ≤ i

theorem blockStart (some : 0 < b) (pfn : Nat) : modulo pfn b = Option.some ((pfn % b : Nat) : Int) ∧
    (pfn : Int)-(pfn % b : Nat) = (pfn/b*b : Nat) := by
  refine ⟨?_,?_⟩
  · rw [modulo,if_neg (by omega),Int.fmod_eq_emod_of_nonneg _ (by omega),Int.natCast_emod]
  · have := Nat.div_add_mod pfn b
    rw [Nat.mul_comm] at this
    omega

/- A block has been seen when it is the last. -/
theorem lastSeen (some : 0 < b) {seen : Finset Nat} {i : Nat} (last : LastBlock b seen tmp) (late : ∀ j ∈ seen, j ≤ i) :
    tmp = (i*b : Nat) ↔ i ∈ seen := by
  rcases last with ⟨rfl,rfl⟩ | ⟨k,rfl,inside,greatest⟩
  · refine iff_of_false (by omega) (Finset.notMem_empty i)
  · rw [Int.natCast_inj,Nat.mul_left_inj (Nat.ne_of_gt some)]
    constructor
    · intro same
      exact same ▸ inside
    · intro mem
      exact Nat.le_antisymm (late k inside) (greatest i mem)

theorem countMarked (some : 0 < b) {entry : BitVec 64} (marked : hwpoison entry = true) (count : Nat) :
    countBlocks b (entry::rest) pfn tmp count =
      if tmp ≠ (pfn/b*b : Nat) then countBlocks b rest (pfn+1) (pfn/b*b : Nat) (count+1)
      else countBlocks b rest (pfn+1) tmp count := by
  obtain ⟨offset,start⟩ := blockStart some pfn
  rw [countBlocks,if_pos marked,offset]
  simp only [bind,Option.bind,start]

theorem countFrom (some : 0 < b) (suffix : rest = entries.drop pfn) (inside : pfn ≤ entries.length)
    (last : LastBlock b (blocks b (poisoned entries) pfn) tmp) :
    countBlocks b rest pfn tmp (blocks b (poisoned entries) pfn).card =
      Option.some (blocks b (poisoned entries) entries.length).card := by
  induction rest generalizing pfn tmp with
  | nil =>
    have : entries.length ≤ pfn := List.drop_eq_nil_iff.mp suffix.symm
    rw [countBlocks,Nat.le_antisymm inside this]
  | cons entry rest ih =>
    have below : pfn < entries.length := by
      by_contra out
      rw [List.drop_eq_nil_of_le (by omega)] at suffix
      contradiction
    rw [List.drop_eq_getElem_cons below] at suffix
    obtain ⟨rfl,tail⟩ := List.cons.inj suffix
    have here : poisoned entries pfn = hwpoison entries[pfn] := by
      rw [poisoned,List.getElem?_eq_getElem below]
      rfl
    by_cases marked : hwpoison entries[pfn] = true
    · rw [marked] at here
      have seen := lastSeen some last (fun j mem => blocksBelow mem)
      have next := blocksMarked (b := b) here
      rw [countMarked some marked]
      split
      · rename_i fresh
        have new := mt seen.mpr fresh
        rw [← Finset.card_insert_of_notMem new,← next]
        refine ih tail below (.inr ⟨pfn/b,rfl,?_,fun j mem => ?_⟩)
        · rw [next]
          exact Finset.mem_insert_self ..
        · rw [next] at mem
          exact (Finset.mem_insert.mp mem).elim (fun same => Nat.le_of_eq same) blocksBelow
      · rename_i known
        have same : blocks b (poisoned entries) (pfn+1) = blocks b (poisoned entries) pfn :=
          next.trans (Finset.insert_eq_self.mpr (seen.mp (not_not.mp known)))
        rw [← same] at last ⊢
        exact ih tail below last
    · rw [countBlocks,if_neg marked]
      rw [Bool.eq_false_iff.mpr marked] at here
      rw [← blocksClear (b := b) here] at last ⊢
      exact ih tail below last

theorem countAll (some : 0 < b) (entries : List (BitVec 64)) :
    countBlocks b entries 0 (-1) 0 = Option.some (blocks b (poisoned entries) entries.length).card :=
  countFrom some rfl (Nat.zero_le _) (.inl ⟨rfl,rfl⟩)

end Count

/-! ### The percentage -/

section Share

variable {order : Nat} {entries : List (BitVec 64)}

theorem blockOf (small : order ≤ 61) : shiftedBlock order = .ok ((2^(order+1) : Nat) : Int) := by
  have width : 2^(order+1) < 2^63 := Nat.pow_lt_pow_right (by decide) (by omega)
  have value : (2#64 <<< order).toNat = 2^(order+1) := by
    rw [BitVec.toNat_shiftLeft,Nat.shiftLeft_eq,show (2#64).toNat = 2 from rfl,Nat.mul_comm,← Nat.pow_succ]
    exact Nat.mod_eq_of_lt (by omega)
  rw [shiftedBlock,if_pos (by omega),BitVec.toInt_eq_toNat_of_lt (by rw [value]; omega),value]

theorem percentOf (small : order ≤ 61) (filled : entries ≠ []) :
    hwpoisonPercent order entries = .ok (some (100*((blocks (2^(order+1)) (poisoned entries)
      entries.length).card*2^(order+1))/entries.length : Nat)) := by
  have some : entries.length ≠ 0 := mt List.length_eq_zero_iff.mp filled
  rw [hwpoisonPercent,blockOf small,bindOk,percentage,countAll (Nat.two_pow_pos _)]
  have whole (count size : Nat) : 100*(count : Int)*(size : Int) = ((100*(count*size) : Nat) : Int) := by
    push_cast
    exact Int.mul_assoc _ _ _
  simp only [bind,Option.bind,if_neg some]
  rw [whole,Int.fdiv_eq_ediv_of_nonneg _ (Int.natCast_nonneg _),Int.natCast_ediv]

theorem affectedExtra (order : Nat) (entries : List (BitVec 64)) : affected order entries+extra order entries =
    (blocks (2^(order+1)) (poisoned entries) entries.length).card*2^(order+1) := by
  have same : (pages (2^(order+1)) (poisoned entries) entries.length).filter (fun p =>
      p < entries.length ∧ p/2^order ∈ blocks (2^order) (poisoned entries) entries.length) =
      (Finset.range entries.length).filter (fun p =>
        p/2^order ∈ blocks (2^order) (poisoned entries) entries.length) := by
    ext p
    rw [Finset.mem_filter,Finset.mem_filter,Finset.mem_range,and_iff_right_iff_imp,pagesMem (Nat.two_pow_pos _)]
    exact fun both => pagesWiden both.2
  rw [affected,extra,← same,Finset.card_filter_add_card_filter_not,pagesCard (Nat.two_pow_pos _),Nat.mul_comm]

theorem affectedBelow (order : Nat) (entries : List (BitVec 64)) : affected order entries ≤ entries.length := by
  rw [affected]
  exact (Finset.card_filter_le _ _).trans (Nat.le_of_eq (Finset.card_range _))

theorem hwpoisonSet (entry : BitVec 64) : hwpoison (entry ||| 0x80000#64) = true := by
  have absorbed : (entry ||| 0x80000#64) &&& 0x80000#64 = 0x80000#64 := by
    ext i
    simp only [BitVec.getElem_and,BitVec.getElem_or]
    cases entry[i] <;> simp
  rw [hwpoison,absorbed]
  rfl

theorem poisonedMore (q : Nat) {pfn : Nat} (marked : poisoned entries pfn = true) :
    poisoned (poison entries q) pfn = true := by
  rw [poisoned] at marked ⊢
  rw [poison,List.getElem?_modify]
  cases found : entries[pfn]? with
  | none =>
    rw [found] at marked
    contradiction
  | some entry =>
    rw [found] at marked
    show hwpoison (if q = pfn then entry ||| 0x80000#64 else entry) = true
    split
    · exact hwpoisonSet entry
    · exact marked

/- Adding less than what is missing to the next multiple does not change a quotient. -/
theorem quotientKept {n : Nat} (some : 0 < n) (x y : Nat) : (x+y)/n = x/n ↔ x % n+y < n := by
  have parts := Nat.div_add_mod x n
  constructor
  · intro same
    have := Nat.div_add_mod (x+y) n
    have := Nat.mod_lt (x+y) some
    rw [same] at *
    omega
  · intro less
    refine Nat.div_eq_of_lt_le ?_ ?_
    · rw [Nat.mul_comm]
      omega
    · rw [Nat.succ_mul,Nat.mul_comm]
      omega

theorem moreAfter (small : order ≤ 61) (filled : entries ≠ []) (q : Nat) :
    ∃ more, hwpoisonPercent order (poison entries q) = .ok (some more) ∧
      (100*((blocks (2^(order+1)) (poisoned entries)
        entries.length).card*2^(order+1))/entries.length : Nat) ≤ more := by
  have length : (poison entries q).length = entries.length := List.length_modify ..
  refine ⟨_,percentOf small ?_,?_⟩
  · intro none
    rw [none] at length
    exact filled (List.length_eq_zero_iff.mp length.symm)
  · rw [length]
    refine Int.ofNat_le.mpr (Nat.div_le_div_right (Nat.mul_le_mul_left _ (Nat.mul_le_mul_right _ ?_)))
    exact Finset.card_le_card (blocksMore (fun pfn marked => poisonedMore q marked))

theorem countGrows {block : Int} {rest : List (BitVec 64)} {pfn count total : Nat} {tmp : Int}
    (counted : countBlocks block rest pfn tmp count = some total) : count ≤ total := by
  induction rest generalizing pfn tmp count with
  | nil => exact Nat.le_of_eq (Option.some.inj counted)
  | cons entry rest ih =>
    rw [countBlocks] at counted
    split at counted
    · obtain ⟨offset,-,next⟩ := Option.bind_eq_some_iff.mp counted
      dsimp only at next
      split at next
      · exact Nat.le_of_succ_le (ih next)
      · exact ih next
    · exact ih counted

/- A block size that is not positive makes ruby fail or print less than 0. -/
theorem percentNegative {block : Int} (wide : block ≤ 0) {entry : BitVec 64} (marked : hwpoison entry = true)
    {rest : List (BitVec 64)} {percent : Int} (printed : percentage block (entry::rest) = some percent) :
      percent < 0 := by
  obtain ⟨count,counted,shape⟩ := Option.bind_eq_some_iff.mp printed
  rw [countBlocks,if_pos marked] at counted
  obtain ⟨offset,start,next⟩ := Option.bind_eq_some_iff.mp counted
  have negative : block ≠ 0 := by
    intro zero
    rw [modulo,if_pos zero] at start
    contradiction
  rw [modulo,if_neg negative] at start
  cases Option.some.inj start
  rw [Int.natCast_zero,Int.zero_fmod,if_pos (by decide)] at next
  have one := countGrows next
  rw [if_neg (by simp)] at shape
  cases Option.some.inj shape
  rw [Int.fdiv_eq_ediv_of_nonneg _ (Int.natCast_nonneg _)]
  have product : 100*(count : Int)*block < 0 := Int.mul_neg_of_pos_of_neg (by omega) (by omega)
  exact Int.ediv_neg_of_neg_of_pos product (by rw [List.length_cons]; omega)

theorem wideFails (wide : 61 < order) (filled : entries ≠ []) : ¬∃ percent, PoisonedShare order entries percent := by
  intro shared
  obtain ⟨percent,share⟩ := shared
  obtain ⟨entry,rest,rfl⟩ := List.exists_cons_of_ne_nil filled
  obtain ⟨more,printed,order'⟩ := share.grows 0 (by simp)
  rw [hwpoisonPercent] at printed
  obtain ⟨block,shifted,printed⟩ := bindInv printed
  have bound : block ≤ 0 := by
    rw [shiftedBlock] at shifted
    split at shifted
    · cases Except.ok.inj shifted
      rcases (show order = 62 ∨ order = 63 by omega) with rfl | rfl <;> decide
    · contradiction
  have negative := percentNegative bound (hwpoisonSet entry) (Except.ok.inj printed)
  have := share.bounds.1
  omega

end Share

theorem poisonedShare (order : Nat) {entries : List (BitVec 64)} (filled : entries ≠ []) :
    (∃ percent, PoisonedShare order entries percent) ↔
      order ≤ 61 ∧ 100*affected order entries % entries.length+100*extra order entries < entries.length := by
  have some : 0 < entries.length := List.length_pos_iff.mpr filled
  constructor
  · intro shared
    have small : order ≤ 61 := by
      by_contra wide
      exact wideFails (by omega) filled shared
    obtain ⟨percent,share⟩ := shared
    refine ⟨small,(quotientKept some _ _).mp ?_⟩
    have printed := share.printed
    rw [percentOf small filled,← affectedExtra,Nat.mul_add] at printed
    have same := Option.some.inj (Except.ok.inj printed)
    exact Int.ofNat.inj (same.trans share.exact)
  · intro condition
    obtain ⟨small,less⟩ := condition
    have kept := (quotientKept some _ _).mpr less
    have printed := percentOf small filled
    have grows := fun q (_ : q < entries.length) => moreAfter small filled q
    rw [← affectedExtra,Nat.mul_add,kept] at printed grows
    refine ⟨_,printed,rfl,⟨Int.natCast_nonneg _,?_⟩,grows⟩
    refine Int.ofNat_le.mpr (Nat.div_le_of_le_mul ?_)
    rw [Nat.mul_comm entries.length]
    exact Nat.mul_le_mul_left 100 (affectedBelow order entries)

/- Both blocks of two pages are poisoned. -/
theorem poisonedShareWhole : ∃ percent, PoisonedShare 1 [0x80000#64,0,0,0x80000#64] percent :=
  (poisonedShare 1 (List.cons_ne_nil _ _)).mpr (by decide +kernel)

/- One of two is. -/
theorem twiceCounted : hwpoisonPercent 1 [0x80000#64,0,0,0] = .ok (some 100) ∧ affected 1 [0x80000#64,0,0,0] = 2 ∧
    ¬∃ percent, PoisonedShare 1 [0x80000#64,0,0,0] percent := by
  have printed : hwpoisonPercent 1 [0x80000#64,0,0,0] = .ok (some 100) := by decide +kernel
  have pages : affected 1 [0x80000#64,0,0,0] = 2 := by decide +kernel
  refine ⟨printed,pages,fun shared => ?_⟩
  obtain ⟨percent,share⟩ := shared
  have same := Option.some.inj (Except.ok.inj (printed.symm.trans share.printed))
  have exact := share.exact
  rw [pages,← same] at exact
  revert exact
  decide

end MmRegression.HwpoisonLimit
