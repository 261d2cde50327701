import Mathlib.Algebra.GroupWithZero.Nat
import Mathlib.Data.List.Basic
import Mathlib.Logic.Function.Basic

/-! A ring of 2^k entries under two counters that run freely and wrap at 2^w. The counters are masked only
where they index the entries, so a slot comes round every 2^k positions, across the wrap as elsewhere. What is
between the counters is a queue. Nothing here names the harness. -/
namespace MmRegression.RingBuffer

variable {w k : Nat} {α : Type}

def mask (w k : Nat) : BitVec w := BitVec.ofNat w (2^k-1)

def ringSlot (k : Nat) (p : BitVec w) : BitVec w := p &&& mask w k

/- The position that is `n` behind `p`. -/
def ahead (p : BitVec w) (n : Nat) : BitVec w := p+BitVec.ofNat w n

theorem slotNat (small : k ≤ w) (p : BitVec w) : (ringSlot k p).toNat = p.toNat % 2^k := by
  have fits : 2^k-1 < 2^w := by
    have := Nat.pow_le_pow_right (by decide : 0 < 2) small
    have := Nat.two_pow_pos k
    omega
  rw [ringSlot,mask,BitVec.toNat_and,BitVec.toNat_ofNat,Nat.mod_eq_of_lt fits,Nat.and_two_pow_sub_one_eq_mod]

/- The wrap at 2^w is not seen by the slots, which 2^k divides. -/
theorem slotAhead (small : k ≤ w) (p : BitVec w) (n : Nat) : (ringSlot k (ahead p n)).toNat = (p.toNat+n) % 2^k := by
  rw [slotNat small,ahead,BitVec.toNat_add,BitVec.toNat_ofNat,Nat.add_mod_mod,
    Nat.mod_mod_of_dvd _ (Nat.pow_dvd_pow 2 small)]

theorem slotApart (small : k ≤ w) (p : BitVec w) {i j : Nat} (order : i < j) (near : j < i+2^k) :
    ringSlot k (ahead p i) ≠ ringSlot k (ahead p j) := by
  intro same
  have equal := congrArg BitVec.toNat same
  rw [slotAhead small,slotAhead small] at equal
  have multiple := Nat.sub_mod_eq_zero_of_mod_eq equal.symm
  rw [Nat.add_sub_add_left,Nat.mod_eq_of_lt (by omega)] at multiple
  omega

theorem slotAround (small : k ≤ w) (p : BitVec w) : ringSlot k (ahead p (2^k)) = ringSlot k p := by
  refine BitVec.eq_of_toNat_eq ?_
  rw [slotAhead small,slotNat small,Nat.add_mod_right]

theorem aheadZero (p : BitVec w) : ahead p 0 = p := by simp [ahead]

theorem aheadSucc (p : BitVec w) (n : Nat) : ahead p (n+1) = ahead p n+1 := by
  rw [ahead,ahead,BitVec.ofNat_add,← BitVec.add_assoc]
  rfl

theorem aheadNext (p : BitVec w) (n : Nat) : ahead (p+1) n = ahead p (n+1) := by
  rw [aheadSucc,ahead,ahead,BitVec.add_assoc,BitVec.add_comm 1,← BitVec.add_assoc]

theorem aheadAhead (p : BitVec w) (m n : Nat) : ahead (ahead p m) n = ahead p (m+n) := by
  rw [ahead,ahead,ahead,BitVec.ofNat_add,BitVec.add_assoc]

/-! ### The entries between two positions -/

def window (k : Nat) (entries : BitVec w → α) (p : BitVec w) (n : Nat) : List α :=
  (List.range n).map (fun j => entries (ringSlot k (ahead p j)))

theorem windowLength (entries : BitVec w → α) (p : BitVec w) (n : Nat) : (window k entries p n).length = n := by
  rw [window,List.length_map,List.length_range]

theorem windowFirst (entries : BitVec w → α) (p : BitVec w) (n : Nat) :
    window k entries p (n+1) = entries (ringSlot k p) :: window k entries (p+1) n := by
  rw [window,List.range_succ_eq_map,List.map_cons,List.map_map,aheadZero]
  refine congrArg _ (List.map_congr_left (fun j _ => ?_))
  rw [Function.comp,Nat.succ_eq_add_one,aheadNext]

theorem windowLast (entries : BitVec w → α) (p : BitVec w) (n : Nat) :
    window k entries p (n+1) = window k entries p n ++ [entries (ringSlot k (ahead p n))] := by
  rw [window,List.range_succ,List.map_append]
  rfl

/- The slot behind fewer than 2^k entries is none of theirs. -/
theorem windowPush (small : k ≤ w) (entries : BitVec w → α) (p : BitVec w) {n : Nat} (room : n < 2^k) (a : α) :
    window k (Function.update entries (ringSlot k (ahead p n)) a) p (n+1) = window k entries p n ++ [a] := by
  rw [windowLast,Function.update_self]
  refine congrArg (· ++ [a]) (List.map_congr_left (fun j mem => ?_))
  have early := List.mem_range.mp mem
  exact Function.update_of_ne (slotApart small p early (by omega)) a entries

/-! ### The ring -/

structure Ring (w : Nat) (α : Type) where
  head : BitVec w
  tail : BitVec w
  entries : BitVec w → α

def Ring.count (r : Ring w α) : Nat := (r.tail-r.head).toNat

def Ring.contents (k : Nat) (r : Ring w α) : List α := window k r.entries r.head r.count

def Ring.push (k : Nat) (r : Ring w α) (a : α) : Ring w α :=
  { r with entries := Function.update r.entries (ringSlot k r.tail) a, tail := r.tail+1 }

def Ring.pop (r : Ring w α) : Ring w α := { r with head := r.head+1 }

theorem tailAhead (r : Ring w α) : r.tail = ahead r.head r.count := by
  rw [ahead,Ring.count,BitVec.ofNat_toNat,BitVec.setWidth_eq,BitVec.add_comm,BitVec.sub_add_cancel]

theorem countOf {r : Ring w α} {n : Nat} (behind : r.tail = ahead r.head n) (small : n < 2^w) : r.count = n := by
  rw [Ring.count,behind,ahead,BitVec.add_comm,BitVec.add_sub_cancel,BitVec.toNat_ofNat,Nat.mod_eq_of_lt small]

theorem countZero {r : Ring w α} : r.head = r.tail ↔ r.count = 0 := by
  constructor
  · intro same
    rw [Ring.count,same,BitVec.sub_self]
    rfl
  · intro none
    rw [tailAhead r,none,aheadZero]

theorem pushCount (small : k < w) {r : Ring w α} (room : r.count < 2^k) (a : α) : (r.push k a).count = r.count+1 := by
  have width := Nat.pow_lt_pow_right (by decide : 1 < 2) small
  refine countOf ?_ (by omega)
  rw [aheadSucc]
  exact congrArg (·+1) (tailAhead r)

theorem pushContents (small : k < w) {r : Ring w α} (room : r.count < 2^k) (a : α) :
    (r.push k a).contents k = r.contents k ++ [a] := by
  rw [Ring.contents,pushCount small room,Ring.push,tailAhead r,Ring.contents]
  exact windowPush (Nat.le_of_lt small) r.entries r.head room a

theorem popCount {r : Ring w α} (filled : r.head ≠ r.tail) : r.count = r.pop.count+1 := by
  have some : 0 < r.count := Nat.pos_of_ne_zero (mt countZero.mpr filled)
  have bound : r.count < 2^w := (r.tail-r.head).isLt
  have next : r.pop.count = r.count-1 := by
    refine countOf ?_ (by omega)
    rw [Ring.pop,aheadNext,Nat.sub_add_cancel some]
    exact tailAhead r
  omega

theorem popContents {r : Ring w α} (filled : r.head ≠ r.tail) :
    r.contents k = r.entries (ringSlot k r.head) :: r.pop.contents k := by
  rw [Ring.contents,popCount filled,windowFirst]
  rfl

end MmRegression.RingBuffer
