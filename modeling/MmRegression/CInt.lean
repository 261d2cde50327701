import Mathlib.Data.List.Basic

/-! The integers and the `for` loops of a C program on an LP64 machine. A non-negative `int` is a
natural number that `int` checks, since signed overflow is undefined; `unsigned long` is a
natural number modulo 2^64. Nothing here names the harness. -/
namespace MmRegression.CInt

/- How a run ends before the function returns: undefined behaviour, or `exit` after a message. -/
inductive Stop where
  | undefined
  | exited (message : List Char)
  deriving DecidableEq, Repr

def intLimit : Nat := 2147483648
def ulongLimit : Nat := 18446744073709551616

def int (n : Nat) : Except Stop Nat := if n < intLimit then .ok n else .error .undefined

theorem bindError {α β : Type} (stop : Stop) (next : α → Except Stop β) :
    (Except.error stop >>= next) = .error stop := rfl

theorem bindOk {α β : Type} (a : α) (next : α → Except Stop β) : ((.ok a : Except Stop α) >>= next) = next a := rfl

theorem intOk {n : Nat} (small : n < intLimit) : int n = .ok n := if_pos small

theorem intInv {n m : Nat} (h : int n = .ok m) : m = n ∧ n < intLimit := by
  simp only [int] at h
  split at h
  · rename_i small
    exact ⟨(Except.ok.inj h).symm,small⟩
  · contradiction

/- Both conversions keep the value where the other type has it; where it has not, `unsigned long`
wraps, and so does `int` with the compilers in use. -/
def toULong (a : Int) : Nat := (a % 18446744073709551616).toNat

def toInt (n : Nat) : Int := ((n : Int) + 2147483648) % 4294967296 - 2147483648

def uadd (a b : Nat) : Nat := (a+b) % ulongLimit
def usub (a b : Nat) : Nat := (a+(ulongLimit-b % ulongLimit)) % ulongLimit
def umul (a b : Nat) : Nat := a*b % ulongLimit

def IsInt (a : Int) : Prop := -2147483648 ≤ a ∧ a < 2147483648
instance (a : Int) : Decidable (IsInt a) := by unfold IsInt; infer_instance

theorem toULongNat {n : Nat} (small : n < ulongLimit) : toULong n = n := by
  simp only [toULong,ulongLimit] at *
  omega

theorem toIntNat {n : Nat} (small : n < intLimit) : toInt n = n := by
  simp only [toInt,intLimit] at *
  omega

theorem toIntIsInt (n : Nat) : IsInt (toInt n) := by
  simp only [IsInt,toInt]
  omega

theorem uaddOk {a b : Nat} (small : a+b < ulongLimit) : uadd a b = a+b := Nat.mod_eq_of_lt small

theorem umulOk {a b : Nat} (small : a*b < ulongLimit) : umul a b = a*b := Nat.mod_eq_of_lt small

theorem usubOk {a b : Nat} (order : b ≤ a) (small : a < ulongLimit) : usub a b = a-b := by
  simp only [usub,ulongLimit] at *
  omega

section Sweep

variable {α : Type} {cond : α → Bool} {next : α → α}

/- `for (i = a; cond(i); i = next(i))`: the values for which the body runs, `none` when the loop
is still going after `fuel` tests of the condition. -/
def sweep (cond : α → Bool) (next : α → α) : Nat → α → Option (List α)
  | 0, _ => none
  | fuel+1, a => if cond a then (sweep cond next fuel (next a)).map (a :: ·) else some []

theorem sweepMore {fuel more : Nat} {a : α} {xs : List α} (done : sweep cond next fuel a = some xs)
    (order : fuel ≤ more) : sweep cond next more a = some xs := by
  induction fuel generalizing more a xs with
  | zero => contradiction
  | succ fuel ih =>
    obtain ⟨rest,rfl⟩ : ∃ rest, more = rest+1 := ⟨more-1,by omega⟩
    simp only [sweep] at done ⊢
    split at done
    · obtain ⟨ys,tail,rfl⟩ := Option.map_eq_some_iff.mp done
      rw [if_pos ‹_›,ih tail (by omega)]
      rfl
    · rw [if_neg ‹_›,done]

/- The rule for a loop whose values are known beforehand. -/
theorem sweepSequence (cond : α → Bool) (next : α → α) (f : Nat → α) (n : Nat)
    (advance : ∀ m, m < n → next (f m) = f (m+1))
    (on : ∀ m, m < n → cond (f m) = true) (off : cond (f n) = false) :
    sweep cond next (n+1) (f 0) = some ((List.range n).map f) := by
  induction n generalizing f with
  | zero => simp [sweep,off]
  | succ n ih =>
    rw [sweep,if_pos (on 0 (by omega)),advance 0 (by omega)]
    have tail := ih (fun m => f (m+1)) (fun m small => advance (m+1) (by omega))
      (fun m small => on (m+1) (by omega)) off
    rw [tail,List.range_succ_eq_map,List.map_cons,List.map_map]
    rfl

theorem sweepForever (cond : α → Bool) (next : α → α) (always : ∀ a, cond a = true) (fuel : Nat) (a : α) :
    sweep cond next fuel a = none := by
  induction fuel generalizing a with
  | zero => rfl
  | succ fuel ih => simp [sweep,always a,ih]

end Sweep

section Calls

variable {α β : Type} {f : α → Except Stop β}

theorem bindInv {x : Except Stop α} {b : β} (ok : (x >>= f) = .ok b) : ∃ a, x = .ok a ∧ f a = .ok b := by
  cases x with
  | error e => contradiction
  | ok a => exact ⟨a,rfl,ok⟩

theorem mapMOk {g : α → β} {xs : List α} (each : ∀ x ∈ xs, f x = .ok (g x)) : xs.mapM f = .ok (xs.map g) := by
  induction xs with
  | nil => rfl
  | cons x xs ih =>
    rw [List.mapM_cons,each x (by simp),ih (fun y mem => each y (by simp [mem]))]
    rfl

theorem mapMInv {xs : List α} {ys : List β} (ok : xs.mapM f = .ok ys) : ∀ x ∈ xs, ∃ y, f x = .ok y := by
  induction xs generalizing ys with
  | nil => simp
  | cons x xs ih =>
    rw [List.mapM_cons] at ok
    obtain ⟨y,head,rest⟩ := bindInv ok
    obtain ⟨ys,tail,_⟩ := bindInv rest
    intro z mem
    rcases List.mem_cons.mp mem with rfl | mem
    · exact ⟨y,head⟩
    · exact ih tail z mem

theorem mapMStops {xs ys : List α} {a : α} {stop : Stop} (before : ∀ x ∈ xs, ∃ b, f x = .ok b)
    (stops : f a = .error stop) : (xs ++ a::ys).mapM f = .error stop := by
  induction xs with
  | nil =>
    rw [List.nil_append,List.mapM_cons,stops]
    rfl
  | cons x xs ih =>
    obtain ⟨b,head⟩ := before x List.mem_cons_self
    rw [List.cons_append,List.mapM_cons,head,bindOk,ih (fun y mem => before y (List.mem_cons_of_mem x mem))]
    rfl

/- `for (int i = 0; i < n; i++)`, where `n` may be more than an `int` holds. -/
def forInt (n : Nat) (body : Nat → Except Stop β) : Except Stop (List β) :=
  (List.range n).mapM (fun i => do
    let b ← body i
    let _ ← int (i+1)
    .ok b)

section ForInt

variable {n : Nat} {body : Nat → Except Stop β}

theorem forIntOk {g : Nat → β} (small : n < intLimit) (each : ∀ i, i < n → body i = .ok (g i)) :
    forInt n body = .ok ((List.range n).map g) := by
  refine mapMOk (fun i mem => ?_)
  have inside := List.mem_range.mp mem
  rw [each i inside,bindOk,intOk (by omega),bindOk]

theorem forIntStops {j : Nat} {stop : Stop} (inside : j < n) (small : j < intLimit)
    (before : ∀ i, i < j → ∃ b, body i = .ok b) (stops : body j = .error stop) : forInt n body = .error stop := by
  have parts : List.range n = List.range j ++ j :: (List.range (n-j-1)).map (fun i => j+(i+1)) := by
    rw [show n = j+(n-j-1+1) by omega,List.range_add,List.range_succ_eq_map]
    simp [Function.comp_def]
  rw [forInt,parts]
  refine mapMStops (fun i mem => ?_) ?_
  · have early := List.mem_range.mp mem
    obtain ⟨b,ran⟩ := before i early
    exact ⟨b,by rw [ran,bindOk,intOk (by omega),bindOk]⟩
  · rw [stops,bindError]

end ForInt

def Defined (r : Except Stop β) : Prop := r ≠ .error .undefined

theorem definedOk (b : β) : Defined (.ok b) := fun h => by contradiction

theorem definedExit (message : List Char) : Defined (.error (.exited message) : Except Stop β) := fun h => by
  cases Except.error.inj h

theorem definedBind {x : Except Stop α} (first : Defined x) (rest : ∀ a, x = .ok a → Defined (f a)) :
    Defined (x >>= f) := by
  cases x with
  | error e =>
    intro undefined
    cases Except.error.inj undefined
    exact first rfl
  | ok a => exact rest a rfl

theorem definedMapM {xs : List α} (each : ∀ x ∈ xs, Defined (f x)) : Defined (xs.mapM f) := by
  induction xs with
  | nil => exact definedOk []
  | cons x xs ih =>
    rw [List.mapM_cons]
    refine definedBind (each x (by simp)) (fun y _ => ?_)
    exact definedBind (ih (fun z mem => each z (List.mem_cons_of_mem x mem))) (fun ys _ => definedOk (y::ys))

theorem definedInt {n : Nat} (small : n < intLimit) : Defined (int n) := by
  rw [intOk small]
  exact definedOk n

end Calls

/- Two nested counting loops visit the numbers below the product in order. -/
theorem rangeProduct {α : Type} (f : Nat → Nat → α) (rows : Nat) {columns : Nat} (some : 0 < columns) :
    (List.range rows).flatMap (fun j => (List.range columns).map (f j)) =
      (List.range (rows*columns)).map (fun k => f (k/columns) (k % columns)) := by
  induction rows with
  | zero => simp
  | succ rows ih =>
    rw [List.range_succ,List.flatMap_append,ih,Nat.succ_mul,List.range_add,List.map_append]
    simp only [List.flatMap_cons,List.flatMap_nil,List.append_nil,List.map_map]
    congr 1
    refine List.map_congr_left (fun i mem => ?_)
    have small := List.mem_range.mp mem
    simp only [Function.comp]
    rw [Nat.mul_comm rows columns,Nat.mul_add_div some,Nat.mul_add_mod,Nat.div_eq_of_lt small,Nat.mod_eq_of_lt small]
    rfl

end MmRegression.CInt
