import Mathlib.Data.List.Basic

/-! Shell `for` loops. The body of `run` yields an exit status and may break on it; the status
of the last iteration survives the loop, and so does the initial one when the word list is
empty. The body of `iterate` says itself whether the loop goes on. Nothing here names the
harness. -/
namespace MmRegression.Loop

variable {ι σ : Type}

def run (body : ι → σ → Nat × σ) (stop : Nat → Bool) : List ι → Nat → σ → Nat × σ
  | [], ret, s => (ret,s)
  | i::is, _, s =>
      let r := body i s
      if stop r.1 then r else run body stop is r.1 r.2

/- The two projections that matter when the status of an iteration does not
depend on the state: what the loop leaves in `ret`, and which iterations ran. -/
def status (o : ι → Nat) (stop : Nat → Bool) : List ι → Nat → Nat
  | [], ret => ret
  | i::is, _ => if stop (o i) then o i else status o stop is (o i)

def ran (o : ι → Nat) (stop : Nat → Bool) : List ι → List ι
  | [] => []
  | i::is => if stop (o i) then [i] else i :: ran o stop is

theorem runEq {body : ι → σ → Nat × σ} {o : ι → Nat} {inv : σ → Prop} (stop : Nat → Bool)
    (fixed : ∀ i s, inv s → (body i s).1 = o i) (keeps : ∀ i s, inv s → inv (body i s).2)
    (is : List ι) (ret : Nat) {s : σ} (start : inv s) :
    run body stop is ret s =
      (status o stop is ret,(ran o stop is).foldl (fun s i => (body i s).2) s) := by
  induction is generalizing ret s with
  | nil => rfl
  | cons i is ih =>
    simp only [run,status,ran,fixed i s start]
    split
    · rw [← fixed i s start]; rfl
    · rw [ih _ (keeps i s start)]; rfl

theorem runKeeps {body : ι → σ → Nat × σ} (inv : σ → Prop) (stop : Nat → Bool)
    (keeps : ∀ i s, inv s → inv (body i s).2) (is : List ι) (ret : Nat) {s : σ} (start : inv s) :
    inv (run body stop is ret s).2 := by
  induction is generalizing ret s with
  | nil => exact start
  | cons i is ih =>
    simp only [run]
    split
    · exact keeps i s start
    · exact ih _ (keeps i s start)

theorem runRelated {τ : Type} {body : ι → σ → Nat × σ} {body' : ι → τ → Nat × τ} (rel : σ → τ → Prop)
    (stop : Nat → Bool) (related : ∀ i s t, rel s t → (body i s).1 = (body' i t).1 ∧ rel (body i s).2 (body' i t).2)
    (is : List ι) (ret : Nat) {s : σ} {t : τ} (start : rel s t) :
    (run body stop is ret s).1 = (run body' stop is ret t).1 ∧
      rel (run body stop is ret s).2 (run body' stop is ret t).2 := by
  induction is generalizing ret s t with
  | nil => exact ⟨rfl,start⟩
  | cons i is ih =>
    obtain ⟨status,next⟩ := related i s t start
    simp only [run]
    rw [← status]
    split
    · exact ⟨status,next⟩
    · exact ih _ next

theorem outcome (o : ι → Nat) (stop : Nat → Bool) (is : List ι) (ret : Nat) :
    (∃ pre i post, is = pre ++ i :: post ∧ (∀ j ∈ pre, stop (o j) = false) ∧ stop (o i) = true ∧
      status o stop is ret = o i ∧ ran o stop is = pre ++ [i]) ∨
    ((∀ j ∈ is, stop (o j) = false) ∧ status o stop is ret = (is.getLast?.map o).getD ret ∧
      ran o stop is = is) := by
  induction is generalizing ret with
  | nil => exact .inr ⟨by simp,rfl,rfl⟩
  | cons i is ih =>
    cases h : stop (o i) with
    | true => exact .inl ⟨[],i,is,rfl,by simp,h,by simp [status,h],by simp [ran,h]⟩
    | false =>
      rcases ih (o i) with ⟨pre,k,post,rfl,before,stops,st,rn⟩ | ⟨before,st,rn⟩
      · refine .inl ⟨i::pre,k,post,rfl,?_,stops,by simp [status,h,st],by simp [ran,h,rn]⟩
        intro j hj
        rcases List.mem_cons.mp hj with rfl | hj
        · exact h
        · exact before j hj
      · refine .inr ⟨?_,?_,by simp [ran,h,rn]⟩
        · intro j hj
          rcases List.mem_cons.mp hj with rfl | hj
          · exact h
          · exact before j hj
        · cases is with
          | nil => simp [status,h]
          | cons k is => simp [status,h] at st ⊢; exact st

def seq (n : Nat) : List Nat := List.range' 1 n

theorem memSeq {n i : Nat} : i ∈ seq n ↔ 1 ≤ i ∧ i ≤ n := by
  simp only [seq,List.mem_range'_1]; omega

theorem seqSplit {n i : Nat} {pre post : List Nat} (h : seq n = pre ++ i :: post) :
    pre = seq (i-1) ∧ 1 ≤ i ∧ i ≤ n := by
  obtain ⟨k,hk,hpre,rest⟩ := List.range'_eq_append_iff.mp h
  obtain ⟨start,positive,_⟩ := List.range'_eq_cons_iff.mp rest.symm
  subst hpre start
  refine ⟨?_,by omega,by omega⟩
  rw [seq]
  congr 1
  omega

theorem seqLast {n : Nat} (h : 1 ≤ n) : (seq n).getLast? = some n := by
  obtain ⟨m,rfl⟩ : ∃ m, n = m+1 := ⟨n-1,by omega⟩
  simp [seq,List.range'_concat]; omega

theorem oneIteration (o : Nat → Nat) (stop : Nat → Bool) (ret : Nat) :
    status o stop (seq 1) ret = o 1 ∧ ran o stop (seq 1) = [1] := by
  cases h : stop (o 1) with
  | true => exact ⟨by simp [seq,status,h],by simp [seq,ran,h]⟩
  | false => exact ⟨by simp [seq,status,h],by simp [seq,ran,h]⟩

/- The same case split over `seq n`, in numbers. -/
theorem seqOutcome (o : Nat → Nat) (stop : Nat → Bool) (n ret : Nat) :
    (∃ i, 1 ≤ i ∧ i ≤ n ∧ (∀ j, 1 ≤ j → j < i → stop (o j) = false) ∧ stop (o i) = true ∧
      status o stop (seq n) ret = o i ∧ ran o stop (seq n) = seq i) ∨
    ((∀ j, 1 ≤ j → j ≤ n → stop (o j) = false) ∧
      status o stop (seq n) ret = (if n = 0 then ret else o n) ∧ ran o stop (seq n) = seq n) := by
  rcases outcome o stop (seq n) ret with ⟨pre,i,post,eq,before,stops,st,rn⟩ | ⟨before,st,rn⟩
  · obtain ⟨rfl,low,high⟩ := seqSplit eq
    refine .inl ⟨i,low,high,fun j hl hr => before j (memSeq.mpr ⟨hl,by omega⟩),stops,st,?_⟩
    rw [rn,seq,seq]
    obtain ⟨m,rfl⟩ : ∃ m, i = m+1 := ⟨i-1,by omega⟩
    simp [List.range'_concat,Nat.add_comm]
  · refine .inr ⟨fun j hl hr => before j (memSeq.mpr ⟨hl,hr⟩),?_,rn⟩
    rw [st]
    split
    · rename_i zero; subst zero; rfl
    · rw [seqLast (by omega)]; rfl

theorem memRan {o : Nat → Nat} {stop : Nat → Bool} {n i : Nat} :
    i ∈ ran o stop (seq n) ↔ 1 ≤ i ∧ i ≤ n ∧ ∀ j, 1 ≤ j → j < i → stop (o j) = false := by
  rcases seqOutcome o stop n 0 with ⟨k,low,high,before,stops,_,rn⟩ | ⟨never,_,rn⟩
  · rw [rn,memSeq]
    constructor
    · rintro ⟨hl,hr⟩
      exact ⟨hl,by omega,fun j h1 h2 => before j h1 (by omega)⟩
    · rintro ⟨hl,_,free⟩
      refine ⟨hl,?_⟩
      by_contra late
      simp [free k low (by omega)] at stops
  · rw [rn,memSeq]
    constructor
    · rintro ⟨hl,hr⟩
      exact ⟨hl,hr,fun j h1 h2 => never j h1 (by omega)⟩
    · rintro ⟨hl,hr,_⟩
      exact ⟨hl,hr⟩

theorem ranIncreasing (o : Nat → Nat) (stop : Nat → Bool) (n : Nat) :
    (ran o stop (seq n)).Pairwise (· < ·) := by
  rcases seqOutcome o stop n 0 with ⟨k,_,_,_,_,_,rn⟩ | ⟨_,_,rn⟩
  · rw [rn]; exact List.pairwise_lt_range'
  · rw [rn]; exact List.pairwise_lt_range'

def iterate (body : ι → σ → Bool × σ) : List ι → σ → σ
  | [], s => s
  | i::is, s =>
      let r := body i s
      if r.1 then iterate body is r.2 else r.2

theorem iterateKeeps {body : ι → σ → Bool × σ} (inv : σ → Prop) (keeps : ∀ i s, inv s → inv (body i s).2)
    (is : List ι) {s : σ} (start : inv s) : inv (iterate body is s) := by
  induction is generalizing s with
  | nil => exact start
  | cons i is ih =>
    simp only [iterate]
    split
    · exact ih (keeps i s start)
    · exact keeps i s start

theorem iterateRelated {τ : Type} {body : ι → σ → Bool × σ} {body' : ι → τ → Bool × τ} (rel : σ → τ → Prop)
    (related : ∀ i s t, rel s t → (body i s).1 = (body' i t).1 ∧ rel (body i s).2 (body' i t).2)
    (is : List ι) {s : σ} {t : τ} (start : rel s t) : rel (iterate body is s) (iterate body' is t) := by
  induction is generalizing s t with
  | nil => exact start
  | cons i is ih =>
    obtain ⟨on,next⟩ := related i s t start
    simp only [iterate]
    rw [← on]
    split
    · exact ih next
    · exact next

def Along (body : ι → σ → Bool × σ) (guard : ι → σ → Prop) : List ι → σ → Prop
  | [], _ => True
  | i::is, s => guard i s ∧ ((body i s).1 = true → Along body guard is (body i s).2)

theorem alongTrivial (body : ι → σ → Bool × σ) (is : List ι) (s : σ) : Along body (fun _ _ => True) is s := by
  induction is generalizing s with
  | nil => trivial
  | cons i is ih => exact ⟨trivial,fun _ => ih _⟩

theorem alongFirst {body : Nat → σ → Bool × σ} {guard : Nat → σ → Prop} {n : Nat} (positive : 1 ≤ n) {s : σ}
    (along : Along body guard (seq n) s) : guard 1 s := by
  obtain ⟨m,rfl⟩ : ∃ m, n = m+1 := ⟨n-1,by omega⟩
  exact along.1

theorem iterateRange {body : Nat → σ → Bool × σ} {guard : Nat → σ → Prop} (inv post : Nat → σ → Prop) {k n : Nat}
    (goesOn : ∀ i s, k ≤ i → i < k+n → guard i s → inv i s → (body i s).1 = true → inv (i+1) (body i s).2)
    (stops : ∀ i s, k ≤ i → i < k+n → guard i s → inv i s → (body i s).1 = false → post (i+1) (body i s).2)
    (ends : ∀ s, inv (k+n) s → post (k+n) s) {s : σ} (along : Along body guard (List.range' k n) s)
    (start : inv k s) : ∃ next, k ≤ next ∧ next ≤ k+n ∧ post next (iterate body (List.range' k n) s) := by
  induction n generalizing k s with
  | zero => exact ⟨k,by omega,by omega,ends s start⟩
  | succ n ih =>
    rw [List.range'_succ] at along ⊢
    obtain ⟨met,rest⟩ := along
    rw [iterate]
    cases on : (body k s).1 with
    | false => exact ⟨k+1,by omega,by omega,stops k s (by omega) (by omega) met start on⟩
    | true =>
      obtain ⟨next,low,high,done⟩ := ih (k := k+1) (s := (body k s).2)
        (fun i s low high => goesOn i s (by omega) (by omega))
        (fun i s low high => stops i s (by omega) (by omega))
        (fun s whole => by rw [show k+1+n = k+(n+1) by omega] at whole ⊢; exact ends s whole)
        (rest on) (goesOn k s (by omega) (by omega) met start on)
      exact ⟨next,by omega,by omega,done⟩

/-- The rule of pre- and postconditions for a loop over `seq n` that may be left early, when every
iteration that is entered meets `guard`: `inv i` holds when iteration `i` begins, and `post i`
after the loop was left before it. -/
theorem iterateAlong {body : Nat → σ → Bool × σ} {guard : Nat → σ → Prop} (inv post : Nat → σ → Prop) {n : Nat}
    (goesOn : ∀ i s, 1 ≤ i → i ≤ n → guard i s → inv i s → (body i s).1 = true → inv (i+1) (body i s).2)
    (stops : ∀ i s, 1 ≤ i → i ≤ n → guard i s → inv i s → (body i s).1 = false → post (i+1) (body i s).2)
    (ends : ∀ s, inv (n+1) s → post (n+1) s) {s : σ} (along : Along body guard (seq n) s) (start : inv 1 s) :
    ∃ next, 1 ≤ next ∧ next ≤ n+1 ∧ post next (iterate body (seq n) s) := by
  have rule := iterateRange inv post (k := 1) (n := n) (fun i s low high => goesOn i s low (by omega))
    (fun i s low high => stops i s low (by omega)) (by rwa [Nat.add_comm 1 n]) along start
  rwa [Nat.add_comm 1 n] at rule

theorem iterateSeq {body : Nat → σ → Bool × σ} (inv post : Nat → σ → Prop) {n : Nat}
    (goesOn : ∀ i s, 1 ≤ i → i ≤ n → inv i s → (body i s).1 = true → inv (i+1) (body i s).2)
    (stops : ∀ i s, 1 ≤ i → i ≤ n → inv i s → (body i s).1 = false → post (i+1) (body i s).2)
    (ends : ∀ s, inv (n+1) s → post (n+1) s) {s : σ} (start : inv 1 s) :
    ∃ next, 1 ≤ next ∧ next ≤ n+1 ∧ post next (iterate body (seq n) s) :=
  iterateAlong inv post (fun i s low high _ => goesOn i s low high) (fun i s low high _ => stops i s low high)
    ends (alongTrivial body (seq n) s) start

end MmRegression.Loop
