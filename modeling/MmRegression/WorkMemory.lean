import MmRegression.Layout

/-! `do_work_memory` of `lib/include.h`: one function called for the chunks of all backends. The
function may change the state it is given, so the same definition serves the operations that
remap, advise or bind the chunks; the results at the end are for one that only answers. -/
namespace MmRegression

section Rule

variable {σ : Type} (func : Nat → σ → Int × σ)

/- The loop over the chunks of one backend, which is left at the first failure. -/
def workRow : List Nat → Int → σ → Int × σ
  | [], ret, s => (ret,s)
  | k::ks, _, s =>
      let r := func k s
      if r.1 ≠ 0 then r else workRow ks r.1 r.2

def rowChunks (nrChunk j : Nat) : List Nat := (List.range nrChunk).map (fun i => i+j*nrChunk)

/- `ret` is not initialised: the argument is what it happens to hold. -/
def doWorkMemory (nrMemTypes nrChunk : Nat) (ret : Int) (s : σ) : Int × σ :=
  (List.range nrMemTypes).foldl (fun r j => workRow func (rowChunks nrChunk j) r.1 r.2) (ret,s)

theorem rowChunksRange (nrChunk j : Nat) : rowChunks nrChunk j = List.range' (j*nrChunk) nrChunk := by
  rw [rowChunks,List.range'_eq_map_range]
  exact List.map_congr_left (fun i _ => Nat.add_comm _ _)

theorem workSucc (nrMemTypes nrChunk : Nat) (ret : Int) (s : σ) :
    doWorkMemory func (nrMemTypes+1) nrChunk ret s =
      workRow func (List.range' (nrMemTypes*nrChunk) nrChunk) (doWorkMemory func nrMemTypes nrChunk ret s).1
        (doWorkMemory func nrMemTypes nrChunk ret s).2 := by
  rw [doWorkMemory,List.range_succ,List.foldl_append,← doWorkMemory,List.foldl_cons,List.foldl_nil,rowChunksRange]

variable {func}

theorem rowPass {k : Nat} {s : σ} (zero : (func k s).1 = 0) (ks : List Nat) (ret : Int) :
    workRow func (k::ks) ret s = workRow func ks 0 (func k s).2 := by
  simp [workRow,zero]

theorem rowFail {k : Nat} {s : σ} (failed : (func k s).1 ≠ 0) (ks : List Nat) (ret : Int) :
    workRow func (k::ks) ret s = func k s := by
  simp [workRow,failed]

theorem rowRule (inv : Nat → σ → Prop) {k n : Nat} {ret : Int} {s : σ}
    (step : ∀ m s, k ≤ m → m < k+n → inv m s → (func m s).1 = 0 → inv (m+1) (func m s).2)
    (fails : ∀ m s, k ≤ m → m < k+n → inv m s → (func m s).1 ≠ 0 → inv (k+n) (func m s).2) (start : inv k s) :
    inv (k+n) (workRow func (List.range' k n) ret s).2 := by
  induction n generalizing k ret s with
  | zero => exact start
  | succ n ih =>
    rw [List.range'_succ]
    by_cases zero : (func k s).1 = 0
    · rw [rowPass zero]
      rw [show k+(n+1) = k+1+n by omega] at fails ⊢
      exact ih (fun m s low high => step m s (by omega) (by omega)) (fun m s low high => fails m s (by omega) high)
        (step k s (le_refl k) (by omega) start zero)
    · rw [rowFail zero]
      exact fails k s (le_refl k) (by omega) start zero

/-- The rule for a pass over all chunks: `inv k` holds when chunk `k` is next. A chunk that fails
ends the row of its backend, so its state has to do for every later chunk. -/
theorem workRule (func : Nat → σ → Int × σ) (inv : Nat → σ → Prop) (nrMemTypes nrChunk : Nat) (ret : Int) (s : σ)
    (step : ∀ m s, m < nrMemTypes*nrChunk → inv m s → (func m s).1 = 0 → inv (m+1) (func m s).2)
    (fails : ∀ m s, m < nrMemTypes*nrChunk → inv m s → (func m s).1 ≠ 0 → ∀ next, m < next → inv next (func m s).2)
    (start : inv 0 s) : inv (nrMemTypes*nrChunk) (doWorkMemory func nrMemTypes nrChunk ret s).2 := by
  induction nrMemTypes with
  | zero => simpa [doWorkMemory] using start
  | succ rows ih =>
    rw [Nat.succ_mul] at step fails ⊢
    rw [workSucc]
    refine rowRule inv (fun m s _ high => step m s high) (fun m s _ high held failed => ?_)
      (ih (fun m s high => step m s (by omega)) (fun m s high => fails m s (by omega)))
    exact fails m s high held failed _ high

theorem rowPasses (inv : Nat → σ → Prop) {k n : Nat} {ret : Int} {s : σ} (some : 0 < n)
    (step : ∀ m s, k ≤ m → m < k+n → inv m s → (func m s).1 = 0 ∧ inv (m+1) (func m s).2) (start : inv k s) :
    (workRow func (List.range' k n) ret s).1 = 0 := by
  induction n generalizing k ret s with
  | zero => omega
  | succ n ih =>
    obtain ⟨zero,next⟩ := step k s (le_refl k) (by omega) start
    rw [List.range'_succ,rowPass zero]
    rcases Nat.eq_zero_or_pos n with rfl | more
    · rfl
    · exact ih more (fun m s low high => step m s (by omega) (by omega)) next

theorem workPasses (func : Nat → σ → Int × σ) (inv : Nat → σ → Prop) {nrMemTypes nrChunk : Nat} (ret : Int) (s : σ)
    (types : 0 < nrMemTypes) (chunks : 0 < nrChunk)
    (step : ∀ m s, m < nrMemTypes*nrChunk → inv m s → (func m s).1 = 0 ∧ inv (m+1) (func m s).2) (start : inv 0 s) :
    (doWorkMemory func nrMemTypes nrChunk ret s).1 = 0 ∧
      inv (nrMemTypes*nrChunk) (doWorkMemory func nrMemTypes nrChunk ret s).2 := by
  refine ⟨?_,workRule func inv _ _ ret s (fun m s small held _ => (step m s small held).2)
    (fun m s small held failed => absurd (step m s small held).1 failed) start⟩
  obtain ⟨rows,rfl⟩ : ∃ rows, nrMemTypes = rows+1 := ⟨nrMemTypes-1,by omega⟩
  rw [Nat.succ_mul] at step
  rw [workSucc]
  refine rowPasses inv chunks (fun m s _ high => step m s high) ?_
  exact workRule func inv _ _ ret s (fun m s small held _ => (step m s (by omega) held).2)
    (fun m s small held failed => absurd (step m s (by omega) held).1 failed) start

end Rule

section Reports

variable (result : Nat → Int)

/- A function that answers for each chunk, with the chunks it was called for. -/
def answering (k : Nat) (calls : List Nat) : Int × List Nat := (result k,calls ++ [k])

theorem rowOutcome (k n : Nat) (ret : Int) (calls : List Nat) :
    (∃ m, k ≤ m ∧ m < k+n ∧ (∀ l, k ≤ l → l < m → result l = 0) ∧ result m ≠ 0 ∧
      workRow (answering result) (List.range' k n) ret calls = (result m,calls ++ List.range' k (m+1-k))) ∨
    ((∀ l, k ≤ l → l < k+n → result l = 0) ∧
      workRow (answering result) (List.range' k n) ret calls = (if n = 0 then ret else 0,calls ++ List.range' k n)) := by
  induction n generalizing k ret calls with
  | zero => exact .inr ⟨fun l low high => by omega,by simp [workRow]⟩
  | succ n ih =>
    rw [List.range'_succ]
    by_cases zero : result k = 0
    · rw [rowPass (show (answering result k calls).1 = 0 from zero)]
      simp only [answering]
      rcases ih (k+1) 0 (calls ++ [k]) with ⟨m,low,high,before,failed,ran⟩ | ⟨all,ran⟩
      · refine .inl ⟨m,by omega,by omega,fun l from' upto => ?_,failed,?_⟩
        · rcases Nat.eq_or_lt_of_le from' with rfl | later
          · exact zero
          · exact before l later upto
        · rw [ran,show m+1-k = (m+1-(k+1))+1 by omega,List.range'_succ,List.append_assoc]
          rfl
      · refine .inr ⟨fun l from' upto => ?_,?_⟩
        · rcases Nat.eq_or_lt_of_le from' with rfl | later
          · exact zero
          · exact all l later (by omega)
        · rw [ran,List.append_assoc,if_neg (Nat.succ_ne_zero n),ite_self]
          rfl
    · rw [rowFail (show (answering result k calls).1 ≠ 0 from zero)]
      exact .inl ⟨k,le_refl k,by omega,fun l low high => by omega,zero,by
        rw [show k+1-k = 1 by omega]; rfl⟩

theorem rangeUpto (a n : Nat) : List.range a ++ List.range' a n = List.range (a+n) := by
  rw [List.range_add,List.range'_eq_map_range]

/- While nothing fails the pass calls every chunk in order. -/
theorem workZeros {nrMemTypes nrChunk : Nat} (ret : Int) (chunks : 1 ≤ nrChunk)
    (zeros : ∀ k < nrMemTypes*nrChunk, result k = 0) :
    doWorkMemory (answering result) nrMemTypes nrChunk ret [] =
      (if nrMemTypes = 0 then ret else 0,List.range (nrMemTypes*nrChunk)) := by
  induction nrMemTypes with
  | zero => simp [doWorkMemory]
  | succ rows ih =>
    rw [Nat.succ_mul] at zeros
    rw [workSucc,ih (fun k small => zeros k (by omega))]
    rcases rowOutcome result (rows*nrChunk) nrChunk (if rows = 0 then ret else 0) (List.range (rows*nrChunk)) with
      ⟨m,_,high,_,failed,_⟩ | ⟨_,ran⟩
    · exact absurd (zeros m high) failed
    · rw [ran,if_neg (by omega),if_neg (by omega),Nat.succ_mul,rangeUpto]

/- The first chunk of every backend is called, whatever happened before. -/
theorem firstCalled {nrMemTypes nrChunk j : Nat} (ret : Int) (chunks : 1 ≤ nrChunk) (row : j < nrMemTypes) :
    j*nrChunk ∈ (doWorkMemory (answering result) nrMemTypes nrChunk ret []).2 := by
  induction nrMemTypes with
  | zero => omega
  | succ rows ih =>
    rw [workSucc]
    have kept : ∀ n, 0 < n → j*nrChunk ∈ (doWorkMemory (answering result) rows nrChunk ret []).2 ++
        List.range' (rows*nrChunk) n := by
      intro n some
      rcases Nat.lt_or_ge j rows with earlier | last
      · exact List.mem_append_left _ (ih earlier)
      · rw [show j = rows by omega]
        exact List.mem_append_right _ (List.mem_range'_1.mpr ⟨le_refl _,by omega⟩)
    rcases rowOutcome result (rows*nrChunk) nrChunk (doWorkMemory (answering result) rows nrChunk ret []).1
      (doWorkMemory (answering result) rows nrChunk ret []).2 with ⟨m,low,_,_,_,ran⟩ | ⟨_,ran⟩
    · rw [ran]
      exact kept _ (by omega)
    · rw [ran]
      exact kept _ (by omega)

/- What a caller may take the returned value and the calls for. -/
structure WorkReports (nrMemTypes nrChunk : Nat) (outcome : Int × List Nat) : Prop where
  zero : outcome.1 = 0 ↔ ∀ k < nrMemTypes*nrChunk, result k = 0
  failure : (∃ k < nrMemTypes*nrChunk, result k ≠ 0) →
    outcome.1 ≠ 0 ∧ ∃ k < nrMemTypes*nrChunk, result k = outcome.1
  order : outcome.2.Pairwise (· < ·)
  stops : ∀ k ∈ outcome.2, k < nrMemTypes*nrChunk ∧ ∀ l < k, result l = 0

theorem lastRowReports {rows nrChunk : Nat} (ret : Int) (chunks : 1 ≤ nrChunk) (zeros : ∀ k < rows*nrChunk, result k = 0) :
    WorkReports result (rows+1) nrChunk (doWorkMemory (answering result) (rows+1) nrChunk ret []) := by
  have before (m : Nat) (row : ∀ l, rows*nrChunk ≤ l → l < m → result l = 0) : ∀ l < m, result l = 0 := by
    intro l less
    rcases Nat.lt_or_ge l (rows*nrChunk) with earlier | later
    · exact zeros l earlier
    · exact row l later less
  rw [workSucc,workZeros result ret chunks zeros]
  rcases rowOutcome result (rows*nrChunk) nrChunk (if rows = 0 then ret else 0) (List.range (rows*nrChunk)) with
    ⟨m,low,high,row,failed,ran⟩ | ⟨row,ran⟩
  · have inside : m < (rows+1)*nrChunk := by rw [Nat.succ_mul]; exact high
    rw [ran,rangeUpto,show rows*nrChunk+(m+1-rows*nrChunk) = m+1 by omega]
    refine ⟨⟨fun zero => absurd zero failed,fun all => absurd (all m inside) failed⟩,fun _ => ⟨failed,m,inside,rfl⟩,
      List.pairwise_lt_range,fun k mem => ?_⟩
    have upto := List.mem_range.mp mem
    exact ⟨by omega,fun l less => before m row l (by omega)⟩
  · have all : ∀ k < (rows+1)*nrChunk, result k = 0 := by
      rw [Nat.succ_mul]
      exact before _ row
    rw [ran,if_neg (by omega),rangeUpto,← Nat.succ_mul]
    refine ⟨⟨fun _ => all,fun _ => rfl⟩,?_,List.pairwise_lt_range,fun k mem => ?_⟩
    · rintro ⟨k,small,failed⟩
      exact absurd (all k small) failed
    · have small := List.mem_range.mp mem
      exact ⟨small,fun l less => all l (less.trans small)⟩

/- The inner `break` leaves the outer loop running: a failure is reported, and nothing is called
after it, exactly when it is in the last backend. -/
theorem workReportsIff {nrMemTypes nrChunk : Nat} (types : 1 ≤ nrMemTypes) (chunks : 1 ≤ nrChunk) (ret : Int) :
    WorkReports result nrMemTypes nrChunk (doWorkMemory (answering result) nrMemTypes nrChunk ret []) ↔
      ∀ k < (nrMemTypes-1)*nrChunk, result k = 0 := by
  constructor
  · intro reports k small
    have row : k/nrChunk+1 < nrMemTypes := by
      have := Nat.div_lt_of_lt_mul (Nat.mul_comm _ nrChunk ▸ small)
      omega
    have next : k < (k/nrChunk+1)*nrChunk := by
      rw [Nat.mul_comm]
      exact Nat.lt_mul_div_succ k chunks
    exact (reports.stops _ (firstCalled result ret chunks row)).2 k next
  · intro zeros
    obtain ⟨rows,rfl⟩ : ∃ rows, nrMemTypes = rows+1 := ⟨nrMemTypes-1,by omega⟩
    exact lastRowReports result ret chunks zeros

/- Three backends with one chunk each, of which only the last fails. -/
theorem workReportsLast :
    WorkReports (fun k => if k = 2 then -1 else 0) 3 1 (doWorkMemory (answering (fun k => if k = 2 then -1 else 0)) 3 1 7 []) :=
  (workReportsIff (fun k => if k = 2 then -1 else 0) (by decide) (by decide) 7).mpr (by decide)

/- Two backends with one chunk each: the failure of the first is lost. -/
theorem workHidesFailure :
    doWorkMemory (answering (fun k => if k = 0 then -1 else 0)) 2 1 7 [] = (0,[0,1]) ∧
    ¬WorkReports (fun k => if k = 0 then -1 else 0) 2 1
      (doWorkMemory (answering (fun k => if k = 0 then -1 else 0)) 2 1 7 []) := by
  have ran : doWorkMemory (answering (fun k => if k = 0 then -1 else 0)) 2 1 7 [] = (0,[0,1]) := by decide
  refine ⟨ran,fun reports => ?_⟩
  have := reports.zero.mp (by rw [ran]) 0 (by decide)
  simp at this

end Reports

end MmRegression
