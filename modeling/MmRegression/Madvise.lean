import MmRegression.Layout
import MmRegression.Operation

/-! `do_madvise` and `__do_madvise_chunk` of `lib/include.h`: the calls of `madvise` for one chunk,
with the start, the length and the step of the ranges given in pages. -/
namespace MmRegression

open CInt

inductive Madv where
  | normal | random | sequential | willneed | dontneed | free | remove | dontfork | dofork | hwpoison | softOffline
  | mergeable | unmergeable | hugepage | nohugepage | dontdump | dodump
  deriving DecidableEq, Repr

structure MadviseArg where
  advice : Madv
  size : Int
  hpPartial : Int
  offset : Int
  length : Int
  step : Int
  deriving DecidableEq, Repr

/- One call `madvise(addr, length, advice)`; a negative length becomes a huge `size_t`. -/
structure Advised where
  addr : Nat
  length : Int
  advice : Madv
  deriving DecidableEq, Repr

def HPS : Nat := 0x200000

section Model

def adviceNames : List (Text × Madv) :=
  [("normal".toList,.normal),("random".toList,.random),("sequential".toList,.sequential),("willneed".toList,.willneed),
    ("dontneed".toList,.dontneed),("free".toList,.free),("remove".toList,.remove),("dontfork".toList,.dontfork),
    ("fork".toList,.dofork),("hwpoison".toList,.hwpoison),("hard_offline".toList,.hwpoison),
    ("soft_offline".toList,.softOffline),("mergeable".toList,.mergeable),("unmergeable".toList,.unmergeable),
    ("hugepage".toList,.hugepage),("nohugepage".toList,.nohugepage),("dontdump".toList,.dontdump),("dodump".toList,.dodump)]

def opcInt (opc : OpControl) (key : Text) : Int := ((opcGetValue opc key).map (fun t => toInt (strtoul t))).getD 0

/- The argument that `do_madvise` hands to `do_work_memory`. -/
def doMadvise (opc : OpControl) : Except Stop MadviseArg :=
  match opcGetValue opc "advice".toList with
  | none => .error (.exited "do_madvise need to set advice:MADV_*\n".toList)
  | some name =>
      match adviceNames.lookup name with
      | none => .error (.exited ("unsupported madvice: ".toList ++ (name ++ ['\n'])))
      | some advice =>
          .ok ⟨advice,opcInt opc "size".toList,opcInt opc "hp_partial".toList,opcInt opc "offset".toList,
            opcInt opc "length".toList,opcInt opc "step".toList⟩

variable (madvise : Advised → Int) (arg : MadviseArg)

def adviseEach : List Advised → List Advised → Int × List Advised
  | [], calls => (0,calls)
  | c::cs, calls => if madvise c ≠ 0 then (madvise c,calls ++ [c]) else adviseEach cs (calls ++ [c])

def hugeCalls (p : Nat) (size : Int) : List Advised :=
  (List.range (uadd (toULong (size-1)/HPS) 1)).map
    (fun i => ⟨uadd p (umul i HPS),umul (toULong arg.hpPartial) PS,arg.advice⟩)

/- The clamp compares, and subtracts, as `unsigned long`. -/
def clamped (size i : Int) : Int :=
  let tmplen := toInt (umul (toULong arg.length) PS)
  if toULong size < uadd (umul (toULong i) PS) (toULong tmplen) then toInt (usub (toULong size) (umul (toULong i) PS))
  else tmplen

def rangeCall (p : Nat) (size i : Int) : Advised := ⟨uadd p (umul (toULong i) PS),clamped arg size i,arg.advice⟩

/- The body of `while (1)`; the bound on the index is tested after the call. -/
def adviseLoop (p : Nat) (size : Int) : Nat → Int → List Advised → Option (Except Stop (Int × List Advised))
  | 0, _, _ => none
  | fuel+1, i, calls =>
      let call := rangeCall arg p size i
      if madvise call ≠ 0 then some (.ok (madvise call,calls ++ [call]))
      else if arg.step = 0 then some (.ok (0,calls ++ [call]))
      else if ¬IsInt (i+arg.step) then some (.error .undefined)
      else if toULong size < umul (toULong (i+arg.step)) PS then some (.ok (0,calls ++ [call]))
      else adviseLoop p size fuel (i+arg.step) (calls ++ [call])

/- With `size` the function ends without a `return`: `garbage` is what its caller then reads. -/
def doMadviseChunk (garbage : Int) (fuel : Nat) (mc : MemChunk) : Option (Except Stop (Int × List Advised)) :=
  if arg.size ≠ 0 then
    let call := ⟨mc.p,arg.size,arg.advice⟩
    some (.ok (if madvise call ≠ 0 then madvise call else garbage,[call]))
  else if arg.hpPartial ≠ 0 then some (.ok (adviseEach madvise (hugeCalls arg mc.p mc.chunkSize) []))
  else if arg.offset ≠ 0 ∨ arg.length ≠ 0 ∨ arg.step ≠ 0 then
    adviseLoop madvise arg mc.p mc.chunkSize fuel arg.offset []
  else
    let call := ⟨mc.p,mc.chunkSize,arg.advice⟩
    some (.ok (madvise call,[call]))

/- The pages that offset, length and step ask for. -/
def PageWanted (q : Nat) : Prop :=
  ∃ m : Nat, (arg.step = 0 → m = 0) ∧ arg.offset+m*arg.step ≤ q ∧ q < arg.offset+m*arg.step+arg.length

/-- When every call succeeds the chunk is done with, every range lies in it, and their union is
that of the wanted pages of the chunk. -/
def MadviseExact (mc : MemChunk) : Prop :=
  ∃ enough calls, (∀ garbage, ∀ fuel ≥ enough, doMadviseChunk (fun _ => 0) arg garbage fuel mc = some (.ok (0,calls))) ∧
    (∀ c ∈ calls, 0 ≤ c.length ∧ mc.p ≤ c.addr ∧ c.addr+c.length ≤ mc.p+mc.chunkSize) ∧
    (∀ a : Int, (∃ c ∈ calls, (c.addr : Int) ≤ a ∧ a < c.addr+c.length) ↔
      ∃ q < mc.chunkSize/PS, PageWanted arg q ∧ (mc.p : Int)+q*PS ≤ a ∧ a < mc.p+(q+1)*PS)

end Model

section Ranges

variable {advice : Madv} {o l step n p : Nat}

/- The ranges of an operation that gives only offset, length and step. -/
def rangeArg (advice : Madv) (o l step : Nat) : MadviseArg := ⟨advice,0,0,o,l,step⟩

theorem pagesULong {i : Nat} (fits : i*PS < intLimit) : umul (toULong i) PS = i*PS := by
  have wide : i*PS < ulongLimit := fits.trans (by decide)
  rw [toULongNat (Nat.lt_of_le_of_lt (Nat.le_mul_of_pos_right i (by decide)) wide),umulOk wide]

theorem clampedEq (size : n ≤ CHUNKSIZE) (length : l*PS < intLimit) {i : Nat} (fits : i*PS < intLimit) :
    clamped (rangeArg advice o l step) (n*PS : Nat) i =
      if n*PS < i*PS+l*PS then toInt (usub (n*PS) (i*PS)) else (l*PS : Nat) := by
  have chunk : n*PS < intLimit := Nat.lt_of_le_of_lt (Nat.mul_le_mul_right PS size) (by decide)
  have both : i*PS+l*PS < ulongLimit := by
    simp only [intLimit,ulongLimit] at *
    omega
  have given : toInt (umul (toULong (rangeArg advice o l step).length) PS) = (l*PS : Nat) := by
    rw [show (rangeArg advice o l step).length = (l : Int) by rfl,pagesULong length,toIntNat length]
  simp only [clamped,given,pagesULong fits,toULongNat (chunk.trans (by decide : intLimit < ulongLimit)),
    toULongNat (length.trans (by decide : intLimit < ulongLimit)),uaddOk both]

theorem clampedInside (size : n ≤ CHUNKSIZE) (length : l*PS < intLimit) {i : Nat} (inside : i ≤ n) :
    clamped (rangeArg advice o l step) (n*PS : Nat) i = (min l (n-i)*PS : Nat) := by
  have chunk : n*PS < intLimit := Nat.lt_of_le_of_lt (Nat.mul_le_mul_right PS size) (by decide)
  have order : i*PS ≤ n*PS := Nat.mul_le_mul_right PS inside
  rw [clampedEq size length (Nat.lt_of_le_of_lt order chunk)]
  split
  · rename_i more
    rw [usubOk order (chunk.trans (by decide)),toIntNat (Nat.lt_of_le_of_lt (Nat.sub_le _ _) chunk)]
    simp only [PS] at *
    omega
  · simp only [PS] at *
    omega

/- Past the end of the chunk the difference is negative. -/
theorem clampedBeyond (size : n ≤ CHUNKSIZE) (length : l*PS < intLimit) {i : Nat} (beyond : n < i) (fits : i*PS < intLimit) :
    clamped (rangeArg advice o l step) (n*PS : Nat) i < 0 := by
  have past : n*PS < i*PS+l*PS := by
    simp only [PS]
    omega
  rw [clampedEq size length fits,if_pos past]
  simp only [toInt,usub,ulongLimit,CHUNKSIZE,PS,intLimit] at *
  omega

/- The call for the pages from `i` on, as far as the chunk has them. -/
def pagesCall (advice : Madv) (p l n i : Nat) : Advised := ⟨p+i*PS,(min l (n-i)*PS : Nat),advice⟩

theorem rangeCallInside (room : p+CHUNKSIZE*PS < ulongLimit) (size : n ≤ CHUNKSIZE) (length : l*PS < intLimit) {i : Nat}
    (inside : i ≤ n) : rangeCall (rangeArg advice o l step) p (n*PS : Nat) i = pagesCall advice p l n i := by
  have below : i*PS ≤ CHUNKSIZE*PS := Nat.mul_le_mul_right PS (inside.trans size)
  rw [rangeCall,clampedInside size length inside,pagesULong (Nat.lt_of_le_of_lt below (by decide)),uaddOk (by omega)]
  rfl

theorem adviseTurn (size : n ≤ CHUNKSIZE) (stride : step*PS < intLimit) {i : Nat} (start : i*PS < intLimit) (fuel : Nat)
    (calls : List Advised) :
    adviseLoop (fun _ => 0) (rangeArg advice o l step) p (n*PS : Nat) (fuel+1) i calls =
      if step = 0 ∨ n < i+step then some (.ok (0,calls ++ [rangeCall (rangeArg advice o l step) p (n*PS : Nat) i]))
      else adviseLoop (fun _ => 0) (rangeArg advice o l step) p (n*PS : Nat) fuel (i+step : Nat)
        (calls ++ [rangeCall (rangeArg advice o l step) p (n*PS : Nat) i]) := by
  have own : (rangeArg advice o l step).step = (step : Int) := rfl
  have next : (i : Int)+step = ((i+step : Nat) : Int) := by omega
  have below : i+step < intLimit := by
    simp only [PS,intLimit] at *
    omega
  have fits : IsInt ((i+step : Nat) : Int) := by
    simp only [IsInt,intLimit] at *
    omega
  have wide : (i+step)*PS < ulongLimit :=
    (Nat.mul_lt_mul_of_pos_right below (by decide)).trans (by decide : intLimit*PS < ulongLimit)
  have scaled : umul (toULong ((i+step : Nat) : Int)) PS = (i+step)*PS := by
    rw [toULongNat (below.trans (by decide)),umulOk wide]
  have bound : toULong ((n*PS : Nat) : Int) = n*PS :=
    toULongNat (Nat.lt_of_le_of_lt (Nat.mul_le_mul_right PS size) (by decide))
  have zero : ((step : Int) = 0) = (step = 0) := propext (by omega)
  have past : (n*PS < (i+step)*PS) = (n < i+step) := propext (Nat.mul_lt_mul_right (by decide))
  generalize called : rangeCall (rangeArg advice o l step) p (n*PS : Nat) i = call
  rw [adviseLoop,called]
  simp only [ne_eq,not_true_eq_false,if_false,own,next,fits,scaled,bound,zero,past]
  by_cases once : step = 0
  · rw [if_pos once,if_pos (.inl once)]
  · by_cases beyond : n < i+step
    · rw [if_neg once,if_pos beyond,if_pos (.inr beyond)]
    · rw [if_neg once,if_neg beyond,if_neg (not_or.mpr ⟨once,beyond⟩)]

theorem adviseTurnInside (room : p+CHUNKSIZE*PS < ulongLimit) (size : n ≤ CHUNKSIZE) (length : l*PS < intLimit)
    (stride : step*PS < intLimit) {i : Nat} (inside : i ≤ n) (fuel : Nat) (calls : List Advised) :
    adviseLoop (fun _ => 0) (rangeArg advice o l step) p (n*PS : Nat) (fuel+1) i calls =
      if step = 0 ∨ n < i+step then some (.ok (0,calls ++ [pagesCall advice p l n i]))
      else adviseLoop (fun _ => 0) (rangeArg advice o l step) p (n*PS : Nat) fuel (i+step : Nat)
        (calls ++ [pagesCall advice p l n i]) := by
  have below : i*PS ≤ CHUNKSIZE*PS := Nat.mul_le_mul_right PS (inside.trans size)
  rw [adviseTurn size stride (Nat.lt_of_le_of_lt below (by decide)),rangeCallInside room size length inside]

/- From page `i` on the loop turns `(n-i)/step+1` times, once for a step of 0. -/
theorem adviseLoopRun (room : p+CHUNKSIZE*PS < ulongLimit) (size : n ≤ CHUNKSIZE) (length : l*PS < intLimit)
    (stride : step*PS < intLimit) (count : Nat) {i fuel : Nat} (inside : i ≤ n) (many : (n-i)/step = count)
    (enough : count+1 ≤ fuel) (calls : List Advised) :
    adviseLoop (fun _ => 0) (rangeArg advice o l step) p (n*PS : Nat) fuel i calls =
      some (.ok (0,calls ++ (List.range (count+1)).map (fun m => pagesCall advice p l n (i+m*step)))) := by
  induction count generalizing i fuel calls with
  | zero =>
    obtain ⟨rest,rfl⟩ : ∃ rest, fuel = rest+1 := ⟨fuel-1,by omega⟩
    have last : step = 0 ∨ n < i+step := by
      rcases Nat.eq_zero_or_pos step with none | some
      · exact .inl none
      · have := (Nat.div_eq_zero_iff_lt some).mp many
        exact .inr (by omega)
    rw [adviseTurnInside room size length stride inside,if_pos last]
    simp
  | succ count ih =>
    obtain ⟨rest,rfl⟩ : ∃ rest, fuel = rest+1 := ⟨fuel-1,by omega⟩
    have some : 0 < step := by
      rcases Nat.eq_zero_or_pos step with rfl | some
      · rw [Nat.div_zero] at many
        omega
      · exact some
    have within : step ≤ n-i := by
      by_contra short
      rw [Nat.div_eq_of_lt (by omega)] at many
      omega
    have less : (n-(i+step))/step = count := by
      rw [Nat.div_eq_sub_div some within] at many
      rw [show n-(i+step) = n-i-step by omega]
      omega
    have goesOn : ¬(step = 0 ∨ n < i+step) := by omega
    rw [adviseTurnInside room size length stride inside,if_neg goesOn,ih (by omega) less (by omega),List.append_assoc,
      List.range_succ_eq_map (n := count+1),List.map_cons,List.map_map]
    simp only [Nat.zero_mul,Nat.add_zero,List.cons_append,List.nil_append,Function.comp_def,Nat.succ_mul,Nat.add_assoc,
      Nat.add_comm step]

theorem rangeChunk {madvise : Advised → Int} (given : o ≠ 0 ∨ l ≠ 0 ∨ step ≠ 0) (garbage : Int) (fuel : Nat) (mc : MemChunk) :
    doMadviseChunk madvise (rangeArg advice o l step) garbage fuel mc =
      adviseLoop madvise (rangeArg advice o l step) mc.p mc.chunkSize fuel o [] := by
  have branch : ((o : Int) ≠ 0 ∨ (l : Int) ≠ 0 ∨ (step : Int) ≠ 0) := by omega
  have size : (rangeArg advice o l step).size = 0 := rfl
  have hpPartial : (rangeArg advice o l step).hpPartial = 0 := rfl
  rw [doMadviseChunk,if_neg (not_not.mpr size),if_neg (not_not.mpr hpPartial)]
  exact if_pos branch

theorem wantedRange {q : Nat} : PageWanted (rangeArg advice o l step) q ↔
    ∃ m, (step = 0 → m = 0) ∧ o+m*step ≤ q ∧ q < o+m*step+l := by
  simp only [PageWanted,rangeArg]
  exact exists_congr (fun m => by norm_cast)

theorem pagesCallUnion {m q : Nat} (a : Int) (inside : o+m*step ≤ n) (low : (p : Int)+q*PS ≤ a) (high : a < p+(q+1)*PS) :
    ((pagesCall advice p l n (o+m*step)).addr ≤ a ∧
      a < (pagesCall advice p l n (o+m*step)).addr+(pagesCall advice p l n (o+m*step)).length) ↔
      o+m*step ≤ q ∧ q < o+m*step+l ∧ q < n := by
  generalize o+m*step = i at *
  simp only [pagesCall,PS] at *
  omega

theorem rangeExact {mc : MemChunk} (sized : mc.chunkSize = n*PS) (room : mc.p+CHUNKSIZE*PS < ulongLimit) (size : n ≤ CHUNKSIZE)
    (length : l*PS < intLimit) (stride : step*PS < intLimit) (given : o ≠ 0 ∨ l ≠ 0 ∨ step ≠ 0) (inside : o ≤ n) :
    MadviseExact (rangeArg advice o l step) mc := by
  have pages : mc.chunkSize/PS = n := by rw [sized,Nat.mul_div_cancel n (by decide)]
  have starts : ∀ m < (n-o)/step+1, o+m*step ≤ n := by
    intro m small
    have := (Nat.mul_le_mul_right step (Nat.le_of_lt_succ small)).trans (Nat.div_mul_le_self (n-o) step)
    omega
  refine ⟨(n-o)/step+1,(List.range ((n-o)/step+1)).map (fun m => pagesCall advice mc.p l n (o+m*step)),?_,?_,?_⟩
  · intro garbage fuel enough
    rw [rangeChunk given,sized,adviseLoopRun room size length stride _ inside rfl enough]
    rfl
  · intro c mem
    obtain ⟨m,turn,rfl⟩ := List.mem_map.mp mem
    have start := starts m (List.mem_range.mp turn)
    rw [sized]
    generalize o+m*step = i at *
    simp only [pagesCall,PS]
    omega
  · intro a
    rw [pages]
    constructor
    · rintro ⟨c,mem,low,high⟩
      obtain ⟨m,turn,rfl⟩ := List.mem_map.mp mem
      have small := List.mem_range.mp turn
      have start := starts m small
      have above : (mc.p : Int) ≤ a := by
        simp only [pagesCall] at low
        omega
      obtain ⟨q,lower,upper⟩ : ∃ q : Nat, (mc.p : Int)+q*PS ≤ a ∧ a < mc.p+(q+1)*PS := by
        refine ⟨((a-mc.p)/PS).toNat,?_,?_⟩ <;> simp only [PS] <;> omega
      obtain ⟨from',upto,small'⟩ := (pagesCallUnion a start lower upper).mp ⟨low,high⟩
      refine ⟨q,small',wantedRange.mpr ⟨m,fun none => ?_,from',upto⟩,lower,upper⟩
      rw [none,Nat.div_zero] at small
      omega
    · rintro ⟨q,small,wanted,low,high⟩
      obtain ⟨m,single,lower,upper⟩ := wantedRange.mp wanted
      have turn : m < (n-o)/step+1 := by
        rcases Nat.eq_zero_or_pos step with none | some
        · rw [single none]
          exact Nat.succ_pos _
        · exact Nat.lt_succ_of_le ((Nat.le_div_iff_mul_le some).mpr (by omega))
      refine ⟨_,List.mem_map.mpr ⟨m,List.mem_range.mpr turn,rfl⟩,?_⟩
      exact (pagesCallUnion a (by omega) low high).mpr ⟨lower,upper,small⟩

/- A start past the end: the bound is tested only after the first call, whose length is negative. -/
theorem rangeBeyond (advice : Madv) {mc : MemChunk} (sized : mc.chunkSize = n*PS) (size : n ≤ CHUNKSIZE) (start : o*PS < intLimit)
    (length : l*PS < intLimit) (stride : step*PS < intLimit) (beyond : n < o) (fuel : Nat) (garbage : Int) :
    doMadviseChunk (fun _ => 0) (rangeArg advice o l step) garbage (fuel+1) mc =
      some (.ok (0,[rangeCall (rangeArg advice o l step) mc.p mc.chunkSize o])) ∧
    (rangeCall (rangeArg advice o l step) mc.p mc.chunkSize o).length < 0 := by
  rw [sized,rangeChunk (by omega),sized,adviseTurn size stride start,if_pos (.inr (by omega)),List.nil_append]
  refine ⟨rfl,?_⟩
  simp only [rangeCall]
  exact clampedBeyond size length beyond start

theorem beyondInexact {mc : MemChunk} (sized : mc.chunkSize = n*PS) (size : n ≤ CHUNKSIZE) (start : o*PS < intLimit)
    (length : l*PS < intLimit) (stride : step*PS < intLimit) (beyond : n < o) :
    ¬MadviseExact (rangeArg advice o l step) mc := by
  rintro ⟨enough,calls,ran,inside,_⟩
  obtain ⟨only,negative⟩ := rangeBeyond advice sized size start length stride beyond enough 0
  have same := only.symm.trans (ran 0 (enough+1) (Nat.le_succ enough))
  have single : calls = [rangeCall (rangeArg advice o l step) mc.p mc.chunkSize o] :=
    (congrArg Prod.snd (Except.ok.inj (Option.some.inj same))).symm
  have := (inside _ (by rw [single]; exact List.mem_singleton.mpr rfl)).1
  omega

theorem madviseExactIff {kernel : Kernel} (grants : kernel.Grants) {g : Globals} {writes : List (Nat × MemChunk)}
    (mapped : doMmap kernel g = .ok writes) {mc : MemChunk} (member : mc ∈ fill g writes) (advice : Madv) (o l step : Nat)
    (given : o ≠ 0 ∨ l ≠ 0 ∨ step ≠ 0) (start : o*PS < intLimit) (length : l*PS < intLimit) (stride : step*PS < intLimit) :
    MadviseExact (rangeArg advice o l step) mc ↔ o*PS ≤ mc.chunkSize := by
  obtain ⟨n,sized,_,size,room⟩ := chunkPages grants mapped member
  have inside : o*PS ≤ n*PS ↔ o ≤ n := Nat.mul_le_mul_right_iff (by decide)
  rw [sized,inside]
  constructor
  · intro exact'
    by_contra beyond
    exact beyondInexact sized size start length stride (by omega) exact'
  · exact rangeExact sized (room.trans (by decide)) size length stride given

/- Two pages from every fourth on, starting at the second, of the first chunk of two backends. -/
def spacedString : Text := "madvise:advice=dontneed:offset=1:length=2:step=4".toList

theorem spacedExact : ((parseOperationArgs spacedString).bind doMadvise) = .ok (rangeArg .dontneed 1 2 4) ∧
    ∃ g writes, setup grantingKernel twoBackends = .ok g ∧ doMmap grantingKernel g = .ok writes ∧
      ∃ mc ∈ fill g writes, MadviseExact (rangeArg .dontneed 1 2 4) mc := by
  refine ⟨by decide +kernel,_,_,twoSetup,twoMapped,_,twoMember (k := 0) (by decide),?_⟩
  exact (madviseExactIff grantingGrants twoMapped (twoMember (by decide)) .dontneed 1 2 4 (by decide) (by decide)
    (by decide) (by decide)).mpr (by decide)

/- The second chunk of the first backend has one page; an offset of two pages is past its end. -/
theorem offsetPastChunk : ((parseOperationArgs "madvise:advice=dontneed:offset=2:length=1".toList).bind doMadvise) =
      .ok (rangeArg .dontneed 2 1 0) ∧
    ∃ g writes, setup grantingKernel twoBackends = .ok g ∧ doMmap grantingKernel g = .ok writes ∧
      ∃ mc ∈ fill g writes, mc.chunkSize = 4096 ∧ ¬MadviseExact (rangeArg .dontneed 2 1 0) mc := by
  refine ⟨by decide +kernel,_,_,twoSetup,twoMapped,_,twoMember (k := 1) (by decide),by decide,?_⟩
  exact beyondInexact (n := 1) (by decide) (by decide) (by decide) (by decide) (by decide) (by decide)

end Ranges

end MmRegression
