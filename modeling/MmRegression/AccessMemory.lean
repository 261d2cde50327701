import MmRegression.Layout

/-! `read_memory`, `write_memory` and `access_memory` of `lib/include.h`: what the six sweeps over a
chunk touch, forward and in reverse. The index is an `int` in some of them and an
`unsigned long` in the others, while the step is always `unsigned long`. -/
namespace MmRegression

open CInt

inductive Touch where
  | load (addr : Int)
  | store (addr : Int)
  | memset (addr : Int) (size : Nat)
  | pwrite (offset : Nat)
  deriving DecidableEq, Repr

section Model

/- `i -= PS` and `i += PS` on an `int`. -/
def intDown (i : Int) : Int := toInt (usub (toULong i) PS)
def intUp (i : Int) : Int := toInt (uadd (toULong i) PS)

def sweepDown (fuel : Nat) (size : Int) : Option (List Int) := sweep (fun i => decide (0 ≤ i)) intDown fuel (intDown size)

def readMemory (fuel : Nat) (p size : Int) (reverse : Bool) : Option (List Touch) :=
  let is := if reverse then sweepDown fuel size else sweep (fun i => decide (i < size)) intUp fuel 0
  is.map (List.map (fun i => .load (p+i)))

def writeMemory (fuel : Nat) (p size : Int) (reverse : Bool) : Option (List Touch) :=
  if reverse then (sweepDown fuel size).map (List.map (fun i => .store (p+i))) else some [.memset p (toULong size)]

/- `i >= 0` holds of every `unsigned long`. -/
def syswrite (fuel : Nat) (offset : Nat) (size : Int) (reverse : Bool) : Option (List Touch) :=
  let is := if reverse then sweep (fun i => decide (0 ≤ i)) (fun i => usub i PS) fuel (usub (toULong size) PS)
    else sweep (fun i => decide (i < toULong size)) (fun i => uadd i PS) fuel 0
  is.map (List.map (fun i => .pwrite (uadd offset i)))

def accessMemory (fuel : Nat) (mc : MemChunk) (type : Option Text) (reverse : Bool) : Option (List Touch) :=
  match type with
  | none =>
      if mc.memType = .zero ∨ mc.memType = .hugeZero then readMemory fuel mc.p mc.chunkSize reverse
      else if mc.memType = .devmem then some [.memset mc.p PS,.memset (mc.p+2*PS) PS]
      else writeMemory fuel mc.p mc.chunkSize reverse
  | some type =>
      if type = "read".toList then readMemory fuel mc.p mc.chunkSize reverse
      else if type = "write".toList then writeMemory fuel mc.p mc.chunkSize reverse
      else if type = "syswrite".toList then syswrite fuel mc.offset mc.chunkSize reverse
      else some []

/- The bytes of memory that a touch reaches. -/
def Touch.reaches (a : Int) : Touch → Prop
  | .load addr => a = addr
  | .store addr => a = addr
  | .memset addr size => addr ≤ a ∧ a < addr+size
  | .pwrite _ => False

def touchesPage (p : Int) (q : Nat) (touches : List Touch) : Prop :=
  ∃ t ∈ touches, ∃ a, t.reaches a ∧ p+q*PS ≤ a ∧ a < p+(q+1)*PS

/- The page that one turn of a page-stepping loop is for. -/
def steppedPage (mc : MemChunk) : Touch → Option Int
  | .load addr => some ((addr-mc.p)/PS)
  | .store addr => some ((addr-mc.p)/PS)
  | .memset _ _ => none
  | .pwrite offset => some (((offset : Int)-mc.offset)/PS)

/- The memory of a chunk: that of `/dev/mem` has three pages, whatever its size says, as
`prepare_memory` maps them and `__munmap_chunk` unmaps them. -/
def chunkReach (mc : MemChunk) : Nat := if mc.memType = .devmem then max mc.chunkSize (3*PS) else mc.chunkSize

structure Sweeps (mc : MemChunk) (touches : List Touch) : Prop where
  inside : ∀ t ∈ touches, ∀ a, t.reaches a → (mc.p : Int) ≤ a ∧ a < mc.p+chunkReach mc
  file : ∀ offset, .pwrite offset ∈ touches → mc.offset ≤ offset ∧ offset+PS ≤ mc.offset+mc.chunkSize
  once : touches.filterMap (steppedPage mc) = [] ∨
    (touches.filterMap (steppedPage mc)).Perm ((List.range (mc.chunkSize/PS)).map (fun q : Nat => (q : Int)))

/-- Both directions end, stay inside the chunk and touch the same pages, or write the same pages
of the file. -/
def AccessAgrees (mc : MemChunk) (type : Option Text) : Prop :=
  ∃ enough forward backward, (∀ fuel ≥ enough, accessMemory fuel mc type false = some forward) ∧
    (∀ fuel ≥ enough, accessMemory fuel mc type true = some backward) ∧
    Sweeps mc forward ∧ Sweeps mc backward ∧
    (∀ q, touchesPage mc.p q forward ↔ touchesPage mc.p q backward) ∧
    (∀ offset, .pwrite offset ∈ forward ↔ .pwrite offset ∈ backward) ∧
    (type = some "syswrite".toList → ∀ offset, .pwrite offset ∈ forward ↔
      ∃ i < mc.chunkSize/PS, offset = mc.offset+i*PS)

end Model

section Sweep

variable {n : Nat}

theorem intDownPage {i : Int} (low : 0 ≤ i) (high : i < 2147483648) : intDown i = i-4096 := by
  simp only [intDown,toInt,usub,toULong,ulongLimit,PS]
  omega

theorem intUpPage {i : Int} (low : 0 ≤ i) (high : i < 2147483648-4096) : intUp i = i+4096 := by
  simp only [intUp,toInt,uadd,toULong,ulongLimit,PS]
  omega

theorem mapReverse {α : Type} (f : Nat → α) (n : Nat) :
    (List.range n).map (fun m => f (n-1-m)) = (List.range n).reverse.map f := by
  refine List.ext_getElem (by simp) (fun i left right => ?_)
  simp

theorem sweepDownPages (positive : 0 < n) (fits : n*PS < intLimit) {fuel : Nat} (enough : n+1 ≤ fuel) :
    sweepDown fuel (n*PS : Nat) = some ((List.range n).reverse.map (fun q : Nat => (q : Int)*PS)) := by
  simp only [PS,intLimit] at fits
  have pages : (List.range n).map (fun m : Nat => ((n : Int)-1-m)*4096) =
      (List.range n).reverse.map (fun q : Nat => (q : Int)*4096) := by
    rw [← mapReverse]
    refine List.map_congr_left (fun m mem => ?_)
    have := List.mem_range.mp mem
    congr 1
    omega
  have first : intDown ((n*PS : Nat) : Int) = ((n : Int)-1-(0 : Nat))*4096 := by
    rw [intDownPage (by omega) (by simp only [PS]; omega)]
    simp only [PS]
    omega
  have run := sweepSequence (fun i => decide (0 ≤ i)) intDown (fun m : Nat => ((n : Int)-1-m)*4096) n
    (fun m small => by rw [intDownPage (by omega) (by omega)]; omega)
    (fun m small => decide_eq_true (by omega)) (decide_eq_false (by omega))
  rw [sweepDown,first,sweepMore run enough,pages]
  rfl

theorem sweepUpPages (fits : n*PS < intLimit) {fuel : Nat} (enough : n+1 ≤ fuel) :
    sweep (fun i => decide (i < ((n*PS : Nat) : Int))) intUp fuel 0 =
      some ((List.range n).map (fun q : Nat => (q : Int)*PS)) := by
  simp only [PS,intLimit] at fits ⊢
  have run := sweepSequence (fun i => decide (i < ((n*4096 : Nat) : Int))) intUp
    (fun m : Nat => (m : Int)*4096) n (fun m small => by rw [intUpPage (by omega) (by omega)]; omega)
    (fun m small => decide_eq_true (by omega)) (decide_eq_false (by omega))
  rw [show (0 : Int) = ((0 : Nat) : Int)*4096 by omega]
  exact sweepMore run enough

end Sweep

section Agreement

variable {mc : MemChunk} {n : Nat}

/- The two touches that a page-stepping loop makes in memory. -/
def Touch.single (t : Int → Touch) : Prop := t = .load ∨ t = .store

theorem chunkReachWhole (mc : MemChunk) : mc.chunkSize ≤ chunkReach mc := by
  rw [chunkReach]
  split
  · exact Nat.le_max_left _ _
  · exact le_refl _

theorem stepsSweep (sized : mc.chunkSize = n*PS) {t : Int → Touch} (single : Touch.single t) {pages : List Nat}
    (perm : pages.Perm (List.range n)) :
    Sweeps mc (pages.map (fun q : Nat => t (mc.p+(q : Int)*PS))) ∧
      ∀ q, touchesPage mc.p q (pages.map (fun q : Nat => t (mc.p+(q : Int)*PS))) ↔ q < n := by
  have reached (addr a : Int) : (t addr).reaches a ↔ a = addr := by
    rcases single with rfl | rfl <;> exact Iff.rfl
  have stepped (q : Nat) : steppedPage mc (t (mc.p+(q : Int)*PS)) = some (q : Int) := by
    have page : (((mc.p : Int)+(q : Int)*PS)-mc.p)/PS = q := by
      simp only [PS]
      omega
    rcases single with rfl | rfl <;> exact congrArg some page
  have below : ∀ q ∈ pages, q < n := fun q mem => List.mem_range.mp (perm.mem_iff.mp mem)
  refine ⟨⟨?_,?_,.inr ?_⟩,fun q => ⟨?_,fun small => ?_⟩⟩
  · intro touch mem a reaches
    obtain ⟨q,inside,rfl⟩ := List.mem_map.mp mem
    have small := below q inside
    have whole := chunkReachWhole mc
    rw [(reached _ a).mp reaches]
    simp only [PS] at *
    omega
  · intro offset mem
    obtain ⟨q,_,eq⟩ := List.mem_map.mp mem
    rcases single with rfl | rfl <;> contradiction
  · rw [sized,Nat.mul_div_cancel n (by decide),List.filterMap_map]
    have each : (steppedPage mc ∘ fun q : Nat => t (mc.p+(q : Int)*PS)) = fun q : Nat => some (q : Int) := funext stepped
    rw [each,List.filterMap_eq_map']
    exact perm.map _
  · rintro ⟨touch,mem,a,reaches,low,high⟩
    obtain ⟨l,inside,rfl⟩ := List.mem_map.mp mem
    have small := below l inside
    rw [(reached _ a).mp reaches] at low high
    simp only [PS] at low high
    omega
  · refine ⟨_,List.mem_map.mpr ⟨q,perm.mem_iff.mpr (List.mem_range.mpr small),rfl⟩,_,(reached _ _).mpr rfl,Int.le_refl _,?_⟩
    simp only [PS]
    omega

theorem memsetSweeps (sized : mc.chunkSize = n*PS) (fits : mc.chunkSize < intLimit) :
    Sweeps mc [.memset mc.p (toULong mc.chunkSize)] ∧
      ∀ q, touchesPage mc.p q [.memset mc.p (toULong mc.chunkSize)] ↔ q < n := by
  have whole := chunkReachWhole mc
  have length : toULong (mc.chunkSize : Int) = mc.chunkSize := toULongNat (fits.trans (by decide))
  rw [length]
  refine ⟨⟨?_,fun offset mem => by simp at mem,.inl rfl⟩,fun q => ⟨?_,fun small => ?_⟩⟩
  · intro touch mem a reaches
    rw [List.mem_singleton.mp mem] at reaches
    obtain ⟨low,high⟩ := reaches
    omega
  · rintro ⟨touch,mem,a,reaches,low,high⟩
    rw [List.mem_singleton.mp mem] at reaches
    obtain ⟨_,above⟩ := reaches
    simp only [PS] at *
    omega
  · refine ⟨_,List.mem_singleton.mpr rfl,mc.p+(q : Int)*PS,⟨?_,?_⟩,Int.le_refl _,?_⟩ <;> simp only [PS] at * <;> omega

theorem singleOnly {t : Int → Touch} (single : Touch.single t) (pages : List Nat) (p : Int) (offset : Nat) :
    Touch.pwrite offset ∉ pages.map (fun q : Nat => t (p+(q : Int)*PS)) := by
  intro mem
  obtain ⟨q,_,eq⟩ := List.mem_map.mp mem
  rcases single with rfl | rfl <;> contradiction

theorem agreesOf {type : Option Text} (enough : Nat) {forward backward : List Touch} (other : type ≠ some "syswrite".toList)
    (there : ∀ fuel ≥ enough, accessMemory fuel mc type false = some forward)
    (back : ∀ fuel ≥ enough, accessMemory fuel mc type true = some backward) (sweepsThere : Sweeps mc forward)
    (sweepsBack : Sweeps mc backward) (pages : ∀ q, touchesPage mc.p q forward ↔ touchesPage mc.p q backward)
    (memory : ∀ offset, Touch.pwrite offset ∉ forward ++ backward) : AccessAgrees mc type := by
  refine ⟨enough,forward,backward,there,back,sweepsThere,sweepsBack,pages,fun offset => ?_,fun same => absurd same other⟩
  have neither := memory offset
  rw [List.mem_append,not_or] at neither
  exact ⟨fun mem => absurd mem neither.1,fun mem => absurd mem neither.2⟩

theorem readAgrees (sized : mc.chunkSize = n*PS) (positive : 0 < n) (fits : n*PS < intLimit) {type : Option Text}
    (other : type ≠ some "syswrite".toList)
    (reads : ∀ fuel reverse, accessMemory fuel mc type reverse = readMemory fuel mc.p mc.chunkSize reverse) :
    AccessAgrees mc type := by
  obtain ⟨sweepsThere,pagesThere⟩ := stepsSweep sized (.inl rfl) (List.Perm.refl (List.range n))
  obtain ⟨sweepsBack,pagesBack⟩ := stepsSweep sized (.inl rfl) (List.reverse_perm (List.range n))
  refine agreesOf (n+1) other (fun fuel enough => ?_) (fun fuel enough => ?_) sweepsThere sweepsBack
    (fun q => (pagesThere q).trans (pagesBack q).symm) (fun offset mem => ?_)
  · rw [reads,readMemory,if_neg (by decide),sized,sweepUpPages fits enough,Option.map_some,List.map_map]
    rfl
  · rw [reads,readMemory,if_pos rfl,sized,sweepDownPages positive fits enough,Option.map_some,List.map_map]
    rfl
  · rcases List.mem_append.mp mem with mem | mem
    · exact singleOnly (.inl rfl) _ _ _ mem
    · exact singleOnly (.inl rfl) _ _ _ mem

theorem writeAgrees (sized : mc.chunkSize = n*PS) (positive : 0 < n) (fits : n*PS < intLimit) {type : Option Text}
    (other : type ≠ some "syswrite".toList)
    (writes : ∀ fuel reverse, accessMemory fuel mc type reverse = writeMemory fuel mc.p mc.chunkSize reverse) :
    AccessAgrees mc type := by
  obtain ⟨sweepsThere,pagesThere⟩ := memsetSweeps sized (by rw [sized]; exact fits)
  obtain ⟨sweepsBack,pagesBack⟩ := stepsSweep sized (.inr rfl) (List.reverse_perm (List.range n))
  refine agreesOf (n+1) other (fun fuel enough => ?_) (fun fuel enough => ?_) sweepsThere sweepsBack
    (fun q => (pagesThere q).trans (pagesBack q).symm) (fun offset mem => ?_)
  · rw [writes,writeMemory,if_neg (by decide)]
  · rw [writes,writeMemory,if_pos rfl,sized,sweepDownPages positive fits enough,Option.map_some,List.map_map]
    rfl
  · rcases List.mem_append.mp mem with mem | mem
    · simp at mem
    · exact singleOnly (.inr rfl) _ _ _ mem

theorem devmemAgrees (devmem : mc.memType = .devmem) : AccessAgrees mc none := by
  have accessed (fuel : Nat) (reverse : Bool) :
      accessMemory fuel mc none reverse = some [.memset mc.p PS,.memset (mc.p+2*PS) PS] := by
    simp [accessMemory,devmem]
  have pages : 3*PS ≤ chunkReach mc := by
    rw [chunkReach,if_pos devmem]
    exact Nat.le_max_right _ _
  have sweeps : Sweeps mc [.memset mc.p PS,.memset (mc.p+2*PS) PS] := by
    refine ⟨fun t mem a reaches => ?_,fun offset mem => by simp at mem,.inl rfl⟩
    simp only [PS] at pages
    rcases List.mem_pair.mp mem with rfl | rfl
    · obtain ⟨low,high⟩ := reaches
      simp only [PS] at high
      omega
    · obtain ⟨low,high⟩ := reaches
      simp only [PS] at low high
      omega
  exact agreesOf 0 (by decide) (fun fuel _ => accessed fuel false) (fun fuel _ => accessed fuel true)
    sweeps sweeps (fun _ => Iff.rfl) (fun offset => by simp)

/- The test of the downward loop is one of an unsigned index against zero. -/
theorem syswriteForever (fuel : Nat) (mc : MemChunk) : accessMemory fuel mc (some "syswrite".toList) true = none := by
  have always := sweepForever (fun i : Nat => decide (0 ≤ i)) (fun i => usub i PS)
    (fun i => decide_eq_true (Nat.zero_le i)) fuel (usub (toULong mc.chunkSize) PS)
  have chosen : accessMemory fuel mc (some "syswrite".toList) true = syswrite fuel mc.offset mc.chunkSize true := by
    simp [accessMemory]
  rw [chosen,syswrite,if_pos rfl,always]
  rfl

theorem syswriteDisagrees (mc : MemChunk) : ¬AccessAgrees mc (some "syswrite".toList) := by
  rintro ⟨enough,_,_,_,back,_⟩
  have := back enough (le_refl enough)
  rw [syswriteForever] at this
  contradiction

theorem accessAgreesIff (mc : MemChunk) (whole : PS ∣ mc.chunkSize) (positive : 0 < mc.chunkSize)
    (isInt : mc.chunkSize < intLimit) {type : Option Text}
    (known : type ∈ [none,some "read".toList,some "write".toList,some "syswrite".toList]) :
    AccessAgrees mc type ↔ type ≠ some "syswrite".toList := by
  obtain ⟨n,sized⟩ : ∃ n, mc.chunkSize = n*PS := ⟨mc.chunkSize/PS,(Nat.div_mul_cancel whole).symm⟩
  have pages : 0 < n := by
    rw [sized] at positive
    exact Nat.pos_of_mul_pos_right positive
  have fits : n*PS < intLimit := sized ▸ isInt
  constructor
  · rintro agrees rfl
    exact syswriteDisagrees mc agrees
  · intro other
    simp only [List.mem_cons,List.not_mem_nil,or_false] at known
    rcases known with rfl | rfl | rfl | rfl
    · by_cases zero : mc.memType = .zero ∨ mc.memType = .hugeZero
      · exact readAgrees sized pages fits other (fun fuel reverse => by simp [accessMemory,zero])
      · by_cases devmem : mc.memType = .devmem
        · exact devmemAgrees devmem
        · exact writeAgrees sized pages fits other (fun fuel reverse => by simp [accessMemory,zero,devmem])
    · exact readAgrees sized pages fits other (fun fuel reverse => by simp [accessMemory])
    · exact writeAgrees sized pages fits other (fun fuel reverse => by simp [accessMemory])
    · exact absurd rfl other

/- Three pages of an anonymous chunk. -/
def threePages : MemChunk := ⟨.anonymous,12288,allocateBase,0,0⟩

theorem accessAgreesThree : AccessAgrees threePages none :=
  (accessAgreesIff threePages (by decide) (by decide) (by decide) (by simp)).mpr (by decide)

theorem syswriteNeverEnds : ¬AccessAgrees threePages (some "syswrite".toList) ∧
    accessMemory 3 threePages (some "syswrite".toList) true = none ∧
    accessMemory 4 threePages (some "syswrite".toList) false = some [.pwrite 0,.pwrite 4096,.pwrite 8192] :=
  ⟨syswriteDisagrees threePages,syswriteForever 3 threePages,by decide⟩

end Agreement

end MmRegression
