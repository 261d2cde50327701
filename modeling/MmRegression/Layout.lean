import MmRegression.CInt
import MmRegression.Shell
import Mathlib.Data.Nat.Bitwise

/-! `setup` of `test_alloc_generic.c` and `do_mmap` of `lib/include.h`: which entries of `chunkset`
the two fill, and where the chunks are mapped. What the kernel answers is a parameter. -/
namespace MmRegression

open CInt

def PS : Nat := 4096
def CHUNKSIZE : Nat := 0x1000
def allocateBase : Nat := 0x700000000000

inductive Backend where
  | pagecache | anonymous | thp | hugetlbAnon | hugetlbShmem | hugetlbFile | ksm | zero | hugeZero
  | normalShmem | devmem
  deriving DecidableEq, Repr

def Backend.types : List Backend :=
  [.pagecache,.anonymous,.thp,.hugetlbAnon,.hugetlbShmem,.hugetlbFile,.ksm,.zero,.hugeZero,.normalShmem,.devmem]

def nrBackendTypes : Nat := 11

def Backend.ofIndex (i : Nat) : Backend := Backend.types.getD i .devmem

/- The first argument counts the turns left of `while (i < NR_BACKEND_TYPES)`. -/
def findNextBackendIn (bitmap : BitVec 64) : Nat → Nat → Nat
  | 0, i => i
  | left+1, i => if bitmap.getLsbD i then i else findNextBackendIn bitmap left (i+1)

def findNextBackend (bitmap : BitVec 64) (i : Nat) : Nat := findNextBackendIn bitmap (nrBackendTypes-i) i

/- `for_each_backend`. A turn moves on by one at least, so eleven are enough. -/
def forEachBackendIn (bitmap : BitVec 64) : Nat → Nat → List Nat
  | 0, _ => []
  | left+1, i =>
      if i < nrBackendTypes then i :: forEachBackendIn bitmap left (findNextBackend bitmap (i+1)) else []

def forEachBackend (bitmap : BitVec 64) : List Nat :=
  forEachBackendIn bitmap nrBackendTypes (findNextBackend bitmap 0)

def getNrMemTypes (bitmap : BitVec 64) : Nat := (forEachBackend bitmap).length

structure Options where
  nrP : Nat
  bitmap : BitVec 64
  filebase : Bool
  positive : 1 ≤ nrP
  isInt : nrP < intLimit

/- The globals once `setup` has run. -/
structure Globals where
  nrP : Nat
  bitmap : BitVec 64
  nrChunk : Nat
  nrMemTypes : Nat
  nrAllChunks : Nat
  positive : 1 ≤ nrP
  isInt : nrP < intLimit
  chunks : nrChunk = (nrP-1)/CHUNKSIZE+1
  types : nrMemTypes = getNrMemTypes bitmap
  all : nrAllChunks = nrChunk*nrMemTypes

structure MemChunk where
  memType : Backend
  chunkSize : Nat
  p : Nat
  shmkey : Nat
  offset : Nat
  deriving DecidableEq, Repr

inductive Mapping where
  | shared (hugetlb : Bool) (offset : Nat)
  | anonymous (hugetlb : Bool)
  | devMem (offset : Nat)
  deriving DecidableEq, Repr

/-- The answers of the kernel that `setup` and `do_mmap` look at. No two calls of `do_mmap` are
for the same address, so the answers are a function of it; `shmget` has no address of its own and
takes the one its segment is for. The first three are the message the program exits with when a
file cannot be made or opened. -/
structure Kernel where
  createRegularFile : Option Text
  createHugetlbfsFile : Option Text
  openDevMem : Option Text
  mmap : Nat → Nat → Mapping → Option Nat
  adviseHugepage : Nat → Nat → Bool
  shmget : Nat → Nat → Bool → Option Nat
  shmat : Nat → Nat → Option Nat

def orExit : Option Text → Except Stop Unit
  | none => .ok ()
  | some message => .error (.exited message)

def exitIf (b : Bool) (message : Option Text) : Except Stop Unit := if b then orExit message else .ok ()

def allocate (nrP : Nat) (bitmap : BitVec 64) (positive : 1 ≤ nrP) (isInt : nrP < intLimit) : Globals where
  nrP := nrP
  bitmap := bitmap
  nrChunk := (nrP-1)/CHUNKSIZE+1
  nrMemTypes := getNrMemTypes bitmap
  nrAllChunks := ((nrP-1)/CHUNKSIZE+1)*getNrMemTypes bitmap
  positive := positive
  isInt := isInt
  chunks := rfl
  types := rfl
  all := rfl

def setup (kernel : Kernel) (o : Options) : Except Stop Globals := do
  exitIf (o.filebase && o.bitmap.getLsbD 0) kernel.createRegularFile
  exitIf (o.bitmap.getLsbD 5) kernel.createHugetlbfsFile
  exitIf (o.bitmap.getLsbD 10 && o.bitmap &&& ~~~(1#64 <<< 10) != 0)
    (some "-B devmem shouldn't be used with other backend type\n".toList)
  let g := if o.bitmap.getLsbD 10 then allocate 1 o.bitmap (by decide) (by decide)
    else allocate o.nrP o.bitmap o.positive o.isInt
  let _ ← int g.nrAllChunks
  return g

/- At most 2^24, so that the conversion to `int` keeps the value. -/
def getSizeOfChunkedMmapArea (g : Globals) (i : Nat) : Nat :=
  if i % g.nrChunk = g.nrChunk-1 then ((g.nrP-1) % CHUNKSIZE+1)*PS else CHUNKSIZE*PS

/- What `checked_mmap` makes of the answer of `mmap`. -/
def checkMapped {A : Type} [DecidableEq A] [OfNat A 0] (start : A) : Option A → Except Stop A
  | none => .error (.exited "mmap".toList)
  | some map =>
      if start ≠ 0 ∧ map ≠ start then .error (.exited "Not mapped in expected vaddr.\n".toList) else .ok map

def checkedMmap (kernel : Kernel) (start length : Nat) (m : Mapping) : Except Stop Nat :=
  checkMapped start (kernel.mmap start length m)

def allocShmem (kernel : Kernel) (mc : MemChunk) (expAddr : Nat) (hugetlb : Bool) : Except Stop MemChunk :=
  match kernel.shmget expAddr mc.chunkSize hugetlb with
  -- Only `perror`: the chunk stays at NULL.
  | none => .ok { mc with p := 0 }
  | some shmid =>
      if kernel.shmat shmid expAddr = some expAddr then .ok { mc with p := expAddr, shmkey := shmid }
      else .error (.exited "shmat failed".toList)

/- The advice on a fresh mapping is given and its result ignored, but for `THP`. -/
def prepareMemory (kernel : Kernel) (mc : MemChunk) (baseaddr offset : Nat) : Except Stop MemChunk :=
  let mc := { mc with offset := offset }
  let mapped (m : Mapping) : Except Stop MemChunk := do
    return { mc with p := ← checkedMmap kernel baseaddr mc.chunkSize m }
  match mc.memType with
  | .pagecache => mapped (.shared false offset)
  | .anonymous | .ksm | .zero | .hugeZero => mapped (.anonymous false)
  | .thp => do
      let mc ← mapped (.anonymous false)
      if kernel.adviseHugepage mc.p mc.chunkSize then return mc else throw (.exited "madvise".toList)
  | .hugetlbAnon => mapped (.anonymous true)
  | .hugetlbShmem => allocShmem kernel mc baseaddr true
  | .hugetlbFile => mapped (.shared true offset)
  | .normalShmem => allocShmem kernel mc baseaddr false
  | .devmem => do
      orExit kernel.openDevMem
      let p ← checkedMmap kernel baseaddr PS (.anonymous false)
      let _ ← checkedMmap kernel (baseaddr+PS) PS (.devMem 0xf0000)
      let _ ← checkedMmap kernel (baseaddr+2*PS) PS (.anonymous false)
      return { mc with p := p }

def mapChunk (kernel : Kernel) (g : Globals) (backend j i : Nat) : Except Stop (Nat × MemChunk) := do
  let k ← int (i+j*g.nrChunk)
  let page ← int (k*CHUNKSIZE)
  let baseaddr := uadd allocateBase (umul page PS)
  let area ← int (i*CHUNKSIZE)
  let mc := ⟨Backend.ofIndex backend,getSizeOfChunkedMmapArea g i,0,0,0⟩
  return (k,← prepareMemory kernel mc baseaddr (umul area PS))

/- The entries of `chunkset` that are written, in the order they are. -/
def doMmap (kernel : Kernel) (g : Globals) : Except Stop (List (Nat × MemChunk)) := do
  let filled ← (forEachBackend g.bitmap).zipIdx.mapM
    (fun b => (List.range g.nrChunk).mapM (mapChunk kernel g b.1 b.2))
  return filled.flatten

/- `chunkset`, zeroed by `setup`, after the writes. -/
def fill (g : Globals) (writes : List (Nat × MemChunk)) : List MemChunk :=
  writes.foldl (fun cs w => cs.set w.1 w.2) (List.replicate g.nrAllChunks ⟨.pagecache,0,0,0,0⟩)

def entry (chunkset : List MemChunk) (k : Nat) : MemChunk := chunkset.getD k ⟨.pagecache,0,0,0,0⟩

section Backends

variable (bitmap : BitVec 64)

theorem nextSpec (left i : Nat) :
    i ≤ findNextBackendIn bitmap left i ∧ findNextBackendIn bitmap left i ≤ i+left ∧
    (∀ m, i ≤ m → m < findNextBackendIn bitmap left i → bitmap.getLsbD m = false) ∧
    (findNextBackendIn bitmap left i < i+left → bitmap.getLsbD (findNextBackendIn bitmap left i) = true) := by
  induction left generalizing i with
  | zero => exact ⟨by simp [findNextBackendIn],by simp [findNextBackendIn],fun m low high => by
      simp only [findNextBackendIn] at high; omega,fun less => by simp [findNextBackendIn] at less⟩
  | succ left ih =>
    rw [findNextBackendIn]
    split
    · rename_i set
      exact ⟨by omega,by omega,fun m low high => by omega,fun _ => set⟩
    · rename_i clear
      obtain ⟨low,high,between,found⟩ := ih (i+1)
      refine ⟨by omega,by omega,fun m after before => ?_,fun less => found (by omega)⟩
      rcases Nat.eq_or_lt_of_le after with rfl | later
      · simpa using clear
      · exact between m later before

theorem forEachFilter (left i : Nat) (enough : nrBackendTypes-i ≤ left) :
    forEachBackendIn bitmap left (findNextBackend bitmap i) =
      (List.range' i (nrBackendTypes-i)).filter (fun b => bitmap.getLsbD b) := by
  induction left generalizing i with
  | zero =>
    rw [show nrBackendTypes-i = 0 by omega]
    rfl
  | succ left ih =>
    obtain ⟨low,high,between,found⟩ := nextSpec bitmap (nrBackendTypes-i) i
    rw [← findNextBackend] at low high between found
    generalize findNextBackend bitmap i = b at *
    rw [forEachBackendIn]
    split
    · rename_i below
      have cut : List.range' i (nrBackendTypes-i) =
          List.range' i (b-i) ++ b :: List.range' (b+1) (nrBackendTypes-(b+1)) := by
        rw [← List.range'_succ,show nrBackendTypes-i = (b-i)+(nrBackendTypes-(b+1)+1) by omega,
          ← List.range'_append_1,show i+(b-i) = b by omega]
      have none : (List.range' i (b-i)).filter (fun b => bitmap.getLsbD b) = [] := by
        refine List.filter_eq_nil_iff.mpr (fun m mem => ?_)
        have bounds := List.mem_range'_1.mp mem
        simp [between m bounds.1 (by omega)]
      rw [ih (b+1) (by omega),cut,List.filter_append,none,List.nil_append,
        List.filter_cons_of_pos (found (by omega))]
    · rename_i above
      refine (List.filter_eq_nil_iff.mpr (fun m mem => ?_)).symm
      have bounds := List.mem_range'_1.mp mem
      simp [between m bounds.1 (by omega)]

/- The loop visits the selected backends in increasing number, and no others. -/
theorem forEachBackendEq : forEachBackend bitmap = (List.range nrBackendTypes).filter (fun b => bitmap.getLsbD b) := by
  rw [forEachBackend,forEachFilter bitmap nrBackendTypes 0 (by decide),List.range_eq_range']
  rfl

end Backends

section Placement

def regionEnd : Nat := allocateBase+0x80000*(CHUNKSIZE*PS)

/-- The kernel grants what the layout asks for: the files can be made, and a mapping with a hint
address in the free terabytes above `allocate_base` is placed there. -/
structure Kernel.Grants (kernel : Kernel) : Prop where
  regular : kernel.createRegularFile = none
  hugetlbfs : kernel.createHugetlbfsFile = none
  devMem : kernel.openDevMem = none
  mmap : ∀ addr length m, allocateBase ≤ addr → addr+length ≤ regionEnd → kernel.mmap addr length m = some addr
  advise : ∀ addr length, allocateBase ≤ addr → addr+length ≤ regionEnd → kernel.adviseHugepage addr length = true
  shmget : ∀ addr length hugetlb, (kernel.shmget addr length hugetlb).isSome
  shmat : ∀ id addr, allocateBase ≤ addr → addr < regionEnd → kernel.shmat id addr = some addr

def shmkeyOf (kernel : Kernel) (addr length : Nat) : Backend → Nat
  | .hugetlbShmem => (kernel.shmget addr length true).getD 0
  | .normalShmem => (kernel.shmget addr length false).getD 0
  | _ => 0

variable {kernel : Kernel}

theorem checkMappedStart {A : Type} [DecidableEq A] [OfNat A 0] {start map : A} {answer : Option A} (some : start ≠ 0)
    (ok : checkMapped start answer = .ok map) : map = start ∧ answer = Option.some map := by
  cases answer with
  | none => contradiction
  | some given =>
    simp only [checkMapped] at ok
    split at ok
    · contradiction
    · rename_i same
      cases Except.ok.inj ok
      exact ⟨by_contra (fun other => same ⟨some,other⟩),rfl⟩

theorem checkedMmapOk (grants : kernel.Grants) {start length : Nat} {m : Mapping} (low : allocateBase ≤ start)
    (high : start+length ≤ regionEnd) : checkedMmap kernel start length m = .ok start := by
  rw [checkedMmap,grants.mmap start length m low high]
  exact if_neg (fun h => h.2 rfl)

theorem allocShmemOk (grants : kernel.Grants) (mc : MemChunk) {addr : Nat} (hugetlb : Bool)
    (low : allocateBase ≤ addr) (high : addr < regionEnd) :
    allocShmem kernel mc addr hugetlb =
      .ok { mc with p := addr, shmkey := (kernel.shmget addr mc.chunkSize hugetlb).getD 0 } := by
  obtain ⟨shmid,found⟩ := Option.isSome_iff_exists.mp (grants.shmget addr mc.chunkSize hugetlb)
  rw [allocShmem,found]
  simp [grants.shmat shmid addr low high]

theorem prepareMemoryOk (grants : kernel.Grants) (backend : Backend) {size : Nat} (addr offset : Nat)
    (fits : size ≤ CHUNKSIZE*PS) (low : allocateBase ≤ addr) (high : addr+CHUNKSIZE*PS ≤ regionEnd) :
    prepareMemory kernel ⟨backend,size,0,0,0⟩ addr offset =
      .ok ⟨backend,size,addr,shmkeyOf kernel addr size backend,offset⟩ := by
  have whole : addr+size ≤ regionEnd := by omega
  have below : addr < regionEnd := by
    have : 0 < CHUNKSIZE*PS := by decide
    omega
  have pages : PS ≤ CHUNKSIZE*PS ∧ PS+PS ≤ CHUNKSIZE*PS ∧ 2*PS+PS ≤ CHUNKSIZE*PS := by decide
  have mapped (m : Mapping) := checkedMmapOk grants (m := m) low whole
  cases backend with
  | thp => simp [prepareMemory,mapped,grants.advise addr size low whole,shmkeyOf,bind,Except.bind,pure,Except.pure]
  | hugetlbShmem => simp [prepareMemory,allocShmemOk grants _ true low below,shmkeyOf]
  | normalShmem => simp [prepareMemory,allocShmemOk grants _ false low below,shmkeyOf]
  | devmem =>
    have first : checkedMmap kernel addr PS (.anonymous false) = .ok addr := checkedMmapOk grants low (by omega)
    have second : checkedMmap kernel (addr+PS) PS (.devMem 0xf0000) = .ok (addr+PS) :=
      checkedMmapOk grants (by omega) (by omega)
    have third : checkedMmap kernel (addr+2*PS) PS (.anonymous false) = .ok (addr+2*PS) :=
      checkedMmapOk grants (by omega) (by omega)
    simp [prepareMemory,grants.devMem,orExit,first,second,third,shmkeyOf,bind,Except.bind,pure,Except.pure]
  | _ => simp [prepareMemory,mapped,shmkeyOf,bind,Except.bind,pure,Except.pure]

/- What `do_mmap` leaves in entry `k` when the kernel grants it. -/
def chunkAt (kernel : Kernel) (g : Globals) (k : Nat) : MemChunk :=
  let backend := Backend.ofIndex ((forEachBackend g.bitmap).getD (k/g.nrChunk) 0)
  let size := getSizeOfChunkedMmapArea g (k % g.nrChunk)
  let addr := allocateBase+k*(CHUNKSIZE*PS)
  ⟨backend,size,addr,shmkeyOf kernel addr size backend,k % g.nrChunk*(CHUNKSIZE*PS)⟩

theorem sizeCases (g : Globals) (i : Nat) :
    ∃ pages, getSizeOfChunkedMmapArea g i = pages*PS ∧ 1 ≤ pages ∧ pages ≤ CHUNKSIZE := by
  simp only [getSizeOfChunkedMmapArea]
  split
  · exact ⟨_,rfl,by omega,Nat.succ_le_of_lt (Nat.mod_lt _ (by decide))⟩
  · exact ⟨_,rfl,by decide,le_refl _⟩

theorem sizeFits (g : Globals) (i : Nat) : getSizeOfChunkedMmapArea g i ≤ CHUNKSIZE*PS := by
  obtain ⟨pages,size,_,fits⟩ := sizeCases g i
  rw [size]
  exact Nat.mul_le_mul_right PS fits

theorem chunkPositive (g : Globals) : 0 < g.nrChunk := by
  rw [g.chunks]
  exact Nat.succ_pos _

theorem mapChunkOk (grants : kernel.Grants) (g : Globals) {j i : Nat} (column : i < g.nrChunk)
    (few : i+j*g.nrChunk < 0x80000) :
    mapChunk kernel g ((forEachBackend g.bitmap).getD j 0) j i =
      .ok (i+j*g.nrChunk,chunkAt kernel g (i+j*g.nrChunk)) := by
  have row : (i+j*g.nrChunk)/g.nrChunk = j := by
    rw [Nat.add_mul_div_right _ _ (chunkPositive g),Nat.div_eq_of_lt column,Nat.zero_add]
  have inside : (i+j*g.nrChunk) % g.nrChunk = i := by
    rw [Nat.add_mul_mod_self_right,Nat.mod_eq_of_lt column]
  have less : i ≤ i+j*g.nrChunk := Nat.le_add_right _ _
  simp only [mapChunk,chunkAt,row,inside]
  generalize i+j*g.nrChunk = k at *
  have page := intOk (n := k*CHUNKSIZE) (by simp only [CHUNKSIZE,intLimit]; omega)
  have area := intOk (n := i*CHUNKSIZE) (by simp only [CHUNKSIZE,intLimit]; omega)
  have base : uadd allocateBase (umul (k*CHUNKSIZE) PS) = allocateBase+k*(CHUNKSIZE*PS) := by
    rw [umulOk (by simp only [CHUNKSIZE,PS,ulongLimit]; omega),Nat.mul_assoc]
    exact uaddOk (by simp only [allocateBase,CHUNKSIZE,PS,ulongLimit]; omega)
  have offset : umul (i*CHUNKSIZE) PS = i*(CHUNKSIZE*PS) := by
    rw [umulOk (by simp only [CHUNKSIZE,PS,ulongLimit]; omega),Nat.mul_assoc]
  have small := intOk (n := k) (by simp only [intLimit]; omega)
  have prepared := prepareMemoryOk grants (Backend.ofIndex ((forEachBackend g.bitmap).getD j 0))
    (allocateBase+k*(CHUNKSIZE*PS)) (i*(CHUNKSIZE*PS)) (sizeFits g i) (Nat.le_add_right _ _)
    (by simp only [regionEnd,CHUNKSIZE,PS]; omega)
  simp only [small,page,area,base,offset,prepared,bind,Except.bind,pure,Except.pure]

theorem zipIdxRange {α : Type} (xs : List α) (d : α) : xs.zipIdx = (List.range xs.length).map (fun j => (xs.getD j d,j)) := by
  refine List.ext_getElem (by simp) (fun j left right => ?_)
  have small : j < xs.length := by simpa using left
  simp [List.getD_eq_getElem?_getD,List.getElem?_eq_getElem small]

theorem indexBound (g : Globals) {j i : Nat} (row : j < g.nrMemTypes) (column : i < g.nrChunk) :
    i+j*g.nrChunk < g.nrAllChunks := by
  have last : (j+1)*g.nrChunk ≤ g.nrMemTypes*g.nrChunk := Nat.mul_le_mul_right _ row
  rw [g.all,Nat.mul_comm g.nrChunk]
  rw [Nat.add_mul,Nat.one_mul] at last
  omega

theorem doMmapOk (grants : kernel.Grants) (g : Globals) (few : g.nrAllChunks ≤ 0x80000) :
    doMmap kernel g = .ok ((List.range g.nrAllChunks).map (fun k => (k,chunkAt kernel g k))) := by
  have rows : ∀ j ∈ List.range g.nrMemTypes,
      (List.range g.nrChunk).mapM (mapChunk kernel g ((forEachBackend g.bitmap).getD j 0) j) =
      .ok ((List.range g.nrChunk).map (fun i => (i+j*g.nrChunk,chunkAt kernel g (i+j*g.nrChunk)))) := by
    intro j row
    exact mapMOk (fun i column => mapChunkOk grants g (List.mem_range.mp column)
      (Nat.lt_of_lt_of_le (indexBound g (List.mem_range.mp row) (List.mem_range.mp column)) few))
  have types : (forEachBackend g.bitmap).length = g.nrMemTypes := g.types.symm
  rw [doMmap,zipIdxRange _ 0,types,List.mapM_map,Function.comp_def,mapMOk rows]
  have flat := rangeProduct (fun j i => (i+j*g.nrChunk,chunkAt kernel g (i+j*g.nrChunk))) g.nrMemTypes (chunkPositive g)
  rw [Nat.mul_comm,← g.all] at flat
  simp only [bind,Except.bind,pure,Except.pure,← List.flatMap_def,flat,Nat.mod_add_div']

end Placement

section Chunkset

/- The backends of a bitmap in increasing number, and the chunks of the `j`-th of them. -/
def selected (bitmap : BitVec 64) : List Backend :=
  ((List.range nrBackendTypes).filter (fun b => bitmap.getLsbD b)).map Backend.ofIndex

def share (g : Globals) (chunkset : List MemChunk) (j : Nat) : List MemChunk :=
  (chunkset.drop (j*g.nrChunk)).take g.nrChunk

def bytes (chunks : List MemChunk) : Nat := (chunks.map (·.chunkSize)).sum

structure ChunkLayout (g : Globals) (writes : List (Nat × MemChunk)) : Prop where
  once : writes.map Prod.fst = List.range g.nrAllChunks
  complete : fill g writes = writes.map Prod.snd
  types : (selected g.bitmap).length = g.nrMemTypes
  backends : ∀ j b, (selected g.bitmap)[j]? = some b →
    (share g (fill g writes) j).map (·.memType) = List.replicate g.nrChunk b
  addresses : (fill g writes).map (·.p) = (List.range g.nrAllChunks).map (fun k => allocateBase+k*(4096*PS))
  disjoint : (fill g writes).Pairwise (fun a b => a.p+a.chunkSize ≤ b.p)
  sizes : ∀ mc ∈ fill g writes, 0 < mc.chunkSize ∧ PS ∣ mc.chunkSize
  total : ∀ j < g.nrMemTypes, bytes (share g (fill g writes) j) = g.nrP*PS
  contiguous : ∀ j < g.nrMemTypes, (share g (fill g writes) j).map (·.offset) =
    (List.range g.nrChunk).map (fun i => bytes ((share g (fill g writes) j).take i))
  inside : ∀ mc ∈ fill g writes, mc.offset+mc.chunkSize ≤ g.nrP*PS

variable {kernel : Kernel}

theorem setRange {α : Type} (f : Nat → α) (d : α) (n m : Nat) (order : m ≤ n) :
    ((List.range m).map (fun k => (k,f k))).foldl (fun cs w => cs.set w.1 w.2) (List.replicate n d) =
      (List.range m).map f ++ List.replicate (n-m) d := by
  induction m with
  | zero => simp
  | succ m ih =>
    rw [List.range_succ,List.map_append,List.foldl_append,ih (by omega),List.map_append]
    rw [show n-m = (n-(m+1))+1 by omega,List.replicate_succ]
    simp

theorem fillRange (g : Globals) (f : Nat → MemChunk) :
    fill g ((List.range g.nrAllChunks).map (fun k => (k,f k))) = (List.range g.nrAllChunks).map f := by
  rw [fill,setRange f _ g.nrAllChunks g.nrAllChunks (le_refl _)]
  simp

theorem shareRange (g : Globals) (f : Nat → MemChunk) {j : Nat} (row : j < g.nrMemTypes) :
    share g ((List.range g.nrAllChunks).map f) j = (List.range g.nrChunk).map (fun i => f (j*g.nrChunk+i)) := by
  have rest : g.nrAllChunks = j*g.nrChunk+(g.nrChunk+(g.nrMemTypes-(j+1))*g.nrChunk) := by
    rw [g.all,Nat.mul_comm]
    conv_lhs => rw [show g.nrMemTypes = j+(1+(g.nrMemTypes-(j+1))) by omega]
    rw [Nat.add_mul,Nat.add_mul,Nat.one_mul]
  rw [share,rest,List.range_add,List.map_append,List.drop_left' (by simp),List.range_add,List.map_append,List.map_append,
    List.take_left' (by simp),List.map_map]
  rfl

theorem entryAt {g : Globals} {k : Nat} (small : k < g.nrAllChunks) :
    entry ((List.range g.nrAllChunks).map (chunkAt kernel g)) k = chunkAt kernel g k := by
  rw [entry,List.getD_eq_getElem?_getD,List.getElem?_map,List.getElem?_range small]
  rfl

theorem sizeInner (g : Globals) {i : Nat} (inner : i+1 < g.nrChunk) : getSizeOfChunkedMmapArea g i = CHUNKSIZE*PS := by
  rw [getSizeOfChunkedMmapArea,Nat.mod_eq_of_lt (by omega),if_neg (by omega)]

theorem sizeLast (g : Globals) : getSizeOfChunkedMmapArea g (g.nrChunk-1) = ((g.nrP-1) % CHUNKSIZE+1)*PS := by
  have := chunkPositive g
  rw [getSizeOfChunkedMmapArea,Nat.mod_eq_of_lt (by omega),if_pos rfl]

/- The last chunk ends where the pages do. -/
theorem lastEnds (g : Globals) : (g.nrChunk-1)*(CHUNKSIZE*PS)+getSizeOfChunkedMmapArea g (g.nrChunk-1) = g.nrP*PS := by
  have positive := g.positive
  rw [sizeLast,g.chunks,← Nat.mul_assoc,← Nat.add_mul]
  congr 1
  simp only [CHUNKSIZE]
  omega

theorem sizesBelow (g : Globals) {i : Nat} (below : i < g.nrChunk) :
    ((List.range i).map (getSizeOfChunkedMmapArea g)).sum = i*(CHUNKSIZE*PS) := by
  induction i with
  | zero => simp
  | succ i ih =>
    rw [List.range_succ,List.map_append,List.sum_append,ih (by omega),List.map_singleton,List.sum_singleton,
      sizeInner g below,Nat.succ_mul]

theorem sizesAll (g : Globals) : ((List.range g.nrChunk).map (getSizeOfChunkedMmapArea g)).sum = g.nrP*PS := by
  have positive := chunkPositive g
  rw [show g.nrChunk = (g.nrChunk-1)+1 by omega,List.range_succ,List.map_append,List.sum_append,
    sizesBelow g (by omega),List.map_singleton,List.sum_singleton,lastEnds]

theorem chunkColumn (kernel : Kernel) (g : Globals) (j : Nat) {i : Nat} (column : i < g.nrChunk) :
    (chunkAt kernel g (j*g.nrChunk+i)).chunkSize = getSizeOfChunkedMmapArea g i ∧
    (chunkAt kernel g (j*g.nrChunk+i)).offset = i*(CHUNKSIZE*PS) ∧
    (chunkAt kernel g (j*g.nrChunk+i)).memType = Backend.ofIndex ((forEachBackend g.bitmap).getD j 0) := by
  have row : (j*g.nrChunk+i)/g.nrChunk = j := by
    rw [Nat.mul_comm,Nat.mul_add_div (chunkPositive g),Nat.div_eq_of_lt column,Nat.add_zero]
  have inside : (j*g.nrChunk+i) % g.nrChunk = i := by
    rw [Nat.mul_comm,Nat.mul_add_mod,Nat.mod_eq_of_lt column]
  simp only [chunkAt,row,inside,and_self]

theorem bytesColumns (kernel : Kernel) (g : Globals) (j : Nat) {i : Nat} (order : i ≤ g.nrChunk) :
    bytes ((List.range i).map (fun i => chunkAt kernel g (j*g.nrChunk+i))) =
      ((List.range i).map (getSizeOfChunkedMmapArea g)).sum := by
  rw [bytes,List.map_map]
  congr 1
  refine List.map_congr_left (fun m mem => (chunkColumn kernel g j ?_).1)
  have := List.mem_range.mp mem
  omega

theorem endsInside (g : Globals) {i : Nat} (column : i < g.nrChunk) :
    i*(CHUNKSIZE*PS)+getSizeOfChunkedMmapArea g i ≤ g.nrP*PS := by
  rw [← lastEnds g]
  rcases Nat.lt_or_ge (i+1) g.nrChunk with inner | last
  · rw [sizeInner g inner,← Nat.succ_mul]
    exact (Nat.mul_le_mul_right _ (by omega)).trans (Nat.le_add_right _ _)
  · rw [show g.nrChunk-1 = i by omega]

theorem layoutOf (kernel : Kernel) (g : Globals) :
    ChunkLayout g ((List.range g.nrAllChunks).map (fun k => (k,chunkAt kernel g k))) := by
  have filled := fillRange g (chunkAt kernel g)
  have shares {j : Nat} (row : j < g.nrMemTypes) := shareRange g (chunkAt kernel g) row
  have types : (selected g.bitmap).length = g.nrMemTypes := by
    rw [selected,List.length_map,← forEachBackendEq,g.types,getNrMemTypes]
  have cells : ∀ mc ∈ (List.range g.nrAllChunks).map (chunkAt kernel g), ∃ k < g.nrAllChunks, mc = chunkAt kernel g k := by
    intro mc mem
    obtain ⟨k,small,rfl⟩ := List.mem_map.mp mem
    exact ⟨k,List.mem_range.mp small,rfl⟩
  refine ⟨?_,?_,types,?_,?_,?_,?_,?_,?_,?_⟩
  · rw [List.map_map]
    exact List.map_id' _
  · rw [filled,List.map_map]
    rfl
  · intro j b found
    have row : j < g.nrMemTypes := types ▸ (List.getElem?_eq_some_iff.mp found).1
    rw [filled,shares row,List.map_map]
    have each : ∀ i ∈ List.range g.nrChunk, (chunkAt kernel g (j*g.nrChunk+i)).memType = b := by
      intro i mem
      rw [(chunkColumn kernel g j (List.mem_range.mp mem)).2.2,forEachBackendEq]
      rw [selected,List.getElem?_map] at found
      obtain ⟨n,index,rfl⟩ := Option.map_eq_some_iff.mp found
      rw [List.getD_eq_getElem?_getD,index]
      rfl
    rw [List.eq_replicate_iff]
    exact ⟨by simp,fun c mem => by obtain ⟨i,inside,rfl⟩ := List.mem_map.mp mem; exact each i inside⟩
  · rw [filled,List.map_map]
    rfl
  · rw [filled,List.pairwise_map]
    refine List.pairwise_lt_range.imp (fun {a b} less => ?_)
    have fits := sizeFits g (a % g.nrChunk)
    have step : (a+1)*(CHUNKSIZE*PS) ≤ b*(CHUNKSIZE*PS) := Nat.mul_le_mul_right _ less
    rw [Nat.succ_mul] at step
    simp only [chunkAt]
    omega
  · intro mc mem
    rw [filled] at mem
    obtain ⟨k,_,rfl⟩ := cells mc mem
    obtain ⟨pages,size,some,_⟩ := sizeCases g (k % g.nrChunk)
    simp only [chunkAt,size]
    exact ⟨Nat.mul_pos some (by decide),Nat.dvd_mul_left _ _⟩
  · intro j row
    rw [filled,shares row,bytesColumns kernel g j (le_refl _),sizesAll]
  · intro j row
    rw [filled,shares row,List.map_map]
    refine List.map_congr_left (fun i mem => ?_)
    have column := List.mem_range.mp mem
    rw [Function.comp,(chunkColumn kernel g j column).2.1,← List.map_take,List.take_range,Nat.min_eq_left (by omega),
      bytesColumns kernel g j (by omega),sizesBelow g column]
  · intro mc mem
    rw [filled] at mem
    obtain ⟨k,_,rfl⟩ := cells mc mem
    exact endsInside g (Nat.mod_lt _ (chunkPositive g))

end Chunkset

section Settled

theorem checkedMmapDefined (kernel : Kernel) (start length : Nat) (m : Mapping) :
    Defined (checkedMmap kernel start length m) := by
  rw [checkedMmap]
  cases kernel.mmap start length m with
  | none => exact definedExit _
  | some map =>
    simp only [checkMapped]
    split
    · exact definedExit _
    · exact definedOk _

theorem allocShmemDefined (kernel : Kernel) (mc : MemChunk) (addr : Nat) (hugetlb : Bool) :
    Defined (allocShmem kernel mc addr hugetlb) := by
  simp only [allocShmem]
  split
  · exact definedOk _
  · split
    · exact definedOk _
    · exact definedExit _

theorem orExitDefined (message : Option Text) : Defined (orExit message) := by
  cases message with
  | none => exact definedOk _
  | some text => exact definedExit _

theorem exitIfDefined (b : Bool) (message : Option Text) : Defined (exitIf b message) := by
  cases b with
  | true => exact orExitDefined message
  | false => exact definedOk ()

theorem prepareMemoryDefined (kernel : Kernel) (mc : MemChunk) (baseaddr offset : Nat) :
    Defined (prepareMemory kernel mc baseaddr offset) := by
  have mapped (addr length : Nat) (m : Mapping) := checkedMmapDefined kernel addr length m
  simp only [prepareMemory]
  split
  case h_1 | h_2 | h_3 | h_4 | h_5 | h_7 | h_9 => exact definedBind (mapped _ _ _) (fun _ _ => definedOk _)
  case h_6 =>
    refine definedBind (definedBind (mapped _ _ _) (fun _ _ => definedOk _)) (fun mc _ => ?_)
    split
    · exact definedOk _
    · exact definedExit _
  case h_8 | h_10 => exact allocShmemDefined _ _ _ _
  case h_11 =>
    refine definedBind (orExitDefined _) (fun _ _ => definedBind (mapped _ _ _) (fun _ _ => ?_))
    exact definedBind (mapped _ _ _) (fun _ _ => definedBind (mapped _ _ _) (fun _ _ => definedOk _))

theorem mapChunkDefined (kernel : Kernel) (g : Globals) (backend : Nat) {j i : Nat} (few : i+j*g.nrChunk < 0x80000) :
    Defined (mapChunk kernel g backend j i) := by
  have less : i ≤ i+j*g.nrChunk := Nat.le_add_right _ _
  have small {n : Nat} (below : n < 0x80000) : n < intLimit ∧ n*CHUNKSIZE < intLimit := by
    simp only [CHUNKSIZE,intLimit]
    omega
  refine definedBind (definedInt (small few).1) (fun k eq => ?_)
  obtain ⟨rfl,_⟩ := intInv eq
  refine definedBind (definedInt (small few).2) (fun page _ => ?_)
  refine definedBind (definedInt (small (by omega)).2) (fun area _ => ?_)
  exact definedBind (prepareMemoryDefined _ _ _ _) (fun _ _ => definedOk _)

theorem doMmapDefined (kernel : Kernel) (g : Globals) (few : g.nrAllChunks ≤ 0x80000) : Defined (doMmap kernel g) := by
  refine definedBind (definedMapM (fun b mem => definedMapM (fun i column => ?_))) (fun _ _ => definedOk _)
  have row : b.2 < g.nrMemTypes := by
    rw [g.types,getNrMemTypes]
    have := List.snd_lt_of_mem_zipIdx mem
    omega
  exact mapChunkDefined kernel g b.1 (Nat.lt_of_lt_of_le (indexBound g row (List.mem_range.mp column)) few)

theorem setupEq (kernel : Kernel) {o : Options} (noDevmem : o.bitmap.getLsbD 10 = false)
    (few : ((o.nrP-1)/CHUNKSIZE+1)*getNrMemTypes o.bitmap ≤ 0x80000) :
    setup kernel o = (do
      exitIf (o.filebase && o.bitmap.getLsbD 0) kernel.createRegularFile
      exitIf (o.bitmap.getLsbD 5) kernel.createHugetlbfsFile
      return allocate o.nrP o.bitmap o.positive o.isInt) := by
  have fits : int (allocate o.nrP o.bitmap o.positive o.isInt).nrAllChunks =
      .ok (allocate o.nrP o.bitmap o.positive o.isInt).nrAllChunks := by
    refine intOk (Nat.lt_of_le_of_lt few ?_)
    decide
  simp only [setup,noDevmem,Bool.false_and,Bool.false_eq_true,if_false,fits,exitIf]
  rfl

theorem setupDefined (kernel : Kernel) {o : Options} (noDevmem : o.bitmap.getLsbD 10 = false)
    (few : ((o.nrP-1)/CHUNKSIZE+1)*getNrMemTypes o.bitmap ≤ 0x80000) : Defined (setup kernel o) := by
  rw [setupEq kernel noDevmem few]
  exact definedBind (exitIfDefined _ _) (fun _ _ => definedBind (exitIfDefined _ _) (fun _ _ => definedOk _))

theorem setupGranted {kernel : Kernel} (grants : kernel.Grants) {o : Options} (noDevmem : o.bitmap.getLsbD 10 = false)
    (few : ((o.nrP-1)/CHUNKSIZE+1)*getNrMemTypes o.bitmap ≤ 0x80000) :
    setup kernel o = .ok (allocate o.nrP o.bitmap o.positive o.isInt) := by
  have passes (b : Bool) : exitIf b none = .ok () := by cases b <;> rfl
  rw [setupEq kernel noDevmem few,grants.regular,grants.hugetlbfs,passes,passes]
  rfl

/- Whatever the kernel answers no product leaves `int`, and when it grants the requests the
chunks lie as `ChunkLayout` says. -/
theorem chunksLaidOut (o : Options) (noDevmem : o.bitmap.getLsbD 10 = false)
    (few : ((o.nrP-1)/4096+1)*getNrMemTypes o.bitmap ≤ 2^19) :
    (∀ kernel, Defined (setup kernel o) ∧ ∀ g, setup kernel o = .ok g → Defined (doMmap kernel g)) ∧
    (∀ kernel : Kernel, kernel.Grants → ∃ g writes, setup kernel o = .ok g ∧ doMmap kernel g = .ok writes ∧
      g.nrP = o.nrP ∧ g.bitmap = o.bitmap ∧ ChunkLayout g writes) := by
  constructor
  · intro kernel
    refine ⟨setupDefined kernel noDevmem few,fun g ran => doMmapDefined kernel g ?_⟩
    rw [setupEq kernel noDevmem few] at ran
    obtain ⟨_,_,ran⟩ := bindInv ran
    obtain ⟨_,_,done⟩ := bindInv ran
    cases Except.ok.inj done
    exact few
  · intro kernel grants
    refine ⟨_,_,setupGranted grants noDevmem few,doMmapOk grants _ few,rfl,rfl,layoutOf kernel _⟩

/- A machine with room: every request is answered with the address asked for. -/
def grantingKernel : Kernel where
  createRegularFile := none
  createHugetlbfsFile := none
  openDevMem := none
  mmap := fun addr _ _ => some addr
  adviseHugepage := fun _ _ => true
  shmget := fun _ _ _ => some 1
  shmat := fun _ addr => some addr

theorem grantingGrants : grantingKernel.Grants :=
  ⟨rfl,rfl,rfl,fun _ _ _ _ _ => rfl,fun _ _ _ _ => rfl,fun _ _ _ => rfl,fun _ _ _ _ => rfl⟩

/- Two backends with a page more than one chunk holds. -/
def twoBackends : Options := ⟨4097,0x9#64,true,by decide,by decide⟩

def twoGlobals : Globals := allocate 4097 0x9#64 (by decide) (by decide)
def twoWrites : List (Nat × MemChunk) := (List.range 4).map (fun k => (k,chunkAt grantingKernel twoGlobals k))

theorem twoSetup : setup grantingKernel twoBackends = .ok twoGlobals := setupGranted grantingGrants (by decide) (by decide)

theorem twoMapped : doMmap grantingKernel twoGlobals = .ok twoWrites := doMmapOk grantingGrants twoGlobals (by decide)

theorem twoMember {k : Nat} (small : k < 4) : chunkAt grantingKernel twoGlobals k ∈ fill twoGlobals twoWrites := by
  rw [twoWrites,show 4 = twoGlobals.nrAllChunks by decide,fillRange]
  exact List.mem_map_of_mem (List.mem_range.mpr small)

theorem chunksLaidOutTwo : ∃ g writes, setup grantingKernel twoBackends = .ok g ∧
    doMmap grantingKernel g = .ok writes ∧ g.nrP = 4097 ∧ ChunkLayout g writes := by
  obtain ⟨g,writes,ran,mapped,pages,_,layout⟩ :=
    (chunksLaidOut twoBackends (by decide) (by decide)).2 grantingKernel grantingGrants
  exact ⟨g,writes,ran,mapped,pages,layout⟩

theorem setupCases {kernel : Kernel} {o : Options} {g : Globals} (ran : setup kernel o = .ok g) :
    g = if o.bitmap.getLsbD 10 then allocate 1 o.bitmap (by decide) (by decide)
      else allocate o.nrP o.bitmap o.positive o.isInt := by
  obtain ⟨_,_,ran⟩ := bindInv ran
  obtain ⟨_,_,ran⟩ := bindInv ran
  obtain ⟨_,_,ran⟩ := bindInv ran
  obtain ⟨_,_,done⟩ := bindInv ran
  exact (Except.ok.inj done).symm

theorem setupDevmem {kernel : Kernel} {o : Options} {g : Globals} (ran : setup kernel o = .ok g)
    (devmem : g.bitmap.getLsbD 10 = true) : g.nrP = 1 := by
  have cases := setupCases ran
  split at cases
  · rw [cases]
    rfl
  · rename_i other
    rw [cases] at devmem
    exact absurd devmem other

theorem chunkDevmem {kernel : Kernel} {g : Globals} {k : Nat} (devmem : (chunkAt kernel g k).memType = .devmem) :
    g.bitmap.getLsbD 10 = true := by
  simp only [chunkAt] at devmem
  rw [forEachBackendEq,List.getD_eq_getElem?_getD] at devmem
  cases found : ((List.range nrBackendTypes).filter (fun b => g.bitmap.getLsbD b))[k/g.nrChunk]? with
  | none =>
    rw [found] at devmem
    contradiction
  | some b =>
    rw [found] at devmem
    obtain ⟨small,set⟩ := List.mem_filter.mp (List.mem_of_getElem? found)
    have known : ∀ b < nrBackendTypes, Backend.ofIndex b = .devmem → b = 10 := by decide
    rwa [known b (List.mem_range.mp small) devmem] at set

/- A layout that exists is one whose addresses fit. -/
theorem doMmapInv {kernel : Kernel} {g : Globals} {writes : List (Nat × MemChunk)} (mapped : doMmap kernel g = .ok writes) :
    g.nrAllChunks ≤ 0x80000 := by
  obtain ⟨filled,ran,_⟩ := bindInv mapped
  rcases Nat.eq_zero_or_pos g.nrMemTypes with none | some
  · rw [g.all,none,Nat.mul_zero]
    exact Nat.zero_le _
  · have types : (forEachBackend g.bitmap).length = g.nrMemTypes := g.types.symm
    have positive := chunkPositive g
    obtain ⟨row,rowRan⟩ := mapMInv ran ((forEachBackend g.bitmap).getD (g.nrMemTypes-1) 0,g.nrMemTypes-1) (by
      rw [zipIdxRange _ 0,types]
      exact List.mem_map.mpr ⟨g.nrMemTypes-1,List.mem_range.mpr (by omega),rfl⟩)
    obtain ⟨w,chunkRan⟩ := mapMInv rowRan (g.nrChunk-1) (List.mem_range.mpr (by omega))
    obtain ⟨k,first,chunkRan⟩ := bindInv chunkRan
    obtain ⟨page,second,_⟩ := bindInv chunkRan
    obtain ⟨rfl,_⟩ := intInv first
    have fits := (intInv second).2
    have last : g.nrChunk-1+(g.nrMemTypes-1)*g.nrChunk+1 = g.nrAllChunks := by
      rw [g.all,Nat.mul_comm g.nrChunk]
      conv_rhs => rw [show g.nrMemTypes = (g.nrMemTypes-1)+1 by omega,Nat.succ_mul]
      omega
    simp only [CHUNKSIZE,intLimit] at fits
    omega

/- A chunk of the layout: how many pages it has, and that its addresses do not wrap. -/
theorem chunkPages {kernel : Kernel} (grants : kernel.Grants) {g : Globals} {writes : List (Nat × MemChunk)}
    (mapped : doMmap kernel g = .ok writes) {mc : MemChunk} (member : mc ∈ fill g writes) :
    ∃ n, mc.chunkSize = n*PS ∧ 1 ≤ n ∧ n ≤ CHUNKSIZE ∧ mc.p+CHUNKSIZE*PS < 0x800000000000 := by
  have few := doMmapInv mapped
  rw [doMmapOk grants g few] at mapped
  cases Except.ok.inj mapped
  rw [fillRange] at member
  obtain ⟨k,small,rfl⟩ := List.mem_map.mp member
  obtain ⟨n,sized,some,fits⟩ := sizeCases g (k % g.nrChunk)
  have place : (chunkAt kernel g k).p = allocateBase+k*(CHUNKSIZE*PS) := rfl
  have below := List.mem_range.mp small
  refine ⟨n,sized,some,fits,?_⟩
  rw [place]
  simp only [allocateBase,CHUNKSIZE,PS]
  omega

end Settled

end MmRegression
