import MmRegression.Memory
import MmRegression.WorkMemory

/-! `__mremap_chunk`, the passes of `do_mremap_stress` over all chunks and `do_allocate_more`, on
the address space that `do_mmap` leaves. One common offset moves every chunk. -/
namespace MmRegression

open CInt
open Memory

section Model

variable {α : Type}

/- `int offset = nr_chunk * CHUNKSIZE * PS`: the first product is one of `int`s, the second is
`unsigned long` and cut down to `int`. -/
def mremapOffset (g : Globals) : Except Stop Int := do
  let pages ← int (g.nrChunk*CHUNKSIZE)
  return toInt (umul pages PS)

def mremapChunk (offset : Int) (back : Bool) (mc : MemChunk) (mem : Mem α) : Int × Mem α :=
  let r := if back then mremap mem (mc.p+offset) mc.p mc.chunkSize else mremap mem mc.p (mc.p+offset) mc.chunkSize
  (if r.1 = none then -1 else 0,r.2)

/- The address space, and the calls made so far: the chunk, with what was mapped before its call. -/
structure Pass (α : Type) where
  mem : Mem α
  calls : List (Nat × Mem α)

def remapCall (chunkset : List MemChunk) (offset : Int) (back : Bool) (k : Nat) (s : Pass α) : Int × Pass α :=
  let r := mremapChunk offset back (entry chunkset k) s.mem
  (r.1,⟨r.2,s.calls ++ [(k,s.mem)]⟩)

def remapPass (g : Globals) (chunkset : List MemChunk) (offset : Int) (back : Bool) (ret : Int) (mem : Mem α) : Int × Pass α :=
  doWorkMemory (remapCall chunkset offset back) g.nrMemTypes g.nrChunk ret ⟨mem,[]⟩

/- One turn of the loop of `do_mremap_stress`. -/
def mremapRound (g : Globals) (chunkset : List MemChunk) (offset ret ret' : Int) (mem : Mem α) : Mem α :=
  (remapPass g chunkset offset true ret' (remapPass g chunkset offset false ret mem).2.mem).2.mem

def doAllocateMore (g : Globals) (mem : Mem α) (elsewhere : Option Int) : Except Stop (Int × Nat) := do
  let size := toInt (umul g.nrP PS)
  let start : Int := allocateBase+size
  let panon ← checkMapped start (mmapHint mem start (toULong size) elsewhere)
  return (panon,toULong size)

/- How far a chunk is mapped: the one of `/dev/mem` has three mappings of one page. -/
def extent (mc : MemChunk) : Nat := if mc.memType = .devmem then 3*PS else mc.chunkSize

/- The address space after `do_mmap`. -/
def laid (chunkset : List MemChunk) (content : Int → α) : Mem α := fun a =>
  if chunkset.any (fun mc => decide (Inside mc.p (extent mc) a)) then some (content a) else none

structure Undisturbed (g : Globals) (chunkset : List MemChunk) (offset ret ret' : Int) (mem : Mem α) : Prop where
  clear : ∀ n k before, (remapPass g chunkset offset false ret mem).2.calls[n]? = some (k,before) →
    ∀ l < chunkset.length, l ∉ ((remapPass g chunkset offset false ret mem).2.calls.take n).map Prod.fst →
    ∀ a, Inside (entry chunkset l).p (extent (entry chunkset l)) a → (before a).isSome →
    ¬Inside ((entry chunkset k).p+offset) (entry chunkset k).chunkSize a
  restored : ∀ mc ∈ chunkset, ∀ a, Inside mc.p (extent mc) a → mremapRound g chunkset offset ret ret' mem a = mem a
  more : ∀ elsewhere start size, doAllocateMore g mem elsewhere = .ok (start,size) →
    ∀ mc ∈ chunkset, Separate start size mc.p (extent mc)

end Model

section Geometry

variable {α : Type} {kernel : Kernel} {o : Options} {g : Globals}

def slot : Nat := CHUNKSIZE*PS

theorem chunkSlot (ran : setup kernel o = .ok g) (k : Nat) :
    (chunkAt kernel g k).p = allocateBase+k*slot ∧ 0 < (chunkAt kernel g k).chunkSize ∧
    (chunkAt kernel g k).chunkSize ≤ extent (chunkAt kernel g k) ∧ extent (chunkAt kernel g k) ≤ slot := by
  obtain ⟨pages,size,some,fits⟩ := sizeCases g (k % g.nrChunk)
  have sized : (chunkAt kernel g k).chunkSize = pages*PS := size
  have whole : pages*PS ≤ CHUNKSIZE*PS := Nat.mul_le_mul_right PS fits
  refine ⟨rfl,by rw [sized]; exact Nat.mul_pos some (by decide),?_⟩
  rw [extent]
  split
  · rename_i devmem
    have single : g.nrP = 1 := setupDevmem ran (chunkDevmem devmem)
    have chunks : g.nrChunk = 1 := by
      rw [g.chunks,single]
      rfl
    have page : (chunkAt kernel g k).chunkSize = PS := by
      change getSizeOfChunkedMmapArea g (k % g.nrChunk) = PS
      rw [chunks,Nat.mod_one,show 0 = g.nrChunk-1 by omega,sizeLast,single]
      rfl
    rw [page]
    decide
  · rw [sized]
    exact ⟨le_refl _,whole⟩

/- How many slots the offset is worth, after it has been cut down to `int`. -/
def distance (g : Globals) : Int := ((g.nrChunk : Int)+128) % 256-128

theorem offsetEq (few : g.nrChunk < 0x80000) : mremapOffset g = .ok (distance g*slot) := by
  have fits : int (g.nrChunk*CHUNKSIZE) = .ok (g.nrChunk*CHUNKSIZE) := intOk (by
    simp only [CHUNKSIZE,intLimit]; omega)
  have value : toInt (umul (g.nrChunk*CHUNKSIZE) PS) = distance g*slot := by
    rw [umulOk (by simp only [CHUNKSIZE,PS,ulongLimit]; omega)]
    simp only [toInt,distance,slot,CHUNKSIZE,PS]
    omega
  simp only [mremapOffset,fits,bind,Except.bind,value]
  rfl

theorem offsetInv {offset : Int} (found : mremapOffset g = .ok offset) : g.nrChunk < 0x80000 := by
  obtain ⟨pages,first,_⟩ := bindInv found
  have := (intInv first).2
  simp only [CHUNKSIZE,intLimit] at this
  omega

/- The chunks and the places they are moved to are apart exactly when the distance spans them all. -/
theorem distanceSpans (some : 0 < g.nrMemTypes) :
    (g.nrAllChunks : Int) ≤ distance g ∨ (g.nrAllChunks : Int) ≤ -distance g ↔ g.nrMemTypes = 1 ∧ g.nrP ≤ 2^19 := by
  have positive := chunkPositive g
  have chunks := g.chunks
  have all := g.all
  have least : g.nrChunk ≤ g.nrAllChunks := by
    rw [all]
    exact Nat.le_mul_of_pos_right _ some
  simp only [CHUNKSIZE] at chunks
  constructor
  · intro spans
    have whole : g.nrAllChunks = g.nrChunk := by
      simp only [distance] at spans
      omega
    have one : g.nrMemTypes = 1 := by
      rw [all] at whole
      exact Nat.eq_of_mul_eq_mul_left positive (by rw [whole,Nat.mul_one])
    refine ⟨one,?_⟩
    simp only [distance] at spans
    omega
  · rintro ⟨one,small⟩
    rw [one,Nat.mul_one] at all
    simp only [distance]
    omega

end Geometry

section Passes

variable {α : Type} {kernel : Kernel} {o : Options} {g : Globals}

/- The range of chunk `k`, and the one it is moved to. -/
def home (k : Nat) : Int := allocateBase+k*slot
def away (g : Globals) (k : Nat) : Int := home k+distance g*slot
def sizeAt (kernel : Kernel) (g : Globals) (k : Nat) : Nat := (chunkAt kernel g k).chunkSize

theorem sizeAtBounds (ran : setup kernel o = .ok g) (k : Nat) : 0 < sizeAt kernel g k ∧ sizeAt kernel g k ≤ slot := by
  obtain ⟨_,some,low,high⟩ := chunkSlot ran k
  exact ⟨some,low.trans high⟩

theorem forwardCall {k : Nat} (small : k < g.nrAllChunks) (mem : Mem α) :
    mremapChunk (distance g*slot) false (entry ((List.range g.nrAllChunks).map (chunkAt kernel g)) k) mem =
      (if (mremap mem (home k) (away g k) (sizeAt kernel g k)).1 = none then -1 else 0,
        (mremap mem (home k) (away g k) (sizeAt kernel g k)).2) := by
  rw [entryAt small]
  rfl

theorem backwardCall {k : Nat} (small : k < g.nrAllChunks) (mem : Mem α) :
    mremapChunk (distance g*slot) true (entry ((List.range g.nrAllChunks).map (chunkAt kernel g)) k) mem =
      (if (mremap mem (away g k) (home k) (sizeAt kernel g k)).1 = none then -1 else 0,
        (mremap mem (away g k) (home k) (sizeAt kernel g k)).2) := by
  rw [entryAt small]
  rfl

theorem homesApart (ran : setup kernel o = .ok g)
    (spans : (g.nrAllChunks : Int) ≤ distance g ∨ (g.nrAllChunks : Int) ≤ -distance g) :
    Apart home (away g) (sizeAt kernel g) g.nrAllChunks := by
  have fits (k : Nat) := (sizeAtBounds ran k).2
  have unit : slot = 16777216 := rfl
  refine ⟨fun k hk l hl other => ?_,fun k hk l hl other => ?_,fun k hk l hl => ?_,fun k _ => (sizeAtBounds ran k).1⟩
  · have := fits k
    have := fits l
    rintro a ⟨low,high⟩ ⟨low',high'⟩
    simp only [home,unit] at *
    omega
  · have := fits k
    have := fits l
    rintro a ⟨low,high⟩ ⟨low',high'⟩
    simp only [home,away,unit] at *
    omega
  · have := fits k
    have := fits l
    rintro a ⟨low,high⟩ ⟨low',high'⟩
    simp only [home,away,unit] at *
    omega

theorem laidMapped (content : Int → α) :
    ∀ k < g.nrAllChunks, ∀ a, Inside (home k) (extent (chunkAt kernel g k)) a →
      (laid ((List.range g.nrAllChunks).map (chunkAt kernel g)) content a).isSome := by
  intro k small a inside
  have any : ((List.range g.nrAllChunks).map (chunkAt kernel g)).any (fun mc => decide (Inside mc.p (extent mc) a)) = true := by
    refine List.any_eq_true.mpr ⟨chunkAt kernel g k,List.mem_map_of_mem (List.mem_range.mpr small),?_⟩
    exact decide_eq_true inside
  rw [laid,if_pos any]
  rfl

/- A pass that moves every chunk out of the others' way, there or back. -/
theorem passMoves {source target : Nat → Int} {back : Bool} (start : Mem α) (types : 0 < g.nrMemTypes)
    (apart : Apart source target (sizeAt kernel g) g.nrAllChunks)
    (mapped : ∀ k < g.nrAllChunks, ∀ a, Inside (source k) (sizeAt kernel g k) a → (start a).isSome)
    (call : ∀ k < g.nrAllChunks, ∀ mem : Mem α,
      mremapChunk (distance g*slot) back (entry ((List.range g.nrAllChunks).map (chunkAt kernel g)) k) mem =
        (if (mremap mem (source k) (target k) (sizeAt kernel g k)).1 = none then -1 else 0,
          (mremap mem (source k) (target k) (sizeAt kernel g k)).2)) (ret : Int) :
    Moved source target (sizeAt kernel g) g.nrAllChunks start g.nrAllChunks
      (remapPass g ((List.range g.nrAllChunks).map (chunkAt kernel g)) (distance g*slot) back ret start).2.mem := by
  have count : g.nrMemTypes*g.nrChunk = g.nrAllChunks := by rw [g.all,Nat.mul_comm]
  have passed := workPasses (remapCall ((List.range g.nrAllChunks).map (chunkAt kernel g)) (distance g*slot) back)
    (fun k s => Moved source target (sizeAt kernel g) g.nrAllChunks start k s.mem) ret ⟨start,[]⟩ types (chunkPositive g)
    (fun k s small moved => by
      rw [count] at small
      obtain ⟨remapped,next⟩ := moveStep apart small mapped moved
      simp only [remapCall,call k small,remapped]
      exact ⟨rfl,next⟩) (movedStart start)
  rw [count] at passed
  exact passed.2

theorem callsBelow (chunkset : List MemChunk) (offset : Int) (back : Bool) (ret : Int) (mem : Mem α) :
    ∀ c ∈ (remapPass g chunkset offset back ret mem).2.calls, c.1 < g.nrAllChunks := by
  have step (m : Nat) (s : Pass α) (held : ∀ c ∈ s.calls, c.1 < m) (next : Nat) (later : m < next) :
      ∀ c ∈ (remapCall chunkset offset back m s).2.calls, c.1 < next := by
    intro c mem
    rcases List.mem_append.mp mem with old | new
    · exact (held c old).trans later
    · rw [List.mem_singleton.mp new]
      exact later
  have count : g.nrMemTypes*g.nrChunk = g.nrAllChunks := by rw [g.all,Nat.mul_comm]
  rw [← count]
  exact workRule _ (fun m (s : Pass α) => ∀ c ∈ s.calls, c.1 < m) _ _ _ _ (fun m s _ held _ => step m s held (m+1) (by omega))
    (fun m s _ held _ next later => step m s held next later) (by simp)

theorem firstCall (types : 0 < g.nrMemTypes) (chunkset : List MemChunk) (offset : Int) (back : Bool) (ret : Int) (mem : Mem α) :
    (remapPass g chunkset offset back ret mem).2.calls[0]? = some (0,mem) := by
  have step (m : Nat) (s : Pass α) (held : (m = 0 → s = ⟨mem,[]⟩) ∧ (0 < m → s.calls[0]? = some (0,mem))) (next : Nat)
      (later : m < next) : (next = 0 → (remapCall chunkset offset back m s).2 = ⟨mem,[]⟩) ∧
      (0 < next → (remapCall chunkset offset back m s).2.calls[0]? = some (0,mem)) := by
    refine ⟨fun zero => by omega,fun _ => ?_⟩
    rcases Nat.eq_zero_or_pos m with rfl | positive
    · rw [held.1 rfl]
      rfl
    · exact (List.getElem?_append_left (List.getElem?_eq_some_iff.mp (held.2 positive)).1).trans (held.2 positive)
  have rule := workRule (remapCall chunkset offset back)
    (fun m (s : Pass α) => (m = 0 → s = ⟨mem,[]⟩) ∧ (0 < m → s.calls[0]? = some (0,mem)))
    g.nrMemTypes g.nrChunk ret ⟨mem,[]⟩ (fun m s _ held _ => step m s held (m+1) (by omega))
    (fun m s _ held _ next later => step m s held next later) ⟨fun _ => rfl,fun zero => by omega⟩
  exact rule.2 (Nat.mul_pos types (chunkPositive g))

/- A negative distance that does not span the chunks: on the way back the first chunk is moved
away again, or some chunk was cleared by a call that failed; no later call maps it again. -/
theorem backwardLoses (ran : setup kernel o = .ok g) (back : distance g < 0)
    (short : -distance g < g.nrAllChunks) (ret : Int) (mem : Mem α) :
    ∃ l < g.nrAllChunks, ∃ a, Inside (home l) (sizeAt kernel g l) a ∧
      (remapPass g ((List.range g.nrAllChunks).map (chunkAt kernel g)) (distance g*slot) true ret mem).2.mem a = none := by
  have fits (k : Nat) := sizeAtBounds ran k
  have unit : slot = 16777216 := rfl
  have separate (k : Nat) : ¬Overlap (away g k) (home k) (sizeAt kernel g k) := by
    have := fits k
    rintro ⟨low,high⟩
    simp only [home,away,unit] at *
    omega
  have called (m : Nat) (s : Pass α) (small : m < g.nrAllChunks) :
      remapCall ((List.range g.nrAllChunks).map (chunkAt kernel g)) (distance g*slot) true m s =
        (if (mremap s.mem (away g m) (home m) (sizeAt kernel g m)).1 = none then -1 else 0,
          ⟨(mremap s.mem (away g m) (home m) (sizeAt kernel g m)).2,s.calls ++ [(m,s.mem)]⟩) := by
    rw [remapCall,backwardCall small]
  have count : g.nrMemTypes*g.nrChunk = g.nrAllChunks := by rw [g.all,Nat.mul_comm]
  have rule := workRule (remapCall ((List.range g.nrAllChunks).map (chunkAt kernel g)) (distance g*slot) true)
    (fun m (s : Pass α) => -distance g < m → ∃ l < m, ∃ a, Inside (home l) (sizeAt kernel g l) a ∧ s.mem a = none)
    g.nrMemTypes g.nrChunk ret ⟨mem,[]⟩ (fun m s small held passed reached => ?_)
    (fun m s small held failed next later _ => ?_) (fun none => by omega)
  · rw [count] at rule
    exact rule short
  · rw [count] at small
    rw [called m s small] at passed ⊢
    by_cases earlier : -distance g < m
    · -- What was lost before lies in another slot than the one this call maps.
      obtain ⟨l,before,a,inside,none⟩ := held earlier
      refine ⟨l,by omega,a,inside,mremapFrame s.mem ?_ none⟩
      have := fits l
      have := fits m
      obtain ⟨low,high⟩ := inside
      rintro ⟨low',high'⟩
      simp only [home,unit] at *
      omega
    · -- The call for chunk `-distance`, whose old range is the home of chunk 0.
      have source : away g m = home 0 := by
        simp only [home,away,unit]
        omega
      refine ⟨0,by omega,home 0,⟨Int.le_refl _,by have := fits 0; omega⟩,?_⟩
      refine mremapClears (separate m) (fun none => ?_) ?_
      · simp [none] at passed
      · rw [source]
        exact ⟨Int.le_refl _,by have := fits m; omega⟩
  · rw [count] at small
    rw [called m s small] at failed ⊢
    have none : (mremap s.mem (away g m) (home m) (sizeAt kernel g m)).1 = none := by
      by_contra some
      simp [some] at failed
    have own : Inside (home m) (sizeAt kernel g m) (home m) := ⟨Int.le_refl _,by have := fits m; omega⟩
    exact ⟨m,later,home m,own,mremapFails (separate m) none own⟩

theorem allocatedApart {chunkset : List MemChunk} (content : Int → α) (elsewhere : Option Int) (start : Int) (size : Nat)
    (ran : doAllocateMore g (laid chunkset content) elsewhere = .ok (start,size)) :
    ∀ mc ∈ chunkset, Separate start size mc.p (extent mc) := by
  have range := toIntIsInt (umul g.nrP PS)
  simp only [doAllocateMore] at ran
  generalize toInt (umul g.nrP PS) = more at ran range
  obtain ⟨panon,checked,done⟩ := bindInv ran
  obtain ⟨rfl,rfl⟩ := Prod.mk.inj (Except.ok.inj done)
  have away : (allocateBase : Int)+more ≠ 0 := by
    have := range.1
    simp only [allocateBase]
    omega
  obtain ⟨rfl,answered⟩ := checkMappedStart away checked
  intro mc member a inside other
  have any : chunkset.any (fun mc => decide (Inside mc.p (extent mc) a)) = true :=
    List.any_eq_true.mpr ⟨mc,member,decide_eq_true other⟩
  have free := mmapHintFree answered a inside
  rw [laid,if_pos any] at free
  contradiction

theorem undisturbedSpans (ran : setup kernel o = .ok g) (types : 0 < g.nrMemTypes)
    (spans : (g.nrAllChunks : Int) ≤ distance g ∨ (g.nrAllChunks : Int) ≤ -distance g) (content : Int → α) (ret ret' : Int) :
    Undisturbed g ((List.range g.nrAllChunks).map (chunkAt kernel g)) (distance g*slot) ret ret'
      (laid ((List.range g.nrAllChunks).map (chunkAt kernel g)) content) := by
  have apart := homesApart ran spans
  have unit : slot = 16777216 := rfl
  have outside : ∀ l < g.nrAllChunks, ∀ a, Inside (home l) (extent (chunkAt kernel g l)) a →
      ∀ k < g.nrAllChunks, ¬Inside (away g k) (sizeAt kernel g k) a := by
    intro l hl a inside k hk
    have := (chunkSlot ran l).2.2.2
    have := sizeAtBounds ran k
    obtain ⟨low,high⟩ := inside
    rintro ⟨low',high'⟩
    simp only [home,away,unit] at *
    omega
  have mapped : ∀ k < g.nrAllChunks, ∀ a, Inside (home k) (sizeAt kernel g k) a →
      (laid ((List.range g.nrAllChunks).map (chunkAt kernel g)) content a).isSome := by
    intro k small a inside
    have := (chunkSlot ran k).2.2.1
    exact laidMapped content k small a ⟨inside.1,by have := inside.2; simp only [sizeAt] at this; omega⟩
  refine ⟨?_,?_,?_⟩
  · intro n k before found l hl _ a inside _
    have small : k < g.nrAllChunks := callsBelow _ _ _ _ _ _ (List.mem_of_getElem? found)
    rw [List.length_map,List.length_range] at hl
    rw [entryAt hl] at inside
    rw [entryAt small]
    exact outside l hl a inside k small
  · intro mc member a inside
    obtain ⟨l,small,rfl⟩ := List.mem_map.mp member
    have forward := passMoves _ types apart mapped (fun k small mem => forwardCall small mem) ret
    have backward := passMoves (remapPass g _ _ false ret _).2.mem types (apartSwap apart) (fun k small a inside => by
      obtain ⟨r,less,rfl⟩ := insideSplit inside
      rw [forward.done k small small r less]
      exact mapped k small _ (insideAdd less)) (fun k small mem => backwardCall small mem) ret'
    exact movedBack forward backward (outside l (List.mem_range.mp small) a inside)
  · exact allocatedApart content

/- A distance inside the layout: the first call maps over a chunk that is still in place. -/
theorem firstCallHits (ran : setup kernel o = .ok g) (types : 0 < g.nrMemTypes) (low : 0 ≤ distance g)
    (high : distance g < g.nrAllChunks) (content : Int → α) (ret ret' : Int) :
    ¬Undisturbed g ((List.range g.nrAllChunks).map (chunkAt kernel g)) (distance g*slot) ret ret'
      (laid ((List.range g.nrAllChunks).map (chunkAt kernel g)) content) := by
  intro undisturbed
  obtain ⟨l,place⟩ : ∃ l : Nat, distance g = l := ⟨(distance g).toNat,by omega⟩
  have small : l < g.nrAllChunks := by omega
  have some := (sizeAtBounds ran 0).1
  have whole : 0 < extent (chunkAt kernel g l) := by
    obtain ⟨_,positive,fits,_⟩ := chunkSlot ran l
    omega
  have own : Inside (home l) (extent (chunkAt kernel g l)) (home l) := ⟨Int.le_refl _,by omega⟩
  refine undisturbed.clear 0 0 _ (firstCall types _ _ _ _ _) l (by simpa using small) (by simp) (home l) ?_
    (laidMapped content l small _ own) ?_
  · rw [entryAt small]
    exact own
  · rw [entryAt (by omega)]
    change Inside (home 0+distance g*slot) (sizeAt kernel g 0) (home l)
    rw [place,show home 0+(l : Int)*slot = home l by simp only [home]; omega]
    exact ⟨Int.le_refl _,by omega⟩

theorem undisturbedOnly (grants : kernel.Grants) (ran : setup kernel o = .ok g) (types : 0 < g.nrMemTypes) {content : Int → α}
    {ret ret' offset : Int} {writes : List (Nat × MemChunk)} (mapped : doMmap kernel g = .ok writes)
    (found : mremapOffset g = .ok offset)
    (undisturbed : Undisturbed g (fill g writes) offset ret ret' (laid (fill g writes) content)) :
    g.nrMemTypes = 1 ∧ g.nrP ≤ 2^19 := by
  rw [doMmapOk grants g (doMmapInv mapped)] at mapped
  rw [offsetEq (offsetInv found)] at found
  cases Except.ok.inj mapped
  cases Except.ok.inj found
  rw [fillRange g] at undisturbed
  refine (distanceSpans types).mp ?_
  by_contra inside
  rw [not_or] at inside
  by_cases low : 0 ≤ distance g
  · exact firstCallHits ran types low (by omega) content ret ret' undisturbed
  · obtain ⟨l,small,a,own,lost⟩ := backwardLoses ran (by omega) (by omega) ret'
      (remapPass g ((List.range g.nrAllChunks).map (chunkAt kernel g)) (distance g*slot) false ret
        (laid ((List.range g.nrAllChunks).map (chunkAt kernel g)) content)).2.mem
    have fits := (chunkSlot ran l).2.2.1
    have extended : Inside (home l) (extent (chunkAt kernel g l)) a :=
      ⟨own.1,by have := own.2; simp only [sizeAt] at this; omega⟩
    have kept := undisturbed.restored _ (List.mem_map_of_mem (List.mem_range.mpr small)) a extended
    have there := laidMapped content l small a extended
    rw [← kept] at there
    simp only [mremapRound] at there
    rw [lost] at there
    contradiction

theorem remapUndisturbedIff (grants : kernel.Grants) (ran : setup kernel o = .ok g) (types : 0 < g.nrMemTypes)
    (content : Int → α) (ret ret' : Int) :
    (∃ writes offset, doMmap kernel g = .ok writes ∧ mremapOffset g = .ok offset ∧
      Undisturbed g (fill g writes) offset ret ret' (laid (fill g writes) content)) ↔ g.nrMemTypes = 1 ∧ g.nrP ≤ 2^19 := by
  constructor
  · rintro ⟨writes,offset,mapped,found,undisturbed⟩
    exact undisturbedOnly grants ran types mapped found undisturbed
  · rintro ⟨one,small⟩
    have chunks : g.nrChunk ≤ 128 := by
      rw [g.chunks]
      simp only [CHUNKSIZE]
      omega
    have few : g.nrAllChunks ≤ 0x80000 := by
      rw [g.all,one]
      omega
    refine ⟨_,_,doMmapOk grants g few,offsetEq (by omega),?_⟩
    rw [fillRange g]
    exact undisturbedSpans ran types ((distanceSpans types).mpr ⟨one,small⟩) content ret ret'

/- The default of 512 pages in one anonymous chunk. -/
def oneBackend : Options := ⟨512,0x2#64,true,by decide,by decide⟩

theorem remapUndisturbedOne : ∃ g, setup grantingKernel oneBackend = .ok g ∧ ∃ writes offset,
    doMmap grantingKernel g = .ok writes ∧ mremapOffset g = .ok offset ∧
    Undisturbed g (fill g writes) offset 0 0 (laid (fill g writes) (fun a => a)) :=
  have ran : setup grantingKernel oneBackend = .ok (allocate 512 0x2#64 (by decide) (by decide)) :=
    setupGranted grantingGrants (by decide) (by decide)
  ⟨_,ran,(remapUndisturbedIff grantingGrants ran (by decide) (fun a => a) 0 0).mpr ⟨by decide,by decide⟩⟩

/- With a second backend the first chunk is moved onto the second one's. -/
theorem remapDisturbsTwo : ∃ g, setup grantingKernel twoBackends = .ok g ∧ ¬∃ writes offset,
    doMmap grantingKernel g = .ok writes ∧ mremapOffset g = .ok offset ∧
    Undisturbed g (fill g writes) offset 0 0 (laid (fill g writes) (fun a => a)) := by
  refine ⟨_,twoSetup,?_⟩
  rintro ⟨writes,offset,mapped,found,undisturbed⟩
  have one := (undisturbedOnly grantingGrants twoSetup (by decide) mapped found undisturbed).1
  revert one
  decide

end Passes

end MmRegression
