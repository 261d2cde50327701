import MmRegression.WorkMemory

/-! `do_mbind_fuzz` of `lib/include.h`: rounds of `mbind` over all chunks, with a node, an offset and
a length drawn from `random()` for each call. -/
namespace MmRegression

open CInt

structure MbindCall where
  addr : Nat
  length : Nat
  node : Nat
  deriving DecidableEq, Repr

section Model

def remainder (a b : Nat) : Except Stop Nat := if b = 0 then .error .undefined else .ok (a % b)

/- The three values of `random()` are those of one call. All operands but `nr_p` are
`unsigned long`. -/
def mbindFuzzChunk (g : Globals) (nrNodes : Nat) (mc : MemChunk) (first second third : Nat) : Except Stop MbindCall := do
  let node ← remainder first nrNodes
  let page ← remainder second g.nrP
  let offset := umul page PS
  let pages ← remainder third (usub g.nrP (offset/PS))
  let length := umul pages PS
  return ⟨uadd mc.p offset,uadd mc.chunkSize length,node⟩

/- What has been drawn, the calls with their chunks, and whether an operation was undefined. -/
structure Fuzz where
  drawn : Nat
  calls : List (Nat × MbindCall)
  undefined : Bool
  deriving DecidableEq, Repr

variable (g : Globals) (nrNodes : Nat) (chunkset : List MemChunk) (random : Nat → Nat)

/- `__mbind_fuzz_chunk` has no `return`: `garbage` is what `do_work_memory` reads after each call. -/
def fuzzCall (garbage : Nat → Int) (k : Nat) (s : Fuzz) : Int × Fuzz :=
  match mbindFuzzChunk g nrNodes (entry chunkset k) (random s.drawn) (random (s.drawn+1)) (random (s.drawn+2)) with
  | .ok call => (garbage s.calls.length,⟨s.drawn+3,s.calls ++ [(k,call)],s.undefined⟩)
  | .error _ => (garbage s.calls.length,⟨s.drawn+3,s.calls,true⟩)

/- `while (flag)`, left after some number of rounds. -/
def doMbindFuzz (garbage : Nat → Int) (ret : Int) : Nat → Fuzz
  | 0 => ⟨0,[],false⟩
  | rounds+1 =>
      (doWorkMemory (fuzzCall g nrNodes chunkset random garbage) g.nrMemTypes g.nrChunk ret (doMbindFuzz garbage ret rounds)).2

/- No remainder by zero, and every range inside the chunk it was made for. -/
def FuzzInside (s : Fuzz) : Prop :=
  s.undefined = false ∧ ∀ c ∈ s.calls, (entry chunkset c.1).p ≤ c.2.addr ∧
    c.2.addr+c.2.length ≤ (entry chunkset c.1).p+(entry chunkset c.1).chunkSize

end Model

section Draws

variable {g : Globals} {nrNodes : Nat} {chunkset : List MemChunk} {random : Nat → Nat}

theorem drawnCall (nodes : 0 < nrNodes) {mc : MemChunk} (room : mc.p+CHUNKSIZE*PS < 0x800000000000)
    (fits : mc.chunkSize ≤ CHUNKSIZE*PS) (first second third : Nat) :
    mbindFuzzChunk g nrNodes mc first second third =
      .ok ⟨mc.p+second % g.nrP*PS,mc.chunkSize+third % (g.nrP-second % g.nrP)*PS,first % nrNodes⟩ := by
  have positive := g.positive
  have small := g.isInt
  have page : second % g.nrP < g.nrP := Nat.mod_lt _ positive
  have pages : third % (g.nrP-second % g.nrP) < g.nrP-second % g.nrP := Nat.mod_lt _ (by omega)
  simp only [mbindFuzzChunk,remainder,if_neg (by omega : ¬nrNodes = 0),if_neg (by omega : ¬g.nrP = 0),bind,Except.bind]
  generalize second % g.nrP = b at *
  have scaled {n : Nat} (below : n < g.nrP) : umul n PS = n*PS := umulOk (by
    simp only [PS,intLimit,ulongLimit] at small ⊢
    omega)
  have divisor : usub g.nrP (b*PS/PS) = g.nrP-b := by
    rw [Nat.mul_div_cancel b (by decide)]
    exact usubOk (by omega) (small.trans (by decide))
  rw [scaled page,divisor,if_neg (by omega)]
  simp only
  generalize third % (g.nrP-b) = c at *
  rw [scaled (n := c) (by omega)]
  have wide : mc.p+b*PS < ulongLimit ∧ mc.chunkSize+c*PS < ulongLimit := by
    simp only [CHUNKSIZE,PS,intLimit,ulongLimit] at *
    omega
  rw [uaddOk wide.1,uaddOk wide.2]
  rfl

theorem drawnInside (mc : MemChunk) (node second third : Nat) :
    (mc.p ≤ (⟨mc.p+second % g.nrP*PS,mc.chunkSize+third % (g.nrP-second % g.nrP)*PS,node⟩ : MbindCall).addr ∧
      mc.p+second % g.nrP*PS+(mc.chunkSize+third % (g.nrP-second % g.nrP)*PS) ≤ mc.p+mc.chunkSize) ↔
      g.nrP ∣ second ∧ g.nrP ∣ third := by
  rw [Nat.dvd_iff_mod_eq_zero,Nat.dvd_iff_mod_eq_zero]
  constructor
  · rintro ⟨_,inside⟩
    simp only [PS] at inside
    have start : second % g.nrP = 0 := by omega
    rw [start,Nat.sub_zero] at inside
    exact ⟨start,by omega⟩
  · rintro ⟨start,length⟩
    rw [start,Nat.sub_zero,length]
    exact ⟨Nat.le_add_right _ _,by omega⟩

structure FuzzRecorded (g : Globals) (nrNodes : Nat) (chunkset : List MemChunk) (random : Nat → Nat) (s : Fuzz) : Prop where
  drawn : s.drawn = 3*s.calls.length
  defined : s.undefined = false
  calls : ∀ n c, s.calls[n]? = some c → c.1 < g.nrAllChunks ∧
    mbindFuzzChunk g nrNodes (entry chunkset c.1) (random (3*n)) (random (3*n+1)) (random (3*n+2)) = .ok c.2

/- The chunks whose addresses and sizes are those of a layout. -/
def Roomy (g : Globals) (chunkset : List MemChunk) : Prop :=
  ∀ k < g.nrAllChunks, (entry chunkset k).p+CHUNKSIZE*PS < 0x800000000000 ∧ (entry chunkset k).chunkSize ≤ CHUNKSIZE*PS

theorem fuzzCallRecorded (nodes : 0 < nrNodes) (roomy : Roomy g chunkset) (garbage : Nat → Int) {k : Nat}
    (small : k < g.nrAllChunks) {s : Fuzz} (recorded : FuzzRecorded g nrNodes chunkset random s) :
    FuzzRecorded g nrNodes chunkset random (fuzzCall g nrNodes chunkset random garbage k s).2 ∧
      (fuzzCall g nrNodes chunkset random garbage k s).2.calls.length = s.calls.length+1 := by
  obtain ⟨room,fits⟩ := roomy k small
  have drawn := drawnCall (g := g) nodes room fits (random s.drawn) (random (s.drawn+1)) (random (s.drawn+2))
  generalize called : (MbindCall.mk _ _ _) = call at drawn
  simp only [fuzzCall,drawn]
  refine ⟨⟨?_,recorded.defined,fun n c found => ?_⟩,by simp⟩
  · simp only [List.length_append,List.length_singleton,recorded.drawn]
    omega
  · rcases Nat.lt_or_ge n s.calls.length with earlier | later
    · rw [List.getElem?_append_left earlier] at found
      exact recorded.calls n c found
    · rw [List.getElem?_append_right later] at found
      have last : n-s.calls.length = 0 := by
        have := (List.getElem?_eq_some_iff.mp found).1
        simp only [List.length_singleton] at this
        omega
      rw [last] at found
      cases Option.some.inj found
      rw [show n = s.calls.length by omega,← recorded.drawn]
      exact ⟨small,drawn⟩

/- Every round makes one call at least, whatever it reads as the result of a call. -/
theorem fuzzRecorded (random : Nat → Nat) (nodes : 0 < nrNodes) (types : 0 < g.nrMemTypes) (roomy : Roomy g chunkset)
    (garbage : Nat → Int) (ret : Int) (rounds : Nat) :
    FuzzRecorded g nrNodes chunkset random (doMbindFuzz g nrNodes chunkset random garbage ret rounds) ∧
      rounds ≤ (doMbindFuzz g nrNodes chunkset random garbage ret rounds).calls.length := by
  induction rounds with
  | zero => exact ⟨⟨rfl,rfl,fun n c found => by simp [doMbindFuzz] at found⟩,Nat.zero_le _⟩
  | succ rounds ih =>
    obtain ⟨recorded,grown⟩ := ih
    have count : g.nrMemTypes*g.nrChunk = g.nrAllChunks := by rw [g.all,Nat.mul_comm]
    rw [doMbindFuzz]
    generalize doMbindFuzz g nrNodes chunkset random garbage ret rounds = s at recorded grown
    have step (m : Nat) (t : Fuzz) (small : m < g.nrMemTypes*g.nrChunk)
        (held : FuzzRecorded g nrNodes chunkset random t ∧ rounds ≤ t.calls.length ∧ (0 < m → rounds+1 ≤ t.calls.length))
        (next : Nat) :
        FuzzRecorded g nrNodes chunkset random (fuzzCall g nrNodes chunkset random garbage m t).2 ∧
          rounds ≤ (fuzzCall g nrNodes chunkset random garbage m t).2.calls.length ∧
          (0 < next → rounds+1 ≤ (fuzzCall g nrNodes chunkset random garbage m t).2.calls.length) := by
      obtain ⟨kept,longer⟩ := fuzzCallRecorded nodes roomy garbage (count ▸ small) held.1
      exact ⟨kept,by omega,fun _ => by omega⟩
    have rule := workRule (fuzzCall g nrNodes chunkset random garbage)
      (fun m t => FuzzRecorded g nrNodes chunkset random t ∧ rounds ≤ t.calls.length ∧ (0 < m → rounds+1 ≤ t.calls.length))
      g.nrMemTypes g.nrChunk ret s (fun m t small held _ => step m t small held (m+1))
      (fun m t small held _ next _ => step m t small held next) ⟨recorded,grown,fun none => by omega⟩
    exact ⟨rule.1,rule.2.2 (Nat.mul_pos types (chunkPositive g))⟩

theorem fuzzInside (nodes : 0 < nrNodes) (types : 0 < g.nrMemTypes) (roomy : Roomy g chunkset) :
    (∀ garbage ret rounds, FuzzInside chunkset (doMbindFuzz g nrNodes chunkset random garbage ret rounds)) ↔
      ∀ n, g.nrP ∣ random (3*n+1) ∧ g.nrP ∣ random (3*n+2) := by
  constructor
  · intro inside n
    obtain ⟨recorded,grown⟩ := fuzzRecorded random nodes types roomy (fun _ => 0) 0 (n+1)
    obtain ⟨_,within⟩ := inside (fun _ => 0) 0 (n+1)
    have found := List.getElem?_eq_getElem (l := (doMbindFuzz g nrNodes chunkset random (fun _ => 0) 0 (n+1)).calls)
      (i := n) (by omega)
    generalize (doMbindFuzz g nrNodes chunkset random (fun _ => 0) 0 (n+1)).calls[n] = c at found
    obtain ⟨small,made⟩ := recorded.calls n c found
    obtain ⟨room,fits⟩ := roomy c.1 small
    rw [drawnCall nodes room fits] at made
    have call := within c (List.mem_of_getElem? found)
    rw [← Except.ok.inj made] at call
    exact (drawnInside _ _ _ _).mp call
  · intro multiples garbage ret rounds
    obtain ⟨recorded,_⟩ := fuzzRecorded random nodes types roomy garbage ret rounds
    refine ⟨recorded.defined,fun c mem => ?_⟩
    obtain ⟨n,found⟩ := List.mem_iff_getElem?.mp mem
    obtain ⟨small,made⟩ := recorded.calls n c found
    obtain ⟨room,fits⟩ := roomy c.1 small
    rw [drawnCall nodes room fits] at made
    rw [← Except.ok.inj made]
    exact (drawnInside _ _ _ _).mpr (multiples n)

theorem layoutRoomy {kernel : Kernel} (grants : kernel.Grants) {writes : List (Nat × MemChunk)}
    (mapped : doMmap kernel g = .ok writes) : Roomy g (fill g writes) := by
  intro k small
  have member : entry (fill g writes) k ∈ fill g writes := by
    rw [doMmapOk grants g (doMmapInv mapped)] at mapped
    cases Except.ok.inj mapped
    rw [fillRange,entryAt small]
    exact List.mem_map_of_mem (List.mem_range.mpr small)
  obtain ⟨n,sized,_,fits,room⟩ := chunkPages grants mapped member
  exact ⟨room,by rw [sized]; exact Nat.mul_le_mul_right PS fits⟩

/- The length passed is that of the whole chunk and the drawn one on top, from the drawn offset on. -/
theorem mbindFuzzInsideIff {kernel : Kernel} (grants : kernel.Grants) (types : 0 < g.nrMemTypes)
    {writes : List (Nat × MemChunk)} (mapped : doMmap kernel g = .ok writes) (nodes : 1 ≤ nrNodes) (random : Nat → Nat) :
    (∀ garbage ret rounds, FuzzInside (fill g writes) (doMbindFuzz g nrNodes (fill g writes) random garbage ret rounds)) ↔
      ∀ n, g.nrP ∣ random (3*n+1) ∧ g.nrP ∣ random (3*n+2) :=
  fuzzInside nodes types (layoutRoomy grants mapped)

/- Multiples of the 4097 pages only. -/
theorem mbindFuzzMultiples : ∃ g writes, setup grantingKernel twoBackends = .ok g ∧ doMmap grantingKernel g = .ok writes ∧
    ∀ garbage ret rounds, FuzzInside (fill g writes) (doMbindFuzz g 2 (fill g writes) (fun n => 4097*n) garbage ret rounds) :=
  ⟨twoGlobals,twoWrites,twoSetup,twoMapped,
    (mbindFuzzInsideIff grantingGrants (by decide) twoMapped (by decide) (fun n => 4097*n)).mpr
      (fun n => ⟨Nat.dvd_mul_right 4097 _,Nat.dvd_mul_right 4097 _⟩)⟩

theorem mbindFuzzLeaves : ∃ g writes, setup grantingKernel twoBackends = .ok g ∧ doMmap grantingKernel g = .ok writes ∧
    ¬∀ garbage ret rounds, FuzzInside (fill g writes) (doMbindFuzz g 2 (fill g writes) (fun _ => 1) garbage ret rounds) := by
  refine ⟨twoGlobals,twoWrites,twoSetup,twoMapped,fun inside => ?_⟩
  have divides := ((fuzzInside (by decide) (by decide) (layoutRoomy grantingGrants twoMapped)).mp inside 0).1
  exact absurd divides (by decide)

end Draws

end MmRegression
