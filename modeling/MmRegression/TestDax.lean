import MmRegression.CInt
import MmRegression.Memory

/-! `lib/test_dax.c`: the warm-up of a file, its mappings of 1 GB each, and the loops that go through it by
memory accesses or by system calls. The kernel puts a mapping where `place` says. -/
namespace MmRegression.TestDax

open CInt
open Memory

def GB : Nat := 0x40000000
def HPS : Nat := 0x200000
def addrInput : Int := 0x700000000000

/- A range of the file, as `pread` and `pwrite` take it. -/
structure FileRange where
  offset : Nat
  len : Nat
  deriving DecidableEq, Repr

def FileRange.Holds (r : FileRange) (x : Nat) : Prop := r.offset ≤ x ∧ x < r.offset+r.len

/-! ### The warm-up -/

/- The `pwrite` calls. `i*HPS` is a product of `int`s. -/
def prepareFsdaxFile (size : Nat) : Except Stop (List FileRange) :=
  forInt (size/HPS) (fun i => do
    let offset ← int (i*HPS)
    .ok ⟨offset,HPS⟩)

structure WarmsUp (size : Nat) (calls : List FileRange) : Prop where
  ran : prepareFsdaxFile size = .ok calls
  disjoint : calls.Pairwise (fun a b => ∀ x, ¬(a.Holds x ∧ b.Holds x))
  inside : ∀ c ∈ calls, ∀ x, c.Holds x → x < size
  covers : ∀ x < size, ∃ c ∈ calls, c.Holds x

def warmBlock (i : Nat) : FileRange := ⟨i*HPS,HPS⟩

theorem warmHolds {i x : Nat} : (warmBlock i).Holds x ↔ x/HPS = i := by
  rw [Nat.div_eq_iff (by decide)]
  simp only [FileRange.Holds,warmBlock,HPS]
  omega

theorem prepareOk {size : Nat} (few : size/HPS ≤ 1024) :
    prepareFsdaxFile size = .ok ((List.range (size/HPS)).map warmBlock) := by
  refine forIntOk (by simp only [intLimit]; omega) (fun i inside => ?_)
  rw [intOk (by simp only [intLimit,HPS] at *; omega),bindOk,warmBlock]

/- From block 1024 on the offset is 2^31 or more. -/
theorem prepareOverflows {size : Nat} (many : 1024 < size/HPS) : prepareFsdaxFile size = .error .undefined := by
  refine forIntStops many (by decide) (fun i early => ?_) ?_
  · exact ⟨warmBlock i,by rw [intOk (by simp only [intLimit,HPS]; omega),bindOk,warmBlock]⟩
  · rfl

theorem overflowMisses {size : Nat} (overflows : prepareFsdaxFile size = .error .undefined) :
    ¬∃ calls, WarmsUp size calls := by
  intro warm
  obtain ⟨calls,ran,-⟩ := warm
  rw [overflows] at ran
  cases ran

/- The last byte is in a block, and all blocks are whole. -/
theorem coveredWhole {size : Nat} (covers : ∀ x < size, ∃ c ∈ (List.range (size/HPS)).map warmBlock, c.Holds x) :
    size ≤ size/HPS*HPS := by
  rcases Nat.eq_zero_or_pos size with rfl | some
  · exact Nat.zero_le _
  · obtain ⟨c,mem,holds⟩ := covers (size-1) (by omega)
    obtain ⟨i,inside,rfl⟩ := List.mem_map.mp mem
    have last := warmHolds.mp holds
    have early := List.mem_range.mp inside
    have next := Nat.lt_mul_of_div_lt (by omega : (size-1)/HPS < size/HPS) (by decide)
    omega

theorem warmsUp (size : Nat) : (∃ calls, WarmsUp size calls) ↔ HPS ∣ size ∧ size ≤ 1024*HPS := by
  constructor
  · intro warm
    have few : size/HPS ≤ 1024 := by
      by_contra many
      exact overflowMisses (prepareOverflows (by omega)) warm
    obtain ⟨calls,ran,-,-,covers⟩ := warm
    cases Except.ok.inj ((prepareOk few).symm.trans ran)
    have whole := coveredWhole covers
    have exact := Nat.le_antisymm whole (Nat.div_mul_le_self size HPS)
    exact ⟨⟨size/HPS,by rw [Nat.mul_comm]; exact exact⟩,by rw [exact]; exact Nat.mul_le_mul_right HPS few⟩
  · intro sized
    obtain ⟨⟨blocks,rfl⟩,small⟩ := sized
    have count : HPS*blocks/HPS = blocks := Nat.mul_div_cancel_left blocks (by decide)
    have few : HPS*blocks/HPS ≤ 1024 := by
      rw [count]
      simp only [HPS] at small
      omega
    refine ⟨_,prepareOk few,?_,fun c mem x holds => ?_,fun x below => ?_⟩
    · rw [List.pairwise_map]
      refine List.nodup_range.imp (fun different x both => different ?_)
      exact (warmHolds.mp both.1).symm.trans (warmHolds.mp both.2)
    · obtain ⟨i,inside,rfl⟩ := List.mem_map.mp mem
      have early := List.mem_range.mp inside
      rw [count] at early
      simp only [FileRange.Holds,warmBlock,HPS] at *
      omega
    · refine ⟨warmBlock (x/HPS),List.mem_map.mpr ⟨x/HPS,List.mem_range.mpr ?_,rfl⟩,warmHolds.mpr rfl⟩
      rw [count]
      exact Nat.div_lt_of_lt_mul below

/- Nothing is written of a small file, and beyond 2 GB the offset overflows. -/
theorem warmUpMisses : (¬∃ calls, WarmsUp 4096 calls) ∧ prepareFsdaxFile 0x80200000 = .error .undefined ∧
    ¬∃ calls, WarmsUp 0x80200000 calls := by
  have overflows : prepareFsdaxFile 0x80200000 = .error .undefined := prepareOverflows (by decide)
  refine ⟨fun warm => ?_,overflows,overflowMisses overflows⟩
  obtain ⟨calls,ran,-,-,covers⟩ := warm
  have none : prepareFsdaxFile 4096 = .ok [] := rfl
  cases Except.ok.inj (none.symm.trans ran)
  obtain ⟨c,mem,-⟩ := covers 0 (by decide)
  exact List.not_mem_nil mem

/-! ### The mappings -/

def chunkSize (index size : Nat) : Nat :=
  let tmp := usub size (umul index GB)
  if tmp > GB then GB else tmp

def nrMmaps (size : Nat) : Int := toInt (uadd (usub size 1 / GB) 1)

structure DaxMapping where
  addr : Int
  len : Nat
  offset : Nat
  deriving DecidableEq, Repr

def hint (i : Nat) : Int := addrInput+umul i GB

/- The mappings of the loop over `addr`. -/
def daxMappings (place : Nat → Int) (size : Nat) : Except Stop (List DaxMapping) :=
  forInt (nrMmaps size).toNat (fun i => .ok ⟨place i,chunkSize i size,umul i GB⟩)

/-! ### The loops -/

inductive IoType where
  | write
  | read
  | syswrite
  | sysread
  deriving DecidableEq, Repr

def IoType.mapped : IoType → Bool
  | .write | .read => true
  | .syswrite | .sysread => false

inductive DaxAccess where
  | memset (addr : Int) (len : Nat)
  | memcpy (addr : Int) (len : Nat)
  | pwrite (range : FileRange)
  | pread (range : FileRange)
  deriving DecidableEq, Repr

/- `addr[(i * iosize) / GB] + (i * iosize) % GB`. -/
def address (maps : List DaxMapping) (iosize i : Nat) : Except Stop Int :=
  match maps[umul i iosize / GB]? with
  | some mapping => .ok (mapping.addr+umul i iosize % GB)
  | none => .error .undefined

def access (maps : List DaxMapping) (iosize : Nat) (iotype : IoType) (i : Nat) : Except Stop DaxAccess :=
  match iotype with
  | .write => (address maps iosize i).map (fun a => .memset a iosize)
  | .read => (address maps iosize i).map (fun a => .memcpy a iosize)
  | .syswrite => .ok (.pwrite ⟨umul i iosize,iosize⟩)
  | .sysread => .ok (.pread ⟨umul i iosize,iosize⟩)

section Passes

variable {β : Type} (body : Nat → Except Stop β)

/- One `for` loop: what its body did, and what is left of `repeat`, none where the program has left. -/
def ioPass : List Nat → Int → Except Stop (List β × Option Int)
  | [], repeats => .ok ([],some repeats)
  | i::is, repeats => do
      let b ← body i
      if repeats-1 = 0 then .ok ([b],none)
      else do
        let _ ← int (i+1)
        let rest ← ioPass is (repeats-1)
        .ok (b::rest.1,rest.2)

/- `while (1)`, the first `passes` turns of it. -/
def ioLoop (norepeat : Bool) (n : Nat) : Nat → Int → Except Stop (List β)
  | 0, _ => .ok []
  | passes+1, repeats => do
      let pass ← ioPass body (List.range n) repeats
      match pass.2 with
      | none => .ok pass.1
      | some left =>
          if norepeat then .ok pass.1
          else do
            let rest ← ioLoop norepeat n passes left
            .ok (pass.1 ++ rest)

end Passes

def openMaps (place : Nat → Int) (size : Nat) (iotype : IoType) : Except Stop (List DaxMapping) :=
  if iotype.mapped then daxMappings place size else .ok []

def ioAccesses (place : Nat → Int) (size iosize : Nat) (iotype : IoType) (norepeat : Bool) (passes : Nat)
    (repeats : Int) : Except Stop (List DaxAccess) := do
  let maps ← openMaps place size iotype
  if iosize = 0 then .error .undefined
  else ioLoop (access maps iosize iotype) norepeat (size/iosize) passes repeats

/-! ### The turns of the loops -/

/- Which iterations there are does not depend on what the body does. -/
def passTurns : List Nat → Int → List Nat × Option Int
  | [], repeats => ([],some repeats)
  | i::is, repeats =>
      if repeats-1 = 0 then ([i],none)
      else
        let rest := passTurns is (repeats-1)
        (i::rest.1,rest.2)

def loopTurns (norepeat : Bool) (n : Nat) : Nat → Int → List Nat
  | 0, _ => []
  | passes+1, repeats =>
      let pass := passTurns (List.range n) repeats
      match pass.2 with
      | none => pass.1
      | some left => if norepeat then pass.1 else pass.1 ++ loopTurns norepeat n passes left

theorem passTurnsFrom (is : List Nat) (repeats : Int) : ∀ i ∈ (passTurns is repeats).1, i ∈ is := by
  induction is generalizing repeats with
  | nil => simp [passTurns]
  | cons j js ih =>
    intro i mem
    simp only [passTurns] at mem
    split at mem
    · rw [List.mem_singleton.mp mem]
      exact List.mem_cons_self
    · rcases List.mem_cons.mp mem with rfl | later
      · exact List.mem_cons_self
      · exact List.mem_cons_of_mem j (ih (repeats-1) i later)

theorem loopTurnsBelow (norepeat : Bool) (n passes : Nat) (repeats : Int) :
    ∀ i ∈ loopTurns norepeat n passes repeats, i < n := by
  induction passes generalizing repeats with
  | zero => simp [loopTurns]
  | succ passes ih =>
    intro i mem
    have first := fun j inside => List.mem_range.mp (passTurnsFrom (List.range n) repeats j inside)
    simp only [loopTurns] at mem
    split at mem
    · exact first i mem
    · split at mem
      · exact first i mem
      · exact (List.mem_append.mp mem).elim (first i) (ih _ i)

section Turns

variable {β : Type} {body : Nat → Except Stop β} {g : Nat → β} {n : Nat}

theorem passRuns {is : List Nat} (small : ∀ i ∈ is, i+1 < intLimit) (each : ∀ i ∈ is, body i = .ok (g i))
    (repeats : Int) :
    ioPass body is repeats = .ok ((passTurns is repeats).1.map g,(passTurns is repeats).2) := by
  induction is generalizing repeats with
  | nil => rfl
  | cons i is ih =>
    obtain ⟨smallI,smallIs⟩ := List.forall_mem_cons.mp small
    obtain ⟨here,later⟩ := List.forall_mem_cons.mp each
    rw [ioPass,here,bindOk,passTurns]
    split
    · rfl
    · rw [intOk smallI,bindOk,ih smallIs later,bindOk]
      rfl

theorem loopRuns (small : n < intLimit) (each : ∀ i, i < n → body i = .ok (g i)) (norepeat : Bool) (passes : Nat)
    (repeats : Int) :
    ioLoop body norepeat n passes repeats = .ok ((loopTurns norepeat n passes repeats).map g) := by
  induction passes generalizing repeats with
  | zero => rfl
  | succ passes ih =>
    have pass := @passRuns β body g (List.range n) (fun i mem => by have := List.mem_range.mp mem; omega)
      (fun i mem => each i (List.mem_range.mp mem)) repeats
    rw [ioLoop,pass,bindOk,loopTurns]
    cases (passTurns (List.range n) repeats).2 with
    | none => rfl
    | some left =>
      cases norepeat with
      | true => rfl
      | false =>
        simp only [Bool.false_eq_true,if_false]
        rw [ih,bindOk,List.map_append]

end Turns

/-! ### The bytes of the file -/

def fileByte (maps : List DaxMapping) (a : Int) : Option Nat :=
  (maps.find? (fun m => decide (Inside m.addr m.len a))).map (fun m => m.offset+(a-m.addr).toNat)

/- For each byte that is accessed, the byte of the file that it is. -/
def DaxAccess.bytes (maps : List DaxMapping) : DaxAccess → List (Option Nat)
  | .memset addr len | .memcpy addr len => (List.range len).map (fun r : Nat => fileByte maps (addr+r))
  | .pwrite range | .pread range => (List.range range.len).map (fun r => some (range.offset+r))

/- The mappings tile the file, and each iteration accesses its own bytes in each of the loops; so do whole
runs, whose iterations are the same. -/
structure IoAgrees (place : Nat → Int) (size iosize : Nat) (maps : List DaxMapping) : Prop where
  mapped : daxMappings place size = .ok maps
  tiles : maps.flatMap (fun m => List.range' m.offset m.len) = List.range size
  each : ∀ iotype i, i < size/iosize → ∃ a, access maps iosize iotype i = .ok a ∧
    a.bytes maps = (List.range' (i*iosize) iosize).map some
  runs : ∀ norepeat passes repeats, ∃ turns : List Nat, (∀ i ∈ turns, i < size/iosize) ∧
    ∀ iotype, ∃ accesses, ioAccesses place size iosize iotype norepeat passes repeats = .ok accesses ∧
      accesses.map (DaxAccess.bytes maps) = turns.map (fun i => (List.range' (i*iosize) iosize).map some)

section Agrees

variable {size iosize : Nat}

def mapping (size i : Nat) : DaxMapping := ⟨addrInput+(i*GB : Nat),min GB (size-i*GB),i*GB⟩

def maps (size : Nat) : List DaxMapping := (List.range ((size-1)/GB+1)).map (mapping size)

theorem nrMmapsCount (filled : 1 ≤ size) (small : size < 0x1000000000000000) :
    nrMmaps size = ((size-1)/GB+1 : Nat) := by
  have count : (size-1)/GB < 1073741824 := Nat.div_lt_of_lt_mul (by simp only [GB]; omega)
  rw [nrMmaps,usubOk filled (by simp only [ulongLimit]; omega),uaddOk (by simp only [ulongLimit]; omega),
    toIntNat (by simp only [intLimit]; omega)]

theorem chunkSizeMin {i : Nat} (inside : i*GB < size) (small : size < 0x1000000000000000) :
    chunkSize i size = min GB (size-i*GB) := by
  have product : umul i GB = i*GB := umulOk (by simp only [ulongLimit]; omega)
  rw [chunkSize,product,usubOk (by omega) (by simp only [ulongLimit]; omega)]
  simp only [gt_iff_lt]
  split <;> omega

theorem mappingBelow {i : Nat} (filled : 1 ≤ size) (inside : i < (size-1)/GB+1) : i*GB < size := by
  have := (Nat.le_div_iff_mul_le (by decide : 0 < GB)).mp (Nat.le_of_lt_succ inside)
  omega

theorem mappingsLaid {place : Nat → Int} (filled : 1 ≤ size) (small : size < 0x1000000000000000)
    (lands : ∀ i, i < (nrMmaps size).toNat → place i = hint i) : daxMappings place size = .ok (maps size) := by
  have count := nrMmapsCount filled small
  rw [count] at lands
  rw [daxMappings,count]
  refine forIntOk ?_ (fun i inside => ?_)
  · have : (size-1)/GB < 1073741824 := Nat.div_lt_of_lt_mul (by simp only [GB]; omega)
    simp only [intLimit,Int.toNat_natCast]
    omega
  · have below := mappingBelow filled inside
    have product : umul i GB = i*GB := umulOk (by simp only [ulongLimit]; omega)
    rw [lands i inside,hint,chunkSizeMin below small,product,mapping]

theorem rowsTile (size n : Nat) :
    (List.range n).flatMap (fun i => List.range' (i*GB) (min GB (size-i*GB))) = List.range (min (n*GB) size) := by
  induction n with
  | zero => simp
  | succ n ih =>
    rw [List.range_succ,List.flatMap_append,ih,List.flatMap_cons,List.flatMap_nil,List.append_nil,Nat.succ_mul]
    rcases Nat.le_total size (n*GB) with past | inside
    · rw [Nat.min_eq_right past,Nat.sub_eq_zero_of_le past,Nat.min_zero,Nat.min_eq_right (Nat.le_add_right_of_le past)]
      exact List.append_nil _
    · have more : min (n*GB+GB) size = n*GB+min GB (size-n*GB) := by omega
      rw [Nat.min_eq_left inside,more,List.range_add,List.range'_eq_map_range]

theorem mapsTile (filled : 1 ≤ size) : (maps size).flatMap (fun m => List.range' m.offset m.len) = List.range size := by
  have enough : size ≤ ((size-1)/GB+1)*GB := by
    have := Nat.lt_mul_of_div_lt (Nat.lt_add_one ((size-1)/GB)) (by decide : 0 < GB)
    omega
  rw [maps,List.flatMap_map]
  exact (rowsTile size _).trans (by rw [Nat.min_eq_right enough])

/- The mappings lie side by side, so an address is that far into the file. -/
theorem fileByteAt (filled : 1 ≤ size) {x : Nat} (inside : x < size) :
    fileByte (maps size) (addrInput+(x : Int)) = some x := by
  have quotient := Nat.div_add_mod x GB
  have remainder := Nat.mod_lt x (by decide : 0 < GB)
  rw [Nat.mul_comm] at quotient
  have found : ((maps size).find? (fun m => decide (Inside m.addr m.len (addrInput+(x : Int))))).isSome := by
    refine List.find?_isSome.mpr ⟨mapping size (x/GB),List.mem_map.mpr ⟨x/GB,List.mem_range.mpr ?_,rfl⟩,?_⟩
    · exact Nat.lt_succ_of_le (Nat.div_le_div_right (by omega))
    · refine decide_eq_true ⟨?_,?_⟩ <;> simp only [mapping,GB] at * <;> omega
  obtain ⟨m,here⟩ := Option.isSome_iff_exists.mp found
  have holds := List.find?_some here
  rw [decide_eq_true_eq] at holds
  obtain ⟨i,-,rfl⟩ := List.mem_map.mp (List.mem_of_find?_eq_some here)
  rw [fileByte,here,Option.map_some]
  simp only [mapping,Inside] at holds
  refine congrArg some ?_
  simp only [mapping]
  omega

theorem turnInside {i : Nat} (inside : i < size/iosize) : 1 ≤ iosize ∧ i*iosize+iosize ≤ size := by
  have positive : 0 < iosize := by
    refine Nat.pos_of_ne_zero (fun zero => ?_)
    rw [zero,Nat.div_zero] at inside
    omega
  refine ⟨positive,?_⟩
  rw [← Nat.succ_mul]
  exact (Nat.le_div_iff_mul_le positive).mp inside

theorem addressAt (filled : 1 ≤ size) (small : size < 0x1000000000000000) {i : Nat}
    (inside : i < size/iosize) : address (maps size) iosize i = .ok (addrInput+(i*iosize : Nat)) := by
  obtain ⟨positive,within⟩ := turnInside inside
  have product : umul i iosize = i*iosize := umulOk (by simp only [ulongLimit]; omega)
  have index : i*iosize/GB < (size-1)/GB+1 := Nat.lt_succ_of_le (Nat.div_le_div_right (by omega))
  have entry : (maps size)[i*iosize/GB]? = some (mapping size (i*iosize/GB)) := by
    rw [maps,List.getElem?_map,List.getElem?_range index,Option.map_some]
  have parts := Nat.div_add_mod (i*iosize) GB
  rw [Nat.mul_comm] at parts
  simp only [address,product,entry,mapping,Except.ok.injEq]
  omega

theorem addressBytes (filled : 1 ≤ size) {i : Nat} (inside : i < size/iosize) :
    (List.range iosize).map (fun r : Nat => fileByte (maps size) (addrInput+(i*iosize : Nat)+r)) =
      (List.range' (i*iosize) iosize).map some := by
  obtain ⟨positive,within⟩ := turnInside inside
  rw [List.range'_eq_map_range,List.map_map]
  refine List.map_congr_left (fun r mem => ?_)
  have small := List.mem_range.mp mem
  rw [Int.add_assoc,← Int.natCast_add,fileByteAt filled (by omega)]
  rfl

/- What an iteration does. -/
def turn (iosize : Nat) (iotype : IoType) (i : Nat) : DaxAccess :=
  match iotype with
  | .write => .memset (addrInput+(i*iosize : Nat)) iosize
  | .read => .memcpy (addrInput+(i*iosize : Nat)) iosize
  | .syswrite => .pwrite ⟨i*iosize,iosize⟩
  | .sysread => .pread ⟨i*iosize,iosize⟩

theorem turnAccess (filled : 1 ≤ size) (small : size < 0x1000000000000000) {i : Nat}
    (inside : i < size/iosize) (iotype : IoType) :
    access (maps size) iosize iotype i = .ok (turn iosize iotype i) := by
  obtain ⟨positive,within⟩ := turnInside inside
  have product : umul i iosize = i*iosize := umulOk (by simp only [ulongLimit]; omega)
  cases iotype with
  | write | read =>
    rw [access,addressAt filled small inside]
    rfl
  | syswrite | sysread => rw [access,product,turn]

theorem turnBytes (filled : 1 ≤ size) {i : Nat} (inside : i < size/iosize) (iotype : IoType) :
    (turn iosize iotype i).bytes (maps size) = (List.range' (i*iosize) iosize).map some := by
  cases iotype with
  | write | read => exact addressBytes filled inside
  | syswrite | sysread =>
    rw [List.range'_eq_map_range,List.map_map]
    rfl

theorem turnsRun {place : Nat → Int} (filled : 1 ≤ size) (small : size < 0x1000000000000000) (positive : 1 ≤ iosize)
    (few : size/iosize < intLimit) (lands : ∀ i, i < (nrMmaps size).toNat → place i = hint i) (iotype : IoType)
    (norepeat : Bool) (passes : Nat) (repeats : Int) :
    ioAccesses place size iosize iotype norepeat passes repeats =
      .ok ((loopTurns norepeat (size/iosize) passes repeats).map (turn iosize iotype)) := by
  -- The system calls have no mappings and use none.
  have body : ∃ ms, openMaps place size iotype = .ok ms ∧
      ∀ i, i < size/iosize → access ms iosize iotype i = .ok (turn iosize iotype i) := by
    cases iotype with
    | write | read =>
      exact ⟨_,(if_pos rfl).trans (mappingsLaid filled small lands),fun i inside => turnAccess filled small inside _⟩
    | syswrite => exact ⟨_,rfl,fun i inside => turnAccess filled small inside .syswrite⟩
    | sysread => exact ⟨_,rfl,fun i inside => turnAccess filled small inside .sysread⟩
  obtain ⟨ms,opened,each⟩ := body
  rw [ioAccesses,opened,bindOk,if_neg (Nat.ne_of_gt positive)]
  exact loopRuns few each norepeat passes repeats

end Agrees

theorem ioAgrees {place : Nat → Int} {size iosize : Nat} (filled : 1 ≤ size) (small : size < 0x1000000000000000)
    (positive : 1 ≤ iosize) (few : size/iosize < intLimit) (lands : ∀ i, i < (nrMmaps size).toNat → place i = hint i) :
    ∃ maps, IoAgrees place size iosize maps := by
  refine ⟨maps size,mappingsLaid filled small lands,mapsTile filled,fun iotype i inside => ?_,
    fun norepeat passes repeats => ?_⟩
  · exact ⟨_,turnAccess filled small inside iotype,turnBytes filled inside iotype⟩
  · have below := loopTurnsBelow norepeat (size/iosize) passes repeats
    refine ⟨_,below,fun iotype => ⟨_,turnsRun filled small positive few lands iotype norepeat passes repeats,?_⟩⟩
    rw [List.map_map]
    exact List.map_congr_left (fun i mem => turnBytes filled (below i mem) iotype)

/- Three mappings, and an access of 1.5 GB that lies in two of them. -/
theorem ioAgreesStraddling : ∃ maps, IoAgrees hint 0xa0000000 0x60000000 maps :=
  ioAgrees (by decide) (by decide) (by decide) (by decide) (fun _ _ => rfl)

end MmRegression.TestDax
