import Mathlib.Data.List.Basic
import MmRegression.PageFlags

/-! `memblock_check`: the memory block preferred for a hotremove, by the number of its pages that a
page-flag filter selects. What `pprintf` prints is left out, but not what it is given. -/
namespace MmRegression

open CInt

/- `/proc/kpageflags` with the last zone of `/proc/zoneinfo`, in pages, and blocks of `2^order` pages.
`garbage` is what `malloc` leaves in the buffer of one block. -/
structure MemoryMap where
  kpageflags : List Word
  spanned : Nat
  startPfn : Nat
  order : Nat
  garbage : List Word
  allocated : garbage.length = 2^order

def MemoryMap.size (m : MemoryMap) : Nat := 2^m.order

/- An `int` is not shifted by its width or more. -/
def getMaxMemblock (m : MemoryMap) : Except Stop Nat := do
  let last ← int (m.spanned+m.startPfn)
  if 32 ≤ m.order then .error .undefined else .ok (last / m.size)

def checkCompound (filters : List BitFilter) : Bool :=
  match filters with
  | [] => false
  | filter::_ => filter.2 &&& compoundHead != 0#64

/- Words that are not read keep what the buffer held. -/
def kpageflagsRead (file : List Word) (index count : Nat) (buffer : List Word) : List Word :=
  (file.drop index).take count ++ buffer.drop ((file.drop index).take count).length

def pageStep (filters : List BitFilter) : Nat := if checkCompound filters then 512 else 1

def matchedPages (filters : List BitFilter) (buffer : List Word) : Nat :=
  buffer.foldl (fun matched flags => if bitMaskOk filters flags then matched + pageStep filters else matched) 0

/- The blocks still to be read, the buffer, the best block so far and its number of pages. The
percentage of each block is computed as an `int`. -/
def memblockScan (filters : List BitFilter) (m : MemoryMap) : List Nat → List Word → Option Nat → Nat →
    Except Stop (Option Nat)
  | [],_,pmemblk,_ => .ok pmemblk
  | i::rest,buffer,pmemblk,maxMatched => do
      let pfn ← int (i*m.size)
      let read := kpageflagsRead m.kpageflags pfn m.size buffer
      let matched := matchedPages filters read
      let _ ← int (matched*100)
      if maxMatched < matched then
        if matched = m.size then .ok (some i) else memblockScan filters m rest read (some i) matched
      else memblockScan filters m rest read pmemblk maxMatched

/- The message of the failure reads `pageflags[j]`, where `j` is past the buffer, or not set when
there was no block to read. -/
def memblockCheck (filters : List BitFilter) (m : MemoryMap) : Except Stop Nat := do
  let maxMemblock ← getMaxMemblock m
  match ← memblockScan filters m (List.range' 2 (maxMemblock-2)) m.garbage none 0 with
  | some pmemblk => .ok pmemblk
  | none => .error .undefined

/- What the operation is for: the pages of a block that the filter selects, a compound head standing
for its 512 pages where the filter asks for compound heads. -/
def MemoryMap.pages (m : MemoryMap) (b : Nat) : List Word := (m.kpageflags.drop (b*m.size)).take m.size

def requiresHead (filters : List BitFilter) : Bool :=
  filters.any (fun f => if f.2 = kpfAllBits then f.1 == compoundHead else f.2 &&& compoundHead != 0#64)

def pageWeight (filters : List BitFilter) (flags : Word) : Nat :=
  if requiresHead filters && flags &&& compoundHead != 0#64 then 512 else 1

def matchingPages (filters : List BitFilter) (m : MemoryMap) (b : Nat) : Nat :=
  (((m.pages b).filter (bitMaskOk filters)).map (pageWeight filters)).sum

def MemoryMap.blocks (m : MemoryMap) : Nat := (m.spanned+m.startPfn) / m.size

/- The lowest of the blocks with the most pages, if one has any. -/
structure PreferredBlock (filters : List BitFilter) (m : MemoryMap) (b : Nat) : Prop where
  first : 2 ≤ b
  last : b < m.blocks
  positive : 0 < matchingPages filters m b
  most : ∀ a, 2 ≤ a → a < m.blocks → matchingPages filters m a ≤ matchingPages filters m b
  lowest : ∀ a, 2 ≤ a → a < b → matchingPages filters m a < matchingPages filters m b

def PrefersBlock (filters : List BitFilter) (m : MemoryMap) (result : Except Stop Nat) : Prop :=
  (∀ b, PreferredBlock filters m b → result = .ok b) ∧
    ((∀ b, 2 ≤ b → b < m.blocks → matchingPages filters m b = 0) → ∃ message, result = .error (.exited message))

def pagesIn (filters : List BitFilter) (m : MemoryMap) (b : Nat) : Nat := (m.pages b).countP (bitMaskOk filters)

/- The buffer after so many reads, from block 2 on. -/
def MemoryMap.buffer (m : MemoryMap) : Nat → List Word
  | 0 => m.garbage
  | n+1 => kpageflagsRead m.kpageflags ((n+2)*m.size) m.size (m.buffer n)

/- What is counted after block `b` was read, with the words that an earlier read, or no read, left in
the buffer where the file ends. -/
def seenPages (filters : List BitFilter) (m : MemoryMap) (b : Nat) : Nat := matchedPages filters (m.buffer (b-1))

section Scan

variable (seen : Nat → Nat) (full : Nat)

def Record (b : Nat) : Prop := ∀ a, 2 ≤ a → a < b → seen a < seen b

/- The scan ends at a block that is better than those before it and as full as a block can be. -/
def Stops (b : Nat) : Prop := Record seen b ∧ 0 < seen b ∧ seen b = full

def ReachedBlock (b : Nat) : Prop := ∀ a, 2 ≤ a → a < b → ¬ Stops seen full a

/- The best block among those before `i`. -/
def Best (i : Nat) (best : Option Nat) (most : Nat) : Prop :=
  (∀ a, 2 ≤ a → a < i → seen a ≤ most) ∧
    ((best = none ∧ most = 0) ∨
      ∃ p, best = some p ∧ 2 ≤ p ∧ p < i ∧ seen p = most ∧ 0 < most ∧ Record seen p ∧ ReachedBlock seen full p)

/- The block that the scan of `limit` blocks takes. -/
def TakenBlock (limit : Nat) (best : Option Nat) : Prop :=
  (best = none ∧ ∀ a, 2 ≤ a → a < limit → seen a = 0) ∨
    ∃ p, best = some p ∧ 2 ≤ p ∧ p < limit ∧ 0 < seen p ∧ Record seen p ∧ ReachedBlock seen full p ∧
      (seen p = full ∨ ∀ a, 2 ≤ a → a < limit → seen a ≤ seen p)

variable {seen : Nat → Nat} {full : Nat}

theorem bestStart : Best seen full 2 none 0 := ⟨fun a low high => absurd low (by omega),.inl ⟨rfl,rfl⟩⟩

theorem bestRecord {i most : Nat} {best : Option Nat} (first : 2 ≤ i) (so : Best seen full i best most)
    (reached : ReachedBlock seen full i) (more : most < seen i) :
    Record seen i ∧ Best seen full (i+1) (some i) (seen i) := by
  have record : Record seen i := fun a low high => Nat.lt_of_le_of_lt (so.1 a low high) more
  refine ⟨record,?_,.inr ⟨i,rfl,first,by omega,rfl,by omega,record,reached⟩⟩
  intro a low high
  rcases Nat.lt_succ_iff_lt_or_eq.mp high with before | rfl
  · exact Nat.le_of_lt (record a low before)
  · exact Nat.le_refl _

theorem bestKept {i most : Nat} {best : Option Nat} (so : Best seen full i best most) (less : seen i ≤ most) :
    Best seen full (i+1) best most := by
  refine ⟨?_,so.2.imp_right ?_⟩
  · intro a low high
    rcases Nat.lt_succ_iff_lt_or_eq.mp high with before | rfl
    · exact so.1 a low before
    · exact less
  · rintro ⟨p,some,first,before,rest⟩
    exact ⟨p,some,first,by omega,rest⟩

theorem keptOn {i most : Nat} {best : Option Nat} (so : Best seen full i best most) (less : seen i ≤ most) :
    ¬ Stops seen full i := by
  intro stops
  obtain ⟨record,positive,-⟩ := stops
  rcases so.2 with ⟨-,zero⟩ | ⟨p,-,first,before,same,-⟩
  · omega
  · have better := record p first before
    omega

theorem takenBest {limit most : Nat} {best : Option Nat} (so : Best seen full limit best most) :
    TakenBlock seen full limit best := by
  rcases so.2 with ⟨rfl,rfl⟩ | ⟨p,rfl,first,before,same,positive,record,reached⟩
  · exact .inl ⟨rfl,fun a low high => Nat.le_zero.mp (so.1 a low high)⟩
  · exact .inr ⟨p,rfl,first,before,by omega,record,reached,.inr (fun a low high => same ▸ so.1 a low high)⟩

theorem reachedNext {i : Nat} (reached : ReachedBlock seen full i) (on : ¬ Stops seen full i) :
    ReachedBlock seen full (i+1) := by
  intro a low high
  rcases Nat.lt_succ_iff_lt_or_eq.mp high with before | rfl
  · exact reached a low before
  · exact on

end Scan

section Run

variable {filters : List BitFilter} {m : MemoryMap}

/- The scan from block `i` on is undefined when the percentage of a block it reaches does not fit, and
else takes a block. -/
inductive ScanEnds (seen : Nat → Nat) (full limit i : Nat) : Except Stop (Option Nat) → Prop where
  | overflow (b : Nat) (low : i ≤ b) (high : b < limit) (reached : ReachedBlock seen full b)
      (large : intLimit ≤ seen b*100) :
      ScanEnds seen full limit i (.error .undefined)
  | takes (best : Option Nat) (fits : ∀ b, i ≤ b → b < limit → ReachedBlock seen full b → seen b*100 < intLimit)
      (taken : TakenBlock seen full limit best) : ScanEnds seen full limit i (.ok best)

theorem scanEndsNext {seen : Nat → Nat} {full limit i : Nat} {result : Except Stop (Option Nat)}
    (ends : ScanEnds seen full limit (i+1) result) (here : seen i*100 < intLimit) :
    ScanEnds seen full limit i result := by
  cases ends with
  | overflow b low high reached large => exact .overflow b (by omega) high reached large
  | takes best fits taken =>
    refine .takes best ?_ taken
    intro b low high reached
    rcases Nat.eq_or_lt_of_le low with rfl | later
    · exact here
    · exact fits b later high reached

theorem scanRun {limit : Nat} (room : limit*m.size < intLimit) (left i most : Nat) (best : Option Nat) (first : 2 ≤ i)
    (ends : i+left = limit) (so : Best (seenPages filters m) m.size i best most)
    (reached : ReachedBlock (seenPages filters m) m.size i) :
    ScanEnds (seenPages filters m) m.size limit i
      (memblockScan filters m (List.range' i left) (m.buffer (i-2)) best most) := by
  induction left generalizing i most best with
  | zero =>
    obtain rfl : i = limit := by omega
    exact .takes best (fun b low high => absurd low (by omega)) (takenBest so)
  | succ left ih =>
    have pfn : i*m.size < intLimit := Nat.lt_of_le_of_lt (Nat.mul_le_mul_right _ (by omega)) room
    have read : kpageflagsRead m.kpageflags (i*m.size) m.size (m.buffer (i-2)) = m.buffer (i-1) := by
      obtain ⟨n,rfl⟩ : ∃ n, i = n+2 := ⟨i-2,by omega⟩
      rfl
    have step : memblockScan filters m (List.range' i (left+1)) (m.buffer (i-2)) best most =
        (int (seenPages filters m i*100) >>= fun _ =>
          if most < seenPages filters m i then
            if seenPages filters m i = m.size then .ok (some i)
            else memblockScan filters m (List.range' (i+1) left) (m.buffer (i-1)) (some i) (seenPages filters m i)
          else memblockScan filters m (List.range' (i+1) left) (m.buffer (i-1)) best most) := by
      rw [List.range'_succ,memblockScan,intOk pfn,bindOk]
      simp only [read,seenPages]
      rfl
    rw [step]
    by_cases fits : seenPages filters m i*100 < intLimit
    case neg =>
      have overflow : int (seenPages filters m i*100) = .error .undefined := if_neg fits
      rw [overflow,bindError]
      exact .overflow i (Nat.le_refl i) (by omega) reached (by omega)
    rw [intOk fits,bindOk]
    by_cases more : most < seenPages filters m i
    · obtain ⟨record,next⟩ := bestRecord first so reached more
      rw [if_pos more]
      by_cases whole : seenPages filters m i = m.size
      · rw [if_pos whole]
        have stops : Stops (seenPages filters m) m.size i := ⟨record,by omega,whole⟩
        refine .takes _ ?_ (.inr ⟨i,rfl,first,by omega,by omega,record,reached,.inl whole⟩)
        intro b low high reachedB
        rcases Nat.eq_or_lt_of_le low with rfl | later
        · exact fits
        · exact absurd stops (reachedB i first later)
      · rw [if_neg whole]
        exact scanEndsNext (ih (i+1) _ _ (by omega) (by omega) next
          (reachedNext reached (fun stops => whole stops.2.2))) fits
    · rw [if_neg more]
      have on := keptOn so (Nat.le_of_not_lt more)
      exact scanEndsNext (ih (i+1) _ _ (by omega) (by omega) (bestKept so (by omega)) (reachedNext reached on)) fits

end Run

section Window

variable {own seen : Nat → Nat} {full limit step : Nat}

/- Up to block `s` the file fills the buffer; behind `s` there is nothing left to read. -/
structure Window (own seen : Nat → Nat) (step s : Nat) : Prop where
  positive : 0 < step
  first : 2 ≤ s
  below : ∀ b, 2 ≤ b → b < s → seen b = step*own b
  here : step*own s ≤ seen s
  above : ∀ b, s < b → own b = 0 ∧ seen b = seen s

structure Lowest (own : Nat → Nat) (limit b : Nat) : Prop where
  first : 2 ≤ b
  last : b < limit
  positive : 0 < own b
  most : ∀ a, 2 ≤ a → a < limit → own a ≤ own b
  lowest : ∀ a, 2 ≤ a → a < b → own a < own b

/- A block at which the scan ends is followed by none with more pages. -/
def EndsRight (own seen : Nat → Nat) (full limit : Nat) : Prop :=
  ∀ a, 2 ≤ a → Stops seen full a → ∀ b, a < b → b < limit → own b ≤ own a

/- A block that the scan puts before the earlier ones has more pages than they have, not only more
matching words in the buffer. -/
def RanksRight (own seen : Nat → Nat) (full limit : Nat) : Prop :=
  ∀ b, 2 ≤ b → b < limit → ReachedBlock seen full b → Record seen b → 0 < seen b → ∀ a, 2 ≤ a → a < b → own a < own b

theorem recordBelow {s a b : Nat} (window : Window own seen step s) (low : 2 ≤ a) (order : a < b) (inside : b < s)
    (record : Record seen b) : own a < own b := by
  have more := record a low order
  rw [window.below a low (by omega),window.below b (by omega) inside] at more
  exact Nat.lt_of_mul_lt_mul_left more

theorem recordInside {s b : Nat} (window : Window own seen step s) (record : Record seen b) : b ≤ s := by
  by_contra behind
  have more := record s window.first (by omega)
  rw [(window.above b (by omega)).2] at more
  exact absurd more (Nat.lt_irrefl _)

theorem ownSeen {s b : Nat} (window : Window own seen step s) (low : 2 ≤ b) : step*own b ≤ seen b := by
  rcases Nat.lt_trichotomy b s with before | rfl | behind
  · exact Nat.le_of_eq (window.below b low before).symm
  · exact window.here
  · rw [(window.above b behind).1,Nat.mul_zero]
    exact Nat.zero_le _

theorem lowestUnique {a b : Nat} (left : Lowest own limit a) (right : Lowest own limit b) : a = b := by
  rcases Nat.lt_trichotomy a b with before | same | after
  · have more := right.lowest a left.first before
    have most := left.most b right.first right.last
    omega
  · exact same
  · have more := left.lowest b right.first after
    have most := right.most a left.first left.last
    omega

theorem lowestExists (found : ∃ b, 2 ≤ b ∧ b < limit ∧ 0 < own b) : ∃ b, Lowest own limit b := by
  induction limit with
  | zero => exact absurd found (fun h => h.elim (fun b both => by omega))
  | succ limit ih =>
    by_cases earlier : ∃ b, 2 ≤ b ∧ b < limit ∧ 0 < own b
    · obtain ⟨p,first,last,positive,most,lowest⟩ := ih earlier
      by_cases more : own p < own limit
      · have below : ∀ a, 2 ≤ a → a < limit → own a < own limit :=
          fun a low high => Nat.lt_of_le_of_lt (most a low high) more
        refine ⟨limit,by omega,by omega,by omega,?_,below⟩
        intro a low high
        rcases Nat.lt_succ_iff_lt_or_eq.mp high with before | rfl
        · exact Nat.le_of_lt (below a low before)
        · exact Nat.le_refl _
      · refine ⟨p,first,by omega,positive,?_,lowest⟩
        intro a low high
        rcases Nat.lt_succ_iff_lt_or_eq.mp high with before | rfl
        · exact most a low before
        · omega
    · have zero : ∀ a, 2 ≤ a → a < limit → own a = 0 := by
        intro a low high
        by_contra some
        exact earlier ⟨a,low,high,by omega⟩
      obtain ⟨b,low,high,positive⟩ := found
      obtain rfl : b = limit := by
        by_contra differs
        have none := zero b low (by omega)
        omega
      refine ⟨b,low,by omega,positive,?_,?_⟩
      · intro a lowA highA
        rcases Nat.lt_succ_iff_lt_or_eq.mp highA with before | rfl
        · rw [zero a lowA before]
          exact Nat.zero_le _
        · exact Nat.le_refl _
      · intro a lowA before
        rw [zero a lowA before]
        exact positive

/- The block taken is the right one when the scan neither ends early nor ranks wrongly. -/
theorem takenRight {s p : Nat} (window : Window own seen step s) (found : ∃ b, 2 ≤ b ∧ b < limit ∧ 0 < own b)
    (first : 2 ≤ p) (last : p < limit) (positive : 0 < seen p) (record : Record seen p)
    (reached : ReachedBlock seen full p)
    (taken : seen p = full ∨ ∀ a, 2 ≤ a → a < limit → seen a ≤ seen p) (ends : EndsRight own seen full limit)
    (ranks : RanksRight own seen full limit) : Lowest own limit p := by
  have lowest := ranks p first last reached record positive
  have inside := recordInside window record
  have later : ∀ b, p < b → b < limit → own b ≤ own p := by
    intro b order high
    rcases taken with whole | most
    · exact ends p first ⟨record,positive,whole⟩ b order high
    · have less := most b (by omega) high
      rcases Nat.lt_or_ge s b with behind | ahead
      · rw [(window.above b behind).1]
        exact Nat.zero_le _
      · rw [window.below p first (by omega)] at less
        exact Nat.le_of_mul_le_mul_left (Nat.le_trans (ownSeen window (by omega)) less) window.positive
  have most : ∀ a, 2 ≤ a → a < limit → own a ≤ own p := by
    intro a low high
    rcases Nat.lt_trichotomy a p with before | rfl | after
    · exact Nat.le_of_lt (lowest a low before)
    · exact Nat.le_refl _
    · exact later a after high
  obtain ⟨b,low,high,more⟩ := found
  exact ⟨first,last,Nat.lt_of_lt_of_le more (most b low high),most,lowest⟩

theorem rightTaken {s p : Nat} (window : Window own seen step s) (lowest : Lowest own limit p) (record : Record seen p)
    (reached : ReachedBlock seen full p) (positive : 0 < seen p)
    (taken : seen p = full ∨ ∀ a, 2 ≤ a → a < limit → seen a ≤ seen p) :
    EndsRight own seen full limit ∧ RanksRight own seen full limit := by
  have inside := recordInside window record
  constructor
  · intro a low stops b order high
    have same : a = p := by
      rcases Nat.lt_trichotomy a p with before | same | after
      · exact absurd stops (reached a low before)
      · exact same
      · have more := stops.1 p lowest.first after
        have less : seen a ≤ seen p := taken.elim (fun whole => Nat.le_of_eq (stops.2.2.trans whole.symm))
          (fun most => most a low (by omega))
        omega
    rw [same]
    exact lowest.most b (by omega) high
  · intro b low high reachedB recordB positiveB a lowA before
    have order : b ≤ p := by
      by_contra after
      have more := recordB p lowest.first (by omega)
      rcases taken with whole | most
      · exact reachedB p lowest.first (by omega) ⟨record,positive,whole⟩
      · have less := most b low high
        omega
    rcases Nat.eq_or_lt_of_le order with rfl | earlier
    · exact lowest.lowest a lowA before
    · exact recordBelow window lowA before (by omega) recordB

end Window

section Buffer

variable {filters : List BitFilter} {m : MemoryMap}

theorem bufferLength (m : MemoryMap) (n : Nat) : (m.buffer n).length = m.size := by
  induction n with
  | zero => exact m.allocated
  | succ n ih =>
    rw [MemoryMap.buffer,kpageflagsRead,List.length_append,List.length_drop,ih]
    have most : ((m.kpageflags.drop ((n+2)*m.size)).take m.size).length ≤ m.size := by
      rw [List.length_take]
      exact Nat.min_le_left _ _
    omega

theorem matchedCount (filters : List BitFilter) (buffer : List Word) :
    matchedPages filters buffer = pageStep filters*buffer.countP (bitMaskOk filters) := by
  have run (matched : Nat) :
      buffer.foldl (fun matched flags => if bitMaskOk filters flags then matched + pageStep filters else matched) matched =
        matched + pageStep filters*buffer.countP (bitMaskOk filters) := by
    induction buffer generalizing matched with
    | nil => rfl
    | cons flags rest ih =>
      rw [List.foldl_cons,ih,List.countP_cons]
      split
      · rw [Nat.mul_add,Nat.mul_one]
        omega
      · rfl
  rw [matchedPages,run,Nat.zero_add]

theorem bufferNext {b : Nat} (first : 2 ≤ b) :
    m.buffer (b-1) = m.pages b ++ (m.buffer (b-2)).drop (m.pages b).length := by
  obtain ⟨n,rfl⟩ : ∃ n, b = n+2 := ⟨b-2,by omega⟩
  rfl

theorem pagesWhole {b : Nat} (inside : (b+1)*m.size ≤ m.kpageflags.length) : (m.pages b).length = m.size := by
  rw [MemoryMap.pages,List.length_take,List.length_drop]
  rw [Nat.add_mul,Nat.one_mul] at inside
  omega

theorem pagesNone {b : Nat} (outside : m.kpageflags.length ≤ b*m.size) : m.pages b = [] := by
  rw [MemoryMap.pages,List.drop_eq_nil_of_le outside,List.take_nil]

theorem sizePositive (m : MemoryMap) : 0 < m.size := Nat.two_pow_pos _

theorem bufferBehind {s b : Nat} (low : 2 ≤ s) (ends : m.kpageflags.length/m.size ≤ s) (behind : s ≤ b) :
    m.buffer (b-1) = m.buffer (s-1) := by
  induction b, behind using Nat.le_induction with
  | base => rfl
  | succ b order ih =>
    have none : m.pages (b+1) = [] := by
      apply pagesNone
      rw [← Nat.lt_succ_iff]
      have past := (Nat.div_lt_iff_lt_mul (sizePositive m)).mp (show m.kpageflags.length/m.size < b+1 by omega)
      omega
    rw [bufferNext (show 2 ≤ b+1 by omega),none]
    exact ih

theorem fileWindow (filters : List BitFilter) (m : MemoryMap) :
    Window (pagesIn filters m) (seenPages filters m) (pageStep filters) (max 2 (m.kpageflags.length/m.size)) where
  positive := by
    rw [pageStep]
    split <;> decide
  first := Nat.le_max_left _ _
  below := by
    intro b low high
    have whole : (b+1)*m.size ≤ m.kpageflags.length := by
      rw [← Nat.le_div_iff_mul_le (sizePositive m)]
      omega
    have rest : (m.buffer (b-2)).drop (m.pages b).length = [] := by
      apply List.drop_eq_nil_of_le
      rw [pagesWhole whole,bufferLength]
    rw [seenPages,matchedCount,bufferNext low,rest,List.append_nil,pagesIn]
  here := by
    have low : 2 ≤ max 2 (m.kpageflags.length/m.size) := Nat.le_max_left _ _
    rw [seenPages,matchedCount,bufferNext low,List.countP_append,pagesIn]
    exact Nat.mul_le_mul_left _ (Nat.le_add_right _ _)
  above := by
    intro b behind
    have order : max 2 (m.kpageflags.length/m.size) ≤ b := Nat.le_of_lt behind
    have none : m.pages b = [] := by
      have past := (Nat.div_lt_iff_lt_mul (sizePositive m)).mp (show m.kpageflags.length/m.size < b by omega)
      exact pagesNone (Nat.le_of_lt past)
    constructor
    · rw [pagesIn,none]
      rfl
    · rw [seenPages,seenPages,bufferBehind (Nat.le_max_left _ _) (Nat.le_max_right _ _) order]

end Buffer

section Weight

variable {mask bits : Word} {m : MemoryMap}

theorem headBit (flags : Word) : (flags &&& compoundHead != 0#64) = flags.getLsbD 15 := by
  rw [compoundHead,bit,BitVec.and_twoPow]
  cases flags.getLsbD 15 <;> decide

/- A page that such a filter selects is a compound head. -/
theorem selectedHead {flags : Word} (requires : requiresHead [(mask,bits)] = true)
    (selected : bitMaskOk [(mask,bits)] flags = true) : (flags &&& compoundHead != 0#64) = true := by
  rw [oneFilter] at selected
  simp only [requiresHead,List.any_cons,List.any_nil,Bool.or_false] at requires
  split at selected
  · rename_i all
    rw [if_pos all] at requires
    rw [eq_of_beq requires] at selected
    exact bne_iff_ne.mpr selected
  · rename_i some
    rw [if_neg some,headBit,← selected,BitVec.getLsbD_and] at requires
    rw [headBit]
    exact (Bool.and_eq_true_iff.mp requires).1

def filterWeight (filters : List BitFilter) : Nat := if requiresHead filters then 512 else 1

/- All pages that one filter selects weigh the same. -/
theorem matchingWeighted (b : Nat) :
    matchingPages [(mask,bits)] m b = filterWeight [(mask,bits)]*pagesIn [(mask,bits)] m b := by
  have each : ∀ flags ∈ (m.pages b).filter (bitMaskOk [(mask,bits)]),
      pageWeight [(mask,bits)] flags = filterWeight [(mask,bits)] := by
    intro flags mem
    have selected := (List.mem_filter.mp mem).2
    rw [pageWeight,filterWeight]
    by_cases requires : requiresHead [(mask,bits)] = true
    · rw [selectedHead requires selected,requires]
      rfl
    · rw [Bool.eq_false_iff.mpr requires]
      rfl
  rw [matchingPages,List.map_congr_left each,List.map_const',List.sum_replicate_nat,pagesIn,
    List.countP_eq_length_filter,Nat.mul_comm]

theorem weightPositive (filters : List BitFilter) : 0 < filterWeight filters := by
  rw [filterWeight]
  split <;> decide

theorem matchingLess (a b : Nat) : matchingPages [(mask,bits)] m a < matchingPages [(mask,bits)] m b ↔
    pagesIn [(mask,bits)] m a < pagesIn [(mask,bits)] m b := by
  rw [matchingWeighted,matchingWeighted]
  exact Nat.mul_lt_mul_left (weightPositive _)

theorem matchingSome (b : Nat) : 0 < matchingPages [(mask,bits)] m b ↔ 0 < pagesIn [(mask,bits)] m b := by
  rw [matchingWeighted]
  exact ⟨Nat.pos_of_mul_pos_left,Nat.mul_pos (weightPositive _)⟩

theorem preferredLowest (b : Nat) : PreferredBlock [(mask,bits)] m b ↔ Lowest (pagesIn [(mask,bits)] m) m.blocks b := by
  constructor
  · intro preferred
    refine ⟨preferred.first,preferred.last,(matchingSome b).mp preferred.positive,?_,?_⟩
    · intro a low high
      exact Nat.le_of_not_lt (mt (matchingLess b a).mpr (Nat.not_lt.mpr (preferred.most a low high)))
    · exact fun a low before => (matchingLess a b).mp (preferred.lowest a low before)
  · intro lowest
    refine ⟨lowest.first,lowest.last,(matchingSome b).mpr lowest.positive,?_,?_⟩
    · intro a low high
      exact Nat.le_of_not_lt (mt (matchingLess b a).mp (Nat.not_lt.mpr (lowest.most a low high)))
    · exact fun a low before => (matchingLess a b).mpr (lowest.lowest a low before)

end Weight

section Check

variable {filters : List BitFilter} {m : MemoryMap}

/- The scan reads the blocks of the file as the operation means them: it goes to the end unless that
cannot matter, counts a block by its own pages where that matters, and its percentages fit. -/
structure ScanSound (filters : List BitFilter) (m : MemoryMap) : Prop where
  small : m.spanned+m.startPfn < intLimit
  found : ∃ b, 2 ≤ b ∧ b < m.blocks ∧ 0 < matchingPages filters m b
  fits : ∀ b, 2 ≤ b → b < m.blocks → ReachedBlock (seenPages filters m) m.size b → seenPages filters m b*100 < intLimit
  ends : EndsRight (matchingPages filters m) (seenPages filters m) m.size m.blocks
  ranks : RanksRight (matchingPages filters m) (seenPages filters m) m.size m.blocks

theorem intNotExited (n : Nat) (message : Text) : int n ≠ .error (.exited message) := by
  intro wrong
  rw [int] at wrong
  split at wrong <;> cases wrong

theorem bindNotExited {α β : Type} {x : Except Stop α} {next : α → Except Stop β} {message : Text}
    (first : x ≠ .error (.exited message)) (rest : ∀ a, next a ≠ .error (.exited message)) :
    (x >>= next) ≠ .error (.exited message) := by
  cases x with
  | error stop => exact fun wrong => first (congrArg Except.error (Except.error.inj wrong))
  | ok a => exact rest a

theorem scanNotExited (blocks : List Nat) (buffer : List Word) (best : Option Nat) (most : Nat) (message : Text) :
    memblockScan filters m blocks buffer best most ≠ .error (.exited message) := by
  induction blocks generalizing buffer best most with
  | nil => exact fun wrong => nomatch wrong
  | cons i rest ih =>
    rw [memblockScan]
    refine bindNotExited (intNotExited _ message)
      (fun pfn => bindNotExited (intNotExited _ message) (fun percent => ?_))
    split
    · split
      · exact fun wrong => nomatch wrong
      · exact ih _ _ _
    · exact ih _ _ _

theorem checkNotExited (message : Text) : memblockCheck filters m ≠ .error (.exited message) := by
  have blocks : getMaxMemblock m ≠ .error (.exited message) := by
    refine bindNotExited (intNotExited _ message) (fun last => ?_)
    intro wrong
    split at wrong <;> cases wrong
  refine bindNotExited blocks (fun count => bindNotExited (scanNotExited _ _ _ _ message) (fun best => ?_))
  cases best with
  | none => exact fun wrong => nomatch wrong
  | some p => exact fun wrong => nomatch wrong

theorem checkSmall {b : Nat} (ok : memblockCheck filters m = .ok b) : m.spanned+m.startPfn < intLimit := by
  obtain ⟨count,counted,-⟩ := bindInv ok
  obtain ⟨last,fits,-⟩ := bindInv counted
  exact (intInv fits).2

/- What the check is for sizes that an `int` holds. -/
theorem checkScan (small : m.spanned+m.startPfn < intLimit) (some : 2 < m.blocks) :
    memblockCheck filters m =
      (memblockScan filters m (List.range' 2 (m.blocks-2)) (m.buffer (2-2)) none 0 >>= fun best =>
        best.elim (.error .undefined) .ok) := by
  have shift : m.order < 32 := by
    by_contra wide
    have large : 2^32 ≤ m.size := Nat.pow_le_pow_right (by decide) (by omega)
    have product := Nat.div_mul_le_self (m.spanned+m.startPfn) m.size
    have more : 1*m.size ≤ m.blocks*m.size := Nat.mul_le_mul_right _ (by omega)
    rw [MemoryMap.blocks] at more
    simp only [intLimit] at small
    omega
  have count : getMaxMemblock m = .ok m.blocks := by
    rw [getMaxMemblock,intOk small,bindOk,if_neg (by omega)]
    rfl
  rw [memblockCheck,count,bindOk]
  congr 1
  funext best
  cases best <;> rfl

theorem checkRuns (small : m.spanned+m.startPfn < intLimit) (some : 2 < m.blocks) :
    ScanEnds (seenPages filters m) m.size m.blocks 2
      (memblockScan filters m (List.range' 2 (m.blocks-2)) (m.buffer (2-2)) none 0) := by
  have room : m.blocks*m.size < intLimit := Nat.lt_of_le_of_lt (Nat.div_mul_le_self _ _) small
  exact scanRun room (m.blocks-2) 2 0 none (Nat.le_refl 2) (by omega) bestStart
    (fun a low high => absurd low (by omega))

end Check

theorem oneFilterParsed {spec : Text} {filters : List BitFilter} (parsed : parseBitsMask [] spec = .ok filters) :
    ∃ mask bits, filters = [(mask,bits)] := by
  have added {mask bits : Word} (ok : addBitsFilter [] mask bits = .ok filters) :
    ∃ mask bits, filters = [(mask,bits)] :=
    ⟨mask,bits,(Except.ok.inj ok).symm⟩
  rw [parseBitsMask] at parsed
  split at parsed
  · obtain ⟨bits,-,ok⟩ := bindInv parsed
    exact added ok
  · split at parsed
    · obtain ⟨mask,-,rest⟩ := bindInv parsed
      obtain ⟨bits,-,ok⟩ := bindInv rest
      exact added ok
    · split at parsed
      · obtain ⟨mask,-,rest⟩ := bindInv parsed
        obtain ⟨bits,-,ok⟩ := bindInv rest
        exact added ok
      · obtain ⟨mask,-,ok⟩ := bindInv parsed
        exact added ok

section Exact

variable {mask bits : Word} {m : MemoryMap}

theorem matchingEnds (seen : Nat → Nat) : EndsRight (matchingPages [(mask,bits)] m) seen m.size m.blocks ↔
    EndsRight (pagesIn [(mask,bits)] m) seen m.size m.blocks := by
  simp only [EndsRight,← Nat.not_lt,matchingLess]

theorem matchingRanks (seen : Nat → Nat) : RanksRight (matchingPages [(mask,bits)] m) seen m.size m.blocks ↔
    RanksRight (pagesIn [(mask,bits)] m) seen m.size m.blocks := by
  simp only [RanksRight,matchingLess]

theorem foundPages : (∃ b, 2 ≤ b ∧ b < m.blocks ∧ 0 < matchingPages [(mask,bits)] m b) ↔
    ∃ b, 2 ≤ b ∧ b < m.blocks ∧ 0 < pagesIn [(mask,bits)] m b := by
  simp only [matchingSome]

theorem soundPrefers (sound : ScanSound [(mask,bits)] m) :
    PrefersBlock [(mask,bits)] m (memblockCheck [(mask,bits)] m) := by
  have found := foundPages.mp sound.found
  have some : 2 < m.blocks := by
    obtain ⟨b,low,high,-⟩ := found
    omega
  have runs := @checkRuns [(mask,bits)] m sound.small some
  rw [checkScan sound.small some]
  generalize memblockScan [(mask,bits)] m (List.range' 2 (m.blocks-2)) (m.buffer (2-2)) none 0 = result at runs ⊢
  constructor
  · intro b preferred
    have lowest := (preferredLowest b).mp preferred
    cases runs with
    | overflow c low high reached large =>
      have fits := sound.fits c low high reached
      omega
    | takes best fits taken =>
      rcases taken with ⟨-,none⟩ | ⟨p,rfl,first,last,positive,record,reached,whole⟩
      · obtain ⟨c,low,high,more⟩ := found
        have window := fileWindow [(mask,bits)] m
        have counted := ownSeen window low
        rw [none c low high] at counted
        have product := Nat.mul_pos window.positive more
        omega
      · have right := takenRight (fileWindow [(mask,bits)] m) found first last positive record reached whole
          ((matchingEnds _).mp sound.ends) ((matchingRanks _).mp sound.ranks)
        rw [lowestUnique lowest right]
        rfl
  · intro nothing
    obtain ⟨b,low,high,more⟩ := sound.found
    have none := nothing b low high
    omega

theorem prefersSound (prefers : PrefersBlock [(mask,bits)] m (memblockCheck [(mask,bits)] m)) :
    ScanSound [(mask,bits)] m := by
  have found : ∃ b, 2 ≤ b ∧ b < m.blocks ∧ 0 < matchingPages [(mask,bits)] m b := by
    by_contra nothing
    have none : ∀ b, 2 ≤ b → b < m.blocks → matchingPages [(mask,bits)] m b = 0 := by
      intro b low high
      by_contra some
      exact nothing ⟨b,low,high,by omega⟩
    obtain ⟨message,failed⟩ := prefers.2 none
    exact checkNotExited message failed
  have foundPlain := foundPages.mp found
  obtain ⟨b,lowest⟩ := lowestExists foundPlain
  have result := prefers.1 b ((preferredLowest b).mpr lowest)
  have small := checkSmall result
  have some : 2 < m.blocks := by
    have last := lowest.last
    have first := lowest.first
    omega
  have runs := @checkRuns [(mask,bits)] m small some
  rw [checkScan small some] at result
  generalize memblockScan [(mask,bits)] m (List.range' 2 (m.blocks-2)) (m.buffer (2-2)) none 0 = scanned at runs result
  cases runs with
  | overflow c low high reached large => contradiction
  | takes best fits taken =>
    rcases taken with ⟨rfl,none⟩ | ⟨p,rfl,first,last,positive,record,reached,whole⟩
    · contradiction
    · cases Except.ok.inj result
      obtain ⟨ends,ranks⟩ := rightTaken (fileWindow [(mask,bits)] m) lowest record reached positive whole
      exact ⟨small,found,fits,(matchingEnds _).mpr ends,(matchingRanks _).mpr ranks⟩

end Exact

def buddyFilter : List BitFilter := [(bit 10,kpfAllBits)]

/- Two blocks of 512 pages after the first two, with one free page and with two. -/
def buddyMap : MemoryMap where
  kpageflags := List.replicate 1024 0#64 ++ (bit 10 :: List.replicate 511 0#64) ++
    (bit 10 :: bit 10 :: List.replicate 510 0#64)
  spanned := 2048
  startPfn := 0
  order := 9
  garbage := List.replicate 512 0#64
  allocated := List.length_replicate

theorem buddyParsed : parseBitsMask [] "buddy".toList = .ok buddyFilter := by decide +kernel

end MmRegression
