import Mathlib.Data.List.GetD
import Mathlib.Data.Nat.Bitwise
import MmRegression.CInt
import MmRegression.Mceinj

/-! The three readers of `/proc/kpageflags` in `pfn.h`: `get_pflags`, `get_my_pflags` and `check_kpflags`.
A file of `/proc` is the list of its entries of 64 bits, and opening it succeeds. -/
namespace MmRegression.PflagsReaders

open CInt

/- What is returned and what lands in the buffer. Size and offset have to be multiples of 8, and one call
transfers 0x7ffff000 bytes at most. From 2^63 on they stand for negative numbers. -/
def pread (file : List Word) (size offset : Nat) : Int × List Word :=
  if size < 9223372036854775808 ∧ offset < 9223372036854775808 ∧ size % 8 = 0 ∧ offset % 8 = 0 then
    let entries := (file.drop (offset/8)).take (min size 0x7ffff000/8)
    ((8*entries.length : Nat),entries)
  else (-1,[])

/- The index is turned into an `off_t` before it is multiplied. -/
def doU64Read (name : Text) (file : List Word) (index count : Nat) : Except Stop (Nat × List Word) :=
  if ulongLimit/8 ≤ index then .error (.exited ("index overflow: ".toList ++ (digits index ++ ['\n'])))
  else if 9223372036854775808 ≤ index*8 then .error .undefined
  else
    let bytes := (pread file (umul count 8) (index*8)).1
    if bytes < 0 then .error (.exited name)
    else if bytes % 8 ≠ 0 then
      .error (.exited ("partial read: ".toList ++ (digits bytes.toNat ++ " bytes\n".toList)))
    else .ok (bytes.toNat/8,(pread file (umul count 8) (index*8)).2)

/- `pages` holds what it held before the call, and `count` is not used. -/
def getPflags (pages : Int) (kpageflags : List Word) (pfn : Nat) (buf : List Word) (_count : Nat) :
    Except Stop (Int × List Word) :=
  if IsInt (pages*8) then
    let read := pread kpageflags (toULong (pages*8)) pfn
    if buf.length < read.2.length then .error .undefined
    else .ok (read.1.tdiv 8,read.2 ++ buf.drop read.2.length)
  else .error .undefined

def getMyPfn (pagemap : List Word) (vaddr : Nat) : Except Stop Nat := do
  let read ← doU64Read "/proc/pid/pagemap".toList pagemap (vaddr/4096) 1
  if read.1 ≠ 1 then .error (.exited "pagemap_read".toList)
  else .ok (pagemapPfn (read.2.headD 0#64)).toNat

/- `tmpbuf` keeps what it held when nothing is read. -/
def getMyPflags (tmpbuf : Word) (kpageflags : List Word) (pfn : Nat) : Except Stop Int := do
  let read ← doU64Read "/proc/kpageflags".toList kpageflags pfn 1
  .ok (toInt (read.2.headD tmpbuf).toNat)

/- The 1 that is shifted is an `int`. -/
def checkKpflags (tmpbuf : Word) (pagemap kpageflags : List Word) (vaddr kpf : Nat) : Except Stop Int := do
  let pfn ← getMyPfn pagemap vaddr
  let kpflags ← getMyPflags tmpbuf kpageflags pfn
  let mask ← int (2^kpf)
  .ok (toInt (toULong kpflags &&& mask))

/-! ### What the claim says -/

structure ProcFile where
  entries : List Word
  size : entries.length*8 < 9223372036854775808

def ProcFile.entry (file : ProcFile) (index : Nat) : Word := file.entries.getD index 0#64

structure Mapped (pagemap : ProcFile) (vaddr pfn : Nat) : Prop where
  address : vaddr < ulongLimit
  inside : vaddr/4096 < pagemap.entries.length
  present : pagemap.entry (vaddr/4096) &&& pmPresent ≠ 0#64
  frame : (pagemap.entry (vaddr/4096) &&& pmPframeMask).toNat = pfn

def Fills (pages : Int) (file : ProcFile) (pfn n : Nat) : Prop :=
  ∀ buf : List Word, n ≤ buf.length → ∃ after, getPflags pages file.entries pfn buf n = .ok ((n : Int),after) ∧
    after.take n = (file.entries.drop pfn).take n

/- An `int` is compared with a `uint64_t` as an `unsigned long`. -/
def ReadsEntry (file : ProcFile) (pfn : Nat) : Prop :=
  ∀ tmpbuf, ∃ flags, getMyPflags tmpbuf file.entries pfn = .ok flags ∧ toULong flags = (file.entry pfn).toNat

def Tests (file : ProcFile) (pfn f : Nat) : Prop :=
  ∀ pagemap vaddr tmpbuf, Mapped pagemap vaddr pfn → ∃ flag,
    checkKpflags tmpbuf pagemap.entries file.entries vaddr f = .ok flag ∧
      (flag ≠ 0 ↔ (file.entry pfn).getLsbD f = true)

structure ReadersAgree (pages : Int) (file : ProcFile) (pfn n f : Nat) : Prop where
  several : Fills pages file pfn n
  one : ReadsEntry file pfn
  tested : Tests file pfn f

/- What the inputs have to be like: `pages` holds the count already, or the file ends after it. -/
structure Lucky (pages : Int) (file : ProcFile) (pfn n : Nat) : Prop where
  aligned : 8 ∣ pfn
  few : n ≤ 0xffffe00
  enough : n ≤ pages ∧ pages ≤ 0xfffffff
  ends : pages = n ∨ n = 0xffffe00 ∨ pfn = 0 ∧ n = file.entries.length
  same : (file.entries.drop (pfn/8)).take n = (file.entries.drop pfn).take n

def Narrow (entry : Word) : Prop := entry.toNat < 2147483648 ∨ 18446744071562067968 ≤ entry.toNat

/-! ### One entry -/

theorem preadAligned (file : List Word) {size offset : Nat} (small : size < 9223372036854775808)
    (near : offset < 9223372036854775808) (whole : 8 ∣ size) (aligned : 8 ∣ offset) : pread file size offset =
      (((8*((file.drop (offset/8)).take (min size 0x7ffff000/8)).length : Nat) : Int),
        (file.drop (offset/8)).take (min size 0x7ffff000/8)) := by
  rw [pread,if_pos ⟨small,near,Nat.mod_eq_zero_of_dvd whole,Nat.mod_eq_zero_of_dvd aligned⟩]

theorem entryHead {file : ProcFile} {index : Nat} (inside : index < file.entries.length) :
    (file.entries.drop index).take 1 = [file.entry index] := by
  rw [List.drop_eq_getElem_cons inside,ProcFile.entry,List.getD_eq_getElem _ _ inside]
  rfl

theorem readInside (name : Text) {file : ProcFile} {index : Nat} (inside : index < file.entries.length) :
    doU64Read name file.entries index 1 = .ok (1,[file.entry index]) := by
  have size := file.size
  have read : pread file.entries (umul 1 8) (index*8) = (8,[file.entry index]) := by
    have most : min (umul 1 8) 0x7ffff000/8 = 1 := rfl
    rw [preadAligned _ (by decide) (by omega) (by decide) (Nat.dvd_mul_left 8 index),
      Nat.mul_div_cancel index (by decide),most,entryHead inside]
    rfl
  rw [doU64Read,if_neg (by simp only [ulongLimit]; omega),if_neg (by omega),read]
  simp

theorem myPflagsEntry (tmpbuf : Word) {file : ProcFile} {pfn : Nat} (inside : pfn < file.entries.length) :
    getMyPflags tmpbuf file.entries pfn = .ok (toInt (file.entry pfn).toNat) := by
  rw [getMyPflags,readInside _ inside]
  rfl

theorem signExtended (entry : Word) : toULong (toInt entry.toNat) = entry.toNat ↔ Narrow entry := by
  have := entry.isLt
  simp only [toULong,toInt,Narrow]
  omega

theorem readsEntryIff {file : ProcFile} {pfn : Nat} (inside : pfn < file.entries.length) :
    ReadsEntry file pfn ↔ Narrow (file.entry pfn) := by
  rw [← signExtended]
  constructor
  · intro reads
    obtain ⟨flags,ran,same⟩ := reads 0
    rw [myPflagsEntry 0 inside] at ran
    cases Except.ok.inj ran
    exact same
  · intro same tmpbuf
    exact ⟨_,myPflagsEntry tmpbuf inside,same⟩

/-! ### One bit -/

theorem frameSmall (entry : Word) : (entry &&& pmPframeMask).toNat < 2^55 := by
  rw [BitVec.toNat_and]
  exact Nat.and_lt_two_pow _ (by decide)

theorem mappedFrame {pagemap : ProcFile} {vaddr pfn : Nat} (mapped : Mapped pagemap vaddr pfn) :
    getMyPfn pagemap.entries vaddr = .ok pfn := by
  rw [getMyPfn,readInside _ mapped.inside,bindOk]
  simp only [ne_eq,not_true_eq_false,if_false,List.headD_cons]
  rw [pagemapPfn,if_pos mapped.present,mapped.frame]

/- An address can be mapped to any frame that an entry of pagemap can hold. -/
theorem frameMapped {pfn : Nat} (small : pfn < 2^55) : ∃ pagemap vaddr, Mapped pagemap vaddr pfn := by
  have size : [pmPresent ||| BitVec.ofNat 64 pfn].length*8 < 9223372036854775808 := by
    rw [List.length_singleton]
    decide
  refine ⟨⟨_,size⟩,0,by decide,Nat.one_pos,?_,?_⟩
  · intro absent
    have cleared := congrArg (fun entry => entry.getLsbD 63) absent
    simp [ProcFile.entry,pmPresent,bit] at cleared
  · have apart : pmPresent &&& pmPframeMask = 0#64 := by decide
    have frame : (pmPresent ||| BitVec.ofNat 64 pfn) &&& pmPframeMask = BitVec.ofNat 64 pfn &&& pmPframeMask := by
      rw [BitVec.and_or_distrib_right,apart,BitVec.zero_or]
    refine (congrArg BitVec.toNat frame).trans ?_
    rw [BitVec.toNat_and,BitVec.toNat_ofNat,Nat.mod_eq_of_lt (by omega)]
    exact Nat.and_two_pow_sub_one_of_lt_two_pow small

/- The conversions keep the bits that an `int` has. -/
theorem lowBit {f : Nat} (low : f < 32) (n : Nat) : (toULong (toInt n)).testBit f = n.testBit f := by
  have same : toULong (toInt n) % 2^32 = n % 2^32 := by
    simp only [toULong,toInt]
    omega
  have cut := congrArg (fun m => m.testBit f) same
  simpa only [Nat.testBit_mod_two_pow,low,decide_true,Bool.true_and] using cut

theorem maskedBit {f : Nat} (low : f ≤ 30) (entry : Word) :
    toInt (toULong (toInt entry.toNat) &&& 2^f) ≠ 0 ↔ entry.getLsbD f = true := by
  have width : 2^f < intLimit := Nat.pow_lt_pow_right (by decide) (by omega : f < 31)
  rw [Nat.and_two_pow,lowBit (by omega),BitVec.testBit_toNat]
  cases entry.getLsbD f with
  | false => simp [toInt]
  | true =>
    rw [Bool.toNat_true,Nat.one_mul,toIntNat width]
    have := Nat.two_pow_pos f
    exact iff_of_true (by omega) rfl

theorem testsIff {file : ProcFile} {pfn : Nat} (inside : pfn < file.entries.length) (f : Nat) :
    Tests file pfn f ↔ f ≤ 30 ∨ 2^55 ≤ pfn := by
  have run : ∀ {pagemap vaddr} tmpbuf, Mapped pagemap vaddr pfn →
      checkKpflags tmpbuf pagemap.entries file.entries vaddr f = int (2^f) >>= fun mask =>
        .ok (toInt (toULong (toInt (file.entry pfn).toNat) &&& mask)) := by
    intro pagemap vaddr tmpbuf mapped
    rw [checkKpflags,mappedFrame mapped,bindOk,myPflagsEntry tmpbuf inside,bindOk]
  constructor
  · intro tests
    by_contra high
    obtain ⟨pagemap,vaddr,mapped⟩ := frameMapped (by omega : pfn < 2^55)
    obtain ⟨flag,ran,-⟩ := tests pagemap vaddr 0 mapped
    rw [run 0 mapped] at ran
    obtain ⟨mask,shifted,-⟩ := bindInv ran
    have width := (intInv shifted).2
    have wide : 2^31 ≤ 2^f := Nat.pow_le_pow_right (by decide) (by omega)
    simp only [intLimit] at width
    omega
  · intro low pagemap vaddr tmpbuf mapped
    have small : f ≤ 30 := by
      refine low.resolve_right (Nat.not_le.mpr ?_)
      rw [← mapped.frame]
      exact frameSmall _
    have width : 2^f < intLimit := Nat.pow_lt_pow_right (by decide) (by omega : f < 31)
    rw [run tmpbuf mapped,intOk width,bindOk]
    exact ⟨_,rfl,maskedBit small (file.entry pfn)⟩

/-! ### Several entries -/

theorem pflagsReads {pages : Int} {file : List Word} {pfn : Nat} (buf : List Word) (n : Nat) (enough : 0 ≤ pages)
    (fits : pages ≤ 0xfffffff) (aligned : 8 ∣ pfn) (small : pfn < 9223372036854775808) :
    getPflags pages file pfn buf n =
      let entries := (file.drop (pfn/8)).take (min pages.toNat 0xffffe00)
      if buf.length < entries.length then .error .undefined
      else .ok ((entries.length : Int),entries ++ buf.drop entries.length) := by
  have size : toULong (pages*8) = pages.toNat*8 := by
    simp only [toULong]
    omega
  have most : min (pages.toNat*8) 0x7ffff000/8 = min pages.toNat 0xffffe00 := by omega
  have whole (m : Nat) : ((8*m : Nat) : Int).tdiv 8 = m := by
    rw [Nat.mul_comm,Int.natCast_mul]
    exact Int.mul_tdiv_cancel m (by decide)
  rw [getPflags,if_pos (by simp only [IsInt]; omega),size,
    preadAligned _ (by omega) small (Nat.dvd_mul_left 8 _) aligned,most]
  simp only [whole]

/- Nothing is read, or the product overflows. -/
theorem pflagsFails {pages : Int} {pfn : Nat} (file buf : List Word) (n : Nat)
    (misfit : ¬(0 ≤ pages ∧ pages ≤ 0xfffffff ∧ 8 ∣ pfn)) :
    getPflags pages file pfn buf n = .error .undefined ∨ getPflags pages file pfn buf n = .ok (0,buf) := by
  rw [getPflags]
  split
  · rename_i fits
    have failed : pread file (toULong (pages*8)) pfn = (-1,[]) := by
      rw [pread,if_neg ?_]
      simp only [IsInt,toULong] at *
      omega
    rw [failed]
    exact .inr rfl
  · exact .inl rfl

section Fill

variable {pages : Int} {file : ProcFile} {pfn n : Nat}

theorem fillsLucky (some : 1 ≤ n) (inside : pfn+n ≤ file.entries.length) (small : pfn < 9223372036854775808)
    (fills : Fills pages file pfn n) : Lucky pages file pfn n := by
  obtain ⟨after,ran,filled⟩ := fills (List.replicate n 0#64) (Nat.le_of_eq List.length_replicate.symm)
  by_cases fit : 0 ≤ pages ∧ pages ≤ 0xfffffff ∧ 8 ∣ pfn
  · obtain ⟨enough,fits,aligned⟩ := fit
    rw [pflagsReads _ n enough fits aligned small] at ran
    dsimp only at ran
    split at ran
    · contradiction
    · -- Exactly n entries came, by the size of the read or by the end of the file.
      obtain ⟨count,rfl⟩ := Prod.mk.inj (Except.ok.inj ran)
      have part := Int.ofNat.inj count
      rw [List.take_left' part] at filled
      rw [List.length_take,List.length_drop] at part
      refine ⟨aligned,by omega,by omega,by omega,?_⟩
      rw [← filled,List.take_eq_take_iff,List.length_drop]
      omega
  · rcases pflagsFails file.entries (List.replicate n 0#64) n fit with failed | failed
    · rw [failed] at ran
      contradiction
    · rw [failed] at ran
      have none := congrArg Prod.fst (Except.ok.inj ran)
      simp only at none
      omega

theorem luckyFills (inside : pfn+n ≤ file.entries.length) (small : pfn < 9223372036854775808)
    (lucky : Lucky pages file pfn n) : Fills pages file pfn n := by
  intro buf room
  have enough := lucky.enough
  have few := lucky.few
  have ends := lucky.ends
  have part : (file.entries.drop (pfn/8)).take (min pages.toNat 0xffffe00) = (file.entries.drop pfn).take n := by
    rw [← lucky.same,List.take_eq_take_iff,List.length_drop]
    omega
  have length : ((file.entries.drop pfn).take n).length = n := by
    rw [List.length_take,List.length_drop]
    omega
  rw [pflagsReads buf n (by omega) enough.2 lucky.aligned small,part]
  dsimp only
  rw [length,if_neg (by omega)]
  exact ⟨_,rfl,List.take_left' length⟩

theorem fillsIff (some : 1 ≤ n) (inside : pfn+n ≤ file.entries.length) :
    Fills pages file pfn n ↔ Lucky pages file pfn n := by
  have small : pfn < 9223372036854775808 := by
    have := file.size
    omega
  exact ⟨fillsLucky some inside small,luckyFills inside small⟩

end Fill

theorem readersAgree (pages : Int) (file : ProcFile) {pfn n : Nat} (f : Nat) (some : 1 ≤ n)
    (inside : pfn+n ≤ file.entries.length) : ReadersAgree pages file pfn n f ↔
      Lucky pages file pfn n ∧ Narrow (file.entry pfn) ∧ (f ≤ 30 ∨ 2^55 ≤ pfn) := by
  have here : pfn < file.entries.length := by omega
  rw [← fillsIff some inside,← readsEntryIff here,← testsIff here]
  constructor
  · intro agree
    exact ⟨agree.several,agree.one,agree.tested⟩
  · intro parts
    exact ⟨parts.1,parts.2.1,parts.2.2⟩

/- `pages` holds 1 and the frame is 0. -/
theorem readersAgreeFirst : ReadersAgree 1 ⟨[0x4#64,0x8#64],by decide⟩ 0 1 3 :=
  (readersAgree 1 ⟨[0x4#64,0x8#64],by decide⟩ 3 (Nat.le_refl 1) (by decide)).mpr
    ⟨⟨by decide,by decide,by decide,.inl rfl,rfl⟩,.inl (by decide),.inl (by decide)⟩

/- Byte 1 of the file is not the start of an entry. -/
theorem offsetTaken : getPflags 1 [0x4#64,0x8#64] 1 [0] 1 = .ok (0,[0]) ∧
    ¬ReadersAgree 1 ⟨[0x4#64,0x8#64],by decide⟩ 1 1 3 := by
  have read : getPflags 1 [0x4#64,0x8#64] 1 [0] 1 = .ok (0,[0]) := by decide
  refine ⟨read,fun agree => ?_⟩
  obtain ⟨after,ran,-⟩ := agree.several [0] (Nat.le_refl 1)
  rw [read] at ran
  cases ran

end MmRegression.PflagsReaders
