import MmRegression.Machine
import MmRegression.RingBuffer

/-! `get_cqe` of `lib/test-io_uring.c` and the kernel that posts completions. The call gives its caller a
pointer into the ring and has made the entry free already, so the kernel may write to it. -/
namespace MmRegression.CompletionRing

open Machine
open RingBuffer

structure Cqe where
  userData : BitVec 64
  res : BitVec 32
  flags : BitVec 32
  deriving DecidableEq, Repr

structure UserCqRing where
  head : BitVec 32
  tail : BitVec 32
  ringMask : BitVec 32
  cqes : BitVec 32 → Cqe

/- The index of the entry that `*cqe` points to, none where the call returns -1. -/
def getCqe (c : UserCqRing) : Option (BitVec 32 × UserCqRing) :=
  let head := c.head
  if head = c.tail then none else some (head &&& c.ringMask,{ c with head := head+1 })

def kernelPost (k : Nat) (c : UserCqRing) (e : Cqe) : Option UserCqRing :=
  if (c.tail-c.head).toNat < 2^k then
    some { c with cqes := Function.update c.cqes (c.tail &&& c.ringMask) e, tail := c.tail+1 }
  else none

/- The ring, the completions that were posted and those that calls returned, and what the last call gave:
the pointer, with the completion that was there when it returned. -/
structure State where
  ring : UserCqRing
  posted : List Cqe
  returned : List Cqe
  held : Option (BitVec 32 × Cqe)

inductive Act where
  | post (e : Cqe)
  | get
  | read
  deriving DecidableEq, Repr

def step (k : Nat) (s : State) : Act → Option State
  | .post e => (kernelPost k s.ring e).map (fun ring => { s with ring := ring, posted := s.posted ++ [e] })
  | .get => match getCqe s.ring with
      | none => some { s with held := none }
      | some (ptr,ring) =>
          some { s with ring := ring, returned := s.returned ++ [ring.cqes ptr], held := some (ptr,ring.cqes ptr) }
  -- A read through the pointer changes nothing; without a pointer there is none.
  | .read => if s.held = none then none else some s

def UserCqRing.ring (c : UserCqRing) : Ring 32 Cqe := ⟨c.head,c.tail,c.cqes⟩

def InOrder (k : Nat) (start : UserCqRing) (s : State) : Prop :=
  s.returned ++ s.ring.ring.contents k = start.ring.contents k ++ s.posted

/- Each completion is returned once, in the order of the posts, those that were in the ring at first before
them, and calls return all that are left. -/
structure Delivers (k : Nat) (start : UserCqRing) (s : State) : Prop where
  order : InOrder k start s
  rest : ∃ t, run (step k) s (List.replicate s.ring.ring.count .get) = some t ∧
    t.returned = start.ring.contents k ++ s.posted

/- What the caller reads is what the call returned. -/
def StableEntry (s : State) : Prop := ∀ h ∈ s.held, s.ring.cqes h.1 = h.2

/- A completion that takes the last free entry, while there is a pointer, is the one that was returned. -/
def KeepsEntry (k : Nat) (s : State) : Act → Prop
  | .post e => ∀ h ∈ s.held, s.ring.ring.count+1 = 2^k → e = h.2
  | .get => True
  | .read => True
instance (k : Nat) (s : State) (a : Act) : Decidable (KeepsEntry k s a) := by
  cases a <;> unfold KeepsEntry <;> infer_instance

structure Inv (k : Nat) (start : UserCqRing) (s : State) : Prop where
  masked : s.ring.ringMask = mask 32 k
  fifo : InOrder k start s
  behind : ∀ h ∈ s.held, h.1 = ringSlot k (s.ring.head-1)

section Steps

variable {k : Nat} {start : UserCqRing} {s t : State}

theorem startInv (masked : start.ringMask = mask 32 k) : Inv k start ⟨start,[],[],none⟩ :=
  ⟨masked,(List.append_nil _).symm,nofun⟩

theorem slotOf (masked : s.ring.ringMask = mask 32 k) (p : BitVec 32) : p &&& s.ring.ringMask = ringSlot k p := by
  rw [masked,ringSlot]

theorem postShape {e : Cqe} (masked : s.ring.ringMask = mask 32 k) (moved : step k s (.post e) = some t) :
    s.ring.ring.count < 2^k ∧ t.ring.ring = s.ring.ring.push k e ∧
      t = { s with
        ring := { s.ring with cqes := Function.update s.ring.cqes (ringSlot k s.ring.tail) e, tail := s.ring.tail+1 }
        posted := s.posted ++ [e] } := by
  obtain ⟨ring,posts,rfl⟩ := Option.map_eq_some_iff.mp moved
  rw [kernelPost,slotOf masked] at posts
  split at posts
  · rename_i room
    cases Option.some.inj posts
    exact ⟨room,rfl,rfl⟩
  · contradiction

theorem getNone (empty : s.ring.head = s.ring.tail) : step k s .get = some { s with held := none } := by
  rw [step,getCqe,if_pos empty]

def afterGet (k : Nat) (s : State) : State := { s with
  ring := { s.ring with head := s.ring.head+1 }
  returned := s.returned ++ [s.ring.cqes (ringSlot k s.ring.head)]
  held := some (ringSlot k s.ring.head,s.ring.cqes (ringSlot k s.ring.head)) }

theorem getSome (masked : s.ring.ringMask = mask 32 k) (filled : s.ring.head ≠ s.ring.tail) :
    step k s .get = some (afterGet k s) := by
  rw [step,getCqe,if_neg filled,slotOf masked,afterGet]

theorem getInv (inv : Inv k start s) (filled : s.ring.head ≠ s.ring.tail) : Inv k start (afterGet k s) := by
  refine ⟨inv.masked,?_,fun h mem => ?_⟩
  · have order := inv.fifo
    rw [InOrder,@popContents 32 k Cqe s.ring.ring filled,List.append_cons] at order
    exact order
  · cases Option.some.inj mem
    exact congrArg (ringSlot k) (BitVec.add_sub_cancel _ 1).symm

theorem stepInv (small : k < 32) {a : Act} (inv : Inv k start s) (moved : step k s a = some t) : Inv k start t := by
  cases a with
  | post e =>
    obtain ⟨room,pushed,rfl⟩ := postShape inv.masked moved
    refine ⟨inv.masked,?_,inv.behind⟩
    rw [InOrder,pushed,pushContents small room,← List.append_assoc,inv.fifo,List.append_assoc]
  | get =>
    by_cases empty : s.ring.head = s.ring.tail
    · rw [getNone empty] at moved
      cases Option.some.inj moved
      exact ⟨inv.masked,inv.fifo,nofun⟩
    · rw [getSome inv.masked empty] at moved
      cases Option.some.inj moved
      exact getInv inv empty
  | read =>
    rw [step] at moved
    split at moved
    · contradiction
    · cases Option.some.inj moved
      exact inv

theorem getsAll {n : Nat} (inv : Inv k start s) (size : s.ring.ring.count = n) :
    ∃ t, run (step k) s (List.replicate n .get) = some t ∧ t.returned = s.returned ++ s.ring.ring.contents k := by
  induction n generalizing s with
  | zero =>
    refine ⟨s,rfl,?_⟩
    rw [Ring.contents,size]
    exact (List.append_nil _).symm
  | succ n ih =>
    have filled : s.ring.head ≠ s.ring.tail := fun same => by
      rw [(@countZero 32 Cqe s.ring.ring).mp same] at size
      omega
    have moved := @getSome k s inv.masked filled
    have fewer := @popCount 32 Cqe s.ring.ring filled
    rw [size] at fewer
    obtain ⟨t,ran,all⟩ := ih (getInv inv filled) (Nat.succ.inj fewer).symm
    refine ⟨t,?_,?_⟩
    · rw [List.replicate_succ,run,moved]
      exact ran
    · rw [@popContents 32 k Cqe s.ring.ring filled]
      exact all.trans (List.append_cons s.returned _ _).symm

theorem deliversOf (inv : Inv k start s) : Delivers k start s := by
  obtain ⟨t,ran,all⟩ := getsAll inv rfl
  exact ⟨inv.fifo,t,ran,all.trans inv.fifo⟩

/- The entry behind the head is the one that the kernel fills when it fills the ring. -/
theorem postHeld (small : k < 32) (inv : Inv k start s) {e : Cqe} (stable : StableEntry s)
    (moved : step k s (.post e) = some t) : StableEntry t ↔ KeepsEntry k s (.post e) := by
  obtain ⟨room,-,rfl⟩ := postShape inv.masked moved
  have width : k ≤ 32 := Nat.le_of_lt small
  have next : s.ring.tail = ahead (s.ring.head-1) (s.ring.ring.count+1) := by
    rw [← aheadNext,BitVec.sub_add_cancel]
    exact tailAhead s.ring.ring
  -- What is at the pointer after the post.
  have entry : ∀ h ∈ s.held, Function.update s.ring.cqes (ringSlot k s.ring.tail) e h.1 =
      if s.ring.ring.count+1 = 2^k then e else h.2 := by
    intro h mem
    rw [inv.behind h mem,next]
    split
    · rename_i full
      rw [full,slotAround width,Function.update_self]
    · have apart := @slotApart 32 k width (s.ring.head-1) 0 (s.ring.ring.count+1) (Nat.succ_pos _) (by omega)
      rw [aheadZero] at apart
      rw [Function.update_of_ne apart,← inv.behind h mem]
      exact stable h mem
  constructor
  · intro after h mem full
    have reads := (entry h mem).symm.trans (after h mem)
    rwa [if_pos full] at reads
  · intro keeps h mem
    refine (entry h mem).trans ?_
    split
    · exact keeps h mem ‹_›
    · rfl

theorem stableStep (small : k < 32) {a : Act} (inv : Inv k start s) (stable : StableEntry s)
    (moved : step k s a = some t) : StableEntry t ↔ KeepsEntry k s a := by
  cases a with
  | post e => exact postHeld small inv stable moved
  | get =>
    refine iff_of_true ?_ trivial
    by_cases empty : s.ring.head = s.ring.tail
    · rw [getNone empty] at moved
      cases Option.some.inj moved
      exact nofun
    · rw [getSome inv.masked empty] at moved
      cases Option.some.inj moved
      intro h mem
      cases Option.some.inj mem
      rfl
  | read =>
    refine iff_of_true ?_ trivial
    rw [step] at moved
    split at moved
    · contradiction
    · cases Option.some.inj moved
      exact stable

end Steps

/- In every state on the way completions are delivered and entries stable, exactly when no post on the way
takes the last free entry under a pointer. -/
theorem completionsStable {k : Nat} (small : k < 32) {start : UserCqRing} (masked : start.ringMask = mask 32 k)
    {acts : List Act} {t : State} (ran : run (step k) ⟨start,[],[],none⟩ acts = some t) :
    Throughout (step k) (fun s => Delivers k start s ∧ StableEntry s) ⟨start,[],[],none⟩ acts ↔
      Along (step k) (KeepsEntry k) ⟨start,[],[],none⟩ acts := by
  have first := @startInv k start masked
  refine throughoutIff (fun inv moved => stepInv small inv moved) (fun inv good moved => ?_) first
    ⟨deliversOf first,nofun⟩ ran
  rw [and_iff_right (deliversOf (stepInv small inv moved))]
  exact stableStep small inv good.2 moved

def completion (n : Nat) : Cqe := ⟨BitVec.ofNat 64 n,0,0⟩

/- Two entries, and counters that wrap on the way. -/
def emptyRing : UserCqRing := ⟨-1,-1,1,fun _ => completion 0⟩

def wrappingActs : List Act :=
  [.post (completion 1),.get,.read,.get,.post (completion 2),.post (completion 3),.get,.read]

theorem completionsStableWraps :
    Throughout (step 1) (fun s => Delivers 1 emptyRing s ∧ StableEntry s) ⟨emptyRing,[],[],none⟩ wrappingActs :=
  (@completionsStable 1 (by decide) emptyRing rfl wrappingActs _ rfl).mpr (by decide +kernel)

/- The third completion is posted while the caller has the pointer to the first, and takes its entry. -/
def overwritingActs : List Act := [.post (completion 1),.post (completion 2),.get,.post (completion 3),.read]

theorem fullRingOverwrites :
    (∃ t, run (step 1) ⟨emptyRing,[],[],none⟩ overwritingActs = some t ∧ t.returned = [completion 1] ∧
      t.held.map (fun h => t.ring.cqes h.1) = some (completion 3)) ∧
    ¬Throughout (step 1) (fun s => Delivers 1 emptyRing s ∧ StableEntry s) ⟨emptyRing,[],[],none⟩ overwritingActs := by
  refine ⟨⟨_,rfl,rfl,rfl⟩,fun all => ?_⟩
  have stable := (all overwritingActs [] _ (List.append_nil _).symm rfl).2 _ rfl
  revert stable
  decide

end MmRegression.CompletionRing
