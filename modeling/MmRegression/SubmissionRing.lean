import MmRegression.Machine
import MmRegression.RingBuffer

/-! `prep_sqe` of `lib/test-io_uring.c` and the kernel that takes the entries. The rings are set up without
a polling thread, so the kernel takes entries in `io_uring_enter` only, between calls of `prep_sqe`. -/
namespace MmRegression.SubmissionRing

open Machine
open RingBuffer

/- The fields that `prep_sqe` sets. -/
structure Sqe where
  opcode : BitVec 8
  flags : BitVec 8
  fd : BitVec 32
  addr : BitVec 64
  len : BitVec 32
  off : BitVec 64
  userData : BitVec 64
  deriving DecidableEq, Repr

/- The arguments of `prep_sqe`. -/
structure Request where
  op : BitVec 32
  fd : BitVec 32
  addr : BitVec 64
  len : BitVec 32
  off : BitVec 32
  userData : BitVec 64
  flags : BitVec 32
  deriving DecidableEq, Repr

def Request.sqe (r : Request) : Sqe :=
  ⟨r.op.setWidth 8,r.flags.setWidth 8,r.fd,r.addr,r.len,r.off.setWidth 64,r.userData⟩

/- Operations and flags fit into their bytes, so each field is as it was given. -/
theorem fieldsKept {r : Request} (op : r.op.toNat < 256) (flags : r.flags.toNat < 256) :
    r.sqe.opcode.setWidth 32 = r.op ∧ r.sqe.flags.setWidth 32 = r.flags ∧ r.sqe.fd = r.fd ∧ r.sqe.addr = r.addr ∧
      r.sqe.len = r.len ∧ r.sqe.off.setWidth 32 = r.off ∧ r.sqe.userData = r.userData := by
  have back {x : BitVec 32} (small : x.toNat < 256) : (x.setWidth 8).setWidth 32 = x := by
    refine BitVec.eq_of_toNat_eq ?_
    simp only [BitVec.toNat_setWidth]
    omega
  refine ⟨back op,back flags,rfl,rfl,rfl,?_,rfl⟩
  refine BitVec.eq_of_toNat_eq ?_
  have := r.off.isLt
  simp only [Request.sqe,BitVec.toNat_setWidth]
  omega

structure UserSqRing where
  head : BitVec 32
  tail : BitVec 32
  ringMask : BitVec 32
  array : BitVec 32 → BitVec 32
  sqes : BitVec 32 → Sqe

def prepSqe (s : UserSqRing) (r : Request) : UserSqRing :=
  let nextTail := s.tail+1
  let index := s.tail &&& s.ringMask
  let s := { s with sqes := Function.update s.sqes index r.sqe, array := Function.update s.array index index }
  if s.tail ≠ nextTail then { s with tail := nextTail } else s

def ioringOpTimeout : BitVec 32 := 11
def ioringOpAsyncCancel : BitVec 32 := 14
def ioringOpRead : BitVec 32 := 22
def ioringOpWrite : BitVec 32 := 23

def prepReadSqe (s : UserSqRing) (fd : BitVec 32) (buf : BitVec 64) (len flags : BitVec 32) : UserSqRing :=
  prepSqe s ⟨ioringOpRead,fd,buf,len,0,buf,flags⟩

def prepWriteSqe (s : UserSqRing) (fd : BitVec 32) (buf : BitVec 64) (len off flags : BitVec 32) : UserSqRing :=
  prepSqe s ⟨ioringOpWrite,fd,buf,len,off,buf,flags⟩

/- The flags that it is given are not passed on. -/
def prepCancelSqe (s : UserSqRing) (cancelSqe userData : BitVec 64) (_flags : BitVec 32) : UserSqRing :=
  prepSqe s ⟨ioringOpAsyncCancel,-1,cancelSqe,0,0,userData,0⟩

def prepTimeoutSqe (s : UserSqRing) (addr counts : BitVec 64) (flags : BitVec 32) : UserSqRing :=
  prepSqe s ⟨ioringOpTimeout,-1,addr,1,counts.setWidth 32,0,flags⟩

/- The entry that the kernel takes. -/
def taken (s : UserSqRing) : Sqe := s.sqes (s.array (s.head &&& s.ringMask))

/- The ring, what was prepared and what the kernel received so far. -/
structure State where
  ring : UserSqRing
  prepared : List Request
  received : List Sqe

inductive Act where
  | prep (r : Request)
  | take
  deriving DecidableEq, Repr

def step (s : State) : Act → Option State
  | .prep r => some { s with ring := prepSqe s.ring r, prepared := s.prepared ++ [r] }
  | .take => if s.ring.head = s.ring.tail then none else
      some { s with ring := { s.ring with head := s.ring.head+1 }, received := s.received ++ [taken s.ring] }

/- Entries from before the run. -/
def stale (s : UserSqRing) : Nat := (s.tail-s.head).toNat

def outstanding (start : UserSqRing) (s : State) : Nat := stale start+s.prepared.length-s.received.length

/- After each `prep_sqe` at most 2^k entries are outstanding. -/
def WithRoom (k : Nat) (start : UserSqRing) (s : State) (a : Act) : Prop :=
  a ≠ .take → outstanding start s+1 ≤ 2^k
instance (k : Nat) (start : UserSqRing) (s : State) (a : Act) : Decidable (WithRoom k start s a) := by
  unfold WithRoom; infer_instance

/- `left` entries from before the run are still there, and then come `fresh` of those that were prepared. -/
structure Inv (k : Nat) (start : UserSqRing) (s : State) (left fresh : Nat) : Prop where
  masked : s.ring.ringMask = mask 32 k
  tail : s.ring.tail = ahead s.ring.head (left+fresh)
  few : left+fresh < 2^32
  count : s.received.length+(left+fresh) = stale start+s.prepared.length
  early : 0 < left → s.received.length+left = stale start
  fifo : s.received.drop (stale start) ++ window k s.ring.sqes (ahead s.ring.head left) fresh =
    s.prepared.map Request.sqe
  linked : ∀ j < fresh, s.ring.array (ringSlot k (ahead s.ring.head (left+j))) = ringSlot k (ahead s.ring.head (left+j))

section Steps

variable {k : Nat} {start : UserSqRing} {s t : State} {left fresh : Nat}

theorem prepShape (ring : UserSqRing) (r : Request) (masked : ring.ringMask = mask 32 k) :
    prepSqe ring r = { ring with
      sqes := Function.update ring.sqes (ringSlot k ring.tail) r.sqe
      array := Function.update ring.array (ringSlot k ring.tail) (ringSlot k ring.tail)
      tail := ring.tail+1 } := by
  have moves : ring.tail ≠ ring.tail+1 := by
    bv_omega
  rw [prepSqe,masked]
  exact if_pos moves

theorem startInv (masked : start.ringMask = mask 32 k) : Inv k start ⟨start,[],[]⟩ (stale start) 0 where
  masked := masked
  tail := tailAhead ⟨start.head,start.tail,start.sqes⟩
  few := (start.tail-start.head).isLt
  count := Nat.zero_add _
  early := fun _ => Nat.zero_add _
  fifo := by simp [window]
  linked := fun j small => absurd small (Nat.not_lt_zero j)

theorem prepInv (small : k < 32) (inv : Inv k start s left fresh) (r : Request)
    (room : outstanding start s+1 ≤ 2^k) (moved : step s (.prep r) = some t) : Inv k start t left (fresh+1) := by
  have full : left+fresh < 2^k := by
    have := inv.count
    simp only [outstanding] at room
    omega
  have width := Nat.pow_lt_pow_right (by decide : 1 < 2) small
  have next := inv.tail
  rw [step,prepShape s.ring r inv.masked] at moved
  cases Option.some.inj moved
  refine ⟨inv.masked,?_,by omega,?_,inv.early,?_,fun j below => ?_⟩
  · show s.ring.tail+1 = _
    rw [next,← aheadSucc]
    rfl
  · have := inv.count
    simp only [List.length_append,List.length_singleton]
    omega
  · -- The new entry comes behind the `fresh` others.
    show _ ++ window k (Function.update s.ring.sqes (ringSlot k s.ring.tail) r.sqe) (ahead s.ring.head left) (fresh+1) = _
    rw [next,← aheadAhead,windowPush (Nat.le_of_lt small) _ _ (by omega),← List.append_assoc,inv.fifo,List.map_append]
    rfl
  · show Function.update s.ring.array (ringSlot k s.ring.tail) (ringSlot k s.ring.tail) _ = _
    rw [next]
    rcases Nat.lt_succ_iff_lt_or_eq.mp below with earlier | rfl
    · rw [Function.update_of_ne (slotApart (Nat.le_of_lt small) _ (by omega) (by omega))]
      exact inv.linked j earlier
    · exact Function.update_self ..

theorem takeShape (moved : step s .take = some t) : s.ring.head ≠ s.ring.tail ∧
    t = { s with ring := { s.ring with head := s.ring.head+1 }, received := s.received ++ [taken s.ring] } := by
  rw [step] at moved
  split at moved
  · contradiction
  · exact ⟨‹_›,(Option.some.inj moved).symm⟩

theorem takeStale (inv : Inv k start s (left+1) fresh) (moved : step s .take = some t) :
    Inv k start t left fresh := by
  obtain ⟨-,rfl⟩ := takeShape moved
  have early := inv.early (Nat.succ_pos left)
  have count := inv.count
  refine ⟨inv.masked,?_,by have := inv.few; omega,?_,fun _ => ?_,?_,fun j below => ?_⟩
  · show s.ring.tail = ahead (s.ring.head+1) (left+fresh)
    rw [inv.tail,aheadNext,Nat.add_right_comm]
  · simp only [List.length_append,List.length_singleton]
    omega
  · simp only [List.length_append,List.length_singleton]
    omega
  · -- Nothing that was prepared has been received yet.
    have order := inv.fifo
    rw [List.drop_eq_nil_of_le (by omega),← aheadNext] at order
    rw [List.drop_eq_nil_of_le (by simp only [List.length_append,List.length_singleton]; omega)]
    exact order
  · have linked := inv.linked j below
    show s.ring.array (ringSlot k (ahead (s.ring.head+1) (left+j))) = ringSlot k (ahead (s.ring.head+1) (left+j))
    rw [aheadNext,Nat.add_right_comm]
    exact linked

theorem takeFresh (inv : Inv k start s 0 (fresh+1)) (moved : step s .take = some t) : Inv k start t 0 fresh := by
  obtain ⟨-,rfl⟩ := takeShape moved
  have order := inv.fifo
  have count := inv.count
  have past : stale start ≤ s.received.length := by
    have whole := congrArg List.length order
    rw [List.length_append,List.length_drop,windowLength,List.length_map] at whole
    omega
  refine ⟨inv.masked,?_,by have := inv.few; omega,?_,fun zero => absurd zero (Nat.lt_irrefl 0),?_,fun j below => ?_⟩
  · show s.ring.tail = ahead (s.ring.head+1) (0+fresh)
    rw [inv.tail,aheadNext,Nat.add_assoc]
  · simp only [List.length_append,List.length_singleton]
    omega
  · -- The entry that is taken is the first of the window.
    have own := inv.linked 0 (Nat.succ_pos fresh)
    rw [aheadZero] at own
    have entry : taken s.ring = s.ring.sqes (ringSlot k s.ring.head) := by
      rw [taken,inv.masked]
      exact congrArg s.ring.sqes own
    rw [aheadZero,windowFirst] at order
    show (s.received ++ [taken s.ring]).drop _ ++ window k s.ring.sqes (ahead (s.ring.head+1) 0) fresh = _
    rw [aheadZero,List.drop_append_of_le_length past,entry,List.append_assoc]
    exact order
  · have linked := inv.linked (j+1) (Nat.succ_lt_succ below)
    show s.ring.array (ringSlot k (ahead (s.ring.head+1) (0+j))) = ringSlot k (ahead (s.ring.head+1) (0+j))
    rw [aheadNext,Nat.add_assoc]
    exact linked

theorem emptyIff (inv : Inv k start s left fresh) : s.ring.head = s.ring.tail ↔ left+fresh = 0 := by
  have count := @countOf 32 Sqe ⟨s.ring.head,s.ring.tail,s.ring.sqes⟩ _ inv.tail inv.few
  rw [← count]
  exact @countZero 32 Sqe ⟨s.ring.head,s.ring.tail,s.ring.sqes⟩

theorem takeInv (inv : Inv k start s left fresh) (moved : step s .take = some t) :
    ∃ left' fresh', Inv k start t left' fresh' ∧ left+fresh = left'+fresh'+1 := by
  cases left with
  | succ left => exact ⟨left,fresh,takeStale inv moved,by omega⟩
  | zero =>
    cases fresh with
    | zero => exact absurd ((emptyIff inv).mpr rfl) (takeShape moved).1
    | succ fresh => exact ⟨0,fresh,takeFresh inv moved,by omega⟩

theorem stepInv (small : k < 32) {a : Act} (inv : ∃ left fresh, Inv k start s left fresh)
    (room : WithRoom k start s a) (moved : step s a = some t) : ∃ left fresh, Inv k start t left fresh := by
  obtain ⟨left,fresh,held⟩ := inv
  cases a with
  | prep r => exact ⟨left,fresh+1,prepInv small held r (room nofun) moved⟩
  | take =>
    obtain ⟨left',fresh',next,-⟩ := takeInv held moved
    exact ⟨left',fresh',next⟩

/- The kernel can take all that is outstanding. -/
theorem takesAll {n : Nat} (inv : Inv k start s left fresh) (size : left+fresh = n) :
    ∃ u, run step s (List.replicate n .take) = some u ∧ u.prepared = s.prepared ∧ Inv k start u 0 0 := by
  induction n generalizing s left fresh with
  | zero =>
    obtain ⟨rfl,rfl⟩ := Nat.add_eq_zero_iff.mp size
    exact ⟨s,rfl,rfl,inv⟩
  | succ n ih =>
    have filled : s.ring.head ≠ s.ring.tail := by
      rw [Ne,emptyIff inv]
      omega
    obtain ⟨u,moved⟩ : ∃ u, step s .take = some u := ⟨_,if_neg filled⟩
    obtain ⟨left',fresh',next,fewer⟩ := takeInv inv moved
    obtain ⟨v,ran,same,empty⟩ := ih next (by omega)
    refine ⟨v,?_,same.trans (by rw [(takeShape moved).2]),empty⟩
    rw [List.replicate_succ,run,moved]
    exact ran

end Steps

/- What the kernel received beyond the entries from before the run are the requests that were prepared, in
their order: so far a part from the first on, all of them when the ring is empty, and it becomes that. -/
structure Delivered (start : UserSqRing) (t : State) : Prop where
  order : List.IsPrefix (t.received.drop (stale start)) (t.prepared.map Request.sqe)
  once : t.received.length+outstanding start t = stale start+t.prepared.length
  all : t.ring.head = t.ring.tail → t.received.drop (stale start) = t.prepared.map Request.sqe
  drained : ∃ u, run step t (List.replicate (outstanding start t) .take) = some u ∧
    u.received.drop (stale start) = t.prepared.map Request.sqe

theorem deliveredOf {k left fresh : Nat} {start : UserSqRing} {t : State} (inv : Inv k start t left fresh) :
    Delivered start t := by
  have size : left+fresh = outstanding start t := by
    have := inv.count
    rw [outstanding]
    omega
  have emptied {u : State} (empty : Inv k start u 0 0) :
      u.received.drop (stale start) = u.prepared.map Request.sqe := by
    rw [← empty.fifo]
    exact (List.append_nil _).symm
  refine ⟨⟨_,inv.fifo⟩,?_,fun none => ?_,?_⟩
  · rw [← size]
    exact inv.count
  · obtain ⟨rfl,rfl⟩ := Nat.add_eq_zero_iff.mp ((emptyIff inv).mp none)
    exact emptied inv
  · obtain ⟨u,ran,same,empty⟩ := takesAll inv size
    exact ⟨u,ran,by rw [emptied empty,same]⟩

theorem submissionFifo {k : Nat} (small : k < 32) {start : UserSqRing} (masked : start.ringMask = mask 32 k)
    {acts : List Act} {t : State} (room : Along step (WithRoom k start) ⟨start,[],[]⟩ acts)
    (ran : run step ⟨start,[],[]⟩ acts = some t) : Delivered start t := by
  obtain ⟨left,fresh,inv⟩ := runKeeps (fun s => ∃ left fresh, Inv k start s left fresh)
    (fun held guard moved => stepInv small held guard moved) ⟨stale start,0,startInv masked⟩ room ran
  exact deliveredOf inv

def request (n : Nat) : Request := ⟨ioringOpRead,3,0x1000,1024,0,BitVec.ofNat 64 n,0⟩

/- Two entries, an old one in the ring, and counters that wrap on the way. -/
def oldRing : UserSqRing := ⟨-2,-1,1,fun _ => 0,fun _ => (request 0).sqe⟩

def wrappingActs : List Act := [.prep (request 1),.take,.prep (request 2),.take,.prep (request 3),.take,.take]

theorem submissionFifoWraps : ∃ t, run step ⟨oldRing,[],[]⟩ wrappingActs = some t ∧
    t.received.drop 1 = [(request 1).sqe,(request 2).sqe,(request 3).sqe] ∧ Delivered oldRing t :=
  ⟨_,rfl,rfl,@submissionFifo 1 (by decide) oldRing rfl wrappingActs _ (by decide +kernel) rfl⟩

end MmRegression.SubmissionRing
