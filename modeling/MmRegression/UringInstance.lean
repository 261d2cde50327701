import Mathlib.Data.List.Perm.Basic
import MmRegression.SubmissionRing
import MmRegression.CompletionRing

/-! A `ring_instance` of `lib/test-io_uring.c` as a whole: what `prep_sqe` queues, the kernel takes, completes in
any order and posts, and what `get_cqe` gives back. A completion for which the completion ring has no room is
kept until there is some. -/
namespace MmRegression.UringInstance

open Machine RingBuffer
open SubmissionRing (Sqe Request UserSqRing taken)
open CompletionRing (Cqe UserCqRing StableEntry)

structure State where
  sub : SubmissionRing.State
  inFlight : List Sqe
  com : CompletionRing.State

inductive Act where
  | prep (r : Request)
  | take
  | complete (i : Nat) (res flags : BitVec 32)
  | get
  | read
  deriving DecidableEq, Repr

def step (k : Nat) (s : State) : Act → Option State
  | .prep r => (SubmissionRing.step s.sub (.prep r)).map (fun sub => { s with sub := sub })
  | .take => (SubmissionRing.step s.sub .take).map
      (fun sub => { s with sub := sub, inFlight := s.inFlight ++ [taken s.sub.ring] })
  | .complete i res flags => s.inFlight[i]?.bind (fun e =>
      (CompletionRing.step k s.com (.post ⟨e.userData,res,flags⟩)).map
        (fun com => { s with inFlight := s.inFlight.eraseIdx i, com := com }))
  | .get => (CompletionRing.step k s.com .get).map (fun com => { s with com := com })
  | .read => (CompletionRing.step k s.com .read).map (fun com => { s with com := com })

/- What `init_ring` leaves. -/
structure Fresh (n k : Nat) (sq : UserSqRing) (cq : UserCqRing) : Prop where
  sqMask : sq.ringMask = mask 32 n
  sqEmpty : sq.head = sq.tail
  cqMask : cq.ringMask = mask 32 k
  cqEmpty : cq.head = cq.tail

def start (sq : UserSqRing) (cq : UserCqRing) : State := ⟨⟨sq,[],[]⟩,[],⟨cq,[],[],none⟩⟩

def sqRing (s : State) : Ring 32 Sqe := ⟨s.sub.ring.head,s.sub.ring.tail,s.sub.ring.sqes⟩

/- `prep_sqe` does not look at the head, its callers have to know that there is room. -/
def WithRoom (n : Nat) (s : State) : Act → Prop
  | .prep _ => (sqRing s).count < 2^n
  | _ => True
instance (n : Nat) (s : State) (a : Act) : Decidable (WithRoom n s a) := by
  cases a <;> unfold WithRoom <;> infer_instance

structure Inv (n k : Nat) (sq : UserSqRing) (cq : UserCqRing) (s : State) : Prop where
  sub : SubmissionRing.Inv n sq s.sub 0 (sqRing s).count
  com : CompletionRing.Inv k cq s.com
  flight : (s.com.posted.map Cqe.userData ++ s.inFlight.map Sqe.userData).Perm (s.sub.received.map Sqe.userData)

section Steps

variable {n k : Nat} {sq : UserSqRing} {cq : UserCqRing} {s t : State}

theorem staleZero (fresh : Fresh n k sq cq) : SubmissionRing.stale sq = 0 := by
  rw [SubmissionRing.stale,fresh.sqEmpty,BitVec.sub_self]
  rfl

theorem startInv (fresh : Fresh n k sq cq) : Inv n k sq cq (start sq cq) := by
  have empty : (sqRing (start sq cq)).count = 0 := countZero.mp fresh.sqEmpty
  refine ⟨?_,CompletionRing.startInv fresh.cqMask,.refl _⟩
  have first : SubmissionRing.Inv n sq ⟨sq,[],[]⟩ (SubmissionRing.stale sq) 0 := SubmissionRing.startInv fresh.sqMask
  rw [staleZero fresh] at first
  rw [empty]
  exact first

theorem subCount {sub : SubmissionRing.State} {fresh : Nat} (inv : SubmissionRing.Inv n sq sub 0 fresh) :
    (RingBuffer.Ring.mk sub.ring.head sub.ring.tail sub.ring.sqes).count = fresh := by
  have behind := inv.tail
  have few := inv.few
  rw [Nat.zero_add] at behind few
  exact countOf behind few

theorem getsKeep {a : CompletionRing.Act} {com com' : CompletionRing.State} (gets : a = .get ∨ a = .read)
    (moved : CompletionRing.step k com a = some com') : com'.posted = com.posted := by
  rcases gets with rfl | rfl
  · rw [CompletionRing.step] at moved
    split at moved <;> cases Option.some.inj moved <;> rfl
  · rw [CompletionRing.step] at moved
    split at moved
    · contradiction
    · cases Option.some.inj moved
      rfl

theorem stepInv (small : n < 32) (large : k < 32) {a : Act} (inv : Inv n k sq cq s)
    (room : WithRoom n s a) (moved : step k s a = some t) : Inv n k sq cq t := by
  cases a with
  | prep r =>
    simp only [step,Option.map_eq_some_iff] at moved
    obtain ⟨sub,prepared,rfl⟩ := moved
    have outstanding : SubmissionRing.outstanding sq s.sub = (sqRing s).count := by
      have count := inv.sub.count
      rw [SubmissionRing.outstanding]
      omega
    have next := SubmissionRing.prepInv small inv.sub r (by rw [outstanding]; exact room) prepared
    refine ⟨?_,inv.com,?_⟩
    · rw [sqRing,subCount next]
      exact next
    · cases Option.some.inj prepared
      exact inv.flight
  | take =>
    simp only [step,Option.map_eq_some_iff] at moved
    obtain ⟨sub,took,rfl⟩ := moved
    obtain ⟨filled,shape⟩ := SubmissionRing.takeShape took
    obtain ⟨rest,more⟩ := Nat.exists_eq_succ_of_ne_zero (mt (countZero (r := sqRing s)).mpr filled)
    have here := inv.sub
    rw [more] at here
    have next := SubmissionRing.takeFresh here took
    refine ⟨?_,inv.com,?_⟩
    · rw [sqRing,subCount next]
      exact next
    · subst shape
      simp only [List.map_append,List.map_cons,List.map_nil,← List.append_assoc]
      exact inv.flight.append_right _
  | complete i res flags =>
    simp only [step,Option.bind_eq_some_iff,Option.map_eq_some_iff] at moved
    obtain ⟨e,found,com,posts,rfl⟩ := moved
    refine ⟨inv.sub,CompletionRing.stepInv large inv.com posts,?_⟩
    obtain ⟨_,_,rfl⟩ := CompletionRing.postShape inv.com.masked posts
    obtain ⟨bound,rfl⟩ := List.getElem?_eq_some_iff.mp found
    have gone : (s.inFlight[i]::s.inFlight.eraseIdx i).Perm s.inFlight := List.getElem_cons_eraseIdx_perm bound
    refine .trans ?_ inv.flight
    rw [List.map_append,List.append_assoc]
    exact (gone.map Sqe.userData).append_left _
  | get =>
    simp only [step,Option.map_eq_some_iff] at moved
    obtain ⟨com,gets,rfl⟩ := moved
    refine ⟨inv.sub,CompletionRing.stepInv large inv.com gets,?_⟩
    rw [getsKeep (.inl rfl) gets]
    exact inv.flight
  | read =>
    simp only [step,Option.map_eq_some_iff] at moved
    obtain ⟨com,reads,rfl⟩ := moved
    refine ⟨inv.sub,CompletionRing.stepInv large inv.com reads,?_⟩
    rw [getsKeep (.inr rfl) reads]
    exact inv.flight

/- The completions that are in the ring or were there. -/
def posted (k : Nat) (s : State) : List Cqe := s.com.returned ++ s.com.ring.ring.contents k

theorem postedAll (fresh : Fresh n k sq cq) (inv : Inv n k sq cq s) : posted k s = s.com.posted := by
  have none : cq.ring.contents k = [] := by
    rw [Ring.contents,(countZero (r := cq.ring)).mp fresh.cqEmpty]
    rfl
  have order := inv.com.fifo
  rw [CompletionRing.InOrder,none,List.nil_append] at order
  exact order

theorem preparedParts (fresh : Fresh n k sq cq) (inv : Inv n k sq cq s) :
    s.sub.received ++ (sqRing s).contents n = s.sub.prepared.map Request.sqe := by
  have order := inv.sub.fifo
  rw [staleZero fresh,List.drop_zero,aheadZero] at order
  exact order

/- Every request is in one place, as often as it was prepared. -/
def Kept (n k : Nat) (s : State) : Prop :=
  ((posted k s).map Cqe.userData ++ s.inFlight.map Sqe.userData ++ ((sqRing s).contents n).map Sqe.userData).Perm
    (s.sub.prepared.map Request.userData)

theorem keptOf (fresh : Fresh n k sq cq) (inv : Inv n k sq cq s) : Kept n k s := by
  have parts := congrArg (List.map Sqe.userData) (preparedParts fresh inv)
  rw [List.map_append,List.map_map] at parts
  rw [Kept,postedAll fresh inv]
  exact (inv.flight.append_right _).trans (.of_eq parts)

/-! ### Whatever is left can come back -/

def left (s : State) : Nat := 3*(sqRing s).count+2*s.inFlight.length+s.com.ring.ring.count

def Act.isPrep : Act → Bool
  | .prep _ => true
  | _ => false

theorem roomOther {a : Act} (other : a.isPrep = false) : WithRoom n s a := by
  cases a with
  | prep r => contradiction
  | _ => trivial

theorem progress (large : k < 32) (inv : Inv n k sq cq s) {m : Nat} (some_ : left s = m+1) :
    ∃ a t, a.isPrep = false ∧ step k s a = some t ∧ left t = m ∧ t.sub.prepared = s.sub.prepared := by
  by_cases returned : s.com.ring.head = s.com.ring.tail
  · have empty : s.com.ring.ring.count = 0 := countZero.mp returned
    cases flight : s.inFlight with
    | nil =>
      have filled : (sqRing s).count ≠ 0 := by
        simp only [left,flight,List.length_nil] at some_
        omega
      obtain ⟨rest,more⟩ := Nat.exists_eq_succ_of_ne_zero filled
      obtain ⟨sub,took⟩ : ∃ sub, SubmissionRing.step s.sub .take = some sub := ⟨_,if_neg (mt countZero.mp filled)⟩
      have here := inv.sub
      rw [more] at here
      have next := subCount (SubmissionRing.takeFresh here took)
      refine ⟨.take,{ s with sub := sub, inFlight := s.inFlight ++ [taken s.sub.ring] },rfl,?_,?_,?_⟩
      · simp [step,took]
      · simp only [left,sqRing,next,flight,List.nil_append,List.length_singleton]
        simp only [left,more,flight,List.length_nil] at some_
        omega
      · rw [(SubmissionRing.takeShape took).2]
    | cons e flying =>
      obtain ⟨com,posts⟩ : ∃ com, CompletionRing.step k s.com (.post ⟨e.userData,0,0⟩) = some com := by
        have room : (s.com.ring.tail-s.com.ring.head).toNat < 2^k := by
          rw [show (s.com.ring.tail-s.com.ring.head).toNat = 0 from empty]
          exact Nat.two_pow_pos k
        exact ⟨_,by rw [CompletionRing.step,CompletionRing.kernelPost,if_pos room]; rfl⟩
      obtain ⟨room,pushed,shape⟩ := CompletionRing.postShape inv.com.masked posts
      refine ⟨.complete 0 0 0,{ s with inFlight := flying, com := com },rfl,?_,?_,rfl⟩
      · rw [step,flight,List.getElem?_cons_zero,Option.bind_some,posts]
        rfl
      · have more := pushCount large room ⟨e.userData,0,0⟩
        rw [← pushed] at more
        simp only [left,sqRing,more]
        simp only [left,sqRing,flight,List.length_cons] at some_
        omega
  · have fewer := popCount (r := s.com.ring.ring) returned
    refine ⟨.get,{ s with com := CompletionRing.afterGet k s.com },rfl,?_,?_,rfl⟩
    · rw [step,CompletionRing.getSome inv.com.masked returned]
      rfl
    · have after : (CompletionRing.afterGet k s.com).ring.ring.count = s.com.ring.ring.pop.count := rfl
      simp only [left,sqRing,after]
      simp only [left,sqRing,fewer] at some_
      omega

theorem drains (small : n < 32) (large : k < 32) {m : Nat} (inv : Inv n k sq cq s) (size : left s = m) :
    ∃ acts u, (∀ a ∈ acts, a.isPrep = false) ∧ run (step k) s acts = some u ∧ left u = 0 ∧
      u.sub.prepared = s.sub.prepared ∧ Inv n k sq cq u := by
  induction m generalizing s with
  | zero => exact ⟨[],s,by simp,rfl,size,rfl,inv⟩
  | succ m ih =>
    obtain ⟨a,t,other,moved,fewer,same⟩ := progress large inv size
    obtain ⟨acts,u,others,ran,none,same',kept⟩ := ih (stepInv small large inv (roomOther other) moved) fewer
    refine ⟨a::acts,u,?_,?_,none,same'.trans same,kept⟩
    · intro b mem
      rcases List.mem_cons.mp mem with rfl | mem
      · exact other
      · exact others b mem
    · rw [run,moved]
      exact ran

/-! ### What the caller reads through the pointer -/

theorem keptLength (fresh : Fresh n k sq cq) (inv : Inv n k sq cq s) :
    s.com.returned.length+s.com.ring.ring.count+s.inFlight.length+(sqRing s).count = s.sub.prepared.length := by
  have count := (keptOf fresh inv).length_eq
  simp only [posted,List.map_append,List.length_append,List.length_map] at count
  rw [Ring.contents,windowLength,Ring.contents,windowLength] at count
  exact count

/- With no more requests than the completion ring has entries, no entry is written twice. -/
structure Safe (k : Nat) (s : State) : Prop where
  held : s.com.held ≠ none → 0 < s.com.returned.length
  stable : s.sub.prepared.length ≤ 2^k → StableEntry s.com

theorem safeStep (large : k < 32) (fresh : Fresh n k sq cq) {a : Act} (inv : Inv n k sq cq s) (safe : Safe k s)
    (moved : step k s a = some t) : Safe k t := by
  cases a with
  | prep r =>
    simp only [step,Option.map_eq_some_iff] at moved
    obtain ⟨sub,prepared,rfl⟩ := moved
    cases Option.some.inj prepared
    refine ⟨safe.held,fun few => safe.stable ?_⟩
    simp only [List.length_append,List.length_singleton] at few
    omega
  | take =>
    simp only [step,Option.map_eq_some_iff] at moved
    obtain ⟨sub,took,rfl⟩ := moved
    obtain ⟨-,rfl⟩ := SubmissionRing.takeShape took
    exact ⟨safe.held,safe.stable⟩
  | complete i res flags =>
    simp only [step,Option.bind_eq_some_iff,Option.map_eq_some_iff] at moved
    obtain ⟨e,found,com,posts,rfl⟩ := moved
    have same : com.held = s.com.held ∧ com.returned = s.com.returned := by
      obtain ⟨_,_,rfl⟩ := CompletionRing.postShape inv.com.masked posts
      exact ⟨rfl,rfl⟩
    refine ⟨by rw [same.1,same.2]; exact safe.held,fun (few : s.sub.prepared.length ≤ 2^k) => ?_⟩
    refine (CompletionRing.stableStep large inv.com (safe.stable few) posts).mpr fun h mem full => ?_
    -- The pointer, the ring and the request that completes are more requests than there were.
    have given := safe.held (by rw [mem]; exact nofun)
    have flying := (List.getElem?_eq_some_iff.mp found).1
    have count := keptLength fresh inv
    omega
  | get =>
    simp only [step,Option.map_eq_some_iff] at moved
    obtain ⟨com,gets,rfl⟩ := moved
    refine ⟨?_,fun few => (CompletionRing.stableStep large inv.com (safe.stable few) gets).mpr trivial⟩
    rw [CompletionRing.step] at gets
    split at gets
    · cases Option.some.inj gets
      exact fun held => absurd rfl held
    · cases Option.some.inj gets
      simp
  | read =>
    simp only [step,Option.map_eq_some_iff] at moved
    obtain ⟨com,reads,rfl⟩ := moved
    refine ⟨?_,fun few => (CompletionRing.stableStep large inv.com (safe.stable few) reads).mpr trivial⟩
    rw [CompletionRing.step] at reads
    split at reads
    · contradiction
    · cases Option.some.inj reads
      exact safe.held

theorem runInv (small : n < 32) (large : k < 32) (fresh : Fresh n k sq cq) {acts : List Act}
    (room : Along (step k) (WithRoom n) (start sq cq) acts) (ran : run (step k) (start sq cq) acts = some t) :
    Inv n k sq cq t ∧ Safe k t := by
  refine runKeeps (fun s => Inv n k sq cq s ∧ Safe k s) (fun both guard moved => ?_) ⟨startInv fresh,?_⟩ room ran
  · exact ⟨stepInv small large both.1 guard moved,safeStep large fresh both.1 both.2 moved⟩
  · exact ⟨fun held => absurd rfl held,fun _ => nofun⟩

end Steps

/- Two entries in each ring, and counters that wrap on the way. -/
def smallSq : UserSqRing := ⟨-1,-1,1,fun _ => 0,fun _ => (SubmissionRing.request 0).sqe⟩

def twoActs : List Act := [.prep (SubmissionRing.request 1),.prep (SubmissionRing.request 2),.take,.take,
  .complete 1 0 0,.get,.complete 0 0 0]

theorem smallFresh : Fresh 1 1 smallSq CompletionRing.emptyRing := ⟨rfl,rfl,rfl,rfl⟩

theorem twoRoom : Along (step 1) (WithRoom 1) (start smallSq CompletionRing.emptyRing) twoActs := by decide +kernel

end MmRegression.UringInstance
