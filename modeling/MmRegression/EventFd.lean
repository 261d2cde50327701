import MmRegression.CancelSqe

/-! `test_eventfd` of `lib/test-io_uring.c`, after the ring and the buffers are set up. The kernel adds one to the event
counter for completions that it has posted, for each of them or for several at once. The loop reads the counter,
calls `get_cqe` as often as it says without looking at what is returned, and counts the calls. -/
namespace MmRegression.EventFd

open Machine RingBuffer
open SubmissionRing (Sqe Request UserSqRing)
open CompletionRing (Cqe UserCqRing)
open UringInstance (Fresh sqRing)
open CancelSqe (bufsize iosqeAsync readRequest)

/- `preparing` has the requests that are still to be prepared, and `getting` the calls of `get_cqe` still to be made for
the number that was read. -/
inductive Pc where
  | preparing (rest : List Request)
  | reading
  | getting (left : Nat)
  | ended
  deriving DecidableEq

/- `event` is the counter behind `event_fd`. No event tells yet of `unsignalled` completions, and `merged` of them have
shared the event of another one. -/
structure State where
  ring : UringInstance.State
  unsignalled : Nat
  merged : Nat
  event : Nat
  count : Nat
  pc : Pc

inductive Act where
  | main
  | take
  | complete (i : Nat) (res flags : BitVec 32)
  | signal (n : Nat)
  deriving DecidableEq, Repr

section
variable (entries : Nat) (fd : BitVec 32) (buf : Nat → BitVec 64)

def requests : List Request := (List.range entries).map (fun i => readRequest fd (buf i) bufsize iosqeAsync)

def start (sq : UserSqRing) (cq : UserCqRing) : State :=
  ⟨UringInstance.start sq cq,0,0,0,0,.preparing (requests entries fd buf)⟩

end

section
variable (entries k : Nat)

def mainStep (s : State) : Option State :=
  match s.pc with
  | .preparing (r::rest) => (UringInstance.step k s.ring (.prep r)).map
      (fun ring => { s with ring := ring, pc := .preparing rest })
  | .preparing [] => some { s with pc := .reading }
  -- `read` waits while the counter is 0 and leaves 0 in it.
  | .reading => if s.event = 0 then none else some { s with event := 0, pc := .getting s.event }
  | .getting (left+1) => (UringInstance.step k s.ring .get).map
      (fun ring => { s with ring := ring, count := s.count+1, pc := .getting left })
  | .getting 0 => some { s with pc := if entries ≤ s.count then .ended else .reading }
  | .ended => none

def step (s : State) : Act → Option State
  | .main => mainStep entries k s
  | .take => (UringInstance.step k s.ring .take).map (fun ring => { s with ring := ring })
  | .complete i res flags => (UringInstance.step k s.ring (.complete i res flags)).map
      (fun ring => { s with ring := ring, unsignalled := s.unsignalled+1 })
  | .signal n => if 0 < n ∧ n ≤ s.unsignalled then
      some { s with unsignalled := s.unsignalled-n, merged := s.merged+(n-1), event := s.event+1 }
    else none

end

def Pc.rest : Pc → List Request
  | .preparing rest => rest
  | _ => []

def Pc.left : Pc → Nat
  | .getting left => left
  | _ => 0

/- The loop goes on while fewer calls than requests have been counted. -/
def Pc.Counting (entries count : Nat) : Pc → Prop
  | .preparing _ => count < entries
  | .reading => count < entries
  | .getting _ => True
  | .ended => entries ≤ count

/- The completions in the ring are those that the loop is told of, by what it has read or by the counter, those that no
event tells of yet, and those that no event of their own will tell of. -/
structure Inv (entries n k : Nat) (fd : BitVec 32) (buf : Nat → BitVec 64) (sq : UserSqRing) (cq : UserCqRing)
    (s : State) : Prop where
  ring : UringInstance.Inv n k sq cq s.ring
  prepared : s.ring.sub.prepared ++ s.pc.rest = requests entries fd buf
  found : s.count = s.ring.com.returned.length
  events : s.pc.left+s.event+s.unsignalled+s.merged = s.ring.com.ring.ring.count
  counting : s.pc.Counting entries s.count

/- How many steps are left at most. -/
def State.weight (s : State) : Nat :=
  (match s.pc with
    | .preparing rest => 7*rest.length+1
    | .getting left => left+1
    | _ => 0) + 6*(sqRing s.ring).count+5*s.ring.inFlight.length+4*s.unsignalled+3*s.event

section Steps

variable {entries n k : Nat} {fd : BitVec 32} {buf : Nat → BitVec 64} {sq : UserSqRing} {cq : UserCqRing}
  {s t : State}

theorem requestsLength : (requests entries fd buf).length = entries := by
  rw [requests,List.length_map,List.length_range]

theorem requestsData : (requests entries fd buf).map Request.userData = (List.range entries).map buf := by
  rw [requests,List.map_map]
  rfl

theorem startInv (positive : 0 < entries) (fresh : Fresh n k sq cq) :
    Inv entries n k fd buf sq cq (start entries fd buf sq cq) := by
  have empty : cq.ring.count = 0 := countZero.mp fresh.cqEmpty
  exact ⟨UringInstance.startInv fresh,List.nil_append _,rfl,empty.symm,positive⟩

theorem startWeight (fresh : Fresh n k sq cq) : (start entries fd buf sq cq).weight = 7*entries+1 := by
  have empty : (sqRing (UringInstance.start sq cq)).count = 0 := countZero.mp fresh.sqEmpty
  simp only [State.weight,start,requestsLength,empty]
  rfl

/- Every request is still to be prepared or in one place of the ring. -/
theorem placesLength (fresh : Fresh n k sq cq) (inv : Inv entries n k fd buf sq cq s) :
    s.count+s.ring.com.ring.ring.count+s.ring.inFlight.length+(sqRing s.ring).count+s.pc.rest.length = entries := by
  have kept := UringInstance.keptLength fresh inv.ring
  have parts := congrArg List.length inv.prepared
  rw [List.length_append,requestsLength] at parts
  have found := inv.found
  omega

theorem prepareMoves (small : n < 32) (large : k < 32) (fits : entries ≤ 2^n) (fresh : Fresh n k sq cq)
    (inv : Inv entries n k fd buf sq cq s) {r : Request} {rest : List Request} (here : s.pc = .preparing (r::rest))
    (moved : mainStep entries k s = some t) : Inv entries n k fd buf sq cq t ∧ t.weight < s.weight := by
  obtain ⟨ring,unsignalled,merged,event,count,pc⟩ := s
  cases here
  rw [mainStep,Option.map_eq_some_iff] at moved
  obtain ⟨ring',prep,rfl⟩ := moved
  have places := placesLength fresh inv
  simp only [Pc.rest,List.length_cons] at places
  have room : UringInstance.WithRoom n ring (.prep r) := by
    show (sqRing ring).count < 2^n
    omega
  have next := UringInstance.stepInv small large inv.ring room prep
  cases Option.some.inj prep
  have inv' : Inv entries n k fd buf sq cq ⟨_,unsignalled,merged,event,count,.preparing rest⟩ :=
    ⟨next,(List.append_assoc ..).trans inv.prepared,inv.found,inv.events,inv.counting⟩
  refine ⟨inv',?_⟩
  have after := placesLength fresh inv'
  simp only [Pc.rest] at after
  simp only [State.weight,List.length_cons]
  omega

theorem getMoves (small : n < 32) (large : k < 32) (inv : Inv entries n k fd buf sq cq s)
    {left : Nat} (here : s.pc = .getting (left+1)) (moved : mainStep entries k s = some t) :
    Inv entries n k fd buf sq cq t ∧ t.weight < s.weight := by
  obtain ⟨ring,unsignalled,merged,event,count,pc⟩ := s
  cases here
  rw [mainStep,Option.map_eq_some_iff] at moved
  obtain ⟨ring',get,rfl⟩ := moved
  have events := inv.events
  simp only [Pc.left] at events
  -- The completion that the event told of is in the ring.
  have filled : ring.com.ring.head ≠ ring.com.ring.tail := fun same => by
    have none : ring.com.ring.ring.count = 0 := countZero.mp same
    omega
  have next := UringInstance.stepInv (a := .get) small large inv.ring trivial get
  rw [UringInstance.step,CompletionRing.getSome inv.ring.com.masked filled] at get
  cases Option.some.inj get
  have fewer := popCount (r := ring.com.ring.ring) filled
  have after : (CompletionRing.afterGet k ring.com).ring.ring.count = ring.com.ring.ring.pop.count := rfl
  refine ⟨⟨next,inv.prepared,?_,?_,trivial⟩,?_⟩
  · show count+1 = (ring.com.returned ++ [_]).length
    rw [List.length_append,List.length_singleton]
    exact congrArg (·+1) inv.found
  · simp only [Pc.left,after]
    omega
  · simp only [State.weight,sqRing]
    omega

theorem mainMoves (small : n < 32) (large : k < 32) (fits : entries ≤ 2^n) (fresh : Fresh n k sq cq)
    (inv : Inv entries n k fd buf sq cq s) (moved : mainStep entries k s = some t) :
    Inv entries n k fd buf sq cq t ∧ t.weight < s.weight := by
  cases here : s.pc with
  | preparing rest =>
    cases rest with
    | cons r rest => exact prepareMoves small large fits fresh inv here moved
    | nil =>
      obtain ⟨ring,unsignalled,merged,event,count,pc⟩ := s
      cases here
      cases Option.some.inj moved
      refine ⟨⟨inv.ring,inv.prepared,inv.found,inv.events,inv.counting⟩,?_⟩
      simp only [State.weight,List.length_nil]
      omega
  | reading =>
    obtain ⟨ring,unsignalled,merged,event,count,pc⟩ := s
    cases here
    simp only [mainStep] at moved
    split at moved
    · contradiction
    · rename_i some_
      cases Option.some.inj moved
      have events := inv.events
      refine ⟨⟨inv.ring,inv.prepared,inv.found,?_,trivial⟩,?_⟩
      · simp only [Pc.left] at events ⊢
        omega
      · simp only [State.weight]
        omega
  | getting left =>
    cases left with
    | succ left => exact getMoves small large inv here moved
    | zero =>
      obtain ⟨ring,unsignalled,merged,event,count,pc⟩ := s
      cases here
      cases Option.some.inj moved
      split
      · rename_i all
        refine ⟨⟨inv.ring,inv.prepared,inv.found,inv.events,all⟩,?_⟩
        simp only [State.weight]
        omega
      · rename_i less
        refine ⟨⟨inv.ring,inv.prepared,inv.found,inv.events,Nat.lt_of_not_le less⟩,?_⟩
        simp only [State.weight]
        omega
  | ended =>
    rw [mainStep,here] at moved
    contradiction

theorem takeMoves (small : n < 32) (large : k < 32) (fresh : Fresh n k sq cq) (inv : Inv entries n k fd buf sq cq s)
    (moved : step entries k s .take = some t) : Inv entries n k fd buf sq cq t ∧ t.weight < s.weight := by
  obtain ⟨ring',take,rfl⟩ := Option.map_eq_some_iff.mp moved
  have next := UringInstance.stepInv (a := .take) small large inv.ring trivial take
  obtain ⟨sub,took,rfl⟩ := Option.map_eq_some_iff.mp take
  have same : sub.prepared = s.ring.sub.prepared := by rw [(SubmissionRing.takeShape took).2]
  have inv' : Inv entries n k fd buf sq cq { s with ring := _ } :=
    ⟨next,(congrArg (· ++ s.pc.rest) same).trans inv.prepared,inv.found,inv.events,inv.counting⟩
  refine ⟨inv',?_⟩
  have places := placesLength fresh inv
  have after := placesLength fresh inv'
  simp only [List.length_append,List.length_singleton] at after
  simp only [State.weight,List.length_append,List.length_singleton]
  omega

theorem completeMoves (small : n < 32) (large : k < 32) (inv : Inv entries n k fd buf sq cq s) {i : Nat}
    {res flags : BitVec 32} (moved : step entries k s (.complete i res flags) = some t) :
    Inv entries n k fd buf sq cq t ∧ t.weight < s.weight := by
  obtain ⟨ring',completes,rfl⟩ := Option.map_eq_some_iff.mp moved
  have next := UringInstance.stepInv (a := .complete i res flags) small large inv.ring trivial completes
  obtain ⟨e,found,completes⟩ := Option.bind_eq_some_iff.mp completes
  obtain ⟨com,posts,rfl⟩ := Option.map_eq_some_iff.mp completes
  obtain ⟨room,pushed,shape⟩ := CompletionRing.postShape inv.ring.com.masked posts
  have more := pushCount large room ⟨e.userData,res,flags⟩
  rw [← pushed] at more
  have same : com.returned = s.ring.com.returned := by rw [shape]
  have gone := List.length_eraseIdx_add_one (List.getElem?_eq_some_iff.mp found).1
  refine ⟨⟨next,inv.prepared,inv.found.trans (congrArg List.length same.symm),?_,inv.counting⟩,?_⟩
  · have events := inv.events
    simp only [more]
    omega
  · simp only [State.weight,sqRing]
    omega

theorem signalMoves (inv : Inv entries n k fd buf sq cq s) {m : Nat} (moved : step entries k s (.signal m) = some t) :
    Inv entries n k fd buf sq cq t ∧ t.weight < s.weight := by
  rw [step] at moved
  split at moved
  · rename_i some_
    cases Option.some.inj moved
    have events := inv.events
    refine ⟨⟨inv.ring,inv.prepared,inv.found,?_,inv.counting⟩,?_⟩
    · simp only
      omega
    · simp only [State.weight]
      omega
  · contradiction

theorem stepMoves (small : n < 32) (large : k < 32) (fits : entries ≤ 2^n) (fresh : Fresh n k sq cq) {a : Act}
    (inv : Inv entries n k fd buf sq cq s) (moved : step entries k s a = some t) :
    Inv entries n k fd buf sq cq t ∧ t.weight < s.weight := by
  cases a with
  | main => exact mainMoves small large fits fresh inv moved
  | take => exact takeMoves small large fresh inv moved
  | complete i res flags => exact completeMoves small large inv moved
  | signal m => exact signalMoves inv moved

theorem runInv (small : n < 32) (large : k < 32) (fits : entries ≤ 2^n) (positive : 0 < entries)
    (fresh : Fresh n k sq cq) {acts : List Act}
    (ran : run (step entries k) (start entries fd buf sq cq) acts = some t) : Inv entries n k fd buf sq cq t :=
  runInvariant (fun inv moved => (stepMoves small large fits fresh inv moved).1) (startInv positive fresh) ran

/-! ### Where nothing goes on -/

theorem mainStuck (stuck : mainStep entries k s = none) : s.pc = .ended ∨ s.pc = .reading ∧ s.event = 0 := by
  obtain ⟨ring,unsignalled,merged,event,count,pc⟩ := s
  match pc with
  | .preparing (r::rest) => contradiction
  | .preparing [] => contradiction
  | .reading =>
    simp only [mainStep] at stuck
    split at stuck
    · exact .inr ⟨rfl,‹_›⟩
    · contradiction
  | .getting (left+1) =>
    rw [mainStep,Option.map_eq_none_iff,UringInstance.step,Option.map_eq_none_iff,CompletionRing.step] at stuck
    split at stuck <;> contradiction
  | .getting 0 => contradiction
  | .ended => exact .inl rfl

theorem takeStuck (stuck : step entries k s .take = none) : (sqRing s.ring).count = 0 := by
  rw [step,Option.map_eq_none_iff,UringInstance.step,Option.map_eq_none_iff,SubmissionRing.step] at stuck
  split at stuck
  · exact countZero.mp ‹_›
  · contradiction

/- The completion ring has room for all the requests. -/
theorem completeStuck (fits : entries ≤ 2^k) (fresh : Fresh n k sq cq) (inv : Inv entries n k fd buf sq cq s)
    (stuck : ∀ i res flags, step entries k s (.complete i res flags) = none) : s.ring.inFlight = [] := by
  rcases flight : s.ring.inFlight with _ | ⟨e,flying⟩
  · rfl
  · have places := placesLength fresh inv
    rw [flight,List.length_cons] at places
    have room : (s.ring.com.ring.tail-s.ring.com.ring.head).toNat < 2^k := by
      show s.ring.com.ring.ring.count < 2^k
      omega
    have none_ := stuck 0 0 0
    rw [step,UringInstance.step,flight,List.getElem?_cons_zero,Option.bind_some,CompletionRing.step,
      CompletionRing.kernelPost,if_pos room] at none_
    contradiction

theorem signalStuck (stuck : ∀ m, step entries k s (.signal m) = none) : s.unsignalled = 0 := by
  by_contra some_
  have none_ := stuck 1
  rw [step,if_pos ⟨Nat.one_pos,Nat.pos_of_ne_zero some_⟩] at none_
  contradiction

end Steps

section
variable {entries n k : Nat} {fd : BitVec 32} {buf : Nat → BitVec 64} {sq : UserSqRing} {cq : UserCqRing}

/-- At no moment of any interleaving has a call of `get_cqe` found the ring empty, whatever events the kernel has
merged. A loop that has ended was given each read once, and no event was merged. -/
theorem callsFound (small : n < 32) (large : k < 32) (fits : entries ≤ 2^n) (positive : 0 < entries)
    (fresh : Fresh n k sq cq) {acts : List Act} {t : State}
    (ran : run (step entries k) (start entries fd buf sq cq) acts = some t) :
    t.count = t.ring.com.returned.length ∧ (t.pc = .ended →
      (t.ring.com.returned.map Cqe.userData).Perm ((List.range entries).map buf) ∧ t.merged = 0) := by
  have inv := runInv small large fits positive fresh ran
  refine ⟨inv.found,fun ended => ?_⟩
  have counting := inv.counting
  have places := placesLength fresh inv
  have events := inv.events
  have prepared := inv.prepared
  simp only [ended,Pc.Counting,Pc.left,Pc.rest,List.length_nil,List.append_nil] at counting places events prepared
  have kept := UringInstance.keptOf fresh inv.ring
  have counts : (sqRing t.ring).count = 0 ∧ t.ring.inFlight = [] ∧ t.ring.com.ring.ring.count = 0 :=
    ⟨by omega,List.eq_nil_of_length_eq_zero (by omega),by omega⟩
  rw [UringInstance.Kept,UringInstance.posted,Ring.contents,Ring.contents,counts.1,counts.2.1,counts.2.2,prepared,
    requestsData] at kept
  exact ⟨by simpa [window] using kept,by omega⟩

/- The ring and the requests are two entries long. -/
def twoReads : State := start 2 3 CancelSqe.buffers UringInstance.smallSq CompletionRing.emptyRing

/- Both completions are in the ring when the one event comes. -/
def mergedActs : List Act := [.main,.main,.main,.take,.take,.complete 1 1024 0,.complete 0 1024 0,.signal 2,.main,
  .main,.main]

theorem callsFoundMerged : ∃ t, run (step 2 1) twoReads mergedActs = some t ∧ t.pc = .reading ∧
    t.count = t.ring.com.returned.length ∧ (t.pc = .ended →
      (t.ring.com.returned.map Cqe.userData).Perm ((List.range 2).map CancelSqe.buffers) ∧ t.merged = 0) := by
  have ran : run (step 2 1) twoReads mergedActs = some _ := rfl
  exact ⟨_,ran,rfl,callsFound (by decide) (by decide) (by decide) (by decide) UringInstance.smallFresh ran⟩

/-- Every interleaving comes to a stop, and the loop has ended there exactly if no event was merged. -/
theorem loopEnds (small : n < 32) (large : k < 32) (fits : entries ≤ 2^n) (posts : entries ≤ 2^k)
    (positive : 0 < entries) (fresh : Fresh n k sq cq) {acts : List Act} {t : State}
    (ran : run (step entries k) (start entries fd buf sq cq) acts = some t) :
    acts.length ≤ 7*entries+1 ∧ ((∀ a, step entries k t a = none) → (t.pc = .ended ↔ t.merged = 0)) := by
  have inv := runInv small large fits positive fresh ran
  constructor
  · have first : Inv entries n k fd buf sq cq (start entries fd buf sq cq) := startInv positive fresh
    have measured := runMeasured State.weight (fun inv moved => (stepMoves small large fits fresh inv moved).1)
      (fun inv moved => (stepMoves small large fits fresh inv moved).2) first ran
    rw [startWeight fresh] at measured
    omega
  · intro stuck
    have places := placesLength fresh inv
    have events := inv.events
    have counting := inv.counting
    rw [takeStuck (stuck .take),
      completeStuck posts fresh inv (fun i res flags => stuck (.complete i res flags))] at places
    rw [signalStuck (fun m => stuck (.signal m))] at events
    rcases mainStuck (stuck .main) with ended | ⟨reading,none_⟩
    · simp only [ended,Pc.Counting,Pc.left,Pc.rest,List.length_nil] at places events counting
      exact iff_of_true ended (by omega)
    · simp only [reading,none_,Pc.Counting,Pc.left,Pc.rest,List.length_nil] at places events counting
      refine iff_of_false ?_ (by omega)
      rw [reading]
      exact nofun

end

theorem loopEndsMerged : ∃ t, run (step 2 1) twoReads mergedActs = some t ∧ t.merged = 1 ∧
    mergedActs.length ≤ 7*2+1 ∧ ((∀ a, step 2 1 t a = none) → (t.pc = .ended ↔ t.merged = 0)) := by
  have ran : run (step 2 1) twoReads mergedActs = some _ := rfl
  have fits : 2 ≤ 2^1 := by decide
  exact ⟨_,ran,rfl,loopEnds (by decide) (by decide) fits fits (by decide) UringInstance.smallFresh ran⟩

end MmRegression.EventFd
