import Mathlib.Data.List.Nodup
import Mathlib.Data.List.Perm.Subperm
import MmRegression.UringInstance

/-! `test_cancel_sqe` of `lib/test-io_uring.c`, after the ring and the buffers are set up: reads into the first half
of the buffers, a cancel for each of them that is told apart by a buffer of the second half, and the loop that
counts what came of the cancels. The two calls of `io_uring_enter` wait for nothing, so the kernel may go on at
any moment. -/
namespace MmRegression.CancelSqe

open Machine RingBuffer
open SubmissionRing (Sqe Request UserSqRing prepSqe prepReadSqe prepCancelSqe ioringOpRead ioringOpAsyncCancel)
open CompletionRing (Cqe UserCqRing StableEntry)
open UringInstance (State Fresh Inv WithRoom start sqRing posted startInv stepInv keptLength keptOf runInv)

def entries : Nat := 2048
def bufsize : BitVec 32 := 1024
def iosqeAsync : BitVec 32 := 16
def enoent : BitVec 32 := 2
def ealready : BitVec 32 := 114

def readRequest (fd : BitVec 32) (buf : BitVec 64) (len flags : BitVec 32) : Request :=
  ⟨ioringOpRead,fd,buf,len,0,buf,flags⟩

def cancelRequest (cancelSqe userData : BitVec 64) : Request := ⟨ioringOpAsyncCancel,-1,cancelSqe,0,0,userData,0⟩

theorem requestsPrepared (s : UserSqRing) (fd : BitVec 32) (buf other : BitVec 64) (len flags : BitVec 32) :
    prepSqe s (readRequest fd buf len flags) = prepReadSqe s fd buf len flags ∧
      prepSqe s (cancelRequest buf other) = prepCancelSqe s buf other flags := ⟨rfl,rfl⟩

section
variable (fd : BitVec 32) (buf : Nat → BitVec 64)

def requests : List Request :=
  (List.range (entries/2)).map (fun i => readRequest fd (buf i) bufsize iosqeAsync) ++
    (List.range (entries/2)).map (fun i => cancelRequest (buf i) (buf (i+entries/2)))

structure Counts where
  cancelled : Nat
  cancellRunning : Nat
  executed : Nat
  deriving DecidableEq, Repr

def Counts.total (c : Counts) : Nat := c.cancelled+c.cancellRunning+c.executed

/- What the loop sees of a completion: the entry, and which of the buffers are empty as strings at that moment. -/
structure Seen where
  cqe : Cqe
  empty : Nat → Bool

/- None where the test fails. -/
def judge (res : BitVec 32) (empty : Bool) (c : Counts) : Option Counts :=
  if res = 0 then
    if empty then some { c with cancelled := c.cancelled+1 } else none
  else if res = -ealready then some { c with cancellRunning := c.cancellRunning+1 }
  else if res = -enoent then
    if empty then none else some { c with executed := c.executed+1 }
  else some c

def cancels : List Nat := List.range' (entries/2) (entries/2)

def readCqe (c : Counts) (s : Seen) : Option Counts := cancels.foldlM (fun c i =>
  if s.cqe.userData = buf i then judge s.cqe.res (s.empty (i-entries/2)) c else some c) c

def readCqes (seen : List Seen) : Option Counts := seen.foldlM (readCqe buf) ⟨0,0,0⟩

/- The completion says what came of a cancel. -/
def Answers (e : Cqe) : Prop := (∃ i ∈ cancels, e.userData = buf i) ∧ (e.res = 0 ∨ e.res = -ealready ∨ e.res = -enoent)
instance (e : Cqe) : Decidable (Answers buf e) := by unfold Answers; infer_instance

/- A read that was cancelled has left data, or one that was not found has not. -/
def Bad (s : Seen) : Prop := ∃ i ∈ cancels, s.cqe.userData = buf i ∧
  (s.cqe.res = 0 ∧ s.empty (i-entries/2) = false ∨ s.cqe.res = -enoent ∧ s.empty (i-entries/2) = true)

def Apart : Prop := ∀ i < entries, ∀ j < entries, buf i = buf j → i = j

end

section
variable {fd : BitVec 32} {buf : Nat → BitVec 64}

theorem foldMiss {α β : Type} (p : β → Prop) [DecidablePred p] (f : α → β → Option α) {bs : List β} (c : α)
    (none : ∀ b ∈ bs, ¬p b) : bs.foldlM (fun c b => if p b then f c b else some c) c = some c := by
  induction bs with
  | nil => rfl
  | cons b bs ih =>
    rw [List.foldlM_cons,if_neg (none b List.mem_cons_self)]
    exact ih (fun b mem => none b (List.mem_cons_of_mem _ mem))

theorem foldHit {α β : Type} (p : β → Prop) [DecidablePred p] (f : α → β → Option α) {bs : List β} (c : α) {b : β}
    (mem : b ∈ bs) (hit : p b) (nodup : bs.Nodup) (only : ∀ b' ∈ bs, p b' → b' = b) :
    bs.foldlM (fun c b => if p b then f c b else some c) c = f c b := by
  obtain ⟨front,back,rfl⟩ := List.append_of_mem mem
  have apart := List.nodup_append.mp nodup
  have before : ∀ b' ∈ front, ¬p b' := by
    intro b' here is
    have same := only b' (List.mem_append_left _ here) is
    exact apart.2.2 b' here b List.mem_cons_self same
  have behind : ∀ b' ∈ back, ¬p b' := by
    intro b' here is
    have same := only b' (by simp [here]) is
    exact (List.nodup_cons.mp apart.2.1).1 (same ▸ here)
  have rest : (b::back).foldlM (fun c b => if p b then f c b else some c) c = f c b := by
    rw [List.foldlM_cons,if_pos hit]
    cases last : f c b with
    | none => rfl
    | some c' => exact foldMiss p f c' behind
  rw [List.foldlM_append,foldMiss p f c before]
  exact rest

theorem cancelsBound {i : Nat} : i ∈ cancels ↔ entries/2 ≤ i ∧ i < entries := by
  rw [cancels,List.mem_range'_1]
  exact Iff.rfl

theorem readHit (apart : Apart buf) {i : Nat} (mem : i ∈ cancels) (c : Counts) {s : Seen}
    (hit : s.cqe.userData = buf i) : readCqe buf c s = judge s.cqe.res (s.empty (i-entries/2)) c := by
  refine foldHit (fun i => s.cqe.userData = buf i) (fun c i => judge s.cqe.res (s.empty (i-entries/2)) c) c mem hit
    List.nodup_range' (fun j there same => ?_)
  exact apart j (cancelsBound.mp there).2 i (cancelsBound.mp mem).2 (same.symm.trans hit)

theorem readMiss (c : Counts) {s : Seen} (miss : ∀ i ∈ cancels, s.cqe.userData ≠ buf i) : readCqe buf c s = some c :=
  foldMiss _ _ c miss

theorem judgeNone {res : BitVec 32} {empty : Bool} {c : Counts} :
    judge res empty c = none ↔ res = 0 ∧ empty = false ∨ res = -enoent ∧ empty = true := by
  unfold judge
  split
  · rename_i zero
    have other : res ≠ -enoent := by
      rw [zero]
      decide
    rw [or_iff_left (fun bad => other bad.1),and_iff_right zero]
    cases empty <;> simp
  · rename_i zero
    rw [or_iff_right (fun bad => zero bad.1)]
    split
    · rename_i already
      have other : res ≠ -enoent := by
        rw [already]
        decide
      exact iff_of_false nofun (fun bad => other bad.1)
    · split
      · rename_i noent
        rw [and_iff_right noent]
        cases empty <;> simp
      · rename_i noent
        exact iff_of_false nofun (fun bad => noent bad.1)

theorem judgeTotal {res : BitVec 32} {empty : Bool} {c c' : Counts} (judged : judge res empty c = some c') :
    c'.total = c.total+if res = 0 ∨ res = -ealready ∨ res = -enoent then 1 else 0 := by
  unfold judge at judged
  split at judged
  · rename_i zero
    split at judged
    · cases Option.some.inj judged
      simp only [Counts.total,zero,true_or,if_true]
      omega
    · contradiction
  · rename_i zero
    split at judged
    · rename_i already
      cases Option.some.inj judged
      simp only [Counts.total,already,true_or,or_true,if_true]
      omega
    · split at judged
      · rename_i noent
        split at judged
        · contradiction
        · cases Option.some.inj judged
          simp only [Counts.total,noent,or_true,if_true]
          omega
      · rename_i already noent
        cases Option.some.inj judged
        rw [if_neg (by rintro (is | is | is) <;> contradiction)]
        rfl

theorem readNone (apart : Apart buf) {c : Counts} {s : Seen} : readCqe buf c s = none ↔ Bad buf s := by
  by_cases known : ∃ i ∈ cancels, s.cqe.userData = buf i
  · obtain ⟨i,mem,hit⟩ := known
    rw [readHit apart mem c hit,judgeNone]
    constructor
    · exact fun bad => ⟨i,mem,hit,bad⟩
    · rintro ⟨j,there,same,bad⟩
      cases apart j (cancelsBound.mp there).2 i (cancelsBound.mp mem).2 (same.symm.trans hit)
      exact bad
  · have miss : ∀ i ∈ cancels, s.cqe.userData ≠ buf i := fun i mem hit => known ⟨i,mem,hit⟩
    rw [readMiss c miss]
    refine iff_of_false nofun ?_
    rintro ⟨i,mem,hit,_⟩
    exact miss i mem hit

theorem readTotal (apart : Apart buf) {c c' : Counts} {s : Seen} (read : readCqe buf c s = some c') :
    c'.total = c.total+if Answers buf s.cqe then 1 else 0 := by
  by_cases known : ∃ i ∈ cancels, s.cqe.userData = buf i
  · obtain ⟨i,mem,hit⟩ := known
    rw [readHit apart mem c hit] at read
    rw [judgeTotal read]
    simp only [Answers,and_iff_right (show ∃ i ∈ cancels, s.cqe.userData = buf i from ⟨i,mem,hit⟩)]
  · rw [readMiss c (fun i mem hit => known ⟨i,mem,hit⟩)] at read
    cases Option.some.inj read
    rw [if_neg (fun answers => known answers.1)]
    rfl

theorem readsNone (apart : Apart buf) {seen : List Seen} {c : Counts} :
    seen.foldlM (readCqe buf) c = none ↔ ∃ s ∈ seen, Bad buf s := by
  induction seen generalizing c with
  | nil => simp
  | cons s seen ih =>
    rw [List.foldlM_cons]
    cases read : readCqe buf c s with
    | none => exact iff_of_true rfl ⟨s,List.mem_cons_self,(readNone apart).mp read⟩
    | some c' =>
      have fine : ¬Bad buf s := fun bad => by
        rw [(readNone apart).mpr bad] at read
        contradiction
      rw [List.exists_mem_cons_iff,or_iff_right fine]
      exact ih

theorem readsTotal (apart : Apart buf) {seen : List Seen} {c c' : Counts}
    (read : seen.foldlM (readCqe buf) c = some c') :
    c'.total = c.total+seen.countP (fun s => Answers buf s.cqe) := by
  induction seen generalizing c with
  | nil => cases Option.some.inj read; rfl
  | cons s seen ih =>
    obtain ⟨d,first,rest⟩ := Option.bind_eq_some_iff.mp read
    have here := readTotal apart first
    have later := ih rest
    rw [List.countP_cons]
    simp only [decide_eq_true_eq]
    omega

/-! ### The calls before the loop -/

def request : UringInstance.Act → Option Request
  | .prep r => some r
  | _ => none

theorem stepPrepared {k : Nat} {s t : State} {a : UringInstance.Act} (moved : UringInstance.step k s a = some t) :
    t.sub.prepared = s.sub.prepared ++ (request a).toList := by
  cases a with
  | prep r =>
    simp only [UringInstance.step,Option.map_eq_some_iff] at moved
    obtain ⟨sub,prepared,rfl⟩ := moved
    cases Option.some.inj prepared
    rfl
  | take =>
    simp only [UringInstance.step,Option.map_eq_some_iff] at moved
    obtain ⟨sub,took,rfl⟩ := moved
    rw [(SubmissionRing.takeShape took).2]
    exact (List.append_nil _).symm
  | complete i res flags =>
    simp only [UringInstance.step,Option.bind_eq_some_iff,Option.map_eq_some_iff] at moved
    obtain ⟨e,_,com,_,rfl⟩ := moved
    exact (List.append_nil _).symm
  | get =>
    simp only [UringInstance.step,Option.map_eq_some_iff] at moved
    obtain ⟨com,_,rfl⟩ := moved
    exact (List.append_nil _).symm
  | read =>
    simp only [UringInstance.step,Option.map_eq_some_iff] at moved
    obtain ⟨com,_,rfl⟩ := moved
    exact (List.append_nil _).symm

theorem runPrepared {k : Nat} {s t : State} {acts : List UringInstance.Act}
    (ran : run (UringInstance.step k) s acts = some t) :
    t.sub.prepared = s.sub.prepared ++ acts.filterMap request := by
  induction acts generalizing s with
  | nil => cases Option.some.inj ran; simp
  | cons a acts ih =>
    obtain ⟨u,moved,rest⟩ := runCons ran
    rw [ih rest,stepPrepared moved,List.append_assoc]
    cases asked : request a <;> simp [asked]

/- With no more requests than the submission ring has entries there is always room. -/
theorem roomAll {n k : Nat} (small : n < 32) (large : k < 32) {sq : UserSqRing} {cq : UserCqRing} {s : State}
    {acts : List UringInstance.Act} (fresh : Fresh n k sq cq) (inv : Inv n k sq cq s)
    (few : s.sub.prepared.length+(acts.filterMap request).length ≤ 2^n) :
    Along (UringInstance.step k) (WithRoom n) s acts := by
  induction acts generalizing s with
  | nil => trivial
  | cons a acts ih =>
    have room : WithRoom n s a := by
      cases a with
      | prep r =>
        have count := keptLength fresh inv
        simp only [request,List.filterMap_cons,List.length_cons] at few
        show (sqRing s).count < 2^n
        omega
      | _ => trivial
    refine ⟨room,fun t moved => ih (stepInv small large inv room moved) ?_⟩
    rw [stepPrepared moved,List.length_append]
    cases asked : request a <;> simp [asked] at few ⊢ <;> omega

theorem requestsData : (requests fd buf).map Request.userData = (List.range entries).map buf := by
  have twice : entries = entries/2+entries/2 := rfl
  have halves : List.range entries = List.range (entries/2) ++ (List.range (entries/2)).map (fun i => entries/2+i) :=
    (congrArg List.range twice).trans List.range_add
  rw [halves,requests,List.map_append,List.map_append,List.map_map,List.map_map,List.map_map]
  refine congrArg _ (List.map_congr_left fun i _ => ?_)
  rw [Function.comp,Function.comp,Nat.add_comm]
  rfl

theorem dataApart (apart : Apart buf) : ((requests fd buf).map Request.userData).Nodup := by
  rw [requestsData]
  refine List.Nodup.map_on (fun i mem j there same => ?_) List.nodup_range
  exact apart i (List.mem_range.mp mem) j (List.mem_range.mp there) same

theorem answersFew {es : List Cqe} (nodup : (es.map Cqe.userData).Nodup) :
    es.countP (fun e => Answers buf e) ≤ entries/2 := by
  have part : ((es.filter (fun e => Answers buf e)).map Cqe.userData).Nodup :=
    nodup.sublist (List.filter_sublist.map _)
  have known : (es.filter (fun e => Answers buf e)).map Cqe.userData ⊆ cancels.map buf := by
    intro d mem
    obtain ⟨e,here,rfl⟩ := List.mem_map.mp mem
    obtain ⟨i,there,same⟩ := (of_decide_eq_true (List.mem_filter.mp here).2).1
    exact List.mem_map.mpr ⟨i,there,same.symm⟩
  have few := (part.subperm known).length_le
  rw [List.length_map,List.length_map,cancels,List.length_range'] at few
  rw [List.countP_eq_length_filter]
  exact few

end

def buffers (i : Nat) : BitVec 64 := BitVec.ofNat 64 (i+1)

def initSq : UserSqRing := ⟨0,0,2047,fun _ => 0,fun _ => (readRequest 0 0 0 0).sqe⟩
def initCq : UserCqRing := ⟨0,0,4095,fun _ => ⟨0,0,0⟩⟩

def firstRead : Request := readRequest 3 (buffers 0) bufsize iosqeAsync
def firstActs : List UringInstance.Act := [.prep firstRead,.take,.complete 0 1024 0,.get]

end MmRegression.CancelSqe
