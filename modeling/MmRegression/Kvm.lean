import MmRegression.Interaction
import MmRegression.Shell

/-! The guest of `lib/kvm.sh`: how it is shut down, and the watchdog over it. What `libvirt`, `ping` and `ssh` say may
change from one moment to the next. -/
namespace MmRegression.Kvm

open Interaction

inductive Message where
  | alreadyShutOff
  | shutdown
  | shutdownDone
  | shutdownTimeout
  | noConnection
  | destroyTimedOut
  | destroyFailed
  | watchdogTimeout
  | guestShutdown
  deriving DecidableEq, Repr

def Message.text (vm : Text) (m : Message) : Text :=
  let named (rest : String) : Text := '['::vm ++ rest.toList
  match m with
  | .alreadyShutOff => named "] already shut off"
  | .shutdown => "shutdown vm ".toList ++ vm
  | .shutdownDone => named "] shutdown done"
  | .shutdownTimeout => named "] shutdown timeout, destroy it."
  | .noConnection => named "] no ssh-connection, destroy it."
  | .destroyTimedOut => named "] virsh destroy timed out"
  | .destroyFailed => named "] virsh destroy failed"
  | .watchdogTimeout => named "] watchdog timeout"
  | .guestShutdown => named "] guest shutdown"

/- All of it is about one guest. `destroy` is `virsh destroy` under `timeout 5`, `kill` is `kill -9` of the process. -/
inductive Ask where
  | echo (m : Message)
  | sleep (seconds : Nat)
  | running
  | connectable
  | sshConnectable
  | sshShutdown
  | destroy
  | kill
  deriving DecidableEq, Repr

abbrev Answer : Ask → Type
  | .running => Bool
  | .connectable => Bool
  | .sshConnectable => Bool
  | .destroy => Nat
  | .kill => Nat
  | _ => Unit

abbrev Script := Prog Answer
abbrev Log := Record Answer

def query (q : Ask) : Script (Answer q) := ask q

def reachable : Script Bool := do
  let ping : Bool ← query .connectable
  if ping then query .sshConnectable else return false

/- `for i in $(seq 60)`; whether the guest was seen off. -/
def awaitOff : Nat → Script Bool
  | 0 => return false
  | count+1 => do
      let on : Bool ← query .running
      if on then
        query (.sleep 2)
        awaitOff count
      else
        query (.echo .shutdownDone)
        return true

def destroyVm : Script Nat := do
  let ret : Nat ← query .destroy
  if ret = 0 then return 1
  else if ret = 124 then
    query (.echo .destroyTimedOut)
    return 0
  else
    query (.echo .destroyFailed)
    query .kill

/- The status of the last command is that of the function. -/
def vmShutdownWait : Script Nat := do
  let on : Bool ← query .running
  if on then
    let there ← reachable
    if there then
      query (.echo .shutdown)
      query .sshShutdown
      let off ← awaitOff 60
      if off then return 0
      else
        query (.echo .shutdownTimeout)
        destroyVm
    else
      query (.echo .noConnection)
      destroyVm
  else
    query (.echo .alreadyShutOff)
    return 0

/- The inner loop; whether the watchdog is over. -/
def watchRound : Nat → Script Bool
  | 0 => return false
  | timer+1 => do
      let ping : Bool ← query .connectable
      if ping then return false
      else if timer = 0 then
        query (.echo .watchdogTimeout)
        let _ ← vmShutdownWait
        return true
      else
        let on : Bool ← query .running
        if on then watchRound timer
        else
          query (.echo .guestShutdown)
          return true

/- The first `turns` turns of `while true`; whether one of them was the last. -/
def vmWatchdog (timer : Nat) : Nat → Script Bool
  | 0 => return false
  | turns+1 => do
      let ended ← watchRound timer
      if ended then return true
      else
        query (.sleep 1)
        vmWatchdog timer turns

/-! ### Shutting down -/

def polls (log : Log) : Nat := log.countP (fun e => e.1 = .running)

theorem pollsAppend (one other : Log) : polls (one ++ other) = polls one+polls other := List.countP_append

/- Polls that find the guest running. -/
def waits (count : Nat) : Log := (List.replicate count [⟨.running,true⟩,⟨.sleep 2,()⟩]).flatten

theorem waitsSucc (count : Nat) : waits (count+1) = ⟨.running,true⟩::⟨.sleep 2,()⟩::waits count := rfl

theorem memWaits {count : Nat} {e : (q : Ask) × Answer q} (mem : e ∈ waits count) :
    e = ⟨.running,true⟩ ∨ e = ⟨.sleep 2,()⟩ := by
  obtain ⟨turn,there,here⟩ := List.mem_flatten.mp mem
  rw [List.eq_of_mem_replicate there] at here
  simpa using here

theorem awaitTraces {count : Nat} {log : Log} {off : Bool} : Traces (awaitOff count) log off ↔
    off = false ∧ log = waits count ∨
      off = true ∧ ∃ k < count, log = waits k ++ [⟨.running,false⟩,⟨.echo .shutdownDone,()⟩] := by
  induction count generalizing log with
  | zero => simp [awaitOff,waits,and_comm]
  | succ count ih =>
    simp only [awaitOff,query,tracesAskBind]
    constructor
    · rintro ⟨on,rest,rfl,traces⟩
      split at traces
      · rename_i running
        cases show on = true from running
        obtain ⟨_,rest,rfl,later⟩ := tracesAskBind.mp traces
        rcases ih.mp later with ⟨rfl,rfl⟩ | ⟨rfl,k,small,rfl⟩
        · exact .inl ⟨rfl,rfl⟩
        · exact .inr ⟨rfl,k+1,Nat.succ_lt_succ small,rfl⟩
      · rename_i running
        cases Bool.eq_false_iff.mpr running
        obtain ⟨_,rest,rfl,rfl,rfl⟩ := tracesAskBind.mp traces
        exact .inr ⟨rfl,0,Nat.succ_pos count,rfl⟩
    · rintro (⟨rfl,rfl⟩ | ⟨rfl,k,small,rfl⟩)
      · exact ⟨true,_,rfl,(),_,rfl,ih.mpr (.inl ⟨rfl,rfl⟩)⟩
      · cases k with
        | zero => exact ⟨false,_,rfl,(),_,rfl,rfl,rfl⟩
        | succ k => exact ⟨true,_,rfl,(),_,rfl,ih.mpr (.inr ⟨rfl,k,Nat.lt_of_succ_lt_succ small,rfl⟩)⟩

theorem destroyTraces {log : Log} {ret : Nat} : Traces destroyVm log ret ↔
    log = [⟨.destroy,0⟩] ∧ ret = 1 ∨ log = [⟨.destroy,124⟩,⟨.echo .destroyTimedOut,()⟩] ∧ ret = 0 ∨
      ∃ st, st ≠ 0 ∧ st ≠ 124 ∧ log = [⟨.destroy,st⟩,⟨.echo .destroyFailed,()⟩,⟨.kill,ret⟩] := by
  simp only [destroyVm,query,tracesAskBind]
  constructor
  · rintro ⟨st,rest,rfl,traces⟩
    split at traces
    · rename_i zero
      cases show st = 0 from zero
      obtain ⟨rfl,rfl⟩ := traces
      exact .inl ⟨rfl,rfl⟩
    · rename_i failed
      split at traces
      · rename_i late
        cases show st = 124 from late
        obtain ⟨_,rest,rfl,rfl,rfl⟩ := tracesAskBind.mp traces
        exact .inr (.inl ⟨rfl,rfl⟩)
      · rename_i other
        obtain ⟨_,rest,rfl,last⟩ := tracesAskBind.mp traces
        exact .inr (.inr ⟨st,failed,other,by rw [tracesAsk.mp last]⟩)
  · rintro (⟨rfl,rfl⟩ | ⟨rfl,rfl⟩ | ⟨st,failed,other,rfl⟩)
    · exact ⟨0,_,rfl,rfl,rfl⟩
    · exact ⟨124,_,rfl,(),_,rfl,rfl,rfl⟩
    · refine ⟨st,_,rfl,?_⟩
      rw [if_neg failed,if_neg other]
      exact ⟨(),_,rfl,tracesAsk.mpr rfl⟩

/- What a call that has come to its end shows. -/
structure Shut (log : Log) (ret : Nat) : Prop where
  destroyed : (∃ st, ⟨.destroy,st⟩ ∈ log) ↔ ⟨.running,false⟩ ∉ log
  killed : (∃ st, ⟨.kill,st⟩ ∈ log) ↔ ∃ st, ⟨.destroy,st⟩ ∈ log ∧ st ≠ 0 ∧ st ≠ 124
  status : ret = 0 ↔ ⟨.running,false⟩ ∈ log ∨ ⟨.destroy,124⟩ ∈ log ∨ ⟨.kill,0⟩ ∈ log
  few : polls log ≤ 61
  patient : ⟨.sshShutdown,()⟩ ∈ log → ⟨.running,false⟩ ∉ log → polls log = 61
  unreachable : ⟨.running,false⟩ ∉ log → ⟨.sshShutdown,()⟩ ∉ log →
    ⟨.connectable,false⟩ ∈ log ∨ ⟨.sshConnectable,false⟩ ∈ log

/- A part in which the guest was found running each time, before the end is decided. -/
structure Calm (front : Log) : Prop where
  off : ⟨.running,false⟩ ∉ front
  destroy : ∀ st, ⟨.destroy,st⟩ ∉ front
  kill : ∀ st, ⟨.kill,st⟩ ∉ front

theorem shutOff {front : Log} {m : Message} (calm : Calm front) (few : polls front ≤ 60) :
    Shut (front ++ [⟨.running,false⟩,⟨.echo m,()⟩]) 0 := by
  have off : (⟨.running,false⟩ : (q : Ask) × Answer q) ∈ front ++ [⟨.running,false⟩,⟨.echo m,()⟩] := by simp
  refine ⟨iff_of_false ?_ (fun not => not off),iff_of_false ?_ ?_,iff_of_true rfl (.inl off),?_,?_,?_⟩
  · rintro ⟨st,mem⟩
    simp [calm.destroy st] at mem
  · rintro ⟨st,mem⟩
    simp [calm.kill st] at mem
  · rintro ⟨st,mem,_⟩
    simp [calm.destroy st] at mem
  · rw [pollsAppend]
    exact Nat.add_le_add few (Nat.le_refl 1)
  · exact fun _ not => absurd off not
  · exact fun not => absurd off not

theorem shutDestroyed {front last : Log} {ret : Nat} (calm : Calm front) (traces : Traces destroyVm last ret)
    (few : polls front ≤ 61)
    (patient : ⟨.sshShutdown,()⟩ ∈ front → polls front = 61)
    (unreachable : ⟨.sshShutdown,()⟩ ∉ front → ⟨.connectable,false⟩ ∈ front ∨ ⟨.sshConnectable,false⟩ ∈ front) :
    Shut (front ++ last) ret := by
  have quiet : ⟨.running,false⟩ ∉ last ∧ ⟨.sshShutdown,()⟩ ∉ last ∧ polls last = 0 := by
    rcases destroyTraces.mp traces with ⟨rfl,_⟩ | ⟨rfl,_⟩ | ⟨st,_,_,rfl⟩ <;> simp [polls]
  have destroyed : ∃ st, ⟨.destroy,st⟩ ∈ last := by
    rcases destroyTraces.mp traces with ⟨rfl,_⟩ | ⟨rfl,_⟩ | ⟨st,_,_,rfl⟩ <;> simp
  have off : (⟨.running,false⟩ : (q : Ask) × Answer q) ∉ front ++ last := by
    simp [calm.off,quiet.1]
  have asked : ⟨.sshShutdown,()⟩ ∈ front ++ last ↔ ⟨.sshShutdown,()⟩ ∈ front := by
    simp [quiet.2.1]
  have count : polls (front ++ last) = polls front := by rw [pollsAppend,quiet.2.2,Nat.add_zero]
  refine ⟨?_,?_,?_,count ▸ few,?_,?_⟩
  · obtain ⟨st,mem⟩ := destroyed
    exact iff_of_true ⟨st,List.mem_append_right _ mem⟩ off
  · rcases destroyTraces.mp traces with ⟨rfl,_⟩ | ⟨rfl,_⟩ | ⟨st,zero,late,rfl⟩
    · simp [calm.kill,calm.destroy]
    · simp [calm.kill,calm.destroy]
    · simp [calm.kill,calm.destroy,zero,late]
  · rcases destroyTraces.mp traces with ⟨rfl,rfl⟩ | ⟨rfl,rfl⟩ | ⟨st,zero,late,rfl⟩
    · simp [calm.kill,calm.destroy,calm.off]
    · simp
    · simp only [List.mem_append,calm.kill,calm.destroy,calm.off,false_or]
      simpa [eq_comm] using fun same => absurd same late
  · exact fun mem _ => count.trans (patient (asked.mp mem))
  · exact fun _ not => (unreachable (mt asked.mpr not)).imp (List.mem_append_left _) (List.mem_append_left _)

theorem reachableTraces {log : Log} {there : Bool} : Traces reachable log there ↔
    log = [⟨.connectable,false⟩] ∧ there = false ∨ log = [⟨.connectable,true⟩,⟨.sshConnectable,there⟩] := by
  simp only [reachable,query,tracesAskBind]
  constructor
  · rintro ⟨ping,rest,rfl,traces⟩
    split at traces
    · rename_i up
      cases show ping = true from up
      exact .inr (by rw [tracesAsk.mp traces])
    · rename_i down
      cases Bool.eq_false_iff.mpr down
      obtain ⟨rfl,rfl⟩ := traces
      exact .inl ⟨rfl,rfl⟩
  · rintro (⟨rfl,rfl⟩ | rfl)
    · exact ⟨false,_,rfl,rfl,rfl⟩
    · exact ⟨true,_,rfl,tracesAsk.mpr rfl⟩

def greeting : Log := [⟨.running,true⟩,⟨.connectable,true⟩,⟨.sshConnectable,true⟩,⟨.echo .shutdown,()⟩,
    ⟨.sshShutdown,()⟩]

theorem waitsCount (count : Nat) : polls (waits count) = count := by
  induction count with
  | zero => rfl
  | succ count ih =>
    rw [polls,waitsSucc,List.countP_cons,List.countP_cons]
    exact congrArg (·+1) ih

theorem greetingCalm (count : Nat) (more : Log) (quiet : Calm more) : Calm (greeting ++ waits count ++ more) := by
  have waiting : ∀ e, e ≠ ⟨.running,true⟩ → e ≠ ⟨.sleep 2,()⟩ → e ∉ waits count :=
    fun e on asleep mem => (memWaits mem).elim on asleep
  refine ⟨?_,fun st => ?_,fun st => ?_⟩
  · simp [greeting,quiet.off,waiting]
  · simp [greeting,quiet.destroy,waiting]
  · simp [greeting,quiet.kill,waiting]

theorem shutdownShut {log : Log} {ret : Nat} (traces : Traces vmShutdownWait log ret) : Shut log ret := by
  simp only [vmShutdownWait,query,tracesAskBind] at traces
  obtain ⟨on,rest,rfl,traces⟩ := traces
  split at traces
  · rename_i running
    cases show on = true from running
    obtain ⟨reach,there,other,rfl,reached,last⟩ := tracesBind.mp traces
    split at last
    · rename_i up
      cases show there = true from up
      have asked : reach = [⟨.connectable,true⟩,⟨.sshConnectable,true⟩] := by
        rcases reachableTraces.mp reached with ⟨_,down⟩ | asked
        · contradiction
        · exact asked
      subst asked
      obtain ⟨_,rest,rfl,greeted⟩ := tracesAskBind.mp last
      obtain ⟨_,rest,rfl,sent⟩ := tracesAskBind.mp greeted
      obtain ⟨polled,off,rest,rfl,awaited,ended⟩ := tracesBind.mp sent
      rcases awaitTraces.mp awaited with ⟨rfl,rfl⟩ | ⟨rfl,k,small,rfl⟩
      · obtain ⟨_,rest,rfl,later⟩ := tracesAskBind.mp ended
        have calm : Calm (greeting ++ waits 60 ++ [⟨.echo .shutdownTimeout,()⟩]) :=
          greetingCalm 60 _ ⟨by simp,by simp,by simp⟩
        have count : polls (greeting ++ waits 60 ++ [⟨.echo .shutdownTimeout,()⟩]) = 61 := by
          rw [pollsAppend,pollsAppend,waitsCount]
          rfl
        have shut := shutDestroyed calm later (Nat.le_of_eq count) (fun _ => count)
          (fun not => by simp [greeting] at not)
        simpa [greeting] using shut
      · obtain ⟨rfl,rfl⟩ := ended
        have calm : Calm (greeting ++ waits k) := by
          simpa using greetingCalm k [] ⟨by simp,by simp,by simp⟩
        have count : polls (greeting ++ waits k) ≤ 60 := by
          rw [pollsAppend,waitsCount]
          show 1+k ≤ 60
          omega
        simpa [greeting] using shutOff (m := .shutdownDone) calm count
    · rename_i down
      cases Bool.eq_false_iff.mpr down
      obtain ⟨_,rest,rfl,later⟩ := tracesAskBind.mp last
      rcases reachableTraces.mp reached with ⟨rfl,_⟩ | rfl
      · have calm : Calm [⟨.running,true⟩,⟨.connectable,false⟩,⟨.echo .noConnection,()⟩] := ⟨by simp,by simp,by simp⟩
        exact shutDestroyed calm later (by simp [polls]) (by simp) (by simp)
      · have calm : Calm [⟨.running,true⟩,⟨.connectable,true⟩,⟨.sshConnectable,false⟩,⟨.echo .noConnection,()⟩] :=
          ⟨by simp,by simp,by simp⟩
        exact shutDestroyed calm later (by simp [polls]) (by simp) (by simp)
  · rename_i off
    cases Bool.eq_false_iff.mpr off
    obtain ⟨_,_,rfl,rfl,rfl⟩ := tracesAskBind.mp traces
    have empty : Calm [] := ⟨by simp,by simp,by simp⟩
    exact shutOff empty (by simp [polls])

/-- Whatever happens meanwhile: the guest is destroyed exactly when it was not seen off, after all the polls when it
was asked to shut down, and its process is killed exactly when that fails otherwise than by the timeout. The
status is 0 also after the timeout, with the guest still there. -/
theorem shutdownOutcome (env : Log → (q : Ask) → Answer q) :
    Shut (answered env [] vmShutdownWait).1 (answered env [] vmShutdownWait).2 := by
  obtain ⟨new,parts,traces⟩ := answeredTraces env [] vmShutdownWait
  rw [parts]
  exact shutdownShut traces

/-! ### The watchdog -/

/- Pings without an answer, after each of which the guest was found running. -/
def missed (count : Nat) : Log := (List.replicate count [⟨.connectable,false⟩,⟨.running,true⟩]).flatten

/- What a turn leaves: no ping without a time to wait for, an answer in time, a guest that is off before the time is
over, or no answer all the time and a shutdown. -/
inductive Turn (timer : Nat) : Log → Bool → Prop where
  | idle (zero : timer = 0) : Turn timer [] false
  | answer (k : Nat) (early : k < timer) : Turn timer (missed k ++ [⟨.connectable,true⟩]) false
  | off (k : Nat) (early : k+1 < timer) :
      Turn timer (missed k ++ [⟨.connectable,false⟩,⟨.running,false⟩,⟨.echo .guestShutdown,()⟩]) true
  | timeout (k : Nat) (last : k+1 = timer) (stop : Log) (ret : Nat) (stops : Traces vmShutdownWait stop ret) :
      Turn timer (missed k ++ [⟨.connectable,false⟩,⟨.echo .watchdogTimeout,()⟩] ++ stop) true

theorem turnMissed {timer : Nat} {log : Log} {ended : Bool} (positive : 0 < timer) (turn : Turn timer log ended) :
    Turn (timer+1) (⟨.connectable,false⟩::⟨.running,true⟩::log) ended := by
  cases turn with
  | idle zero => omega
  | answer k early => exact .answer (k+1) (Nat.succ_lt_succ early)
  | off k early => exact .off (k+1) (Nat.succ_lt_succ early)
  | timeout k last stop ret stops => exact .timeout (k+1) (congrArg (·+1) last) stop ret stops

theorem roundTraces {timer : Nat} {log : Log} {ended : Bool} : Traces (watchRound timer) log ended ↔
    Turn timer log ended := by
  induction timer generalizing log with
  | zero =>
    constructor
    · rintro ⟨rfl,rfl⟩
      exact .idle rfl
    · intro turn
      cases turn with
      | idle => exact ⟨rfl,rfl⟩
      | answer k early => omega
      | off k early => omega
      | timeout k last => omega
  | succ timer ih =>
    have missing : ∀ rest, 0 < timer → Traces (watchRound timer) rest ended →
        Traces (watchRound (timer+1)) (⟨.connectable,false⟩::⟨.running,true⟩::rest) ended := by
      intro rest positive traces
      refine tracesAskBind.mpr ⟨false,_,rfl,?_⟩
      rw [if_neg Bool.false_ne_true,if_neg (Nat.ne_of_gt positive)]
      exact ⟨true,rest,rfl,traces⟩
    constructor
    · intro traces
      obtain ⟨ping,rest,rfl,answered⟩ := tracesAskBind.mp traces
      split at answered
      · rename_i up
        cases show ping = true from up
        obtain ⟨rfl,rfl⟩ := answered
        exact .answer 0 (Nat.succ_pos timer)
      · rename_i down
        cases Bool.eq_false_iff.mpr down
        split at answered
        · rename_i zero
          obtain ⟨_,rest,rfl,late⟩ := tracesAskBind.mp answered
          obtain ⟨stop,ret,_,rfl,stops,rfl,rfl⟩ := tracesBind.mp late
          rw [List.append_nil]
          exact .timeout 0 (congrArg (·+1) zero.symm) stop ret stops
        · rename_i more
          obtain ⟨on,rest,rfl,looked⟩ := tracesAskBind.mp answered
          split at looked
          · rename_i running
            cases show on = true from running
            exact turnMissed (Nat.pos_of_ne_zero more) (ih.mp looked)
          · rename_i off
            cases Bool.eq_false_iff.mpr off
            obtain ⟨_,rest,rfl,rfl,rfl⟩ := tracesAskBind.mp looked
            exact .off 0 (Nat.succ_lt_succ (Nat.pos_of_ne_zero more))
    · intro turn
      cases turn with
      | idle zero => omega
      | answer k early =>
        cases k with
        | zero => exact ⟨true,_,rfl,rfl,rfl⟩
        | succ k => exact missing _ (by omega) (ih.mpr (.answer k (by omega)))
      | off k early =>
        cases k with
        | zero =>
          refine tracesAskBind.mpr ⟨false,_,rfl,?_⟩
          rw [if_neg Bool.false_ne_true,if_neg (by omega)]
          exact ⟨false,_,rfl,(),_,rfl,rfl,rfl⟩
        | succ k => exact missing _ (by omega) (ih.mpr (.off k (by omega)))
      | timeout k last stop ret stops =>
        cases k with
        | zero =>
          refine tracesAskBind.mpr ⟨false,_,rfl,?_⟩
          rw [if_neg Bool.false_ne_true,if_pos (by omega)]
          have stopped : Traces (vmShutdownWait >>= fun _ => pure true) stop true :=
            tracesBind.mpr ⟨stop,ret,[],(List.append_nil stop).symm,stops,rfl,rfl⟩
          exact tracesAskBind.mpr ⟨(),_,rfl,stopped⟩
        | succ k => exact missing _ (by omega) (ih.mpr (.timeout k (by omega) stop ret stops))

/-- The watchdog leaves turn after turn, with a second in between, and goes on for ever unless a turn ends it. Only
after `timer` pings in a row without an answer, with the guest running after each but the last of them, does it
shut the guest down, and with a timer of 0 never. -/
theorem watchdogTraces {timer turns : Nat} {log : Log} {ended : Bool} : Traces (vmWatchdog timer turns) log ended ↔
    ∃ quiet : List Log, ∃ last, (∀ turn ∈ quiet, Turn timer turn false) ∧
      log = (quiet.map (· ++ [⟨.sleep 1,()⟩])).flatten ++ last ∧
      (ended = false ∧ quiet.length = turns ∧ last = [] ∨
        ended = true ∧ quiet.length < turns ∧ Turn timer last true) := by
  induction turns generalizing log with
  | zero =>
    constructor
    · rintro ⟨rfl,rfl⟩
      exact ⟨[],[],by simp,rfl,.inl ⟨rfl,rfl,rfl⟩⟩
    · rintro ⟨quiet,last,_,rfl,⟨rfl,none,rfl⟩ | ⟨_,few,_⟩⟩
      · rw [List.eq_nil_of_length_eq_zero none]
        exact ⟨rfl,rfl⟩
      · omega
  | succ turns ih =>
    constructor
    · intro traces
      obtain ⟨first,ended',other,rfl,round,rest⟩ := tracesBind.mp traces
      have turn := roundTraces.mp round
      split at rest
      · rename_i ends
        cases show ended' = true from ends
        obtain ⟨rfl,rfl⟩ := rest
        exact ⟨[],first,by simp,by simp,.inr ⟨rfl,Nat.succ_pos turns,turn⟩⟩
      · rename_i goes
        cases Bool.eq_false_iff.mpr goes
        obtain ⟨_,_,rfl,goesOn⟩ := tracesAskBind.mp rest
        obtain ⟨quiet,last,all,rfl,ends⟩ := ih.mp goesOn
        refine ⟨first::quiet,last,?_,by simp,?_⟩
        · intro r mem
          rcases List.mem_cons.mp mem with rfl | mem
          · exact turn
          · exact all r mem
        · exact ends.imp (fun e => ⟨e.1,congrArg (·+1) e.2.1,e.2.2⟩) (fun e => ⟨e.1,Nat.succ_lt_succ e.2.1,e.2.2⟩)
    · rintro ⟨quiet,last,all,rfl,ends⟩
      cases quiet with
      | nil =>
        rcases ends with ⟨_,none,_⟩ | ⟨rfl,_,turn⟩
        · contradiction
        · exact tracesBind.mpr ⟨last,true,[],by simp,roundTraces.mpr turn,rfl,rfl⟩
      | cons first quiet =>
        have here := all first List.mem_cons_self
        refine tracesBind.mpr ⟨first,false,⟨.sleep 1,()⟩::((quiet.map (· ++ [⟨.sleep 1,()⟩])).flatten ++ last),by simp,
          roundTraces.mpr here,(),_,rfl,ih.mpr ⟨quiet,last,fun r mem => all r (List.mem_cons_of_mem _ mem),rfl,?_⟩⟩
        exact ends.imp (fun e => ⟨e.1,Nat.succ.inj e.2.1,e.2.2⟩) (fun e => ⟨e.1,Nat.lt_of_succ_lt_succ e.2.1,e.2.2⟩)

end MmRegression.Kvm
