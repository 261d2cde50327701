import Mathlib.Data.List.Perm.Basic
import MmRegression.Machine

/-! `inject_mce` of `lib/test_mce-srar.c`, which `lib/test_multiple_mappings_srar.c` has a copy of: records for the
CPUs that are online, written by the caller or by a thread for each CPU. The threads spin on `blocked` and may then
write in any order. Fields of a record that nothing reads are left out. -/
namespace MmRegression.MceInject

open Machine

structure Mce where
  status : BitVec 64
  misc : BitVec 64
  addr : BitVec 64
  mcgstatus : BitVec 64
  ip : BitVec 64
  injectFlags : BitVec 8
  cs : BitVec 8
  bank : BitVec 8
  cpu : BitVec 8
  extcpu : BitVec 32
  deriving DecidableEq, Repr

def mcgStatusRipv : BitVec 64 := 1
def mcgStatusMcip : BitVec 64 := 4
def mciStatusUc : BitVec 64 := 1 <<< 61

def mcjCtxMask : BitVec 8 := 3
def mcjCtxRandom : BitVec 8 := 0
def mcjCtxProcess : BitVec 8 := 1
def mcjNmiBroadcast : BitVec 8 := 4
def mcjException : BitVec 8 := 8
def mcjIrqBroadcast : BitVec 8 := 0x10

def mcjCtx (flags : BitVec 8) : BitVec 8 := flags &&& mcjCtxMask
def mcjCtxSet (flags ctx : BitVec 8) : BitVec 8 := (flags &&& ~~~mcjCtxMask) ||| (ctx &&& mcjCtxMask)

def Mce.random (m : Mce) : Bool := mcjCtx m.injectFlags = mcjCtxRandom
def Mce.process (m : Mce) : Mce := { m with injectFlags := mcjCtxSet m.injectFlags mcjCtxProcess }
def Mce.uncorrected (m : Mce) : Bool := m.status &&& mciStatusUc ≠ 0
def Mce.exception (m : Mce) : Bool := m.injectFlags &&& mcjException ≠ 0

/- `mce_flags`. -/
structure MceFlags where
  noBroadcast : Bool
  hold : Bool
  raiseMode : Bool
  irqBroadcast : Bool
  nmiBroadcast : Bool
  deriving DecidableEq, Repr

/- An entry of `cpu_map` and that of `cpu_mce` for it. -/
structure Cpu where
  id : BitVec 32
  held : Option Mce
  deriving DecidableEq, Repr

/- What a thread's `m` points to: the caller's record or another one. -/
inductive Target where
  | own
  | other (m : Mce)
  deriving DecidableEq, Repr

def Target.record (m : Mce) : Target → Mce
  | .own => m
  | .other r => r

/- Where `do_inject_mce` is. -/
structure State where
  todo : List Cpu
  m : Mce
  hasRandom : Bool
  blocked : Bool
  threads : List Target
  written : List Mce
  deriving DecidableEq, Repr

section
variable (f : MceFlags) (noRandom : Bool)

def otherm (m : Mce) : Mce :=
  let mcgstatus := m.mcgstatus &&& mcgStatusMcip
  ⟨m.status &&& mciStatusUc,0,0,if m.uncorrected then mcgstatus ||| mcgStatusRipv else mcgstatus,0,mcjException,0,0,0,0⟩

def chosen (m : Mce) (c : Cpu) : Option Mce :=
  if c.id = m.extcpu then some (if m.random then m.process else m)
  else match c.held with
    | some r => some r
    | none => if f.noBroadcast then none else some { otherm m with cpu := c.id.setWidth 8, extcpu := c.id }

/- The body of the loop over the CPUs. -/
def turn (s : State) (c : Cpu) : State :=
  match chosen f s.m c with
  | none => s
  | some r =>
      if r.random && !noRandom then { s with hasRandom := true, written := s.written ++ [r] }
      else
        let r := if r.random then r.process else r
        if c.id = s.m.extcpu then { s with m := r, threads := .own::s.threads }
        else { s with threads := .other r::s.threads }

def signalled (m : Mce) : Mce :=
  { m with injectFlags := m.injectFlags ||| (if f.irqBroadcast then mcjIrqBroadcast else mcjNmiBroadcast) }

inductive Act where
  | main
  | write (j : Nat)
  deriving DecidableEq, Repr

def step (s : State) : Act → Option State
  | .main => match s.todo with
      | c::rest => some { turn f noRandom s c with todo := rest }
      | [] => if s.blocked then
          some { s with m := if s.hasRandom then signalled f s.m else s.m, blocked := false }
        else none
  | .write j => if s.blocked then none else s.threads[j]?.map (fun t =>
      { s with written := s.written ++ [t.record s.m], threads := s.threads.eraseIdx j })

def start (cpus : List Cpu) (m : Mce) : State := ⟨cpus,m,false,true,[],[]⟩

structure Finished (s : State) : Prop where
  todo : s.todo = []
  blocked : s.blocked = false
  threads : s.threads = []

end

/-! ### Contexts -/

theorem processNotRandom (m : Mce) : m.process.random = false := by
  have all : ∀ flags : BitVec 8, mcjCtx (mcjCtxSet flags mcjCtxProcess) ≠ mcjCtxRandom := by decide
  exact decide_eq_false (all m.injectFlags)

theorem signalledRandom (f : MceFlags) (m : Mce) : (signalled f m).random = m.random := by
  have all : ∀ flags : BitVec 8, mcjCtx (flags ||| mcjIrqBroadcast) = mcjCtx flags ∧
      mcjCtx (flags ||| mcjNmiBroadcast) = mcjCtx flags := by decide
  have same : mcjCtx (signalled f m).injectFlags = mcjCtx m.injectFlags := by
    rw [signalled]
    split
    · exact (all m.injectFlags).1
    · exact (all m.injectFlags).2
  rw [Mce.random,same,Mce.random]

/- The caller's record is never of random context when it is written. -/
def demoted (m : Mce) : Mce := if m.random then m.process else m

theorem demotedNotRandom (m : Mce) : (demoted m).random = false := by
  unfold demoted
  split
  · exact processNotRandom m
  · rename_i not
    exact Bool.eq_false_iff.mpr not

theorem demotedTwice (m : Mce) : demoted (demoted m) = demoted m := by
  rw [demoted,demotedNotRandom]
  rfl

/-! ### The records of a call -/

section
variable (f : MceFlags) (noRandom : Bool) (m : Mce)

/- The record that is written for a CPU other than the caller's. -/
def record (c : Cpu) : Option Mce :=
  (chosen f m c).map (fun r => if r.random && noRandom then r.process else r)

def target (c : Cpu) : Option Target :=
  if c.id = m.extcpu then some .own
  else (record f noRandom m c).bind (fun r => if r.random then none else some (.other r))

/- What is written for a CPU when the caller's record has become `own`. -/
def placed (own : Mce) (c : Cpu) : Option Mce := if c.id = m.extcpu then some own else record f noRandom m c

/- The records of random context are what a broadcast interrupt is for. -/
def final (cpus : List Cpu) : Mce :=
  if (cpus.filterMap (record f noRandom m)).any Mce.random then signalled f (demoted m) else demoted m

end

section
variable {f : MceFlags} {noRandom : Bool} {m : Mce} {cpus : List Cpu} {s t : State}

theorem demotedExtcpu : (demoted m).extcpu = m.extcpu := by
  unfold demoted
  split <;> rfl

theorem chosenDemoted (c : Cpu) : chosen f (demoted m) c = chosen f m c := by
  have own : (if (demoted m).random then (demoted m).process else demoted m) = if m.random then m.process else m :=
    demotedTwice m
  have others : otherm (demoted m) = otherm m := by
    unfold demoted
    split <;> rfl
  simp only [chosen,demotedExtcpu,own,others]

theorem recordOwn {c : Cpu} (own : c.id = m.extcpu) : record f noRandom m c = some (demoted m) := by
  have chose : chosen f m c = some (demoted m) := if_pos own
  rw [record,chose,Option.map_some,demotedNotRandom]
  rfl

theorem finalNotRandom : (final f noRandom m cpus).random = false := by
  unfold final
  split
  · rw [signalledRandom,demotedNotRandom]
  · exact demotedNotRandom m

theorem placedRandom {own : Mce} (plain : own.random = false) :
    (cpus.filterMap (placed f noRandom m own)).filter Mce.random =
    (cpus.filterMap (record f noRandom m)).filter Mce.random := by
  induction cpus with
  | nil => rfl
  | cons c cpus ih =>
    by_cases is : c.id = m.extcpu
    · have here : placed f noRandom m own c = some own := if_pos is
      rw [List.filterMap_cons_some here,List.filterMap_cons_some (recordOwn is),List.filter_cons,List.filter_cons,plain,
        demotedNotRandom]
      exact ih
    · have here : placed f noRandom m own c = record f noRandom m c := if_neg is
      rw [List.filterMap_cons,List.filterMap_cons,here]
      cases record f noRandom m c with
      | none => exact ih
      | some r => simp only [List.filter_cons,ih]

theorem placedTargets {own : Mce} (plain : own.random = false) :
    (cpus.filterMap (target f noRandom m)).map (Target.record own) =
    (cpus.filterMap (placed f noRandom m own)).filter (fun r => !r.random) := by
  induction cpus with
  | nil => rfl
  | cons c cpus ih =>
    by_cases is : c.id = m.extcpu
    · have here : placed f noRandom m own c = some own := if_pos is
      have there : target f noRandom m c = some .own := if_pos is
      rw [List.filterMap_cons_some here,List.filterMap_cons_some there,List.filter_cons,plain,List.map_cons,ih]
      rfl
    · have here : placed f noRandom m own c = record f noRandom m c := if_neg is
      have there : target f noRandom m c =
        (record f noRandom m c).bind (fun r => if r.random then none else some (.other r)) := if_neg is
      rw [List.filterMap_cons,List.filterMap_cons,here,there]
      cases record f noRandom m c with
      | none => exact ih
      | some r =>
        cases plain : r.random with
        | true => simpa [plain] using ih
        | false => simpa [plain,Target.record] using ih

/- While the threads are blocked: what the loop has made of the CPUs that it has passed. -/
structure Looping (f : MceFlags) (noRandom : Bool) (m : Mce) (passed : List Cpu) (s : State) : Prop where
  blocked : s.blocked = true
  own : s.m = if passed.any (fun c => c.id = m.extcpu) then demoted m else m
  written : s.written = (passed.filterMap (record f noRandom m)).filter Mce.random
  hasRandom : s.hasRandom = (passed.filterMap (record f noRandom m)).any Mce.random
  threads : s.threads.reverse = passed.filterMap (target f noRandom m)

theorem turnOwn {c : Cpu} (own : c.id = s.m.extcpu) (chose : chosen f s.m c = some (demoted m)) :
    turn f noRandom s c = { s with m := demoted m, threads := .own::s.threads } := by
  simp only [turn,chose,demotedNotRandom,Bool.false_and,Bool.false_eq_true,if_false,if_pos own]

theorem turnOther {c : Cpu} {r : Mce} (other : c.id ≠ s.m.extcpu) (chose : chosen f s.m c = some r) :
    turn f noRandom s c = if r.random && !noRandom then { s with hasRandom := true, written := s.written ++ [r] }
      else { s with threads := .other (if r.random && noRandom then r.process else r)::s.threads } := by
  simp only [turn,chose,if_neg other]
  cases r.random <;> cases noRandom <;> rfl

theorem turnLooping {passed : List Cpu} (c : Cpu) (rest : List Cpu) (loop : Looping f noRandom m passed s) :
    Looping f noRandom m (passed ++ [c]) { turn f noRandom s c with todo := rest } := by
  have chose : chosen f s.m c = chosen f m c := by
    rw [loop.own]
    split
    · exact chosenDemoted c
    · rfl
  have same : s.m.extcpu = m.extcpu := by
    rw [loop.own]
    split
    · exact demotedExtcpu
    · rfl
  by_cases own : c.id = m.extcpu
  · have here : record f noRandom m c = some (demoted m) := recordOwn own
    have there : target f noRandom m c = some .own := if_pos own
    rw [turnOwn (own.trans same.symm) (chose.trans (if_pos own))]
    refine ⟨loop.blocked,?_,?_,?_,?_⟩
    · simp [own]
    · simpa [here,demotedNotRandom] using loop.written
    · simpa [here,demotedNotRandom] using loop.hasRandom
    · simpa [there] using loop.threads
  · have there : target f noRandom m c =
      (record f noRandom m c).bind (fun r => if r.random then none else some (.other r)) := if_neg own
    cases is : chosen f m c with
    | none =>
      have here : record f noRandom m c = none := by rw [record,is]; rfl
      rw [here] at there
      have none_ : turn f noRandom s c = s := by rw [turn,chose.trans is]
      rw [none_]
      refine ⟨loop.blocked,?_,?_,?_,?_⟩
      · simpa [own] using loop.own
      · simpa [here] using loop.written
      · simpa [here] using loop.hasRandom
      · simpa [there] using loop.threads
    | some r =>
      have here : record f noRandom m c = some (if r.random && noRandom then r.process else r) := by
        rw [record,is]
        rfl
      rw [turnOther (fun own' => own (own'.trans same)) (chose.trans is)]
      split
      · rename_i first
        obtain ⟨random,broadcasts⟩ := Bool.and_eq_true_iff.mp first
        have off : noRandom = false := by simpa using broadcasts
        have kept : record f noRandom m c = some r := by
          rw [here,off]
          simp
        rw [kept,Option.bind_some,if_pos random] at there
        refine ⟨loop.blocked,?_,?_,?_,?_⟩
        · simpa [own] using loop.own
        · simp [kept,random,loop.written]
        · simp [kept,random]
        · simpa [there] using loop.threads
      · rename_i later
        have plain : (if r.random && noRandom then r.process else r).random = false := by
          cases on : r.random with
          | false => simpa using on
          | true =>
            have off : noRandom = true := by simpa [on] using later
            rw [off]
            exact processNotRandom r
        generalize (if r.random && noRandom then r.process else r) = queued at here plain ⊢
        rw [here,Option.bind_some,plain] at there
        refine ⟨loop.blocked,?_,?_,?_,?_⟩
        · simpa [own] using loop.own
        · simpa [here,plain] using loop.written
        · simpa [here,plain] using loop.hasRandom
        · simp [there,loop.threads]

/- Once the threads may write: what they have written so far and what they will write. -/
structure Writing (f : MceFlags) (noRandom : Bool) (m : Mce) (cpus : List Cpu) (s : State) : Prop where
  todo : s.todo = []
  blocked : s.blocked = false
  own : s.m = final f noRandom m cpus
  written : ∃ late, s.written = (cpus.filterMap (record f noRandom m)).filter Mce.random ++ late ∧
    (late ++ s.threads.map (Target.record s.m)).Perm ((cpus.filterMap (target f noRandom m)).map (Target.record s.m))

def Inv (f : MceFlags) (noRandom : Bool) (m : Mce) (cpus : List Cpu) (s : State) : Prop :=
  (∃ passed, cpus = passed ++ s.todo ∧ Looping f noRandom m passed s) ∨ Writing f noRandom m cpus s

theorem releaseWriting (online : cpus.any (fun c => c.id = m.extcpu) = true) (loop : Looping f noRandom m cpus s)
    (none : s.todo = []) : Writing f noRandom m cpus
      { s with m := if s.hasRandom then signalled f s.m else s.m, blocked := false } := by
  have own : (if s.hasRandom then signalled f s.m else s.m) = final f noRandom m cpus := by
    rw [loop.own,if_pos online,loop.hasRandom,final]
  refine ⟨none,rfl,own,[],?_,?_⟩
  · exact loop.written.trans (List.append_nil _).symm
  · rw [List.nil_append,← loop.threads]
    exact (List.reverse_perm _).symm.map _

theorem writeWriting {j : Nat} {t : Target} (found : s.threads[j]? = some t) (writing : Writing f noRandom m cpus s) :
    Writing f noRandom m cpus
      { s with written := s.written ++ [t.record s.m], threads := s.threads.eraseIdx j } := by
  obtain ⟨late,written,perm⟩ := writing.written
  refine ⟨writing.todo,writing.blocked,writing.own,late ++ [t.record s.m],?_,?_⟩
  · rw [written,List.append_assoc]
  · obtain ⟨bound,rfl⟩ := List.getElem?_eq_some_iff.mp found
    have gone : (s.threads[j]::s.threads.eraseIdx j).Perm s.threads := List.getElem_cons_eraseIdx_perm bound
    refine .trans ?_ perm
    rw [List.append_assoc]
    exact (gone.map (Target.record s.m)).append_left late

theorem stepInv {a : Act} (online : cpus.any (fun c => c.id = m.extcpu) = true) (inv : Inv f noRandom m cpus s)
    (moved : step f noRandom s a = some t) : Inv f noRandom m cpus t := by
  cases a with
  | main =>
    rw [step] at moved
    split at moved
    · rename_i c rest todo
      cases Option.some.inj moved
      rcases inv with ⟨passed,parts,loop⟩ | writing
      · refine .inl ⟨passed ++ [c],?_,turnLooping c rest loop⟩
        rw [parts,todo,List.append_assoc]
        rfl
      · rw [writing.todo] at todo
        contradiction
    · rename_i none
      split at moved
      · rename_i blocked
        cases Option.some.inj moved
        rcases inv with ⟨passed,parts,loop⟩ | writing
        · rw [none,List.append_nil] at parts
          exact .inr (releaseWriting online (parts ▸ loop) none)
        · rw [writing.blocked] at blocked
          contradiction
      · contradiction
  | write j =>
    rw [step] at moved
    split at moved
    · contradiction
    · rename_i released
      obtain ⟨target,found,rfl⟩ := Option.map_eq_some_iff.mp moved
      rcases inv with ⟨passed,_,loop⟩ | writing
      · exact absurd loop.blocked released
      · exact .inr (writeWriting found writing)

/- In whatever order the threads write. -/
theorem finishedWritten {acts : List Act} (online : cpus.any (fun c => c.id = m.extcpu) = true)
    (ran : run (step f noRandom) (start cpus m) acts = some t) (finished : Finished t) :
    t.m = final f noRandom m cpus ∧
      ∃ late, t.written = (cpus.filterMap (placed f noRandom m t.m)).filter Mce.random ++ late ∧
        late.Perm ((cpus.filterMap (placed f noRandom m t.m)).filter (fun r => !r.random)) := by
  have first : Inv f noRandom m cpus (start cpus m) := .inl ⟨[],rfl,rfl,rfl,rfl,rfl,rfl⟩
  rcases runInvariant (stepInv online) first ran with ⟨_,_,loop⟩ | writing
  · have blocked := loop.blocked
    rw [finished.blocked] at blocked
    contradiction
  · obtain ⟨late,written,perm⟩ := writing.written
    have plain : t.m.random = false := by
      rw [writing.own]
      exact finalNotRandom
    rw [placedRandom plain,← placedTargets plain]
    rw [finished.threads,List.map_nil,List.append_nil] at perm
    exact ⟨writing.own,late,written,perm⟩

theorem stuckFinished (stuck : ∀ a, step f noRandom t a = none) : Finished t := by
  have todo : t.todo = [] := by
    cases is : t.todo with
    | nil => rfl
    | cons c rest =>
      have moved := stuck .main
      simp [step,is] at moved
  have blocked : t.blocked = false := by
    have moved := stuck .main
    simpa [step,todo] using moved
  refine ⟨todo,blocked,List.eq_nil_iff_forall_not_mem.mpr fun target mem => ?_⟩
  have moved := stuck (.write 0)
  rw [step,blocked,if_neg Bool.false_ne_true,Option.map_eq_none_iff,List.getElem?_eq_none_iff] at moved
  have some_ := List.length_pos_of_mem mem
  omega

end

/-- However the threads interleave, a call that has come to its end has written one record for each CPU that gets
one. The records of random context come first, in the order of the CPUs; the caller's record has the flag for a
broadcast exactly when there was one of them. -/
theorem injectedOnce {f : MceFlags} {noRandom : Bool} {m : Mce} {cpus : List Cpu} {acts : List Act} {t : State}
    (online : cpus.any (fun c => c.id = m.extcpu) = true) (ran : run (step f noRandom) (start cpus m) acts = some t)
    (stuck : ∀ a, step f noRandom t a = none) :
    t.m = final f noRandom m cpus ∧
      ∃ late, t.written = (cpus.filterMap (placed f noRandom m t.m)).filter Mce.random ++ late ∧
        late.Perm ((cpus.filterMap (placed f noRandom m t.m)).filter (fun r => !r.random)) :=
  finishedWritten online ran (stuckFinished stuck)

/- The record of `main`, with the flag that `inject_mce` sets. -/
def ewbNoripv : Mce := ⟨0xbd0000000000017a,0x8c,0,4,0,mcjException,0,2,0,0⟩

def noFlags : MceFlags := ⟨false,false,false,false,false⟩

/- A record for the second CPU is held, the third gets a broadcast record. -/
def heldOne : Mce := { ewbNoripv with injectFlags := mcjCtxProcess, extcpu := 1 }
def threeCpus : List Cpu := [⟨0,none⟩,⟨1,some heldOne⟩,⟨2,none⟩]

def heldFirst : List Act := [.main,.main,.main,.main,.write 0,.write 0]

def heldEnd : State :=
  let own := { ewbNoripv with injectFlags := mcjException ||| mcjNmiBroadcast ||| mcjCtxProcess }
  ⟨[],own,true,false,[],[⟨mciStatusUc,0,0,mcgStatusMcip ||| mcgStatusRipv,0,mcjException,0,0,2,2⟩,heldOne,own]⟩

theorem injectedOnceThree : heldEnd.m = final noFlags false ewbNoripv threeCpus ∧
    ∃ late, heldEnd.written = (threeCpus.filterMap (placed noFlags false ewbNoripv heldEnd.m)).filter Mce.random ++
      late ∧
      late.Perm ((threeCpus.filterMap (placed noFlags false ewbNoripv heldEnd.m)).filter (fun r => !r.random)) := by
  have ran : run (step noFlags false) (start threeCpus ewbNoripv) heldFirst = some heldEnd := by decide
  exact injectedOnce rfl ran (fun a => by cases a <;> rfl)

/-! ### Calls of `inject_mce` -/

inductive Outcome where
  | assigned (f : MceFlags)
  | kept (m : Mce)
  | injected (m : Mce) (written : List Mce)
  deriving DecidableEq, Repr

structure Session where
  cpus : List Cpu
  flags : MceFlags
  log : List Outcome
  deriving DecidableEq, Repr

/- The caller sets `mce_flags`, or submits a record while the threads go in some order. -/
inductive Call where
  | assign (f : MceFlags)
  | inject (m : Mce) (schedule : List Act)
  deriving DecidableEq, Repr

def prepare (f : MceFlags) (m : Mce) : Mce :=
  if f.raiseMode then m
  else { m with injectFlags :=
    if m.uncorrected then m.injectFlags ||| mcjException else m.injectFlags &&& ~~~mcjException }

/- `cpu_id_to_index` finds the first entry. -/
def holdAt (m : Mce) : List Cpu → List Cpu
  | [] => []
  | c::cpus => if c.id = m.extcpu then { c with held := some m }::cpus else c::holdAt m cpus

def quieted (f : MceFlags) (m : Mce) : MceFlags :=
  if m.exception then f else { f with noBroadcast := true, irqBroadcast := false, nmiBroadcast := false }

/- None where `validate_mce` ends the program, and for a schedule that does not end the call. -/
def injectMce (noRandom : Bool) (maxBank : Nat) (s : Session) (m : Mce) (schedule : List Act) : Option Session :=
  if s.cpus.any (fun c => c.id = m.extcpu) && decide (m.bank.toNat ≤ maxBank) then
    let m := prepare s.flags m
    if s.flags.hold then some { s with cpus := holdAt m s.cpus, log := s.log ++ [.kept m] }
    else
      let flags := quieted s.flags m
      (run (step flags noRandom) (start s.cpus m) schedule).bind (fun t =>
        if t.todo.isEmpty && !t.blocked && t.threads.isEmpty then
          some ⟨s.cpus.map (fun c => { c with held := none }),flags,s.log ++ [.injected m t.written]⟩
        else none)
  else none

def call (noRandom : Bool) (maxBank : Nat) (s : Session) : Call → Option Session
  | .assign f => some { s with flags := f, log := s.log ++ [.assigned f] }
  | .inject m schedule => injectMce noRandom maxBank s m schedule

/- The records that were held since the last injection, and from them the one for a CPU. -/
def pending (log : List Outcome) : List Mce := log.foldl (fun held o => match o with
  | .kept m => held ++ [m]
  | .injected .. => []
  | .assigned _ => held) []

def lastHeld (log : List Outcome) (id : BitVec 32) : Option Mce := (pending log).reverse.find? (fun m => m.extcpu = id)

/- What the caller has set last, and the records that were injected since. -/
def sinceAssigned (f : MceFlags) (log : List Outcome) : MceFlags × List Mce := log.foldl (fun since o => match o with
  | .assigned f => (f,[])
  | .injected m _ => (since.1,since.2 ++ [m])
  | .kept _ => since) (f,[])

/- One record that is no exception ends the broadcasts until the caller sets the flags again. -/
def flagsFor (f : MceFlags) (injected : List Mce) : MceFlags :=
  if injected.all Mce.exception then f else { f with noBroadcast := true, irqBroadcast := false, nmiBroadcast := false }

def cpusFor (ids : List (BitVec 32)) (log : List Outcome) : List Cpu := ids.map (fun id => ⟨id,lastHeld log id⟩)

/- What an injection has written, by the calls before it. -/
def Wrote (noRandom : Bool) (ids : List (BitVec 32)) (f₀ : MceFlags) (log : List Outcome) (m : Mce)
    (written : List Mce) : Prop :=
  let f := flagsFor (sinceAssigned f₀ log).1 ((sinceAssigned f₀ log).2 ++ [m])
  let cpus := cpusFor ids log
  let records := cpus.filterMap (placed f noRandom m (final f noRandom m cpus))
  ∃ late, written = records.filter Mce.random ++ late ∧ late.Perm (records.filter (fun r => !r.random))

structure SessionInv (noRandom : Bool) (ids : List (BitVec 32)) (f₀ : MceFlags) (s : Session) : Prop where
  cpus : s.cpus = cpusFor ids s.log
  flags : s.flags = flagsFor (sinceAssigned f₀ s.log).1 (sinceAssigned f₀ s.log).2
  wrote : ∀ pre m written post, s.log = pre ++ .injected m written::post → Wrote noRandom ids f₀ pre m written

section
variable {noRandom : Bool} {maxBank : Nat} {ids : List (BitVec 32)} {f₀ : MceFlags} {s t : Session}

theorem holdAtFor (nodup : ids.Nodup) (log : List Outcome) (m : Mce) :
    holdAt m (cpusFor ids log) = cpusFor ids (log ++ [.kept m]) := by
  have now : ∀ id, lastHeld (log ++ [.kept m]) id = if m.extcpu = id then some m else lastHeld log id := by
    intro id
    rw [lastHeld,pending,List.foldl_append]
    simp only [List.foldl_cons,List.foldl_nil,List.reverse_append,List.reverse_singleton,List.singleton_append,
      List.find?_cons]
    split <;> rename_i same
    · rw [if_pos (of_decide_eq_true same)]
    · rw [if_neg (of_decide_eq_false same)]
      rfl
  induction ids with
  | nil => rfl
  | cons id ids ih =>
    obtain ⟨new,nodup⟩ := List.nodup_cons.mp nodup
    rw [cpusFor,List.map_cons,holdAt]
    split
    · rename_i same
      rw [cpusFor,List.map_cons,now,if_pos (Eq.symm same)]
      refine congrArg _ (List.map_congr_left fun other mem => ?_)
      rw [now,if_neg]
      intro again
      have equal : id = other := same.trans again
      exact new (equal ▸ mem)
    · rename_i differ
      rw [cpusFor,List.map_cons,now,if_neg (Ne.symm differ)]
      exact congrArg _ (ih nodup)

theorem pendingInjected (log : List Outcome) (m : Mce) (written : List Mce) (id : BitVec 32) :
    lastHeld (log ++ [.injected m written]) id = none := by
  rw [lastHeld,pending,List.foldl_append]
  rfl

theorem clearFor (log : List Outcome) (m : Mce) (written : List Mce) :
    (cpusFor ids log).map (fun c => { c with held := none }) = cpusFor ids (log ++ [.injected m written]) := by
  rw [cpusFor,cpusFor,List.map_map]
  refine List.map_congr_left fun id _ => ?_
  rw [pendingInjected]
  rfl

theorem quietedFor (f : MceFlags) (injected : List Mce) (m : Mce) :
    quieted (flagsFor f injected) m = flagsFor f (injected ++ [m]) := by
  simp only [quieted,flagsFor,List.all_append,List.all_cons,List.all_nil,Bool.and_true]
  cases m.exception <;> cases injected.all Mce.exception <;> rfl

theorem prepareExtcpu (f : MceFlags) (m : Mce) : (prepare f m).extcpu = m.extcpu := by
  unfold prepare
  split <;> rfl

theorem wroteSnoc {log : List Outcome} {o : Outcome}
    (now : ∀ m written, o = .injected m written → Wrote noRandom ids f₀ log m written)
    (wrote : ∀ pre m written post, log = pre ++ .injected m written::post → Wrote noRandom ids f₀ pre m written) :
    ∀ pre m written post, log ++ [o] = pre ++ .injected m written::post → Wrote noRandom ids f₀ pre m written := by
  intro pre m written post parts
  rcases List.eq_nil_or_concat post with rfl | ⟨front,last,rfl⟩
  · obtain ⟨rfl,same⟩ := List.append_inj' parts rfl
    exact now m written (List.singleton_inj.mp same)
  · rw [List.concat_eq_append,← List.cons_append,← List.append_assoc] at parts
    obtain ⟨parts,_⟩ := List.append_inj' parts rfl
    exact wrote pre m written front parts

theorem injectSession (nodup : ids.Nodup) {m : Mce} {schedule : List Act} (inv : SessionInv noRandom ids f₀ s)
    (moved : injectMce noRandom maxBank s m schedule = some t) : SessionInv noRandom ids f₀ t := by
  rw [injectMce] at moved
  split at moved
  · rename_i valid
    have online : s.cpus.any (fun c => c.id = (prepare s.flags m).extcpu) = true := by
      rw [prepareExtcpu]
      exact (Bool.and_eq_true_iff.mp valid).1
    generalize prepare s.flags m = m at moved online
    simp only at moved
    split at moved
    · cases Option.some.inj moved
      refine ⟨?_,?_,wroteSnoc (by simp) inv.wrote⟩
      · rw [inv.cpus,holdAtFor nodup]
      · rw [sinceAssigned,List.foldl_append]
        exact inv.flags
    · obtain ⟨u,ran,ended⟩ := Option.bind_eq_some_iff.mp moved
      split at ended
      · rename_i last
        cases Option.some.inj ended
        have finished : Finished u := by
          simp only [Bool.and_eq_true,List.isEmpty_iff,Bool.not_eq_true'] at last
          exact ⟨last.1.1,last.1.2,last.2⟩
        have flags : quieted s.flags m = flagsFor (sinceAssigned f₀ s.log).1 ((sinceAssigned f₀ s.log).2 ++ [m]) := by
          rw [inv.flags,quietedFor]
        refine ⟨?_,?_,wroteSnoc (fun m' written same => ?_) inv.wrote⟩
        · rw [inv.cpus,clearFor]
        · rw [flags,sinceAssigned,sinceAssigned,List.foldl_append]
          rfl
        · cases same
          obtain ⟨own,late,written,perm⟩ := finishedWritten online ran finished
          rw [own,flags,inv.cpus] at written perm
          exact ⟨late,written,perm⟩
      · contradiction
  · contradiction

theorem callSession (nodup : ids.Nodup) {c : Call} (inv : SessionInv noRandom ids f₀ s)
    (moved : call noRandom maxBank s c = some t) : SessionInv noRandom ids f₀ t := by
  cases c with
  | assign f =>
    cases Option.some.inj moved
    refine ⟨?_,?_,wroteSnoc (by simp) inv.wrote⟩
    · rw [inv.cpus,cpusFor,cpusFor]
      refine List.map_congr_left fun id _ => ?_
      rw [lastHeld,lastHeld,pending,pending,List.foldl_append]
      rfl
    · rw [sinceAssigned,List.foldl_append]
      rfl
  | inject m schedule => exact injectSession nodup inv moved

end

/-- Over any calls and any orders of the threads: each injection writes, for a CPU other than its own, the record
that was held for it last since the injection before, or else a broadcast record, unless one that was no exception
was injected after the flags were set. -/
theorem sessionWrote {noRandom : Bool} {maxBank : Nat} {ids : List (BitVec 32)} (nodup : ids.Nodup) (f₀ : MceFlags)
    {calls : List Call} {t : Session}
    (ran : run (call noRandom maxBank) ⟨ids.map (fun id => ⟨id,none⟩),f₀,[]⟩ calls = some t) :
    t.cpus = cpusFor ids t.log ∧
      ∀ pre m written post, t.log = pre ++ .injected m written::post → Wrote noRandom ids f₀ pre m written := by
  have first : SessionInv noRandom ids f₀ ⟨ids.map (fun id => ⟨id,none⟩),f₀,[]⟩ := ⟨rfl,rfl,by simp⟩
  have last := runInvariant (callSession nodup) first ran
  exact ⟨last.cpus,last.wrote⟩

def holdThenInject : List Call :=
  [.assign { noFlags with hold := true },.inject { heldOne with injectFlags := 1 } [],.assign noFlags,
    .inject ewbNoripv heldFirst]

def heldSession : Session :=
  ⟨[0,1,2].map (fun id => ⟨id,none⟩),noFlags,
    [.assigned { noFlags with hold := true },.kept { heldOne with injectFlags := 9 },.assigned noFlags,
      .injected ewbNoripv (heldEnd.written.map
        (fun r => if r = heldOne then { heldOne with injectFlags := 9 } else r))]⟩

theorem sessionWroteHeld : heldSession.cpus = cpusFor [0,1,2] heldSession.log ∧
    ∀ pre m written post, heldSession.log = pre ++ .injected m written::post →
      Wrote false [0,1,2] noFlags pre m written := by
  have ran : run (call false 8) ⟨[0,1,2].map (fun id => ⟨id,none⟩),noFlags,[]⟩ holdThenInject = some heldSession := by
    decide
  exact sessionWrote (by decide) noFlags ran

end MmRegression.MceInject
