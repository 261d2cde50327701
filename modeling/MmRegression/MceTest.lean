import MmRegression.ErrorInjection
import MmRegression.Interaction
import MmRegression.ReturnCode

/-! A test under `control_mce_test` of `lib/setup_mce_test.sh`: the loop of `__do_test` with the controller in it.
The process of the test may write any lines and may be gone at any moment. All questions about a process are
about this one. -/
namespace MmRegression.MceTest

open Interaction

inductive Code where
  | setOvercommit
  | inject
  | killedInInjection
  | access
  | accessSucceeded
  | killedInAccess
  | exit
  | targetNotFound
  | invalidInjectType
  | killed
  | timeout
  deriving DecidableEq, Repr

def Code.name : Code → String
  | .setOvercommit => "SET_OVERCOMMIT"
  | .inject => "INJECT"
  | .killedInInjection => "KILLED_IN_INJECTION"
  | .access => "ACCESS"
  | .accessSucceeded => "ACCESS_SUCCEEDED"
  | .killedInAccess => "KILLED_IN_ACCESS"
  | .exit => "EXIT"
  | .targetNotFound => "TARGET_NOT_FOUND"
  | .invalidInjectType => "INVALID_INJECT_TYPE"
  | .killed => "KILLED"
  | .timeout => "TIMEOUT"

theorem codeWord (c : Code) : c.name.toList ≠ [] ∧ c.name.toList.all isWord = true := by
  cases c <;> decide +kernel

def Code.token (c : Code) : CodeToken := codeToken c.name.toList (codeWord c)

/- What the controller waits for. -/
inductive Point where
  | afterStart
  | afterAccess
  | beforeMunmap
  | beforeExit
  | waitingForInjection
  | afterMadviseInjection
  | writingAffectedRegion
  | multiBackendBusyloop
  deriving DecidableEq, Repr

def Point.line : Point → String
  | .afterStart => "after_start"
  | .afterAccess => "after_access"
  | .beforeMunmap => "before_munmap"
  | .beforeExit => "before_exit"
  | .waitingForInjection => "waiting for injection from outside"
  | .afterMadviseInjection => "after madvise injection"
  | .writingAffectedRegion => "writing affected region"
  | .multiBackendBusyloop => "do_multi_backend_busyloop"

def points : List Point := [.afterStart,.afterAccess,.beforeMunmap,.beforeExit,.waitingForInjection,
  .afterMadviseInjection,.writingAffectedRegion,.multiBackendBusyloop]

def pointOf (line : Text) : Option Point := points.find? (fun p => p.line.toList = line)

structure Settings where
  hugetlbOvercommit : Bool
  mceinject : Text
  errorType : Text
  errorOffset : Text
  multiinjIterations : Bool
  targetPageflag : Text
  injectType : Text
  differentPfns : Bool
  nrThread : Nat
  deriving DecidableEq, Repr

def Settings.errorVfn (s : Settings) : Nat := outsidePage s.errorOffset

inductive Message where
  | passed (line : Text)
  | injection (pid : Nat)
  | doMultiInject
  | multiInjection
  | lookup (pid : Nat)
  | noPage
  | invalidType
  | ready
  | go
  | command (cmd : Text)
  | timeOut
  deriving DecidableEq, Repr

def Message.text (s : Settings) : Message → Text
  | .passed line => "=> ".toList ++ line
  | .injection pid => s.mceinject ++ " -p ".toList ++ digits pid ++ " -e ".toList ++ s.errorType ++ " -a ".toList ++
      digits s.errorVfn
  | .doMultiInject => "do_multi_inject".toList
  | .multiInjection => "multi injection for target page ".toList ++ s.targetPageflag
  | .lookup pid => "page-types -p ".toList ++ digits pid ++ " -b ".toList ++ s.targetPageflag ++
      " -rNl -a 0x700000000,".toList
  | .noPage => "No page with ".toList ++ s.targetPageflag ++ " found".toList
  | .invalidType => "Invalid INJECT_TYPE".toList
  | .ready => "ready ... ".toList
  | .go => "go!".toList
  | .command cmd => cmd
  | .timeOut => "time out, abort test".toList

/- `prepare` goes as far as the pools of huge pages and `prepareRest` from there, each with the status of the function
when it fails there. `start` is `eval "( $cmd ) &"` and answers with the process, `alive` is `check_process_status`,
`read` runs for `PIPETIMEOUT` and `signal` is SIGUSR1. `stats` takes the numbered set of statistics. A `background`
injection waits until the file `sync` is gone. -/
inductive Ask where
  | echo (m : Message)
  | initReturnCode
  | prepare
  | prepareRest
  | start
  | alive
  | read
  | signal
  | code (c : Code)
  | stats (tag : Nat)
  | inject (errorType : Text) (vfn : Nat)
  | sleep (seconds : Nat)
  | target
  | touchSync
  | removeSync
  | background (errorType : Text) (pfn : Nat)
  | killAllSubprograms
  | cleanup
  | check
  deriving DecidableEq, Repr

abbrev Answer : Ask → Type
  | .prepare => Nat
  | .prepareRest => Nat
  | .start => Nat
  | .alive => Bool
  | .read => Option Text
  | .target => Option Nat
  | _ => Unit

abbrev Script := Prog Answer
abbrev Log := Record Answer

def query (q : Ask) : Script (Answer q) := ask q

def Settings.typeOf (s : Settings) (i : Nat) : Option Text :=
  if s.injectType = "mce-srao".toList ∨ s.injectType = "hard-offline".toList ∨ s.injectType = "soft-offline".toList then
    some s.injectType
  else if s.injectType = "hard-soft".toList then
    some (if i % 2 = 0 then "hard-offline".toList else "soft-offline".toList)
  else none

def Settings.pfnOf (s : Settings) (target i : Nat) : Nat := if s.differentPfns then target+i else target

/- `for i in $(seq $NR_THREAD)`; whether all have been started. -/
def startThreads (s : Settings) (target : Nat) : List Nat → Script Bool
  | [] => return true
  | i::rest => do
      match s.typeOf i with
      | none => do
          query (.echo .invalidType)
          query (.code .invalidInjectType)
          return false
      | some type => do
          query (.background type (s.pfnOf target i))
          startThreads s target rest

def doMultiInject (s : Settings) (pid : Nat) : Script Unit := do
  query (.echo .multiInjection)
  query (.echo (.lookup pid))
  let target : Option Nat ← query .target
  match target with
  | none => do
      query (.echo .noPage)
      query (.code .targetNotFound)
  | some pfn => do
      query .touchSync
      let started ← startThreads s pfn (List.range' 1 s.nrThread)
      if started then
        query (.echo .ready)
        query (.sleep 1)
        query (.echo .go)
        query .removeSync
        query (.sleep 1)
      else return ()

/- What follows an injection. -/
def injected : Script Nat := do
  let on : Bool ← query .alive
  if on then
    query (.code .inject)
    query .signal
    return 1
  else
    query (.code .killedInInjection)
    return 0

def controlMceTest (s : Settings) (pid : Nat) (line : Text) : Script Nat := do
  query (.echo (.passed line))
  match pointOf line with
  | some .afterStart => do
      query .signal
      return 1
  | some .afterAccess => do
      query (.stats 1)
      query .signal
      return 1
  | some .beforeMunmap => do
      query (.stats 2)
      query .signal
      return 1
  | some .beforeExit => do
      query .signal
      query (.code .exit)
      return 0
  | some .waitingForInjection => do
      query (.echo (.injection pid))
      query (.inject s.errorType s.errorVfn)
      injected
  | some .afterMadviseInjection => injected
  | some .writingAffectedRegion => do
      query (.code .access)
      query .signal
      query (.sleep 1)
      let on : Bool ← query .alive
      if on then
        query (.code .accessSucceeded)
        return 1
      else
        query (.code .killedInAccess)
        return 0
  | some .multiBackendBusyloop => do
      if s.multiinjIterations then
        query (.echo .doMultiInject)
        doMultiInject s pid
      query (.code .exit)
      query .signal
      return 0
  | none => return 1

/- One turn of the loop; whether it is the last. -/
def turn (s : Settings) (pid : Nat) : Script Bool := do
  let on : Bool ← query .alive
  if on then
    let message : Option Text ← query .read
    match message with
    | some line => do
        let ret ← controlMceTest s pid line
        return ret == 0
    | none => do
        let still : Bool ← query .alive
        if still then
          query (.echo .timeOut)
          query (.code .timeout)
          return true
        else
          query (.code .killed)
          return true
  else
    query (.code .killed)
    return true

/- The first `turns` turns of `while true`; whether one of them was the last. -/
def mainLoop (s : Settings) (pid : Nat) : Nat → Script Bool
  | 0 => return false
  | turns+1 => do
      let ended ← turn s pid
      if ended then return true else mainLoop s pid turns

def prepare (s : Settings) : Script Nat := do
  let first : Nat ← query .prepare
  if first = 0 then
    if s.hugetlbOvercommit then query (.code .setOvercommit)
    query .prepareRest
  else return first

/- The status, when the loop is over in `turns` turns. -/
def doTest (s : Settings) (reboot : Bool) (cmd : Text) (turns : Nat) : Script (Option Nat) := do
  if !reboot then query .initReturnCode
  let prepared ← prepare s
  if prepared = 0 then
    query (.echo (.command cmd))
    let pid : Nat ← query .start
    let ended ← mainLoop s pid turns
    if ended then
      query .killAllSubprograms
      query .cleanup
      query .check
      return some 0
    else return none
  else
    query .cleanup
    return some 1

/-! ### What a record shows -/

def codeOf : (q : Ask) × Answer q → Option Code
  | ⟨.code c,_⟩ => some c
  | _ => none

def lineOf : (q : Ask) × Answer q → Option Text
  | ⟨.read,line⟩ => line
  | _ => none

def startOf : (q : Ask) × Answer q → Option (Text × Nat)
  | ⟨.background type pfn,_⟩ => some (type,pfn)
  | _ => none

def codes (log : Log) : List Code := log.filterMap codeOf
def linesRead (log : Log) : List Text := log.filterMap lineOf
def signals (log : Log) : Nat := log.countP (fun e => e.1 = .signal)
def starts (log : Log) : List (Text × Nat) := log.filterMap startOf

def seenDead : (q : Ask) × Answer q := ⟨.alive,false⟩

@[simp] theorem codesAppend (one other : Log) : codes (one ++ other) = codes one ++ codes other := List.filterMap_append

@[simp] theorem linesAppend (one other : Log) : linesRead (one ++ other) = linesRead one ++ linesRead other :=
  List.filterMap_append

@[simp] theorem signalsAppend (one other : Log) : signals (one ++ other) = signals one+signals other :=
  List.countP_append

@[simp] theorem startsAppend (one other : Log) : starts (one ++ other) = starts one ++ starts other :=
  List.filterMap_append

@[simp] theorem codesOne (e : (q : Ask) × Answer q) : codes [e] = (codeOf e).toList := by
  cases found : codeOf e <;> simp [codes,found]

@[simp] theorem linesOne (e : (q : Ask) × Answer q) : linesRead [e] = (lineOf e).toList := by
  cases found : lineOf e <;> simp [linesRead,found]

/- What a line that does not end the run leaves recorded. -/
inductive Recorded : Text → List Code → Prop where
  | injected {line : Text} (point : pointOf line = some .waitingForInjection ∨ pointOf line = some .afterMadviseInjection) :
      Recorded line [.inject]
  | accessed {line : Text} (point : pointOf line = some .writingAffectedRegion) :
      Recorded line [.access,.accessSucceeded]
  | none {line : Text} (point : pointOf line = none ∨ pointOf line = some .afterStart ∨
      pointOf line = some .afterAccess ∨ pointOf line = some .beforeMunmap) : Recorded line []

/- The line that ends the run if one does, what is recorded there, and whether the process was seen dead. -/
inductive Ending : Option Text → List Code → Bool → Prop where
  | killed : Ending none [.killed] true
  | timeout : Ending none [.timeout] false
  | exit {line : Text} (point : pointOf line = some .beforeExit ∨ pointOf line = some .multiBackendBusyloop) :
      Ending (some line) [.exit] false
  | targetNotFound {line : Text} (point : pointOf line = some .multiBackendBusyloop) :
      Ending (some line) [.targetNotFound,.exit] false
  | invalidInjectType {line : Text} (point : pointOf line = some .multiBackendBusyloop) :
      Ending (some line) [.invalidInjectType,.exit] false
  | killedInInjection {line : Text}
      (point : pointOf line = some .waitingForInjection ∨ pointOf line = some .afterMadviseInjection) :
      Ending (some line) [.killedInInjection] true
  | killedInAccess {line : Text} (point : pointOf line = some .writingAffectedRegion) :
      Ending (some line) [.access,.killedInAccess] true

/- The process is not asked for again once it was seen dead, and no signal comes without a line of its own. -/
def Allowed (pre : Log) (e : (q : Ask) × Answer q) : Prop :=
  (seenDead ∈ pre → ∃ c, e.1 = .code c) ∧ (e.1 = .signal → signals pre < (linesRead pre).length)

/- Before the end: the line that is served, if one is, with what it has left recorded so far, and whether its signal
is still to come. -/
structure During (pre : List Code) (last : Option Text) (now : List Code) (open_ : Bool) (log : Log) : Prop where
  each : Each Allowed log
  alive : seenDead ∉ log
  few : signals log+(if open_ then 1 else 0) ≤ (linesRead log).length
  told : ∃ front rounds, linesRead log = front ++ last.toList ∧ List.Forall₂ Recorded front rounds ∧
    codes log = pre ++ rounds.flatten ++ now

structure Over (pre : List Code) (log : Log) : Prop where
  each : Each Allowed log
  few : signals log ≤ (linesRead log).length
  told : ∃ front last rounds ending dead, linesRead log = front ++ last.toList ∧ List.Forall₂ Recorded front rounds ∧
    Ending last ending dead ∧ codes log = pre ++ rounds.flatten ++ ending ∧ (seenDead ∈ log ↔ dead = true)

/- Questions that leave codes apart, and neither look at the process nor read nor signal. -/
def Ask.plain : Ask → Bool
  | .alive => false
  | .read => false
  | .signal => false
  | _ => true

theorem plainLine {q : Ask} {r : Answer q} (plain : q.plain = true) : lineOf ⟨q,r⟩ = none := by
  cases q <;> first | rfl | contradiction

section
variable {pre : List Code} {last : Option Text} {now : List Code} {open_ : Bool} {log : Log}

theorem allowedAlive {e : (q : Ask) × Answer q} (alive : seenDead ∉ log) (other : e.1 ≠ .signal) : Allowed log e :=
  ⟨fun dead => absurd dead alive,fun same => absurd same other⟩

theorem During.enter {again : Bool} {e : (q : Ask) × Answer q} (during : During pre last now open_ log)
    (allowed : Allowed log e) (unread : lineOf e = none) (unseen : e ≠ seenDead)
    (few : signals log+signals [e]+(if again then 1 else 0) ≤ (linesRead log).length) :
    During pre last (now ++ (codeOf e).toList) again (log ++ [e]) := by
  obtain ⟨front,rounds,lines,told,recorded⟩ := during.told
  refine ⟨eachSnoc.mpr ⟨during.each,allowed⟩,?_,?_,front,rounds,?_,told,?_⟩
  · simp [during.alive,unseen.symm]
  · simpa [unread] using few
  · simpa [unread] using lines
  · simp [recorded]

theorem During.ask {q : Ask} (during : During pre last now open_ log) (r : Answer q) (plain : q.plain = true) :
    During pre last (now ++ (codeOf ⟨q,r⟩).toList) open_ (log ++ [⟨q,r⟩]) := by
  have other : q ≠ .signal := by
    rintro rfl
    contradiction
  have unseen : (⟨q,r⟩ : (q : Ask) × Answer q) ≠ seenDead := by
    intro same
    cases (Sigma.mk.inj same).1
    contradiction
  refine during.enter (allowedAlive during.alive other) (plainLine plain) unseen ?_
  simpa [signals,other] using during.few

theorem During.code (during : During pre last now open_ log) (c : Code) :
    During pre last (now ++ [c]) open_ (log ++ [⟨.code c,()⟩]) := during.ask (q := .code c) () rfl

theorem During.silent {q : Ask} (during : During pre last now open_ log) (r : Answer q) (plain : q.plain = true)
    (silent : codeOf ⟨q,r⟩ = none) : During pre last now open_ (log ++ [⟨q,r⟩]) := by
  have asked := during.ask r plain
  rwa [silent,Option.toList_none,List.append_nil] at asked

theorem During.adds {new : Log} (during : During pre last now open_ log) (plain : ∀ e ∈ new, e.1.plain = true) :
    During pre last (now ++ codes new) open_ (log ++ new) := by
  induction new generalizing now log with
  | nil => simpa [codes] using during
  | cons e new ih =>
    have rest := ih (during.ask e.2 (plain e List.mem_cons_self)) (fun d mem => plain d (List.mem_cons_of_mem e mem))
    have parts : codes (e::new) = (codeOf e).toList ++ codes new := by
      rw [← codesOne,← codesAppend,List.singleton_append]
    rw [parts,← List.append_assoc,List.append_cons]
    exact rest

theorem During.signal (during : During pre last now true log) : During pre last now false (log ++ [⟨.signal,()⟩]) := by
  have few : signals log < (linesRead log).length := during.few
  have entered : During pre last (now ++ []) false (log ++ [⟨.signal,()⟩]) :=
    during.enter (e := ⟨.signal,()⟩) ⟨fun dead => absurd dead during.alive,fun _ => few⟩ rfl (by simp [seenDead]) few
  rwa [List.append_nil] at entered

theorem During.look (during : During pre last now open_ log) : During pre last now open_ (log ++ [⟨.alive,true⟩]) := by
  have entered : During pre last (now ++ []) open_ (log ++ [⟨.alive,true⟩]) :=
    during.enter (e := ⟨.alive,true⟩) (allowedAlive during.alive (by simp)) rfl (by simp [seenDead]) during.few
  rwa [List.append_nil] at entered

theorem During.begin {line : Text} (during : During pre none [] false log) :
    During pre (some line) [] true (log ++ [⟨.read,some line⟩]) := by
  obtain ⟨front,rounds,lines,told,recorded⟩ := during.told
  have unseen : seenDead ≠ ⟨.read,some line⟩ := by simp [seenDead]
  refine ⟨eachSnoc.mpr ⟨during.each,allowedAlive during.alive (by simp)⟩,?_,?_,front,rounds,?_,told,?_⟩
  · simp [during.alive,unseen]
  · simpa [signals,lineOf] using during.few
  · simpa [lineOf] using lines
  · simpa [codeOf] using recorded

theorem During.idle (during : During pre none [] false log) : During pre none [] false (log ++ [⟨.read,none⟩]) := by
  have entered : During pre none ([] ++ []) false (log ++ [⟨.read,none⟩]) :=
    during.enter (e := ⟨.read,none⟩) (allowedAlive during.alive (by simp)) rfl (by simp [seenDead]) during.few
  exact entered

theorem During.bounded (during : During pre last now open_ log) : signals log ≤ (linesRead log).length :=
  Nat.le_of_add_right_le during.few

theorem During.goes {line : Text} (during : During pre (some line) now open_ log) (recorded : Recorded line now) :
    During pre none [] false log := by
  obtain ⟨front,rounds,lines,told,shape⟩ := during.told
  refine ⟨during.each,during.alive,during.bounded,front ++ [line],rounds ++ [now],?_,?_,by simpa using shape⟩
  · rw [lines,Option.toList_none,List.append_nil,Option.toList_some]
  · exact List.rel_append told (.cons recorded .nil)

theorem During.exits (during : During pre last now open_ log) (ending : Ending last now false) : Over pre log := by
  obtain ⟨front,rounds,lines,told,shape⟩ := during.told
  exact ⟨during.each,during.bounded,front,last,rounds,now,false,lines,told,ending,shape,by simp [during.alive]⟩

theorem During.dies {c : Code} (during : During pre last now open_ log) (ending : Ending last (now ++ [c]) true) :
    Over pre (log ++ [seenDead] ++ [⟨.code c,()⟩]) := by
  obtain ⟨front,rounds,lines,told,shape⟩ := during.told
  have looked : Each Allowed (log ++ [seenDead]) :=
    eachSnoc.mpr ⟨during.each,allowedAlive during.alive (by simp [seenDead])⟩
  have unread : linesRead (log ++ [seenDead] ++ [⟨.code c,()⟩]) = linesRead log := by
    rw [linesAppend,linesAppend,linesOne,linesOne]
    exact (List.append_nil _).trans (List.append_nil _)
  refine ⟨eachSnoc.mpr ⟨looked,fun _ => ⟨c,rfl⟩,fun same => by contradiction⟩,?_,front,last,rounds,now ++ [c],true,
    unread.trans lines,told,ending,?_,by simp⟩
  · rw [unread,signalsAppend,signalsAppend]
    exact during.bounded
  · rw [codesAppend,codesAppend,codesOne,codesOne,shape]
    simp [seenDead,codeOf]

end

/-! ### Injections in the background -/

def Settings.typed (s : Settings) : Bool := (s.typeOf 0).isSome

theorem typeOfSome (s : Settings) (i : Nat) : (s.typeOf i).isSome = s.typed := by
  unfold Settings.typed Settings.typeOf
  split
  · rfl
  · split <;> rfl

/- The threads for one page. -/
def Settings.threads (s : Settings) (pfn : Nat) (is : List Nat) : List (Text × Nat) :=
  is.map (fun i => ((s.typeOf i).getD [],s.pfnOf pfn i))

def background (t : Text × Nat) : (q : Ask) × Answer q := ⟨.background t.1 t.2,()⟩

def refused : Log := [⟨.echo .invalidType,()⟩,⟨.code .invalidInjectType,()⟩]

theorem threadsTraces {s : Settings} {pfn : Nat} {is : List Nat} {log : Log} {started : Bool}
    (traces : Traces (startThreads s pfn is) log started) :
    started = true ∧ log = (s.threads pfn is).map background ∨ started = false ∧ s.typed = false ∧ log = refused := by
  induction is generalizing log with
  | nil =>
    obtain ⟨rfl,rfl⟩ := traces
    exact .inl ⟨rfl,rfl⟩
  | cons i is ih =>
    have typed := typeOfSome s i
    rw [startThreads] at traces
    cases found : s.typeOf i with
    | none =>
      rw [found] at traces typed
      obtain ⟨_,_,rfl,_,_,rfl,rfl,rfl⟩ := traces
      exact .inr ⟨rfl,typed.symm,rfl⟩
    | some type =>
      rw [found] at traces typed
      obtain ⟨_,rest,rfl,later⟩ := traces
      rcases ih later with ⟨all,rfl⟩ | ⟨_,untyped,_⟩
      · exact .inl ⟨all,by simp [Settings.threads,background,found]⟩
      · rw [untyped] at typed
        contradiction

/- Up to the page that is looked for. -/
def lookedUp (pid : Nat) (target : Option Nat) : Log :=
  [⟨.echo .multiInjection,()⟩,⟨.echo (.lookup pid),()⟩,⟨.target,target⟩]

def released : Log := [⟨.echo .ready,()⟩,⟨.sleep 1,()⟩,⟨.echo .go,()⟩,⟨.removeSync,()⟩,⟨.sleep 1,()⟩]

inductive Multi (s : Settings) (pid : Nat) : Log → Prop where
  | noPage : Multi s pid (lookedUp pid none ++ [⟨.echo .noPage,()⟩,⟨.code .targetNotFound,()⟩])
  | refused (pfn : Nat) (untyped : s.typed = false) :
      Multi s pid (lookedUp pid (some pfn) ++ [⟨.touchSync,()⟩] ++ refused)
  | released (pfn : Nat) : Multi s pid (lookedUp pid (some pfn) ++ [⟨.touchSync,()⟩] ++
      (s.threads pfn (List.range' 1 s.nrThread)).map background ++ released)

theorem multiTraces {s : Settings} {pid : Nat} {log : Log} (traces : Traces (doMultiInject s pid) log ()) :
    Multi s pid log := by
  obtain ⟨_,_,rfl,_,_,rfl,target,rest,rfl,found⟩ := traces
  cases target with
  | none =>
    obtain ⟨_,_,rfl,_,_,rfl,rfl,_⟩ := found
    exact .noPage
  | some pfn =>
    obtain ⟨_,rest,rfl,later⟩ := tracesAskBind.mp found
    obtain ⟨front,started,back,rfl,threads,ends⟩ := tracesBind.mp later
    rcases threadsTraces threads with ⟨rfl,rfl⟩ | ⟨rfl,untyped,rfl⟩
    · obtain ⟨_,_,rfl,_,_,rfl,_,_,rfl,_,_,rfl,_,_,rfl,rfl,_⟩ := ends
      have shape : Multi s pid _ := Multi.released pfn
      simpa [lookedUp,released] using shape
    · obtain ⟨rfl,_⟩ := ends
      exact .refused pfn untyped

/-! ### Runs -/

theorem codesBackground (ts : List (Text × Nat)) : codes (ts.map background) = [] := by
  induction ts with
  | nil => rfl
  | cons t ts ih => exact ih

theorem multiCodes {s : Settings} {pid : Nat} {log : Log} (multi : Multi s pid log) :
    codes log = [] ∨ codes log = [.targetNotFound] ∨ codes log = [.invalidInjectType] := by
  cases multi with
  | noPage => exact .inr (.inl rfl)
  | refused pfn untyped => exact .inr (.inr rfl)
  | released pfn =>
    rw [codesAppend,codesAppend,codesBackground]
    exact .inl rfl

theorem threadsPlain (s : Settings) (pfn : Nat) (is : List Nat) : Asks Ask.plain (startThreads s pfn is) := by
  induction is with
  | nil => exact asksPure
  | cons i is ih =>
    rw [startThreads]
    split
    · exact ⟨rfl,fun _ => ⟨rfl,fun _ => asksPure⟩⟩
    · exact asksAskBind.mpr ⟨rfl,fun _ => ih⟩

theorem multiPlain (s : Settings) (pid : Nat) : Asks Ask.plain (doMultiInject s pid) := by
  simp only [doMultiInject,query,asksAskBind]
  refine ⟨rfl,fun _ => ⟨rfl,fun _ => ⟨rfl,fun target => ?_⟩⟩⟩
  split
  · simp [Ask.plain]
  · refine asksAskBind.mpr ⟨rfl,fun _ => asksBind (threadsPlain ..) (fun started => ?_)⟩
    split <;> simp [Ask.plain]

/- After a turn, the last or not. -/
def TurnDone (pre : List Code) (log : Log) (ended : Bool) : Prop :=
  if ended then Over pre log else During pre none [] false log

section
variable {pre : List Code} {s : Settings} {pid : Nat} {line : Text} {past : Log}

theorem injectedTold (during : During pre (some line) [] true past)
    (point : pointOf line = some .waitingForInjection ∨ pointOf line = some .afterMadviseInjection) :
    Ensures past injected (fun log ret => TurnDone pre log (ret == 0)) := by
  simp only [injected,query,ensuresBind,ensuresAsk]
  intro on
  split
  · rename_i alive
    rw [show on = true from alive]
    simp only [ensuresBind,ensuresAsk,ensuresPure]
    exact fun _ _ => (during.look.code .inject).signal.goes (.injected point)
  · rename_i dead
    rw [Bool.eq_false_iff.mpr dead]
    simp only [ensuresBind,ensuresAsk,ensuresPure]
    exact fun _ => during.dies (.killedInInjection point)

theorem multiTold (during : During pre (some line) [] true past) : Ensures past (doMultiInject s pid)
    (fun log _ => ∃ extra, (extra = [] ∨ extra = [.targetNotFound] ∨ extra = [.invalidInjectType]) ∧
      During pre (some line) extra true log) := by
  refine ensuresTraces.mpr (fun new a traces => ?_)
  have multi := multiTraces traces
  exact ⟨codes new,multiCodes multi,during.adds (asksTraces (multiPlain s pid) traces)⟩

theorem busyloopTold {extra : List Code} (point : pointOf line = some .multiBackendBusyloop)
    (known : extra = [] ∨ extra = [.targetNotFound] ∨ extra = [.invalidInjectType])
    (during : During pre (some line) extra true past) : Over pre (past ++ [⟨.code .exit,()⟩] ++ [⟨.signal,()⟩]) := by
  have exited := (during.code .exit).signal
  rcases known with rfl | rfl | rfl
  · exact exited.exits (.exit (.inr point))
  · exact exited.exits (.targetNotFound point)
  · exact exited.exits (.invalidInjectType point)

theorem controlTold (during : During pre (some line) [] true past) :
    Ensures past (controlMceTest s pid line) (fun log ret => TurnDone pre log (ret == 0)) := by
  have echoed := during.silent (q := .echo (.passed line)) () rfl rfl
  simp only [controlMceTest,query,ensuresBind,ensuresAsk]
  intro _
  split <;> rename_i point
  · simp only [ensuresBind,ensuresAsk,ensuresPure]
    exact fun _ => echoed.signal.goes (.none (.inr (.inl point)))
  · simp only [ensuresBind,ensuresAsk,ensuresPure]
    exact fun _ _ => (echoed.silent (q := .stats 1) () rfl rfl).signal.goes (.none (.inr (.inr (.inl point))))
  · simp only [ensuresBind,ensuresAsk,ensuresPure]
    exact fun _ _ => (echoed.silent (q := .stats 2) () rfl rfl).signal.goes (.none (.inr (.inr (.inr point))))
  · simp only [ensuresBind,ensuresAsk,ensuresPure]
    exact fun _ _ => (echoed.signal.code .exit).exits (.exit (.inl point))
  · simp only [ensuresBind,ensuresAsk]
    have called := (echoed.silent (q := .echo (.injection pid)) () rfl rfl).silent
      (q := .inject s.errorType s.errorVfn) () rfl rfl
    exact fun _ _ => injectedTold called (.inl point)
  · exact injectedTold echoed (.inr point)
  · simp only [ensuresBind,ensuresAsk]
    intro _ _ _ on
    have looked := ((echoed.code .access).signal).silent (q := .sleep 1) () rfl rfl
    split
    · rename_i alive
      rw [show on = true from alive]
      simp only [ensuresBind,ensuresAsk,ensuresPure]
      exact fun _ => (looked.look.code .accessSucceeded).goes (.accessed point)
    · rename_i dead
      rw [Bool.eq_false_iff.mpr dead]
      simp only [ensuresBind,ensuresAsk,ensuresPure]
      exact fun _ => looked.dies (.killedInAccess point)
  · split
    · simp only [ensuresBind,ensuresAsk,ensuresPure]
      intro _
      refine ensuresMono (fun log _ told => ?_) (multiTold (echoed.silent (q := .echo .doMultiInject) () rfl rfl))
      obtain ⟨extra,known,during⟩ := told
      exact fun _ _ => busyloopTold point known during
    · simp only [ensuresBind,ensuresAsk,ensuresPure]
      exact fun _ _ => busyloopTold point (.inl rfl) echoed
  · exact echoed.goes (.none (.inl point))

theorem turnTold (during : During pre none [] false past) : Ensures past (turn s pid) (TurnDone pre) := by
  simp only [turn,query,ensuresBind,ensuresAsk]
  intro on
  split
  · rename_i alive
    rw [show on = true from alive]
    simp only [ensuresBind,ensuresAsk]
    intro message
    cases message with
    | some line => exact ensuresBind.mpr (controlTold during.look.begin)
    | none =>
      simp only [ensuresBind,ensuresAsk]
      intro still
      split
      · rename_i alive
        rw [show still = true from alive]
        simp only [ensuresBind,ensuresAsk,ensuresPure]
        exact fun _ _ => ((during.look.idle.look.silent (q := .echo .timeOut) () rfl rfl).code .timeout).exits .timeout
      · rename_i dead
        rw [Bool.eq_false_iff.mpr dead]
        simp only [ensuresBind,ensuresAsk,ensuresPure]
        exact fun _ => during.look.idle.dies .killed
  · rename_i dead
    rw [Bool.eq_false_iff.mpr dead]
    simp only [ensuresBind,ensuresAsk,ensuresPure]
    exact fun _ => during.dies .killed

theorem loopTold (turns : Nat) (during : During pre none [] false past) :
    Ensures past (mainLoop s pid turns) (TurnDone pre) := by
  induction turns generalizing past with
  | zero => exact during
  | succ turns ih =>
    simp only [mainLoop,ensuresBind]
    refine ensuresMono (fun log ended done => ?_) (turnTold during)
    cases ended with
    | true => exact done
    | false => exact ih done

end

theorem duringNil : During [] none [] false [] :=
  ⟨eachNil,by simp,Nat.le_refl 0,[],[],rfl,.nil,rfl⟩

/- What is recorded before any line is read does not belong to a line. -/
theorem During.settle {pre now : List Code} {log : Log} (during : During pre none now false log)
    (unread : linesRead log = []) : During (pre ++ now) none [] false log := by
  obtain ⟨front,rounds,lines,told,shape⟩ := during.told
  have none : front = [] := (List.append_eq_nil_iff.mp (lines.symm.trans unread)).1
  subst none
  cases told
  exact ⟨during.each,during.alive,during.few,[],[],lines,.nil,by simpa using shape⟩

def Settings.prelude (s : Settings) : List Code := if s.hugetlbOvercommit then [.setOvercommit] else []

/- What is asked before the process is there. -/
def Ask.early : Ask → Bool
  | .initReturnCode => true
  | .prepare => true
  | .prepareRest => true
  | .code .setOvercommit => true
  | _ => false

/- What a call of `__do_test` comes to: nothing was started, the loop is still on, or it is over and what there was of
the test is cleaned up once. -/
inductive Outcome (s : Settings) : Log → Option Nat → Prop where
  | unprepared (front : Log) (st : Nat) (failed : st ≠ 0) (unstarted : ∀ e ∈ front, e.1.early = true)
      (last : front.getLast? = some ⟨.prepare,st⟩ ∨ front.getLast? = some ⟨.prepareRest,st⟩) :
      Outcome s (front ++ [⟨.cleanup,()⟩]) (some 1)
  | running (log : Log) (during : During s.prelude none [] false log) : Outcome s log none
  | finished (front : Log) (ended : Over s.prelude front) :
      Outcome s (front ++ [⟨.killAllSubprograms,()⟩,⟨.cleanup,()⟩,⟨.check,()⟩]) (some 0)

theorem prepareTraces {s : Settings} {log : Log} {ret : Nat} (traces : Traces (prepare s) log ret) :
    (∀ e ∈ log, e.1.early = true) ∧ (ret = 0 → codes log = s.prelude) ∧
      (ret ≠ 0 → log.getLast? = some ⟨.prepare,ret⟩ ∨ log.getLast? = some ⟨.prepareRest,ret⟩) := by
  obtain ⟨first,rest,rfl,later⟩ := tracesAskBind.mp traces
  split at later
  · cases overcommit : s.hugetlbOvercommit
    · rw [overcommit] at later
      obtain ⟨_,_,rfl,rfl,rfl⟩ := later
      exact ⟨by simp [Ask.early],fun _ => by rw [Settings.prelude,overcommit]; rfl,fun _ => .inr rfl⟩
    · rw [overcommit] at later
      obtain ⟨_,_,rfl,_,_,rfl,rfl,rfl⟩ := later
      exact ⟨by simp [Ask.early],fun _ => by rw [Settings.prelude,overcommit]; rfl,fun _ => .inr rfl⟩
  · rename_i failed
    obtain ⟨rfl,rfl⟩ := later
    exact ⟨by simp [Ask.early],fun zero => absurd zero failed,fun _ => .inl rfl⟩

theorem earlyPlain {log : Log} (early : ∀ e ∈ log, e.1.early = true) : ∀ e ∈ log, e.1.plain = true := by
  rintro ⟨q,r⟩ mem
  have here := early _ mem
  cases q <;> first | rfl | contradiction

theorem earlyUnread {log : Log} (early : ∀ e ∈ log, e.1.early = true) : linesRead log = [] := by
  rw [linesRead,List.filterMap_eq_nil_iff]
  exact fun e mem => plainLine (earlyPlain early e mem)

theorem preparedOutcome {s : Settings} {cmd : Text} {turns : Nat} {past : Log} (early : ∀ e ∈ past, e.1.early = true)
    (empty : codes past = []) : Ensures past (doTest s true cmd turns) (Outcome s) := by
  simp only [doTest,Bool.not_true,Bool.false_eq_true,if_false,ensuresBind]
  refine ensuresTraces.mpr (fun new prepared traces => ?_)
  obtain ⟨early',prelude,failed⟩ := prepareTraces traces
  have all : ∀ e ∈ past ++ new, e.1.early = true := List.forall_mem_append.mpr ⟨early,early'⟩
  split
  · rename_i ready
    have prepared : During s.prelude none [] false (past ++ new) := by
      have during := (duringNil.adds (earlyPlain all)).settle (earlyUnread all)
      rw [List.nil_append,List.nil_append,codesAppend,empty,prelude ready] at during
      exact during
    simp only [query,ensuresBind,ensuresAsk]
    intro _ pid
    have started := (prepared.silent (q := .echo (.command cmd)) () rfl rfl).silent (q := .start) pid rfl rfl
    refine ensuresMono (fun log ended done => ?_) (loopTold turns started)
    cases ended with
    | true =>
      simp only [if_true,ensuresBind,ensuresAsk,ensuresPure]
      intro _ _ _
      rw [List.append_assoc,List.append_assoc]
      exact .finished log done
    | false => exact .running log done
  · rename_i status
    have last {e : (q : Ask) × Answer q} (same : new.getLast? = some e) : (past ++ new).getLast? = some e := by
      rw [List.getLast?_append,same]
      rfl
    exact fun _ => .unprepared (past ++ new) prepared status all ((failed status).imp last last)

theorem runOutcome (s : Settings) (reboot : Bool) (cmd : Text) (turns : Nat) :
    Ensures [] (doTest s reboot cmd turns) (Outcome s) := by
  cases reboot with
  | true => exact preparedOutcome (by simp) rfl
  | false =>
    have told : Ensures [⟨.initReturnCode,()⟩] (doTest s true cmd turns) (Outcome s) :=
      preparedOutcome (by simp [Ask.early]) rfl
    exact fun _ => told

/- What has to do neither with the file nor with the threads that wait for it. -/
def Ask.apart : Ask → Bool
  | .touchSync => false
  | .removeSync => false
  | .background .. => false
  | .code .invalidInjectType => false
  | _ => true

def Apart (log : Log) : Prop := ∀ e ∈ log, e.1.apart = true

def Held (pre : Log) (e : (q : Ask) × Answer q) : Prop :=
  startOf e ≠ none → ⟨.touchSync,()⟩ ∈ pre ∧ ⟨.removeSync,()⟩ ∉ pre

structure Released (s : Settings) (log : Log) : Prop where
  started : starts log = [] ∨ ∃ pfn, ⟨.target,some pfn⟩ ∈ log ∧ ⟨.removeSync,()⟩ ∈ log ∧
    starts log = s.threads pfn (List.range' 1 s.nrThread)
  held : Each Held log
  left : ⟨.touchSync,()⟩ ∈ log ∧ ⟨.removeSync,()⟩ ∉ log ↔ .invalidInjectType ∈ codes log

/- The one multiple injection, if there is one. -/
inductive Sync (s : Settings) : Log → Prop where
  | apart {log : Log} (apart : Apart log) : Sync s log
  | multi {front log back : Log} {pid : Nat} (before : Apart front) (multi : Multi s pid log) (after : Apart back) :
      Sync s (front ++ log ++ back)

section
variable {s : Settings} {pid : Nat} {line : Text} {past log : Log}

theorem apartAppend {one other : Log} : Apart (one ++ other) ↔ Apart one ∧ Apart other := List.forall_mem_append

theorem Apart.ask {q : Ask} (apart : Apart log) (r : Answer q) (calm : q.apart = true) : Apart (log ++ [⟨q,r⟩]) :=
  apartAppend.mpr ⟨apart,List.forall_mem_singleton.mpr calm⟩

theorem Sync.append (sync : Sync s log) {new : Log} (new_ : Apart new) : Sync s (log ++ new) := by
  cases sync with
  | apart apart => exact .apart (apartAppend.mpr ⟨apart,new_⟩)
  | multi before multi after =>
    rw [List.append_assoc]
    exact .multi before multi (apartAppend.mpr ⟨after,new_⟩)

theorem apartStart {e : (q : Ask) × Answer q} (apart : e.1.apart = true) : startOf e = none := by
  obtain ⟨q,r⟩ := e
  cases q <;> first | rfl | contradiction

theorem apartStarts (apart : Apart log) : starts log = [] := by
  rw [starts,List.filterMap_eq_nil_iff]
  exact fun e mem => apartStart (apart e mem)

theorem apartTouch (apart : Apart log) : ⟨.touchSync,()⟩ ∉ log := fun mem => by
  have := apart _ mem
  contradiction

theorem apartRemove (apart : Apart log) : ⟨.removeSync,()⟩ ∉ log := fun mem => by
  have := apart _ mem
  contradiction

theorem apartCodes (apart : Apart log) : .invalidInjectType ∉ codes log := by
  intro mem
  obtain ⟨⟨q,r⟩,there,code⟩ := List.mem_filterMap.mp mem
  have calm := apart _ there
  cases q with
  | code c =>
    cases Option.some.inj code
    contradiction
  | _ => contradiction

theorem heldNone (pre : Log) (none : starts log = []) : Each (fun p e => Held (pre ++ p) e) log := by
  intro p e post parts start
  rw [starts,List.filterMap_eq_nil_iff] at none
  exact absurd (none e (by simp [parts])) start

theorem backgroundStarts (ts : List (Text × Nat)) : starts (ts.map background) = ts := by
  induction ts with
  | nil => rfl
  | cons t ts ih => exact congrArg (t::·) ih

theorem backgroundHeld {pre : Log} (ts : List (Text × Nat)) (touched : ⟨.touchSync,()⟩ ∈ pre)
    (there : ⟨.removeSync,()⟩ ∉ pre) : Each (fun p e => Held (pre ++ p) e) (ts.map background) := by
  intro p e post parts _
  refine ⟨List.mem_append_left _ touched,fun mem => ?_⟩
  rcases List.mem_append.mp mem with mem | mem
  · exact there mem
  · have inside : ⟨.removeSync,()⟩ ∈ ts.map background := by
      rw [parts]
      exact List.mem_append_left _ mem
    obtain ⟨t,_,same⟩ := List.mem_map.mp inside
    cases (Sigma.mk.inj same).1

theorem apartReleased (apart : Apart log) : Released s log :=
  ⟨.inl (apartStarts apart),heldNone [] (apartStarts apart),
    iff_of_false (fun both => apartTouch apart both.1) (apartCodes apart)⟩

theorem refusedReleased {front back : Log} (pfn : Nat) (before : Apart front) (after : Apart back) :
    Released s (front ++ (lookedUp pid (some pfn) ++ [⟨.touchSync,()⟩] ++ refused) ++ back) := by
  have none : starts (front ++ (lookedUp pid (some pfn) ++ [⟨.touchSync,()⟩] ++ refused) ++ back) = [] := by
    rw [startsAppend,startsAppend,apartStarts before,apartStarts after]
    rfl
  refine ⟨.inl none,heldNone [] none,iff_of_true ⟨by simp,?_⟩ ?_⟩
  · simp [apartRemove before,apartRemove after,lookedUp,refused]
  · rw [codesAppend,codesAppend]
    exact List.mem_append_left _ (List.mem_append_right _ (List.mem_singleton_self _))

theorem releasedReleased {front back : Log} (pfn : Nat) (before : Apart front) (after : Apart back) :
    Released s (front ++ (lookedUp pid (some pfn) ++ [⟨.touchSync,()⟩] ++
      (s.threads pfn (List.range' 1 s.nrThread)).map background ++ released) ++ back) := by
  let ts := s.threads pfn (List.range' 1 s.nrThread)
  let pre := front ++ (lookedUp pid (some pfn) ++ [⟨.touchSync,()⟩])
  let post := released ++ back
  have shape : front ++ (lookedUp pid (some pfn) ++ [⟨.touchSync,()⟩] ++ ts.map background ++ released) ++ back =
      pre ++ ts.map background ++ post := by simp [pre,post]
  have early : starts pre = [] := by
    rw [startsAppend,apartStarts before]
    rfl
  have late : starts post = [] := by
    rw [startsAppend,apartStarts after]
    rfl
  have touched : ⟨.touchSync,()⟩ ∈ pre := by simp [pre]
  have there : ⟨.removeSync,()⟩ ∉ pre := by simp [pre,apartRemove before,lookedUp]
  rw [shape]
  refine ⟨.inr ⟨pfn,by simp [pre,lookedUp],by simp [post,released],?_⟩,?_,iff_of_false (fun both => both.2 ?_) ?_⟩
  · rw [startsAppend,startsAppend,early,late,backgroundStarts,List.nil_append,List.append_nil]
  · exact eachAppend.mpr ⟨eachAppend.mpr ⟨heldNone [] early,backgroundHeld ts touched there⟩,heldNone _ late⟩
  · simp [post,released]
  · have unsaid : codes pre = codes front := (codesAppend ..).trans (List.append_nil _)
    have later : codes post = codes back := rfl
    rw [codesAppend,codesAppend,codesBackground,unsaid,later]
    simp [apartCodes before,apartCodes after]

theorem syncReleased (sync : Sync s log) : Released s log := by
  cases sync with
  | apart apart => exact apartReleased apart
  | multi before multi after =>
    cases multi with
    | noPage =>
      refine apartReleased (apartAppend.mpr ⟨apartAppend.mpr ⟨before,?_⟩,after⟩)
      simp [Apart,lookedUp,Ask.apart]
    | refused pfn untyped => exact refusedReleased pfn before after
    | released pfn => exact releasedReleased pfn before after

theorem controlApart (other : pointOf line ≠ some .multiBackendBusyloop) :
    Asks Ask.apart (controlMceTest s pid line) := by
  have checked : Asks Ask.apart injected := by
    refine ⟨rfl,fun on => ?_⟩
    cases on
    · exact ⟨rfl,fun _ => asksPure⟩
    · exact ⟨rfl,fun _ => ⟨rfl,fun _ => asksPure⟩⟩
  unfold controlMceTest
  refine asksAskBind.mpr ⟨rfl,fun _ => ?_⟩
  split
  · exact ⟨rfl,fun _ => asksPure⟩
  · exact ⟨rfl,fun _ => ⟨rfl,fun _ => asksPure⟩⟩
  · exact ⟨rfl,fun _ => ⟨rfl,fun _ => asksPure⟩⟩
  · exact ⟨rfl,fun _ => ⟨rfl,fun _ => asksPure⟩⟩
  · exact ⟨rfl,fun _ => ⟨rfl,fun _ => checked⟩⟩
  · exact checked
  · refine ⟨rfl,fun _ => ⟨rfl,fun _ => ⟨rfl,fun _ => ⟨rfl,fun on => ?_⟩⟩⟩⟩
    cases on <;> exact ⟨rfl,fun _ => asksPure⟩
  · rename_i point
    exact absurd point other
  · exact asksPure

theorem controlSync (apart : Apart past) :
    Ensures past (controlMceTest s pid line) (fun log ret => if ret = 0 then Sync s log else Apart log) := by
  by_cases point : pointOf line = some .multiBackendBusyloop
  · simp only [controlMceTest,query,point,ensuresBind,ensuresAsk]
    intro _
    split
    · simp only [ensuresBind,ensuresAsk,ensuresPure]
      refine fun _ => ensuresTraces.mpr (fun new _ traces _ _ => ?_)
      have ends : Apart [⟨.code .exit,()⟩,⟨.signal,()⟩] := by simp [Apart,Ask.apart]
      have before := (apart.ask (q := .echo (.passed line)) () rfl).ask (q := .echo .doMultiInject) () rfl
      have sync := Sync.multi before (multiTraces traces) ends
      simpa using sync
    · simp only [ensuresBind,ensuresAsk,ensuresPure]
      exact fun _ _ => .apart (((apart.ask _ rfl).ask _ rfl).ask _ rfl)
  · refine ensuresMono (fun log ret adds => ?_) (asksAdds (controlApart point))
    obtain ⟨new,rfl,calm⟩ := adds
    have all : Apart (past ++ new) := apartAppend.mpr ⟨apart,calm⟩
    split
    · exact .apart all
    · exact all

def TurnSync (s : Settings) (log : Log) (ended : Bool) : Prop := if ended then Sync s log else Apart log

theorem turnSync (apart : Apart past) : Ensures past (turn s pid) (TurnSync s) := by
  simp only [turn,query,ensuresBind,ensuresAsk]
  intro on
  have looked := apart.ask (q := .alive) on rfl
  split
  · simp only [ensuresBind,ensuresAsk]
    intro message
    have read := looked.ask (q := .read) message rfl
    cases message with
    | some line =>
      refine ensuresBind.mpr (ensuresMono (fun log ret done => ?_) (controlSync read))
      by_cases zero : ret = 0
      · simpa [TurnSync,zero] using done
      · simpa [TurnSync,zero] using done
    | none =>
      simp only [ensuresBind,ensuresAsk]
      intro still
      split
      · exact fun _ _ => .apart (((read.ask _ rfl).ask _ rfl).ask _ rfl)
      · exact fun _ => .apart ((read.ask _ rfl).ask _ rfl)
  · exact fun _ => .apart (looked.ask _ rfl)

theorem loopSync (turns : Nat) (apart : Apart past) : Ensures past (mainLoop s pid turns) (TurnSync s) := by
  induction turns generalizing past with
  | zero => exact apart
  | succ turns ih =>
    simp only [mainLoop,ensuresBind]
    refine ensuresMono (fun log ended done => ?_) (turnSync apart)
    cases ended with
    | true => exact done
    | false => exact ih done

end

theorem earlyApart {log : Log} (early : ∀ e ∈ log, e.1.early = true) : Apart log := by
  rintro ⟨q,r⟩ mem
  have here := early _ mem
  cases q with
  | code c => cases c <;> first | rfl | contradiction
  | _ => first | rfl | contradiction

theorem preparedSync {s : Settings} {cmd : Text} {turns : Nat} {past : Log} (apart : Apart past) :
    Ensures past (doTest s true cmd turns) (fun log _ => Sync s log) := by
  simp only [doTest,Bool.not_true,Bool.false_eq_true,if_false,ensuresBind]
  refine ensuresTraces.mpr (fun new prepared traces => ?_)
  have all : Apart (past ++ new) := apartAppend.mpr ⟨apart,earlyApart (prepareTraces traces).1⟩
  split
  · simp only [query,ensuresBind,ensuresAsk]
    intro _ pid
    have started := (all.ask (q := .echo (.command cmd)) () rfl).ask (q := .start) pid rfl
    refine ensuresMono (fun log ended done => ?_) (loopSync turns started)
    cases ended with
    | true =>
      simp only [if_true,ensuresBind,ensuresAsk,ensuresPure]
      intro _ _ _
      have closing : Apart [⟨.killAllSubprograms,()⟩,⟨.cleanup,()⟩,⟨.check,()⟩] := by simp [Apart,Ask.apart]
      simpa using Sync.append done closing
    | false => exact .apart done
  · exact fun _ => .apart (all.ask _ rfl)

/-- In every run, the threads of a multiple injection are those of one page that was looked up, one for each of
`NR_THREAD`, all of them started while the file holds them back and let go afterwards, or there are none. The file stays
behind exactly when the type of the injection was refused. -/
theorem injectionsReleased (env : Log → (q : Ask) → Answer q) (s : Settings) (reboot : Bool) (cmd : Text)
    (turns : Nat) :
    Released s (answered env [] (doTest s reboot cmd turns)).1 := by
  have empty : Apart [] := by simp [Apart]
  cases reboot with
  | true => exact syncReleased (ensured env (preparedSync empty))
  | false =>
    have fresh := empty.ask (q := .initReturnCode) () rfl
    have run : Ensures [] (doTest s false cmd turns) (fun log _ => Sync s log) := fun _ => preparedSync fresh
    exact syncReleased (ensured env run)

/-! ### The verdict -/

def Code.deadly : Code → Bool
  | .killed => true
  | .killedInInjection => true
  | .killedInAccess => true
  | _ => false

theorem endingLast {last : Option Text} {cs : List Code} {dead : Bool} (ending : Ending last cs dead) :
    ∃ front c, cs = front ++ [c] ∧ c.deadly = dead := by
  cases ending with
  | killed => exact ⟨[],_,rfl,rfl⟩
  | timeout => exact ⟨[],_,rfl,rfl⟩
  | exit => exact ⟨[],_,rfl,rfl⟩
  | targetNotFound => exact ⟨[_],_,rfl,rfl⟩
  | invalidInjectType => exact ⟨[_],_,rfl,rfl⟩
  | killedInInjection => exact ⟨[],_,rfl,rfl⟩
  | killedInAccess => exact ⟨[_],_,rfl,rfl⟩

theorem overLast {pre : List Code} {log : Log} (ended : Over pre log) : ∃ front c, codes log = front ++ [c] ∧
    (seenDead ∈ log ↔ c.deadly = true) := by
  obtain ⟨_,last,rounds,ending,dead,_,_,ends,shape,seen⟩ := ended.told
  obtain ⟨front,c,rfl,deadly⟩ := endingLast ends
  exact ⟨pre ++ rounds.flatten ++ front,c,by rw [shape,← List.append_assoc],deadly ▸ seen⟩

def calls (log : Log) : List CodeCall := (codes log).map (fun c => (c.token,[]))

theorem callsRecorded (log : Log) : recordedTokens (calls log) = (codes log).map Code.token := by
  rw [recordedTokens,calls,List.flatMap_map]
  exact List.map_eq_flatMap.symm

/- No code stands in for a sentinel. -/
theorem tokenEnds (c : Code) : ¬ ['A'] <:+ c.token.val ∧ ¬ ['Z'] <+: c.token.val := by
  cases c <;> decide +kernel

theorem windowWhole {items : List CodeItem} {cs : List Code} {before part after : List CodeToken}
    (window : CodeWindow items (cs.map Code.token) before part after) : CodeAllowed items (cs.map Code.token) := by
  have opened : before = [] := by
    rcases List.eq_nil_or_concat' before with none | ⟨front,t,rfl⟩
    · exact none
    · have ends := window.opens t (by simp)
      have mem : t ∈ cs.map Code.token := by simp [window.shape]
      obtain ⟨c,_,rfl⟩ := List.mem_map.mp mem
      exact absurd ends (tokenEnds c).1
  have closed : after = [] := by
    cases after with
    | nil => rfl
    | cons t rest =>
      have starts := window.closes t rfl
      have mem : t ∈ cs.map Code.token := by simp [window.shape]
      obtain ⟨c,_,rfl⟩ := List.mem_map.mp mem
      exact absurd starts (tokenEnds c).2
  have shape := window.shape
  rw [opened,closed,List.nil_append,List.append_nil] at shape
  exact shape ▸ window.allowed

/- What a success of the check says of a run. The last item is the one that the last code has to meet. -/
structure Verdict (items : List CodeItem) (last : CodeItem) (log : Log) (matched : Bool) : Prop where
  exactly : matched = true ↔ CodeAllowed items ((codes log).map Code.token)
  dead : matched = true → (∀ c : Code, c.token ∈ last.tokens → c.deadly = true) → seenDead ∈ log
  alive : matched = true → (∀ c : Code, c.token ∈ last.tokens → c.deadly = false) → seenDead ∉ log

theorem verdictOver {pre : List Code} {items : List CodeItem} {last : CodeItem} {log front : Log} {matched : Bool}
    (ended : Over pre front) (same : codes log = codes front) (seen : seenDead ∈ log ↔ seenDead ∈ front)
    (exactly : matched = true ↔ CodeAllowed (items ++ [last]) ((codes log).map Code.token)) :
    Verdict (items ++ [last]) last log matched := by
  obtain ⟨cs,c,shape,deadly⟩ := overLast ended
  have met : matched = true → c.token ∈ last.tokens := by
    intro yes
    have allowed := exactly.mp yes
    rw [same,shape,CodeAllowed,← List.forall₂_reverse_iff,List.map_append,List.reverse_append,
      List.reverse_append] at allowed
    cases allowed with
    | cons head _ => exact head
  exact ⟨exactly,fun yes all => seen.mpr (deadly.mpr (all c (met yes))),fun yes none mem => by
    have alive := none c (met yes)
    rw [deadly.mp (seen.mp mem)] at alive
    contradiction⟩

/-- A run that is over gets the verdict that its own codes deserve. So a success shows that the process was killed
where the last item expected allows only that, and that it was never seen dead where the item rules that out. -/
theorem verdictExact (env : Log → (q : Ask) → Answer q) (s : Settings) (cmd : Text) (turns : Nat)
    (known : Bool) (dmesgDiff : List Text) {expected : Text} {items : List CodeItem} {last : CodeItem}
    (blanks : words expected = (items ++ [last]).map CodeItem.text)
    (ended : (answered env [] (doTest s false cmd turns)).2 = some 0) :
    ∃ matched, checkSystemDefault known dmesgDiff expected
        (returnCodeSeq (calls (answered env [] (doTest s false cmd turns)).1)) =
          some (checkKernelMessageNobug known dmesgDiff ++
            [.testcount,returnCodeEvent known (List.intercalate [' '] ((items ++ [last]).map CodeItem.text))
              (List.intercalate [' '] ((codes (answered env [] (doTest s false cmd turns)).1).map
              (·.token.val))) matched]) ∧
      Verdict (items ++ [last]) last (answered env [] (doTest s false cmd turns)).1 matched := by
  have outcome := ensured env (runOutcome s false cmd turns)
  generalize answered env [] (doTest s false cmd turns) = run at outcome ended ⊢
  obtain ⟨log,ret⟩ := run
  cases outcome with
  | unprepared => simp at ended
  | running => simp at ended
  | finished front told =>
    have same : codes (front ++ [⟨.killAllSubprograms,()⟩,⟨.cleanup,()⟩,⟨.check,()⟩]) = codes front :=
      (codesAppend ..).trans (List.append_nil _)
    have seen : seenDead ∈ front ++ [⟨.killAllSubprograms,()⟩,⟨.cleanup,()⟩,⟨.check,()⟩] ↔ seenDead ∈ front := by
      simp [seenDead]
    obtain ⟨item,rest,shape⟩ : ∃ item rest, items ++ [last] = item::rest :=
      List.exists_cons_of_ne_nil (List.concat_ne_nil last items)
    rw [shape] at blanks
    obtain ⟨matched,checked,window⟩ := returnCodeChecked known dmesgDiff
      (calls (front ++ [⟨.killAllSubprograms,()⟩,⟨.cleanup,()⟩,⟨.check,()⟩])) blanks
    rw [callsRecorded] at checked window
    have exactly := window.trans ⟨fun ⟨_,_,_,framed⟩ => windowWhole framed,
      fun allowed => ⟨[],_,[],by simp,allowed,by simp [OpensCode],by simp [ClosesCode]⟩⟩
    rw [← shape] at checked exactly
    rw [List.map_map] at checked
    exact ⟨matched,checked,verdictOver told same seen exactly⟩

/- A recipe that injects from outside: the process writes two lines and lives on. -/
def injectExit (past : Log) : (q : Ask) → Answer q
  | .prepare => (0 : Nat)
  | .prepareRest => (0 : Nat)
  | .start => (42 : Nat)
  | .alive => true
  | .read => if linesRead past = [] then some "waiting for injection from outside".toList else some "before_exit".toList
  | .target => none
  | .echo _ => ()
  | .initReturnCode => ()
  | .signal => ()
  | .code _ => ()
  | .stats _ => ()
  | .inject .. => ()
  | .sleep _ => ()
  | .touchSync => ()
  | .removeSync => ()
  | .background .. => ()
  | .killAllSubprograms => ()
  | .cleanup => ()
  | .check => ()

def plainSettings : Settings := ⟨false,[],"mce-srao".toList,[],false,[],[],false,0⟩

theorem verdictInjectExit : ∃ matched, checkSystemDefault false [] "INJECT EXIT".toList
      (returnCodeSeq (calls (answered injectExit [] (doTest plainSettings false [] 3)).1)) =
        some (checkKernelMessageNobug false [] ++
          [.testcount,returnCodeEvent false (List.intercalate [' '] (([.plain Code.inject.token] ++
              [.plain Code.exit.token] : List CodeItem).map CodeItem.text))
            (List.intercalate [' '] ((codes (answered injectExit [] (doTest plainSettings false [] 3)).1).map
              (·.token.val))) matched]) ∧
    Verdict ([.plain Code.inject.token] ++ [.plain Code.exit.token]) (.plain Code.exit.token)
      (answered injectExit [] (doTest plainSettings false [] 3)).1 matched :=
  verdictExact injectExit plainSettings [] 3 false [] (by decide +kernel) (by decide +kernel)

end MmRegression.MceTest
