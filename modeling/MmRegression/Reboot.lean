import MmRegression.Machine
import MmRegression.Resume

/-! Reboots. `run_recipe` keeps the number of reboots of a testcase in its `reboot_count` as long as
`__current_testcase` names it, and enters `do_soft_try` again until the number passes MAX_REBOOT. -/
namespace MmRegression

section Enter
variable (cases : Cases) (env : Env) (id : Text) (c : Call) (d : RoundDir)

def casesFile (id : Text) : Text := "cases/".toList ++ id

def executes : Bool :=
  cases.nonEmpty id && !checkTestcaseAlreadyRun env (d.tc (fileKey id)) && checkRemoveSuffix cases env.develMode id &&
    c.loadret.any (fun loadret => (recipeLoadCheck env id c loadret).isNone)

def restarts : Bool := env.testRunMode && d.currentTestcase == some (casesFile id)

def startBegin (id : Text) : List Write :=
  .result [] :: .rebootCount 0 :: .currentTestcase (casesFile id) :: .runStatus .running :: resetPerTestcaseCounters

/- What a call writes before it enters `do_soft_try`, when it does. -/
def beforeSoftTry : Option (List Write) :=
  if !executes cases env id c d then none
  else if restarts env id d then
    match (if env.again then TestcaseDir.empty else d.tc (fileKey id)).rebootCount with
    | some n =>
        if c.maxReboot < n+1 then none
        else some (clearWrites env ++ [.result [],.rebootCount (n+1),.result [restartLine id (n+2)]])
    | none => some (clearWrites env ++ [.result [],.result [restartLine id 1]])
  else some (clearWrites env ++ startBegin id)

end Enter

/- A call with what it gets, the directory it finds and the writes it makes before a kill. -/
structure CallMade where
  id : Text
  call : Call
  before : RoundDir
  writes : List Write

def callsFrom (calls : Nat → Call) : Nat → RoundDir → List Execution → List CallMade
  | _, _, [] => []
  | k, d, e::log => ⟨e.id,calls k,d,e.writes⟩ :: callsFrom calls (k+1) (d.writes e.id e.writes) log

def callsMade (cases : Cases) (inv : Invocation) (d : RoundDir) : List CallMade :=
  callsFrom inv.session.calls 0 (ready cases inv.env d) (runTestSh cases inv.env inv.session d).log

inductive TryEvent where
  | entered (key : Text)
  | finished (key : Text)
  deriving DecidableEq, Repr

def CallMade.events (cases : Cases) (env : Env) (m : CallMade) : List TryEvent :=
  (if (beforeSoftTry cases env m.id m.call m.before).any (fun pre => pre.length ≤ m.writes.length) then
    [.entered (fileKey m.id)] else []) ++
  (if .runStatus .finished ∈ m.writes then [.finished (fileKey m.id)] else [])

structure Rebooting where
  dir : RoundDir
  events : List TryEvent

def Rebooting.start (list : Option (List Text)) : Rebooting := ⟨{ RoundDir.fresh with recipelist := list },[]⟩

def Rebooting.step (cases : Cases) (s : Rebooting) (inv : Invocation) : Option Rebooting :=
  some ⟨(runTestSh cases inv.env inv.session s.dir).dir,
    s.events ++ (callsMade cases inv s.dir).flatMap (CallMade.events cases inv.env)⟩

structure RebootBound (limit : Text → Nat) (events : List TryEvent) : Prop where
  bound : ∀ k, events.count (.entered k) ≤ limit k + 1
  never : events.Pairwise (fun a b => ∀ k, a = .finished k → b ≠ .entered k)

/-- A testcase is not started from the beginning while `__current_testcase` names one that is not
finished. -/
def CallMade.Undisturbed (cases : Cases) (env : Env) (m : CallMade) : Prop :=
  executes cases env m.id m.call m.before = true → restarts env m.id m.before = false →
    ∀ x, m.before.currentTestcase = some (casesFile x) → (m.before.tc (fileKey x)).runStatus = some .finished

/-! ### Single calls -/

theorem executesCases (cases : Cases) {env : Env} (once : env.again = false) (id : Text) (c : Call) (d : RoundDir) :
    (executes cases env id c d = false ∧ (runRecipe cases env id c d = [] ∨
      (d.tc (fileKey id)).runStatus ≠ some .finished ∧
        ∃ fx, runRecipe cases env id c d = skipBody env id fx ++ [.runStatus .skipped])) ∨
    (executes cases env id c d = true ∧ (d.tc (fileKey id)).runStatus ≠ some .finished ∧
      runRecipe cases env id c d = executeBody env id c d.currentTestcase (d.tc (fileKey id)) ++ finishWrites) := by
  have none : clearWrites env = [] := by simp [clearWrites,once]
  have unfinished : checkTestcaseAlreadyRun env (d.tc (fileKey id)) = false →
      (d.tc (fileKey id)).runStatus ≠ some .finished := by
    intro fresh status
    simp [checkTestcaseAlreadyRun,once,status] at fresh
  rcases runRecipeCases cases env id c d with
    ⟨unfit,ws⟩ | ⟨unfit,ws⟩ | ⟨runs,loadret,load,fx,check,ws⟩ | ⟨runs,loadret,load,check,ws⟩
  · refine .inl ⟨?_,.inl ws⟩
    rcases unfit with missing | already
    · simp [executes,missing]
    · simp [executes,already]
  · refine .inl ⟨?_,.inl (by rw [ws,none])⟩
    rcases unfit with rejected | left
    · simp [executes,rejected]
    · simp [executes,left]
  · refine .inl ⟨by simp [executes,load,check],.inr ⟨unfinished runs.2.1,fx,?_⟩⟩
    rw [ws,none,List.nil_append]
  · refine .inr ⟨by simp [executes,runs.1,runs.2.1,runs.2.2,load,check],unfinished runs.2.1,?_⟩
    rw [ws,none,List.nil_append]
    simp [once]

/-! ### The invariant -/

/-- A testcase that was entered and is not finished is the current one, and its `reboot_count` keeps
up with how often it was entered. -/
structure Counted (limit : Text → Nat) (d : RoundDir) (events : List TryEvent) : Prop extends RebootBound limit events where
  recorded : ∀ x, d.currentTestcase = some (casesFile x) → (d.tc (fileKey x)).rebootCount ≠ none
  tracked : ∀ k, .entered k ∈ events → (d.tc k).runStatus = some .finished ∨ ∃ x n,
    d.currentTestcase = some (casesFile x) ∧ fileKey x = k ∧ (d.tc k).rebootCount = some n ∧ events.count (.entered k) ≤ n+1
  closed : ∀ k, .finished k ∈ events → (d.tc k).runStatus = some .finished

theorem casesFileInj {x y : Text} (same : casesFile x = casesFile y) : x = y := List.append_cancel_left same

section Steps
variable {limit : Text → Nat} {events : List TryEvent} {id : Text} {d e : RoundDir}

structure SameCounts (d e : RoundDir) : Prop where
  current : e.currentTestcase = d.currentTestcase
  status : ∀ k, (e.tc k).runStatus = (d.tc k).runStatus
  count : ∀ k, (e.tc k).rebootCount = (d.tc k).rebootCount

theorem Counted.same (counted : Counted limit d events) (same : SameCounts d e) : Counted limit e events := by
  refine ⟨counted.toRebootBound,fun x current => ?_,fun k entered => ?_,fun k done => ?_⟩
  · rw [same.count]
    exact counted.recorded x (same.current ▸ current)
  · rw [same.status,same.count,same.current]
    exact counted.tracked k entered
  · rw [same.status]
    exact counted.closed k done

def Write.quiet : Write → Bool
  | .result _ => true
  | .resetCounter _ => true
  | .count _ => true
  | .skipped => true
  | .finishedTestcase => true
  | .step => true
  | _ => false

theorem writeQuiet (id : Text) (d : RoundDir) {w : Write} (quiet : w.quiet = true) : SameCounts d (d.write id w) := by
  cases w with
  | clear | runStatus _ | rebootCount _ | currentTestcase _ | removeCurrent => contradiction
  | result _ | resetCounter _ | count _ | skipped | finishedTestcase | step =>
    refine ⟨rfl,fun k => ?_,fun k => ?_⟩
    · by_cases key : k = fileKey id <;> simp [RoundDir.write,TestcaseDir.write,key]
    · by_cases key : k = fileKey id <;> simp [RoundDir.write,TestcaseDir.write,key]

theorem effectQuiet (e : Effect) : e.write.quiet = true := by
  cases e <;> rfl

theorem writesKeep {P : RoundDir → Prop} {ws : List Write} (keep : ∀ w ∈ ws, ∀ d, P d → P (d.write id w))
    (start : P d) : P (d.writes id ws) := by
  induction ws generalizing d with
  | nil => exact start
  | cons w ws ih => exact ih (fun v mem => keep v (by simp [mem])) (keep w (by simp) d start)

theorem Counted.entering (counted : Counted limit d events) (current : d.currentTestcase = some (casesFile id))
    (unfinished : (d.tc (fileKey id)).runStatus ≠ some .finished) {n : Nat}
    (count : (d.tc (fileKey id)).rebootCount = some n) (fewer : events.count (.entered (fileKey id)) ≤ n)
    (allowed : n ≤ limit (fileKey id)) : Counted limit d (events ++ [.entered (fileKey id)]) := by
  refine ⟨⟨fun k => ?_,?_⟩,counted.recorded,fun k entered => ?_,fun k done => counted.closed k (by simpa using done)⟩
  · by_cases key : k = fileKey id
    · subst key
      simp only [List.count_append,List.count_singleton_self]
      omega
    · simpa [List.count_singleton,Ne.symm key] using counted.bound k
  · refine List.pairwise_append.mpr ⟨counted.never,List.pairwise_singleton _ _,fun a mem b last k done => ?_⟩
    rw [List.mem_singleton.mp last]
    rintro ⟨rfl⟩
    exact unfinished (counted.closed _ (done ▸ mem))
  · by_cases key : k = fileKey id
    · subst key
      refine .inr ⟨id,n,current,rfl,count,?_⟩
      simp only [List.count_append,List.count_singleton_self]
      omega
    · rcases counted.tracked k (by simpa [key] using entered) with done | ⟨x,m,named,here,_⟩
      · exact .inl done
      · rw [current] at named
        rw [← casesFileInj (Option.some.inj named)] at here
        exact absurd here.symm key

theorem Counted.finishing (counted : Counted limit d events) (finished : (d.tc (fileKey id)).runStatus = some .finished) :
    Counted limit d (events ++ [.finished (fileKey id)]) := by
  have same : ∀ k, (events ++ [TryEvent.finished (fileKey id)]).count (TryEvent.entered k) =
      events.count (TryEvent.entered k) := by
    intro k
    simp
  refine ⟨⟨fun k => ?_,?_⟩,counted.recorded,fun k entered => ?_,fun k done => ?_⟩
  · rw [same]
    exact counted.bound k
  · refine List.pairwise_append.mpr ⟨counted.never,List.pairwise_singleton _ _,fun a mem b last k done => ?_⟩
    rw [List.mem_singleton.mp last]
    simp
  · rw [same]
    exact counted.tracked k (by simpa using entered)
  · rcases List.mem_append.mp done with old | last
    · exact counted.closed k old
    · cases List.mem_singleton.mp last
      exact finished

theorem Counted.few (counted : Counted limit d events) (unfinished : (d.tc (fileKey id)).runStatus ≠ some .finished)
    {n : Nat} (count : (d.tc (fileKey id)).rebootCount = some n) : events.count (.entered (fileKey id)) ≤ n+1 := by
  by_cases entered : .entered (fileKey id) ∈ events
  · rcases counted.tracked _ entered with done | ⟨_,m,_,_,same,few⟩
    · exact absurd done unfinished
    · rw [count] at same
      cases Option.some.inj same
      exact few
  · rw [List.count_eq_zero.mpr entered]
    exact Nat.zero_le _

theorem writeOther {k : Text} (key : k ≠ fileKey id) {w : Write} (kept : w ≠ .clear) : (d.write id w).tc k = d.tc k := by
  simp [RoundDir.write,key,kept]

theorem Counted.recount (counted : Counted limit d events) {n : Nat}
    (enough : (d.tc (fileKey id)).runStatus ≠ some .finished → events.count (.entered (fileKey id)) ≤ n+1) :
    Counted limit (d.write id (.rebootCount n)) events := by
  have status : ∀ k, ((d.write id (.rebootCount n)).tc k).runStatus = (d.tc k).runStatus := by
    intro k
    by_cases key : k = fileKey id <;> simp [RoundDir.write,TestcaseDir.write,key]
  have here : ((d.write id (.rebootCount n)).tc (fileKey id)).rebootCount = some n := by
    simp [RoundDir.write,TestcaseDir.write]
  refine ⟨counted.toRebootBound,fun x current => ?_,fun k entered => ?_,fun k done => ?_⟩
  · by_cases key : fileKey x = fileKey id
    · rw [key,here]
      simp
    · rw [writeOther key (by simp)]
      exact counted.recorded x current
  · rw [status]
    rcases counted.tracked k entered with done | ⟨x,m,current,rfl,count,few⟩
    · exact .inl done
    · by_cases done : (d.tc (fileKey x)).runStatus = some .finished
      · exact .inl done
      · by_cases key : fileKey x = fileKey id
        · exact .inr ⟨x,n,current,rfl,key ▸ here,key ▸ enough (key ▸ done)⟩
        · exact .inr ⟨x,m,current,rfl,by rw [writeOther key (by simp),count],few⟩
  · rw [status]
    exact counted.closed k done

theorem Counted.status (counted : Counted limit d events) {st : RunStatus}
    (open_ : st = .finished ∨ (d.tc (fileKey id)).runStatus ≠ some .finished) :
    Counted limit (d.write id (.runStatus st)) events := by
  have stays : ∀ k, (d.tc k).runStatus = some .finished → ((d.write id (.runStatus st)).tc k).runStatus = some .finished := by
    intro k done
    by_cases key : k = fileKey id
    · subst key
      rcases open_ with rfl | unfinished
      · simp [RoundDir.write,TestcaseDir.write]
      · exact absurd done unfinished
    · rwa [writeOther key (by simp)]
  have count : ∀ k, ((d.write id (.runStatus st)).tc k).rebootCount = (d.tc k).rebootCount := by
    intro k
    by_cases key : k = fileKey id <;> simp [RoundDir.write,TestcaseDir.write,key]
  refine ⟨counted.toRebootBound,fun x current => ?_,fun k entered => ?_,fun k done => stays k (counted.closed k done)⟩
  · rw [count]
    exact counted.recorded x current
  · rw [count]
    exact (counted.tracked k entered).imp_left (stays k)

/- Another testcase becomes the current one. -/
theorem Counted.replace (counted : Counted limit d events) (counts : (d.tc (fileKey id)).rebootCount ≠ none)
    (fresh : .entered (fileKey id) ∉ events) (settled : ∀ x, d.currentTestcase = some (casesFile x) →
      fileKey x = fileKey id ∨ (d.tc (fileKey x)).runStatus = some .finished) :
    Counted limit (d.write id (.currentTestcase (casesFile id))) events := by
  have same : (d.write id (.currentTestcase (casesFile id))).tc = d.tc := by
    funext k
    by_cases key : k = fileKey id <;> simp [RoundDir.write,TestcaseDir.write,key]
  refine ⟨counted.toRebootBound,fun x current => ?_,fun k entered => .inl ?_,fun k done => ?_⟩ <;> rw [same]
  · rw [← casesFileInj (Option.some.inj current)]
    exact counts
  · rcases counted.tracked k entered with done | ⟨x,_,current,rfl,_⟩
    · exact done
    · exact (settled x current).resolve_left (fun key => fresh (key ▸ entered))
  · exact counted.closed k done

theorem Counted.remove (counted : Counted limit d events) (finished : (d.tc (fileKey id)).runStatus = some .finished)
    (own : ∀ x, d.currentTestcase = some (casesFile x) → x = id) : Counted limit (d.write id .removeCurrent) events := by
  have same : (d.write id .removeCurrent).tc = d.tc := by
    funext k
    by_cases key : k = fileKey id <;> simp [RoundDir.write,TestcaseDir.write,key]
  refine ⟨counted.toRebootBound,fun x current => ?_,fun k entered => .inl ?_,fun k done => ?_⟩
  · simp [RoundDir.write] at current
  · rw [same]
    rcases counted.tracked k entered with done | ⟨x,_,current,rfl,_⟩
    · exact done
    · rw [own x current]
      exact finished
  · rw [same]
    exact counted.closed k done

/-! A call may be killed after any of its writes, so that each phase is told for every prefix of what
it writes. -/

theorem prefixSplit {α : Type} {part a b : List α} (within : part <+: a ++ b) :
    part <+: a ∧ part.length < a.length ∨ ∃ rest, part = a ++ rest ∧ rest <+: b := by
  by_cases short : part.length < a.length
  · exact .inl ⟨List.prefix_of_prefix_length_le within (List.prefix_append a b) short.le,short⟩
  · obtain ⟨rest,rfl⟩ := List.prefix_of_prefix_length_le (List.prefix_append a b) within (by omega)
    exact .inr ⟨rest,rfl,(List.prefix_append_right_inj a).mp within⟩

theorem writesAppend (id : Text) (d : RoundDir) (a b : List Write) :
    d.writes id (a ++ b) = (d.writes id a).writes id b := by
  simp [RoundDir.writes]

theorem SameCounts.trans {f : RoundDir} (first : SameCounts d e) (second : SameCounts e f) : SameCounts d f :=
  ⟨second.current.trans first.current,fun k => (second.status k).trans (first.status k),
    fun k => (second.count k).trans (first.count k)⟩

theorem writesQuiet (id : Text) (d : RoundDir) {ws : List Write} (quiet : ∀ w ∈ ws, w.quiet = true) :
    SameCounts d (d.writes id ws) :=
  writesKeep (P := SameCounts d) (fun w mem e same => same.trans (writeQuiet id e (quiet w mem)))
    ⟨rfl,fun _ => rfl,fun _ => rfl⟩

theorem Counted.reboot (counted : Counted limit d events) {n : Nat} (few : events.count (.entered (fileKey id)) ≤ n+1)
    {lines part : List Write} (quiet : ∀ w ∈ lines, w.quiet = true) (within : part <+: .result [] :: .rebootCount n :: lines) :
    Counted limit (d.writes id part) events := by
  refine writesKeep (P := fun e => Counted limit e events) (fun w mem e counted => ?_) counted
  rcases List.mem_cons.mp (within.subset mem) with rfl | mem
  · exact counted.same (writeQuiet id e rfl)
  · rcases List.mem_cons.mp mem with rfl | mem
    · exact counted.recount (fun _ => few)
    · exact counted.same (writeQuiet id e (quiet w mem))

/- Nothing is under way that has not finished. -/
structure Idle (limit : Text → Nat) (events : List TryEvent) (id : Text) (d : RoundDir) : Prop where
  counted : Counted limit d events
  unfinished : (d.tc (fileKey id)).runStatus ≠ some .finished
  settled : ∀ x, d.currentTestcase = some (casesFile x) → (d.tc (fileKey x)).runStatus = some .finished

theorem Idle.fresh (idle : Idle limit events id d) : .entered (fileKey id) ∉ events := by
  intro entered
  rcases idle.counted.tracked _ entered with done | ⟨x,_,current,key,_⟩
  · exact idle.unfinished done
  · exact idle.unfinished (key ▸ idle.settled x current)

theorem Idle.open (idle : Idle limit events id d) :
    ∀ w ∈ [Write.result [],.rebootCount 0], Idle limit events id (d.write id w) := by
  have none := List.count_eq_zero.mpr idle.fresh
  have kept : ∀ w ∈ [Write.result [],.rebootCount 0], ∀ k, ((d.write id w).tc k).runStatus = (d.tc k).runStatus := by
    intro w mem k
    simp only [List.mem_cons,List.not_mem_nil,or_false] at mem
    rcases mem with rfl | rfl <;> by_cases key : k = fileKey id <;> simp [RoundDir.write,TestcaseDir.write,key]
  intro w mem
  refine ⟨?_,by rw [kept w mem]; exact idle.unfinished,fun x current => ?_⟩
  · simp only [List.mem_cons,List.not_mem_nil,or_false] at mem
    rcases mem with rfl | rfl
    · exact idle.counted.same (writeQuiet id d rfl)
    · exact idle.counted.recount (fun _ => by omega)
  · rw [kept w mem]
    simp only [List.mem_cons,List.not_mem_nil,or_false] at mem
    rcases mem with rfl | rfl <;> exact idle.settled x current

theorem runningKeeps {w : Write} (mem : w ∈ .runStatus .running :: resetPerTestcaseCounters)
    (held : Counted limit d events ∧ (d.tc (fileKey id)).runStatus ≠ some .finished) :
    Counted limit (d.write id w) events ∧ ((d.write id w).tc (fileKey id)).runStatus ≠ some .finished := by
  rcases List.mem_cons.mp mem with rfl | mem
  · exact ⟨held.1.status (.inr held.2),by simp [RoundDir.write,TestcaseDir.write]⟩
  · have quiet : ∀ v ∈ resetPerTestcaseCounters, v.quiet = true := by decide
    have same := writeQuiet id d (quiet w mem)
    exact ⟨held.1.same same,by rw [same.status]; exact held.2⟩

theorem Idle.begin (idle : Idle limit events id d) {part : List Write} (within : part <+: startBegin id) :
    Counted limit (d.writes id part) events := by
  rcases prefixSplit (a := [Write.result [],.rebootCount 0]) within with ⟨early,_⟩ | ⟨rest,rfl,later⟩
  · exact (writesKeep (P := Idle limit events id) (fun w mem e idle => idle.open w (early.subset mem)) idle).counted
  · have opened := writesKeep (P := Idle limit events id) (fun w mem e idle => idle.open w mem) idle
    have counts : ((d.writes id [.result [],.rebootCount 0]).tc (fileKey id)).rebootCount ≠ none := by
      rw [writesKey]
      exact Option.some_ne_none 0
    rw [writesAppend]
    generalize d.writes id [.result [],.rebootCount 0] = e at opened counts
    rcases List.prefix_cons_iff.mp later with rfl | ⟨more,rfl,last⟩
    · exact opened.counted
    · have current := opened.counted.replace counts opened.fresh (fun x named => .inr (opened.settled x named))
      have still : ((e.write id (.currentTestcase (casesFile id))).tc (fileKey id)).runStatus ≠ some .finished := by
        simpa [RoundDir.write,TestcaseDir.write] using opened.unfinished
      exact (writesKeep (P := fun e => Counted limit e events ∧ (e.tc (fileKey id)).runStatus ≠ some .finished)
        (fun w mem e held => runningKeeps (last.subset mem) held) ⟨current,still⟩).1

/- From `do_soft_try` on, or from the line that ends the testcase. -/
theorem Counted.end (counted : Counted limit d events) (current : d.currentTestcase = some (casesFile id))
    {ws : List Write} (quiet : ∀ w ∈ ws, w.quiet = true) {part : List Write} (within : part <+: ws ++ finishWrites) :
    Counted limit (d.writes id part)
      (events ++ if .runStatus .finished ∈ part then [.finished (fileKey id)] else []) := by
  have loud : .runStatus .finished ∉ ws := fun mem => absurd (quiet _ mem) (by decide)
  rcases prefixSplit within with ⟨early,_⟩ | ⟨rest,rfl,later⟩
  · rw [if_neg (fun mem => loud (early.subset mem)),List.append_nil]
    exact counted.same (writesQuiet id d (fun w mem => quiet w (early.subset mem)))
  · have same := writesQuiet id d quiet
    have tried := counted.same same
    rw [writesAppend]
    rcases List.prefix_cons_iff.mp later with rfl | ⟨more,rfl,tail⟩
    · rw [if_neg (by simpa using loud),List.append_nil]
      exact tried
    · rw [if_pos (by simp)]
      have own : ∀ x, (d.writes id ws).currentTestcase = some (casesFile x) → x = id := by
        intro x named
        rw [same.current,current] at named
        exact (casesFileInj (Option.some.inj named)).symm
      generalize d.writes id ws = e at tried own
      have finished : ((e.write id (.runStatus .finished)).tc (fileKey id)).runStatus = some .finished := by
        simp [RoundDir.write,TestcaseDir.write]
      have ended := Counted.finishing (tried.status (.inl rfl)) finished
      rcases List.prefix_cons_iff.mp tail with rfl | ⟨most,rfl,last⟩
      · exact ended
      · have removed := ended.remove finished own
        refine removed.same (writesQuiet id _ (fun w mem => ?_))
        rw [List.mem_singleton.mp (last.subset mem)]
        rfl

end Steps

section Made
variable {cases : Cases} {env : Env} {id : Text} {c : Call} {d : RoundDir} {part : List Write} {limit : Text → Nat}
  {events : List TryEvent}

theorem eventsNone (never : beforeSoftTry cases env id c d = none) :
    CallMade.events cases env ⟨id,c,d,part⟩ = if .runStatus .finished ∈ part then [.finished (fileKey id)] else [] := by
  simp [CallMade.events,never]

theorem eventsEarly {pre : List Write} (before : beforeSoftTry cases env id c d = some pre)
    (inner : .runStatus .finished ∉ pre) (within : part <+: pre) (short : part.length < pre.length) :
    CallMade.events cases env ⟨id,c,d,part⟩ = [] := by
  have unended : .runStatus .finished ∉ part := fun mem => inner (within.subset mem)
  simp [CallMade.events,before,unended,short]

theorem eventsLate {pre rest : List Write} (before : beforeSoftTry cases env id c d = some pre)
    (inner : .runStatus .finished ∉ pre) : CallMade.events cases env ⟨id,c,d,pre ++ rest⟩ =
      .entered (fileKey id) :: if .runStatus .finished ∈ rest then [.finished (fileKey id)] else [] := by
  simp [CallMade.events,before,inner]

theorem softTryQuiet (env : Env) (c : Call) (k : Counters) : ∀ w ∈ softTryWrites env c k, w.quiet = true := by
  intro w mem
  obtain ⟨e,_,rfl⟩ := List.mem_map.mp mem
  exact effectQuiet e

/- A call that enters `do_soft_try`, told by what it does before and by what holds there. -/
theorem Counted.try {pre : List Write} {k : Counters} {n : Nat} (before : beforeSoftTry cases env id c d = some pre)
    (inner : .runStatus .finished ∉ pre) (begun : ∀ part, part <+: pre → Counted limit (d.writes id part) events)
    (current : (d.writes id pre).currentTestcase = some (casesFile id))
    (unfinished : ((d.writes id pre).tc (fileKey id)).runStatus ≠ some .finished)
    (count : ((d.writes id pre).tc (fileKey id)).rebootCount = some n)
    (fewer : events.count (.entered (fileKey id)) ≤ n) (allowed : n ≤ limit (fileKey id))
    (within : part <+: pre ++ (softTryWrites env c k ++ finishWrites)) :
    Counted limit (d.writes id part) (events ++ CallMade.events cases env ⟨id,c,d,part⟩) := by
  rcases prefixSplit within with ⟨early,short⟩ | ⟨rest,rfl,later⟩
  · rw [eventsEarly before inner early short,List.append_nil]
    exact begun part early
  · rw [eventsLate before inner,writesAppend,List.append_cons]
    exact ((begun pre (List.prefix_refl pre)).entering current unfinished count fewer allowed).end current
      (softTryQuiet env c k) later

theorem skippedCounted {fx : List Effect} (counted : Counted limit d events)
    (unfinished : (d.tc (fileKey id)).runStatus ≠ some .finished)
    (within : part <+: skipBody env id fx ++ [.runStatus .skipped]) : Counted limit (d.writes id part) events := by
  refine (writesKeep (P := fun e => Counted limit e events ∧ (e.tc (fileKey id)).runStatus ≠ some .finished)
    (fun w mem e held => ?_) ⟨counted,unfinished⟩).1
  rcases List.mem_append.mp (within.subset mem) with body | last
  · have quiet : w.quiet = true := by
      rcases List.mem_cons.mp body with rfl | body
      · rfl
      · obtain ⟨x,_,rfl⟩ := List.mem_map.mp body
        exact effectQuiet x
    have same := writeQuiet id e quiet
    exact ⟨held.1.same same,by rw [same.status]; exact held.2⟩
  · rw [List.mem_singleton.mp last]
    exact ⟨held.1.status (.inr held.2),by simp [RoundDir.write,TestcaseDir.write]⟩

/- The else branch: the testcase becomes the current one, and nothing stood in its place. -/
theorem startedCounted (once : env.again = false) (idle : Idle limit events id d)
    (yes : executes cases env id c d = true) (restart : restarts env id d = false)
    (within : part <+: executeBody env id c d.currentTestcase (d.tc (fileKey id)) ++ finishWrites) :
    Counted limit (d.writes id part) (events ++ CallMade.events cases env ⟨id,c,d,part⟩) := by
  have before : beforeSoftTry cases env id c d = some (startBegin id) := by
    simp [beforeSoftTry,yes,restart,clearWrites,once]
  have body : executeBody env id c d.currentTestcase (d.tc (fileKey id)) = startBegin id ++ softTryWrites env c .zero := by
    have other : ¬ (env.testRunMode && d.currentTestcase == some ("cases/".toList ++ id)) = true :=
      ne_true_of_eq_false restart
    rw [executeBody,if_neg other]
    rfl
  rw [body,List.append_assoc] at within
  have inner : .runStatus .finished ∉ startBegin id := by simp [startBegin,resetPerTestcaseCounters]
  refine Counted.try before inner (fun part early => idle.begin early) rfl ?_ ?_ (n := 0) ?_ (Nat.zero_le _) within
  · rw [writesKey]
    simp [startBegin,resetPerTestcaseCounters,TestcaseDir.write]
  · rw [writesKey]
    rfl
  · rw [List.count_eq_zero.mpr idle.fresh]

theorem restartBody (restart : restarts env id d = true) :
    executeBody env id c d.currentTestcase (d.tc (fileKey id)) =
      .result [] :: restartWrites env id c (d.tc (fileKey id)) := by
  have same : (env.testRunMode && d.currentTestcase == some ("cases/".toList ++ id)) = true := restart
  rw [executeBody,if_pos same]

section Restart
variable {n : Nat} (once : env.again = false) (yes : executes cases env id c d = true)
  (restart : restarts env id d = true) (count : (d.tc (fileKey id)).rebootCount = some n)
  (current : d.currentTestcase = some (casesFile id))
  (rebooted : ∀ lines part : List Write, (∀ w ∈ lines, w.quiet = true) →
    part <+: .result [] :: .rebootCount (n+1) :: lines → Counted limit (d.writes id part) events)
  (within : part <+: executeBody env id c d.currentTestcase (d.tc (fileKey id)) ++ finishWrites)
include once yes restart count current rebooted within

theorem givenUpCounted (most : c.maxReboot < n+1) :
    Counted limit (d.writes id part) (events ++ CallMade.events cases env ⟨id,c,d,part⟩) := by
  have never : beforeSoftTry cases env id c d = none := by
    simp [beforeSoftTry,yes,restart,once,count,most]
  have whole : executeBody env id c d.currentTestcase (d.tc (fileKey id)) =
      [.result [],.rebootCount (n+1)] ++ [.result [tooManyReboots c]] := by
    simp [restartBody restart,restartWrites,count,most]
  rw [whole,List.append_assoc] at within
  rw [eventsNone never]
  rcases prefixSplit within with ⟨early,_⟩ | ⟨rest,rfl,later⟩
  · have open_ : .runStatus .finished ∉ part := fun mem => by simpa using early.subset mem
    rw [if_neg open_,List.append_nil]
    exact rebooted [] part (by simp) early
  · have quiet : ∀ w ∈ [Write.result [tooManyReboots c]], w.quiet = true := by simp [Write.quiet]
    have ended := (rebooted [] _ (by simp) (List.prefix_refl _)).end current quiet later
    have inside : .runStatus .finished ∈ [Write.result [],.rebootCount (n+1)] ++ rest ↔
        .runStatus .finished ∈ rest := by simp
    rw [writesAppend,if_congr inside rfl rfl]
    exact ended

theorem restartedCounted (unfinished : (d.tc (fileKey id)).runStatus ≠ some .finished)
    (few : events.count (.entered (fileKey id)) ≤ n+1) (allowed : n+1 ≤ c.maxReboot)
    (max : c.maxReboot = limit (fileKey id)) :
    Counted limit (d.writes id part) (events ++ CallMade.events cases env ⟨id,c,d,part⟩) := by
  have most : ¬ c.maxReboot < n+1 := by omega
  have before : beforeSoftTry cases env id c d =
      some [.result [],.rebootCount (n+1),.result [restartLine id (n+2)]] := by
    simp [beforeSoftTry,yes,restart,once,count,most,clearWrites]
  have whole : executeBody env id c d.currentTestcase (d.tc (fileKey id)) =
      [.result [],.rebootCount (n+1),.result [restartLine id (n+2)]] ++
        softTryWrites env c (d.tc (fileKey id)).counters := by
    simp [restartBody restart,restartWrites,count,most]
  rw [whole,List.append_assoc] at within
  refine Counted.try before (by simp) ?_ current ?_ ?_ (n := n+1) few (by omega) within
  · exact fun part early => rebooted [.result [restartLine id (n+2)]] part (by simp [Write.quiet]) early
  · rw [writesKey]
    simpa [TestcaseDir.write] using unfinished
  · rw [writesKey]
    rfl

end Restart

theorem callCounted (once : env.again = false) (tested : env.testRunMode = true)
    (max : c.maxReboot = limit (fileKey id)) (undisturbed : CallMade.Undisturbed cases env ⟨id,c,d,part⟩)
    (counted : Counted limit d events) (within : part <+: runRecipe cases env id c d) :
    Counted limit (d.writes id part) (events ++ CallMade.events cases env ⟨id,c,d,part⟩) := by
  rcases executesCases cases once id c d with
    ⟨no,nothing | ⟨unfinished,fx,ws⟩⟩ | ⟨yes,unfinished,ws⟩
  · rw [nothing] at within
    rw [List.prefix_nil.mp within,eventsNone (by simp [beforeSoftTry,no]),if_neg (by simp),List.append_nil]
    exact counted
  · rw [ws] at within
    have open_ : .runStatus .finished ∉ part := by
      intro mem
      rcases List.mem_append.mp (within.subset mem) with body | last
      · exact absurd (skipBodyInner env id fx body) (by decide)
      · simp at last
    rw [eventsNone (by simp [beforeSoftTry,no]),if_neg open_,List.append_nil]
    exact skippedCounted counted unfinished within
  · rw [ws] at within
    cases restart : restarts env id d with
    | false => exact startedCounted once ⟨counted,unfinished,undisturbed yes restart⟩ yes restart within
    | true =>
      have current : d.currentTestcase = some (casesFile id) := by
        simpa [restarts,tested] using restart
      cases count : (d.tc (fileKey id)).rebootCount with
      | none => exact absurd count (counted.recorded id current)
      | some n =>
        have few : events.count (.entered (fileKey id)) ≤ n+1 := counted.few unfinished count
        have rebooted : ∀ lines part : List Write, (∀ w ∈ lines, w.quiet = true) →
            part <+: .result [] :: .rebootCount (n+1) :: lines → Counted limit (d.writes id part) events :=
          fun _ _ quiet early => counted.reboot (by omega) quiet early
        rcases Nat.lt_or_ge c.maxReboot (n+1) with most | allowed
        · exact givenUpCounted once yes restart count current rebooted within most
        · exact restartedCounted once yes restart count current rebooted within unfinished few allowed max

end Made

/-! ### Invocations -/

def leftBy (d : RoundDir) (log : List Execution) : RoundDir := log.foldl (fun d e => d.writes e.id e.writes) d

/- Each call of the log makes a beginning of its writes in the directory that the calls before it left. -/
def Logged (cases : Cases) (env : Env) (calls : Nat → Call) : Nat → RoundDir → List Execution → Prop
  | _, _, [] => True
  | k, d, e::log => e.writes <+: runRecipe cases env e.id (calls k) d ∧
      Logged cases env calls (k+1) (d.writes e.id e.writes) log

section Log
variable {cases : Cases} {env : Env} {calls : Nat → Call}

theorem Logged.snoc {k : Nat} {d : RoundDir} {log : List Execution} (logged : Logged cases env calls k d log)
    {e : Execution} (made : e.writes <+: runRecipe cases env e.id (calls (k + log.length)) (leftBy d log)) :
    Logged cases env calls k d (log ++ [e]) := by
  induction log generalizing k d with
  | nil => exact ⟨made,trivial⟩
  | cons f log ih =>
    refine ⟨logged.1,ih logged.2 ?_⟩
    rwa [List.length_cons,← Nat.add_assoc,Nat.add_right_comm] at made

structure Tied (cases : Cases) (env : Env) (calls : Nat → Call) (d : RoundDir) (s : Exec) : Prop where
  logged : Logged cases env calls 0 d s.log
  left : s.dir = leftBy d s.log

theorem Tied.call {d : RoundDir} {s : Exec} (tied : Tied cases env calls d s) {cut : List Write → List Write}
    (part : ∀ ws, cut ws <+: ws) (id : Text) : Tied cases env calls d (s.call cases env calls cut id) := by
  refine ⟨tied.logged.snoc ?_,?_⟩
  · rw [Nat.zero_add,← tied.left]
    exact part _
  · simp only [Exec.call,leftBy,List.foldl_append,List.foldl_cons,List.foldl_nil]
    rw [← leftBy,← tied.left]

theorem Tied.acts {d : RoundDir} {s : Exec} (tied : Tied cases env calls d s) (acts : List Act) :
    Tied cases env calls d (acts.foldl (Exec.act cases env calls) s) := by
  induction acts generalizing s with
  | nil => exact tied
  | cons a acts ih =>
    refine ih ?_
    cases a with
    | recipe pid id sourced => exact tied.call List.prefix_refl id
    | _ => exact tied

end Log

structure SameTestcases (d e : RoundDir) : Prop where
  tc : e.tc = d.tc
  current : e.currentTestcase = d.currentTestcase

theorem startupTestcases (cases : Cases) (env : Env) (d : RoundDir) (n : Nat) :
    SameTestcases d (((startup cases env).take n).foldl (fun d f => f d) d) := by
  have each : ∀ f ∈ startup cases env, ∀ d, SameTestcases d (f d) := by
    intro f mem d
    simp only [startup,List.mem_cons,List.not_mem_nil,or_false] at mem
    rcases mem with rfl | rfl | rfl | rfl | rfl | rfl | rfl
    · exact ⟨rfl,rfl⟩
    · unfold makeFullList; split <;> exact ⟨rfl,rfl⟩
    · unfold copyFullList; split <;> exact ⟨rfl,rfl⟩
    · unfold forgetFinished; split <;> exact ⟨rfl,rfl⟩
    · unfold writeRemaining; split <;> (try split) <;> exact ⟨rfl,rfl⟩
    · unfold filterRemaining; split <;> exact ⟨rfl,rfl⟩
    · unfold applyFilter; split <;> exact ⟨rfl,rfl⟩
  have part : ∀ f ∈ (startup cases env).take n, ∀ d, SameTestcases d (f d) := fun f mem => each f (List.mem_of_mem_take mem)
  generalize (startup cases env).take n = steps at part
  induction steps generalizing d with
  | nil => exact ⟨rfl,rfl⟩
  | cons f steps ih =>
    have first := part f (by simp) d
    have rest := ih (f d) (fun g mem => part g (by simp [mem]))
    exact ⟨rest.tc.trans first.tc,rest.current.trans first.current⟩

theorem readyTestcases (cases : Cases) (env : Env) (d : RoundDir) : SameTestcases d (ready cases env d) := by
  have whole := startupTestcases cases env d 7
  rw [List.take_of_length_le (by simp [startup])] at whole
  exact ⟨whole.tc,whole.current⟩

theorem runTestShTied (cases : Cases) (env : Env) (s : Session) (d : RoundDir) :
    Logged cases env s.calls 0 (ready cases env d) (runTestSh cases env s d).log ∧
    SameTestcases (leftBy (ready cases env d) (runTestSh cases env s d).log) (runTestSh cases env s d).dir := by
  have begun : Tied cases env s.calls (ready cases env d) ⟨ready cases env d,[]⟩ := ⟨trivial,rfl⟩
  have prep := readyTestcases cases env d
  rcases runTestShCases cases env s d with
    ⟨n,_,eq⟩ | ⟨_,eq⟩ | ⟨_,eq⟩ | ⟨k,n,_,eq⟩ | ⟨_,eq⟩ <;> rw [eq]
  · have some := startupTestcases cases env d n
    exact ⟨trivial,some.tc.trans prep.tc.symm,some.current.trans prep.current.symm⟩
  · exact ⟨trivial,rfl,rfl⟩
  · exact ⟨trivial,rfl,rfl⟩
  · rcases split : splitCall k (walk cases s.config (ready cases env d).runRecipes) with ⟨pre,last⟩
    have walked := begun.acts pre
    simp only [killedWalk,split]
    cases last with
    | none => exact ⟨walked.logged,congrArg RoundDir.tc walked.left,congrArg RoundDir.currentTestcase walked.left⟩
    | some id =>
      have cut := walked.call (List.take_prefix n) id
      exact ⟨cut.logged,congrArg RoundDir.tc cut.left,congrArg RoundDir.currentTestcase cut.left⟩
  · have walked := begun.acts (walk cases s.config (ready cases env d).runRecipes)
    have tc := congrArg RoundDir.tc walked.left
    have current := congrArg RoundDir.currentTestcase walked.left
    unfold wholeWalk
    split
    · exact ⟨walked.logged,tc,current⟩
    · exact ⟨walked.logged,tc,current⟩

theorem Counted.testcases {limit : Text → Nat} {events : List TryEvent} {d e : RoundDir} (counted : Counted limit d events)
    (same : SameTestcases d e) : Counted limit e events :=
  counted.same ⟨same.current,fun k => by rw [same.tc],fun k => by rw [same.tc]⟩

/- The harness in test run mode without AGAIN, with the same MAX_REBOOT in every call of a testcase. -/
structure Invocation.Tests (cases : Cases) (limit : Text → Nat) (d : RoundDir) (inv : Invocation) : Prop where
  tested : inv.env.testRunMode = true
  once : inv.env.again = false
  limits : ∀ m ∈ callsMade cases inv d, m.call.maxReboot = limit (fileKey m.id)

def Invocation.Undisturbed (cases : Cases) (d : RoundDir) (inv : Invocation) : Prop :=
  ∀ m ∈ callsMade cases inv d, m.Undisturbed cases inv.env

theorem loggedCounted {cases : Cases} {env : Env} {calls : Nat → Call} {limit : Text → Nat} (tested : env.testRunMode = true)
    (once : env.again = false) {k : Nat} {d : RoundDir} {log : List Execution} {events : List TryEvent}
    (logged : Logged cases env calls k d log)
    (limits : ∀ m ∈ callsFrom calls k d log, m.call.maxReboot = limit (fileKey m.id))
    (undisturbed : ∀ m ∈ callsFrom calls k d log, m.Undisturbed cases env) (counted : Counted limit d events) :
    Counted limit (leftBy d log) (events ++ (callsFrom calls k d log).flatMap (CallMade.events cases env)) := by
  induction log generalizing k d events with
  | nil =>
    rw [callsFrom,List.flatMap_nil,List.append_nil]
    exact counted
  | cons e log ih =>
    have called := callCounted once tested (limits _ List.mem_cons_self) (undisturbed _ List.mem_cons_self) counted logged.1
    have rest := ih logged.2 (fun m mem => limits m (List.mem_cons_of_mem _ mem))
      (fun m mem => undisturbed m (List.mem_cons_of_mem _ mem)) called
    rw [callsFrom,List.flatMap_cons,← List.append_assoc]
    exact rest

theorem invocationCounted {cases : Cases} {limit : Text → Nat} {s : Rebooting} {inv : Invocation}
    (tests : inv.Tests cases limit s.dir) (undisturbed : inv.Undisturbed cases s.dir)
    (counted : Counted limit s.dir s.events) {t : Rebooting} (stepped : s.step cases inv = some t) :
    Counted limit t.dir t.events := by
  cases Option.some.inj stepped
  obtain ⟨logged,left⟩ := runTestShTied cases inv.env inv.session s.dir
  have begun := counted.testcases (readyTestcases cases inv.env s.dir)
  exact (loggedCounted tests.tested tests.once logged tests.limits undisturbed begun).testcases left

theorem rebootsBounded {cases : Cases} {limit : Text → Nat} {list : Option (List Text)} {invs : List Invocation}
    {s : Rebooting} (along : Machine.Along (Rebooting.step cases)
      (fun s inv => inv.Tests cases limit s.dir ∧ inv.Undisturbed cases s.dir) (.start list) invs)
    (ran : Machine.run (Rebooting.step cases) (.start list) invs = some s) : RebootBound limit s.events := by
  have fresh : Counted limit (Rebooting.start list).dir (Rebooting.start list).events :=
    ⟨⟨fun k => Nat.zero_le _,List.Pairwise.nil⟩,fun x current => by contradiction,fun k entered => by contradiction,
      fun k done => by contradiction⟩
  exact (Machine.runKeeps (fun s => Counted limit s.dir s.events)
    (fun counted guard stepped => invocationCounted guard.1 guard.2 counted stepped) fresh along ran).toRebootBound

theorem undisturbedIff (cases : Cases) (env : Env) (m : CallMade) : m.Undisturbed cases env ↔
    executes cases env m.id m.call m.before = false ∨ restarts env m.id m.before = true ∨
      ∀ file ∈ m.before.currentTestcase, startsWith (casesFile []) file = true →
        (m.before.tc (fileKey (file.drop (casesFile []).length))).runStatus = some .finished := by
  have begins : ∀ x, casesFile x = casesFile [] ++ x := fun x => rfl
  constructor
  · intro undisturbed
    cases yes : executes cases env m.id m.call m.before with
    | false => exact .inl rfl
    | true =>
      cases restart : restarts env m.id m.before with
      | true => exact .inr (.inl rfl)
      | false =>
        refine .inr (.inr (fun file current named => ?_))
        obtain ⟨x,rfl⟩ := List.isPrefixOf_iff_prefix.mp named
        rw [List.drop_left]
        exact undisturbed yes restart x current
  · rintro (no | restart | settled) yes fresh x current
    · rw [no] at yes; contradiction
    · rw [restart] at fresh; contradiction
    · have done := settled (casesFile x) current (by rw [begins x,startsWith]; simp)
      rwa [begins x,List.drop_left] at done

instance (cases : Cases) (env : Env) (m : CallMade) : Decidable (m.Undisturbed cases env) :=
  decidable_of_iff _ (undisturbedIff cases env m).symm

instance (cases : Cases) (d : RoundDir) (inv : Invocation) : Decidable (inv.Undisturbed cases d) := by
  unfold Invocation.Undisturbed
  infer_instance

instance (cases : Cases) (limit : Text → Nat) (d : RoundDir) (inv : Invocation) : Decidable (inv.Tests cases limit d) :=
  decidable_of_iff (inv.env.testRunMode = true ∧ inv.env.again = false ∧
    ∀ m ∈ callsMade cases inv d, m.call.maxReboot = limit (fileKey m.id))
    ⟨fun h => ⟨h.1,h.2.1,h.2.2⟩,fun h => ⟨h.1,h.2,h.3⟩⟩

def rebootingAt (limit : Nat) (kill : Option Kill) : Invocation :=
  ⟨{ Env.initial with testRunMode := true },⟨fun _ _ => 0,fun _ => { passingCall with maxReboot := limit },kill⟩⟩

def threeCases : Cases :=
  [⟨"b".toList,"TEST_PRIORITY=3".toList⟩,⟨"d/a".toList,"TEST_PRIORITY=2".toList⟩,⟨"d/x".toList,"TEST_PRIORITY=1".toList⟩]

/- `d/a` is rebooted twice and finished by the third invocation. -/
theorem rebootsBoundedOnce : ∃ s, Machine.run (Rebooting.step threeCases) (.start (some ["d/a".toList]))
      [rebootingAt 1 (some (.call 0 10)),rebootingAt 1 (some (.call 0 4)),rebootingAt 1 none] = some s ∧
    s.events.count (.entered "d/a".toList) = 2 ∧ RebootBound (fun _ => 1) s.events :=
  have along : Machine.Along (Rebooting.step threeCases) (fun s inv => inv.Tests threeCases (fun _ => 1) s.dir ∧
      inv.Undisturbed threeCases s.dir) (.start (some ["d/a".toList]))
      [rebootingAt 1 (some (.call 0 10)),rebootingAt 1 (some (.call 0 4)),rebootingAt 1 none] := by decide
  ⟨_,rfl,by decide,rebootsBounded along rfl⟩

/- `d/a` is killed in `do_soft_try`. The next invocation does not see it, being behind `d/x`, and runs
`b`; `/b` matches no line of the list, so that the third one starts `d/a` afresh. -/
theorem forgottenReboot : ∃ s,
    Machine.Along (Rebooting.step threeCases) (fun s inv => inv.Tests threeCases (fun _ => 0) s.dir)
      (.start (some ["d/a".toList,"d/x".toList,"b".toList]))
      [rebootingAt 0 (some (.call 1 10)),rebootingAt 0 (some (.call 1 0)),rebootingAt 0 none] ∧
    Machine.run (Rebooting.step threeCases) (.start (some ["d/a".toList,"d/x".toList,"b".toList]))
      [rebootingAt 0 (some (.call 1 10)),rebootingAt 0 (some (.call 1 0)),rebootingAt 0 none] = some s ∧
    s.events.count (.entered "d/a".toList) = 2 ∧ ¬ RebootBound (fun _ => 0) s.events := by
  refine ⟨_,by decide,rfl,by decide,fun bounded => ?_⟩
  exact absurd (bounded.bound "d/a".toList) (by decide)

end MmRegression
