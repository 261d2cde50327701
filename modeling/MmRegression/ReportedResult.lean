import MmRegression.Machine
import MmRegression.RunRecipe

/-! Which execution the summary reports. The calls of `run_recipe` in one project
directory are the steps of a machine that also keeps, for every testcase, the
outcome of its latest completed call. -/
namespace MmRegression

def Event.prints : Event → List Text
  | .echo line => [line]
  | .log line => [line]
  | .verbose line => [line]
  | _ => []

def Trial.Silent (bad : Text → Bool) (t : Trial) : Prop :=
  ∀ e ∈ t.events, ∀ l ∈ e.prints, bad l = false

def Free (bad : Text → Bool) (fx : List Effect) : Prop := ∀ l, .line l ∈ fx → bad l = false

def Marked (bad : Text → Bool) : Prop := ∀ l, bad l = true → startsWith resultMark l = true

theorem markedResult : Marked isResult := by
  intro l result
  unfold isResult matchResult at result
  split at result
  · assumption
  · contradiction

theorem Marked.unmarked {bad : Text → Bool} (marked : Marked bad) {l : Text}
    (plain : startsWith resultMark l = false) : bad l = false := by
  cases h : bad l with
  | false => rfl
  | true => rw [marked l h] at plain; contradiction

theorem freeAppend {bad : Text → Bool} {a b : List Effect} (fa : Free bad a) (fb : Free bad b) :
    Free bad (a ++ b) := by
  intro l mem
  rcases List.mem_append.mp mem with mem | mem
  · exact fa l mem
  · exact fb l mem

theorem lineOfEchoLog {env : Env} {line l : Text} (same : Effect.line l = echoLog env line) : l = line := by
  unfold echoLog at same
  split at same
  · exact Effect.line.inj same
  · contradiction

theorem lineOfEchoVerbose {env : Env} {line l : Text} (same : Effect.line l = echoVerbose env line) :
    l = line := by
  unfold echoVerbose at same
  split at same
  · exact Effect.line.inj same
  · contradiction

theorem freeLog {bad : Text → Bool} {line : Text} (plain : bad line = false) (env : Env) :
    Free bad [echoLog env line] := by
  intro l mem
  rw [lineOfEchoLog (List.mem_singleton.mp mem)]
  exact plain

theorem freeCounted {bad : Text → Bool} {line : Text} (plain : bad line = false) (env : Env)
    (e : Effect) (other : ∀ l, e ≠ .line l) : Free bad [e,echoLog env line] := by
  intro l mem
  rcases List.mem_cons.mp mem with same | mem
  · exact absurd same.symm (other l)
  · exact freeLog plain env l mem

theorem freeSkipped {bad : Text → Bool} (marked : Marked bad) (env : Env) (label : Text) :
    Free bad (countSkipped env label) :=
  freeCounted (marked.unmarked rfl) env _ (by simp)

theorem freeEvent {bad : Text → Bool} (marked : Marked bad) (env : Env) {e : Event}
    (silent : ∀ l ∈ e.prints, bad l = false) : Free bad (e.effects env) := by
  cases e with
  | testcount => intro l mem; simp [Event.effects] at mem
  | success known label =>
    cases known
    · exact freeCounted (marked.unmarked rfl) env _ (by simp)
    · exact freeCounted (marked.unmarked rfl) env _ (by simp)
  | failure known label =>
    cases known
    · exact freeCounted (marked.unmarked rfl) env _ (by simp)
    · exact freeCounted (marked.unmarked rfl) env _ (by simp)
  | warning label => exact freeCounted (marked.unmarked rfl) env _ (by simp)
  | skipped label => exact freeSkipped marked env label
  | echo line =>
    intro l mem
    cases List.mem_singleton.mp mem
    exact silent line (by simp [Event.prints])
  | log line => exact freeLog (silent line (by simp [Event.prints])) env
  | verbose line =>
    intro l mem
    rw [lineOfEchoVerbose (List.mem_singleton.mp mem)]
    exact silent line (by simp [Event.prints])

theorem freeTrial {bad : Text → Bool} (marked : Marked bad) (env : Env) {t : Trial}
    (silent : t.Silent bad) : Free bad (t.effects env) := by
  intro l mem
  obtain ⟨e,member,mem⟩ := List.mem_flatMap.mp mem
  exact freeEvent marked env (silent e member) l mem

theorem freeNotes {bad : Text → Bool} (env : Env) {ls : List Text} (plain : ∀ l ∈ ls, bad l = false) :
    Free bad (ls.map (echoLog env)) := by
  intro l mem
  obtain ⟨line,member,same⟩ := List.mem_map.mp mem
  rw [lineOfEchoLog same.symm]
  exact plain line member

section Retry
variable {bad : Text → Bool} (marked : Marked bad) (env : Env) {trials : Nat → Nat → Trial}
  (silent : ∀ s h, (trials s h).Silent bad)
include marked silent

theorem doTestTryInFree (soft hard : Nat) {p : Proc} (free : Free bad p.effects) :
    Free bad (doTestTryIn env trials soft hard p).2.effects := by
  rw [doTestTryInProc]
  refine freeAppend (freeAppend free ?_) (freeTrial marked env (silent soft hard))
  intro l mem
  simp at mem

theorem hardBodyFree (soft hard : Nat) (p : Proc) (free : Free bad p.effects) :
    Free bad (hardBody env trials soft hard p).2.effects := by
  refine freeAppend (doTestTryInFree marked env silent soft hard
    (freeAppend free (freeLog (marked.unmarked rfl) env))) (freeNotes env ?_)
  intro l mem
  unfold hardNote at mem
  split at mem
  · rw [List.mem_singleton.mp mem]; exact marked.unmarked rfl
  · rw [List.mem_singleton.mp mem]; exact marked.unmarked rfl
  · contradiction

theorem doHardTryFree (soft : Nat) {p : Proc} (free : Free bad p.effects) :
    Free bad (doHardTry env trials soft p).2.effects := by
  unfold doHardTry
  split
  · exact doTestTryInFree marked env silent soft 1 free
  · exact doTestTryInFree marked env silent soft 1 free
  · exact Loop.runKeeps (fun q => Free bad q.effects) hardStop
      (fun h q => hardBodyFree marked env silent soft h q) _ _ free

theorem softBodyFree (soft : Nat) (p : Proc) (free : Free bad p.effects) :
    Free bad (softBody env trials soft p).2.effects := by
  refine freeAppend (doHardTryFree marked env silent soft
    (freeAppend free (freeLog (marked.unmarked rfl) env))) (freeNotes env ?_)
  intro l mem
  unfold softNote at mem
  split at mem
  · rw [List.mem_singleton.mp mem]; exact marked.unmarked rfl
  · rw [List.mem_singleton.mp mem]; exact marked.unmarked rfl
  · rw [List.mem_singleton.mp mem]; exact marked.unmarked rfl
  · contradiction

theorem softTriesFree {p : Proc} (free : Free bad p.effects) :
    Free bad (softTries env trials p).2.effects := by
  unfold softTries
  split
  · exact doHardTryFree marked env silent 1 free
  · exact doHardTryFree marked env silent 1 free
  · exact Loop.runKeeps (fun q => Free bad q.effects) softStop
      (fun s q => softBodyFree marked env silent s q) _ _ free

end Retry

def written (ws : List Write) : List Text :=
  ws.flatMap (fun w => match w with | .result lines => lines | _ => [])

def printed (fx : List Effect) : List Text :=
  fx.filterMap (fun e => match e with | .line l => some l | _ => none)

theorem writtenAppend (a b : List Write) : written (a ++ b) = written a ++ written b := by
  simp [written]

theorem writtenEffects (fx : List Effect) : written (fx.map Effect.write) = printed fx := by
  induction fx with
  | nil => rfl
  | cons e fx ih =>
    cases e <;> simpa [written,printed,Effect.write] using ih

theorem memPrinted {fx : List Effect} {l : Text} : l ∈ printed fx ↔ .line l ∈ fx := by
  simp only [printed,List.mem_filterMap]
  constructor
  · rintro ⟨e,mem,same⟩
    cases e <;> simp at same
    subst same
    exact mem
  · intro mem
    exact ⟨_,mem,rfl⟩

theorem foldResult {ws : List Write} (kept : .clear ∉ ws) (t : TestcaseDir) :
    (ws.foldl TestcaseDir.write t).result.getD [] = t.result.getD [] ++ written ws := by
  induction ws generalizing t with
  | nil => simp [written]
  | cons w ws ih =>
    rw [List.foldl_cons,ih (fun mem => kept (by simp [mem]))]
    cases w with
    | clear => simp at kept
    | result lines => simp [TestcaseDir.write,written]
    | _ => simp [TestcaseDir.write,written]

theorem skipOver {a : List Text} (plain : ∀ l ∈ a, isResult l = false) (b : List Text) :
    (a ++ b).findSome? matchResult = b.findSome? matchResult := by
  have none : a.findSome? matchResult = none := by
    rw [List.findSome?_eq_none_iff]
    intro l mem
    simpa [isResult] using plain l mem
  rw [List.findSome?_append,none,Option.none_or]

theorem softTryWord {env : Env} (loud : 1 ≤ env.loglevel) {c : Call}
    (silent : ∀ s h, (c.trials s h).Silent isResult) (k : Counters) :
    (written (softTryWrites env c k)).findSome? matchResult =
      (verdictOf (doSoftTry env c.trials ⟨k,[]⟩).1).map Verdict.text := by
  have effects : (doSoftTry env c.trials ⟨k,[]⟩).2.effects =
      (softTries env c.trials ⟨k,[]⟩).2.effects ++ verdictLines env (doSoftTry env c.trials ⟨k,[]⟩).1 := rfl
  have free := softTriesFree markedResult env silent (p := ⟨k,[]⟩) (fun l mem => by simp at mem)
  rw [softTryWrites,effects,List.map_append,writtenAppend,writtenEffects,skipOver,writtenEffects]
  · unfold verdictLines
    split
    · rename_i v found
      simp [printed,echoLog,loud,matchResultLine,found]
    · rename_i none
      simp [printed,none]
  · intro l mem
    exact free l (memPrinted.mp mem)

def softTryStatus (env : Env) (id : Text) (c : Call) (current : Option Text) (t : TestcaseDir) : Option Nat :=
  if env.testRunMode && current == some ("cases/".toList ++ id) then
    match t.rebootCount with
    | some n => if c.maxReboot < n+1 then none else some (doSoftTry env c.trials ⟨t.counters,[]⟩).1
    | none => some (doSoftTry env c.trials ⟨t.counters,[]⟩).1
  else some (doSoftTry env c.trials ⟨.zero,[]⟩).1

theorem executeWord {env : Env} (loud : 1 ≤ env.loglevel) (id : Text) {c : Call}
    (silent : ∀ s h, (c.trials s h).Silent isResult) (current : Option Text) (t : TestcaseDir) :
    (written (executeBody env id c current t)).findSome? matchResult =
      ((softTryStatus env id c current t).bind verdictOf).map Verdict.text := by
  have word := softTryWord loud silent
  have restart : ∀ n ws, (written (.result [restartLine id n] :: ws)).findSome? matchResult =
      (written ws).findSome? matchResult := by
    intro n ws
    exact skipOver (a := [restartLine id n])
      (fun l mem => by rw [List.mem_singleton.mp mem]; exact markedResult.unmarked rfl) (written ws)
  simp only [executeBody,softTryStatus]
  split
  · simp only [restartWrites]
    cases t.rebootCount with
    | none => exact (restart 1 _).trans (word t.counters)
    | some n =>
      simp only
      split
      · exact skipOver (a := [tooManyReboots c])
          (fun l mem => by rw [List.mem_singleton.mp mem]; exact markedResult.unmarked rfl) []
      · exact (restart (n+2) _).trans (word t.counters)
  · exact word .zero

/-! ### Calls as steps -/

structure Attempt where
  id : Text
  env : Env
  call : Call
  cut : Option Nat

def Attempt.writes (cases : Cases) (d : RoundDir) (a : Attempt) : List Write :=
  match a.cut with
  | none => runRecipe cases a.env a.id a.call d
  | some n => (runRecipe cases a.env a.id a.call d).take n

def Attempt.Completed (cases : Cases) (d : RoundDir) (a : Attempt) : Prop :=
  .runStatus .finished ∈ a.writes cases d ∨ .runStatus .skipped ∈ a.writes cases d

instance (cases : Cases) (d : RoundDir) (a : Attempt) : Decidable (a.Completed cases d) := by
  unfold Attempt.Completed; infer_instance

def Attempt.outcome (d : RoundDir) (a : Attempt) : Text :=
  match a.call.loadret.bind (recipeLoadCheck a.env a.id a.call) with
  | some _ => Verdict.skip.text
  | none => (((softTryStatus a.env a.id a.call d.currentTestcase
      (if a.env.again then .empty else d.tc (fileKey a.id))).bind verdictOf).map Verdict.text).getD
        "WARN".toList

/-- The directory of a project, and the outcome of the latest completed call of each testcase
since when nothing else has been written for it. -/
structure Ledger where
  dir : RoundDir
  latest : Text → Option Text

def Ledger.start : Ledger := ⟨.fresh,fun _ => none⟩

def Ledger.note (cases : Cases) (s : Ledger) (a : Attempt) (k : Text) : Option Text :=
  if k = fileKey a.id then
    if a.Completed cases s.dir then some (a.outcome s.dir)
    else if a.writes cases s.dir = [] then s.latest k
    else none
  else if .clear ∈ a.writes cases s.dir ∧ startsWith (fileKey a.id ++ ['/']) k then none
  else s.latest k

def Ledger.step (cases : Cases) (s : Ledger) (a : Attempt) : Option Ledger :=
  some ⟨s.dir.writes a.id (a.writes cases s.dir),s.note cases a⟩

def Ledger.Reports (s : Ledger) : Prop :=
  ∀ k v, s.latest k = some v → testcaseResult (s.dir.tc k) = v

def Attempt.Executes (cases : Cases) (d : RoundDir) (a : Attempt) : Prop :=
  Runs cases a.env a.id (d.tc (fileKey a.id)) ∧
    ∃ loadret, a.call.loadret = some loadret ∧ recipeLoadCheck a.env a.id a.call loadret = none

def Unspoiled (cases : Cases) (s : Ledger) (a : Attempt) : Prop :=
  a.Executes cases s.dir → 1 ≤ a.env.loglevel ∧
    (a.env.again = true ∨ ∀ l ∈ (s.dir.tc (fileKey a.id)).result.getD [], isResult l = false)

def Attempt.Silent (a : Attempt) : Prop := ∀ s h, (a.call.trials s h).Silent isResult

theorem attemptTakes (cases : Cases) (d : RoundDir) (a : Attempt) :
    ∃ n, a.writes cases d = (runRecipe cases a.env a.id a.call d).take n := by
  unfold Attempt.writes
  split
  · exact ⟨_,(List.take_length).symm⟩
  · exact ⟨_,rfl⟩

theorem foldClear (env : Env) (t : TestcaseDir) :
    (clearWrites env).foldl TestcaseDir.write t = if env.again then .empty else t := by
  unfold clearWrites
  split <;> rfl

theorem testcaseResultFinished (t : TestcaseDir) (m : Nat) :
    testcaseResult ((.runStatus .finished :: [Write.removeCurrent,.finishedTestcase].take m).foldl
      TestcaseDir.write t) = ((t.result.getD []).findSome? matchResult).getD "WARN".toList := by
  have same : (.runStatus .finished :: [Write.removeCurrent,.finishedTestcase].take m).foldl
      TestcaseDir.write t = { t with runStatus := some .finished } := by
    match m with
    | 0 => rfl
    | 1 => rfl
    | _+2 => rw [List.take_of_length_le (by simp)]; rfl
  rw [same]
  rfl

theorem executedReports {cases : Cases} {d : RoundDir} {a : Attempt} (executes : a.Executes cases d)
    (completed : a.Completed cases d) :
    testcaseResult ((d.writes a.id (a.writes cases d)).tc (fileKey a.id)) =
      ((((if a.env.again then TestcaseDir.empty else d.tc (fileKey a.id)).result.getD []) ++
        written (executeBody a.env a.id a.call d.currentTestcase
          (if a.env.again then .empty else d.tc (fileKey a.id)))).findSome? matchResult).getD "WARN".toList := by
  obtain ⟨⟨found,fresh,suffix⟩,loadret,load,check⟩ := executes
  have ws : runRecipe cases a.env a.id a.call d = clearWrites a.env ++
      (executeBody a.env a.id a.call d.currentTestcase
        (if a.env.again then .empty else d.tc (fileKey a.id)) ++ finishWrites) := by
    simp [runRecipe,found,fresh,suffix,load,check]
  have inner := fun w => executeBodyInner a.env a.id a.call d.currentTestcase
    (if a.env.again then .empty else d.tc (fileKey a.id)) (w := w)
  generalize executeBody a.env a.id a.call d.currentTestcase
    (if a.env.again then .empty else d.tc (fileKey a.id)) = body at ws inner ⊢
  obtain ⟨n,taken⟩ := attemptTakes cases d a
  rw [← List.append_assoc] at ws
  have ended : .runStatus .finished ∈ ((clearWrites a.env ++ body) ++ finishWrites).take n := by
    rcases completed with mem | mem
    · rwa [taken,ws] at mem
    · rw [taken,ws] at mem
      rcases List.mem_append.mp (List.mem_of_mem_take mem) with mem | mem
      · exact absurd mem (notEarly inner rfl (by simp))
      · exact absurd mem (by decide)
  obtain ⟨m,through⟩ := takeThrough (b := [.removeCurrent,.finishedTestcase])
    (notEarly inner rfl (by simp)) ended
  have kept : Write.clear ∉ body := fun mem => absurd (inner _ mem) (by decide)
  rw [writesKey,taken,ws,show finishWrites = .runStatus .finished :: [.removeCurrent,.finishedTestcase] from rfl,
    through,List.foldl_append,testcaseResultFinished,List.foldl_append,foldResult kept,foldClear]

theorem skippedReports {cases : Cases} {d : RoundDir} {a : Attempt} {loadret : Nat} {fx : List Effect}
    (runs : Runs cases a.env a.id (d.tc (fileKey a.id))) (load : a.call.loadret = some loadret)
    (check : recipeLoadCheck a.env a.id a.call loadret = some fx) (completed : a.Completed cases d) :
    testcaseResult ((d.writes a.id (a.writes cases d)).tc (fileKey a.id)) = Verdict.skip.text := by
  obtain ⟨found,fresh,suffix⟩ := runs
  have ws : runRecipe cases a.env a.id a.call d =
      (clearWrites a.env ++ skipBody a.env a.id fx) ++ [.runStatus .skipped] := by
    simp [runRecipe,found,fresh,suffix,load,check]
  have inner := fun w => skipBodyInner a.env a.id fx (w := w)
  obtain ⟨n,taken⟩ := attemptTakes cases d a
  have ended : Write.runStatus .skipped ∈
      ((clearWrites a.env ++ skipBody a.env a.id fx) ++ [Write.runStatus .skipped]).take n := by
    rcases completed with mem | mem
    · rw [taken,ws] at mem
      rcases List.mem_append.mp (List.mem_of_mem_take mem) with mem | mem
      · exact absurd mem (notEarly inner rfl (by simp))
      · exact absurd mem (by decide)
    · rwa [taken,ws] at mem
  obtain ⟨m,through⟩ := takeThrough (notEarly inner rfl (by simp)) ended
  rw [writesKey,taken,ws,through,List.take_nil,List.foldl_append]
  rfl

theorem completedReports {cases : Cases} {s : Ledger} {a : Attempt} (silent : a.Silent)
    (clean : Unspoiled cases s a) (completed : a.Completed cases s.dir) :
    testcaseResult ((s.dir.writes a.id (a.writes cases s.dir)).tc (fileKey a.id)) = a.outcome s.dir := by
  obtain ⟨n,taken⟩ := attemptTakes cases s.dir a
  have member : ∃ st, st ≠ RunStatus.running ∧
      Write.runStatus st ∈ runRecipe cases a.env a.id a.call s.dir := by
    rcases completed with mem | mem
    · exact ⟨.finished,by decide,List.mem_of_mem_take (taken ▸ mem)⟩
    · exact ⟨.skipped,by decide,List.mem_of_mem_take (taken ▸ mem)⟩
  obtain ⟨st,_,mem⟩ := member
  rcases runRecipeCases cases a.env a.id a.call s.dir with
    ⟨_,ws⟩ | ⟨_,ws⟩ | ⟨runs,loadret,load,fx,check,_⟩ | ⟨runs,loadret,load,check,_⟩
  · rw [ws] at mem; contradiction
  · rw [ws] at mem
    exact absurd (memClearWrites mem) (by simp)
  · rw [skippedReports runs load check completed]
    simp [Attempt.outcome,load,check]
  · have executes : a.Executes cases s.dir := ⟨runs,loadret,load,check⟩
    obtain ⟨loud,fresh⟩ := clean executes
    have plain : ∀ l ∈ (if a.env.again then TestcaseDir.empty else s.dir.tc (fileKey a.id)).result.getD [],
        isResult l = false := by
      intro l mem
      split at mem
      · simp [TestcaseDir.empty] at mem
      · rename_i not
        exact (fresh.resolve_left not) l mem
    rw [executedReports executes completed,skipOver plain,executeWord loud a.id silent]
    simp only [Attempt.outcome,load,check,Option.bind_some]

theorem stepReports {cases : Cases} {s t : Ledger} {a : Attempt} (reports : s.Reports)
    (guard : a.Silent ∧ Unspoiled cases s a) (moved : s.step cases a = some t) : t.Reports := by
  cases Option.some.inj moved
  intro k v noted
  simp only [Ledger.note] at noted
  split at noted
  · rename_i same
    subst same
    split at noted
    · rename_i completed
      cases Option.some.inj noted
      exact completedReports guard.1 guard.2 completed
    · split at noted <;> try contradiction
      rename_i nothing
      rw [nothing]
      exact reports _ v noted
  · rename_i other
    split at noted <;> try contradiction
    rename_i apart
    have untouched : (s.dir.writes a.id (a.writes cases s.dir)).tc k = s.dir.tc k := writesOther other s.dir (by
      by_cases mem : Write.clear ∈ a.writes cases s.dir
      · refine .inr ?_
        cases below : startsWith (fileKey a.id ++ ['/']) k with
        | false => rfl
        | true => exact absurd ⟨mem,below⟩ apart
      · exact .inl mem)
    rw [untouched]
    exact reports k v noted

/-- The condition is needed: whatever `do_soft_try` finds, a result line that was there before
the call is what the summary gives. -/
theorem staleLineReported {cases : Cases} {d : RoundDir} {a : Attempt} (executes : a.Executes cases d)
    (completed : a.Completed cases d) (kept : a.env.again = false) {w : Text}
    (stale : ((d.tc (fileKey a.id)).result.getD []).findSome? matchResult = some w) :
    testcaseResult ((d.writes a.id (a.writes cases d)).tc (fileKey a.id)) = w := by
  rw [executedReports executes completed,List.findSome?_append]
  simp [kept,stale]

def oneCase : Cases := [⟨"d/a".toList,"TEST_PRIORITY=5".toList⟩]

theorem passingSilent (bad : Text → Bool) (s h : Nat) : (passingCall.trials s h).Silent bad := by
  intro e mem
  contradiction

def passingAttempt : Attempt := ⟨"d/a".toList,.initial,passingCall,none⟩

def stressCall : Call := { passingCall with testType := "stress".toList }

def skipThenPass : List Attempt :=
  [⟨"d/a".toList,.initial,stressCall,none⟩,
    ⟨"d/a".toList,{ Env.initial with runMode := "all".toList },stressCall,none⟩]

end MmRegression
