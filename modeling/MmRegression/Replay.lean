import MmRegression.Resume
import MmRegression.RoundLoop

/-! What the invocations of `run_test` leave of the directories of testcases, told by the calls
they make. A call under AGAIN empties its directory first, so that nothing older is left there. -/
namespace MmRegression

def Execution.apply (tc : Text → TestcaseDir) (e : Execution) : Text → TestcaseDir :=
  (RoundDir.writes e.id { RoundDir.fresh with tc := tc } e.writes).tc

def replay (tc : Text → TestcaseDir) (log : List Execution) : Text → TestcaseDir := log.foldl Execution.apply tc

def actsOf (r : Nat) (logs : List (Nat × RunLog)) : List Act :=
  (logs.filter (fun l => l.1 == r)).flatMap (fun l => l.2.acts)

def executions (r : Nat) (logs : List (Nat × RunLog)) : List Execution :=
  (logs.filter (fun l => l.1 == r)).flatMap (fun l => l.2.log)

theorem writesAt {id k : Text} {d e : RoundDir} (same : d.tc k = e.tc k) (ws : List Write) :
    (d.writes id ws).tc k = (e.writes id ws).tc k := by
  induction ws generalizing d e with
  | nil => exact same
  | cons w ws ih => exact ih (by simp only [RoundDir.write,same])

theorem writesApply (id : Text) (d : RoundDir) (ws : List Write) :
    (d.writes id ws).tc = Execution.apply d.tc ⟨id,ws⟩ := by
  funext k
  exact writesAt (d := d) (e := { RoundDir.fresh with tc := d.tc }) rfl ws

theorem actReplay (cases : Cases) (env : Env) (calls : Nat → Call) (s : Exec) (a : Act) :
    ∃ new, (s.act cases env calls a).log = s.log ++ new ∧
      (s.act cases env calls a).dir.tc = replay s.dir.tc new := by
  cases a with
  | recipe pid id sourced => exact ⟨[_],rfl,writesApply id s.dir _⟩
  | _ => exact ⟨[],(List.append_nil _).symm,rfl⟩

theorem actsReplay (cases : Cases) (env : Env) (calls : Nat → Call) (s : Exec) (acts : List Act) :
    ∃ new, (acts.foldl (Exec.act cases env calls) s).log = s.log ++ new ∧
      (acts.foldl (Exec.act cases env calls) s).dir.tc = replay s.dir.tc new := by
  induction acts generalizing s with
  | nil => exact ⟨[],(List.append_nil _).symm,rfl⟩
  | cons a acts ih =>
    obtain ⟨first,log,tc⟩ := actReplay cases env calls s a
    obtain ⟨rest,logs,tcs⟩ := ih (s.act cases env calls a)
    refine ⟨first ++ rest,?_,?_⟩
    · rw [List.foldl_cons,logs,log,List.append_assoc]
    · rw [List.foldl_cons,tcs,tc,replay,replay,replay,List.foldl_append]

theorem runTestShReplay (cases : Cases) (env : Env) (s : Session) {d : RoundDir} {list : List Text}
    (listed : d.recipelist = some list) :
    (runTestSh cases env s d).dir.tc = replay d.tc (runTestSh cases env s d).log := by
  have prep : (ready cases env d).tc = d.tc := (preparedStarted cases env listed).tc
  rcases runTestShCases cases env s d with
    ⟨n,_,eq⟩ | ⟨_,eq⟩ | ⟨_,eq⟩ | ⟨k,n,_,eq⟩ | ⟨_,eq⟩ <;> rw [eq]
  · exact (startupStarted cases env listed n).tc
  · exact prep
  · exact prep
  · rw [← prep]
    generalize ready cases env d = e
    rcases split : splitCall k (walk cases s.config e.runRecipes) with ⟨pre,last⟩
    obtain ⟨new,log,tc⟩ := actsReplay cases env s.calls ⟨e,[]⟩ pre
    rw [List.nil_append] at log
    simp only [killedWalk,split]
    cases last with
    | none => rw [Exec.lastCall,log,tc]
    | some id =>
      simp only [Exec.lastCall,Exec.call]
      rw [writesApply,tc,log,replay,replay,List.foldl_append]
      rfl
  · rw [← prep]
    obtain ⟨new,log,tc⟩ := actsReplay cases env s.calls ⟨ready cases env d,[]⟩
      (walk cases s.config (ready cases env d).runRecipes)
    rw [List.nil_append] at log
    rw [← log] at tc
    unfold wholeWalk
    split
    · exact tc
    · exact tc

def Execution.Clears (e : Execution) (k : Text) : Prop :=
  .clear ∈ e.writes ∧ (fileKey e.id = k ∨ startsWith (fileKey e.id ++ ['/']) k = true)

theorem clearedAt {id k : Text} (below : fileKey id = k ∨ startsWith (fileKey id ++ ['/']) k = true)
    {ws : List Write} (clear : .clear ∈ ws) (d e : RoundDir) :
    (d.writes id ws).tc k = (e.writes id ws).tc k := by
  induction ws generalizing d e with
  | nil => contradiction
  | cons w ws ih =>
    rcases List.mem_cons.mp clear with first | later
    · refine writesAt (d := d.write id w) (e := e.write id w) ?_ ws
      subst first
      rcases below with rfl | below
      · simp [RoundDir.write,TestcaseDir.write]
      · simp [RoundDir.write,TestcaseDir.write,below]
    · exact ih later (d.write id w) (e.write id w)

theorem applyAt {tc tc' : Text → TestcaseDir} {k : Text} (same : tc k = tc' k) (e : Execution) :
    e.apply tc k = e.apply tc' k :=
  writesAt (d := { RoundDir.fresh with tc := tc }) (e := { RoundDir.fresh with tc := tc' }) same e.writes

theorem replayAt {tc tc' : Text → TestcaseDir} {k : Text} (same : tc k = tc' k) (log : List Execution) :
    replay tc log k = replay tc' log k := by
  induction log generalizing tc tc' with
  | nil => exact same
  | cons e log ih => exact ih (applyAt same e)

theorem replayCleared {log : List Execution} {e : Execution} {k : Text} (mem : e ∈ log) (clears : e.Clears k)
    (tc tc' : Text → TestcaseDir) : replay tc log k = replay tc' log k := by
  induction log generalizing tc tc' with
  | nil => contradiction
  | cons f log ih =>
    rcases List.mem_cons.mp mem with rfl | later
    · exact replayAt (clearedAt clears.2 clears.1 _ _) log
    · exact ih later (f.apply tc) (f.apply tc')

theorem writesStatus {id k : Text} {st : RunStatus} {ws : List Write} {d : RoundDir}
    (held : ((d.writes id ws).tc k).runStatus = some st) :
    (d.tc k).runStatus = some st ∨ fileKey id = k ∧ .runStatus st ∈ ws := by
  induction ws generalizing d with
  | nil => exact .inl held
  | cons w ws ih =>
    rcases ih (d := d.write id w) held with before | ⟨key,mem⟩
    · by_cases key : k = fileKey id
      · subst key
        cases w <;> simp_all [RoundDir.write,TestcaseDir.write,TestcaseDir.empty]
      · simp only [RoundDir.write,if_neg key] at before
        split at before
        · contradiction
        · exact .inl before
    · exact .inr ⟨key,by simp [mem]⟩

theorem replayStatus {log : List Execution} {k : Text} {st : RunStatus} {tc : Text → TestcaseDir}
    (held : (replay tc log k).runStatus = some st) :
    (tc k).runStatus = some st ∨ ∃ e ∈ log, fileKey e.id = k ∧ .runStatus st ∈ e.writes := by
  induction log generalizing tc with
  | nil => exact .inl held
  | cons e log ih =>
    have rest : (replay (e.apply tc) log k).runStatus = some st := held
    rcases ih rest with before | ⟨f,mem,rest⟩
    · rcases writesStatus before with old | ⟨key,mem⟩
      · exact .inl old
      · exact .inr ⟨e,by simp,key,mem⟩
    · exact .inr ⟨f,by simp [mem],rest⟩

theorem runRecipeClears {cases : Cases} {env : Env} {id : Text} (again : env.again = true) (unskipped : env.Unskipped)
    (found : cases.nonEmpty id = true) (c : Call) (d : RoundDir) :
    ∃ rest, runRecipe cases env id c d = .clear :: rest := by
  have reset : clearWrites env = [.clear] := by simp [clearWrites,again]
  have fresh : checkTestcaseAlreadyRun env (d.tc (fileKey id)) = false := by
    by_contra already
    have once := ((alreadyRunIff unskipped _).mp (by simpa using already)).1
    rw [again] at once
    contradiction
  rcases runRecipeCases cases env id c d with
    ⟨missing | already,_⟩ | ⟨_,ws⟩ | ⟨_,_,_,fx,_,ws⟩ | ⟨_,_,_,_,ws⟩
  · rw [found] at missing; contradiction
  · rw [fresh] at already; contradiction
  · exact ⟨_,ws.trans reset⟩
  · exact ⟨_,by rw [ws,reset]; rfl⟩
  · exact ⟨_,by rw [ws,reset]; rfl⟩

theorem actsKeepLog (cases : Cases) (env : Env) (calls : Nat → Call) {s : Exec} {e : Execution} (mem : e ∈ s.log)
    (acts : List Act) : e ∈ (acts.foldl (Exec.act cases env calls) s).log := by
  obtain ⟨new,log,_⟩ := actsReplay cases env calls s acts
  rw [log]
  exact List.mem_append_left _ mem

theorem actsLogged (cases : Cases) (env : Env) (calls : Nat → Call) {acts : List Act} (s : Exec) {pid : Nat} {id : Text}
    {sourced : List Text} (mem : .recipe pid id sourced ∈ acts) :
    ∃ c d, ⟨id,runRecipe cases env id c d⟩ ∈ (acts.foldl (Exec.act cases env calls) s).log := by
  induction acts generalizing s with
  | nil => contradiction
  | cons a acts ih =>
    rcases List.mem_cons.mp mem with rfl | later
    · exact ⟨calls s.log.length,s.dir,actsKeepLog cases env calls (by simp [Exec.act,Exec.call]) acts⟩
    · exact ih (s.act cases env calls a) later

/-- The kill, if any, comes after the call of `id` has begun, when the calls are those of `run`. -/
def Spared (run : List Text) (id : Text) : Option Kill → Prop
  | none => id ∈ run
  | some (.startup _) => False
  | some (.call k n) => id ∈ run.take k ∨ 1 ≤ n ∧ id ∈ run.take (k+1)

instance (run : List Text) (id : Text) : ∀ kill, Decidable (Spared run id kill)
  | none => inferInstanceAs (Decidable (id ∈ run))
  | some (.startup _) => isFalse fun h => h
  | some (.call k n) => inferInstanceAs (Decidable (id ∈ run.take k ∨ 1 ≤ n ∧ id ∈ run.take (k+1)))

theorem Spared.mem {run : List Text} {id : Text} {kill : Option Kill} (spared : Spared run id kill) : id ∈ run := by
  match kill with
  | none => exact spared
  | some (.startup _) => exact spared.elim
  | some (.call k n) =>
    rcases spared with early | ⟨_,early⟩
    · exact List.mem_of_mem_take early
    · exact List.mem_of_mem_take early

theorem Spared.early {first more : List Text} {id x : Text} {k n : Nat} (reached : k ≤ first.length)
    (spared : Spared (first ++ x::more) id (some (.call k n))) : id ∈ first ∨ 1 ≤ n ∧ id = x := by
  rcases spared with mem | ⟨some,mem⟩
  · rw [List.take_append_of_le_length reached] at mem
    exact .inl (List.mem_of_mem_take mem)
  · rcases Nat.lt_or_ge k first.length with more' | all
    · rw [List.take_append_of_le_length more'] at mem
      exact .inl (List.mem_of_mem_take mem)
    · obtain rfl : k = first.length := by omega
      rw [List.take_append,List.take_of_length_le (by omega),Nat.add_sub_cancel_left] at mem
      simpa [some] using mem

structure Session.Starts (cases : Cases) (mode : Env) (list : List Text) (s : Session) (id : Text) : Prop where
  found : cases.nonEmpty (called [] id) = true
  configs : ∀ before dir, Above dir (called [] id) → s.config before dir = 0
  spared : Spared (filterRecipeList cases mode list) id s.kill

section Started
variable {cases : Cases} {mode env : Env} {list : List Text} (plain : PlainIds cases mode list)
  (same : SameMode mode env) (again : env.again = true) {s : Session} {id : Text}
include plain same again

theorem calledClears {e : Execution} (starts : s.Starts cases mode list id)
    (writes : e.id = called [] id ∧ ∃ c d n, e.writes = (runRecipe cases env (called [] id) c d).take (n+1)) :
    e.Clears (fileKey id) := by
  obtain ⟨name,c,d,n,ws⟩ := writes
  obtain ⟨rest,reset⟩ := runRecipeClears again same.unskipped starts.found c d
  have path := (Filtered.plain plain (.inr ⟨list,fun _ mem => mem,rfl⟩) starts.spared.mem).1.walk.1
  refine ⟨by rw [ws,reset]; simp,.inl ?_⟩
  rw [name,fileKeyCalled path,fileKeyPath path]

/- Every begun walk that covers the id has called it. -/
theorem coveredClears (d : RoundDir) (starts : s.Starts cases mode list id) {first : List Text} {acts : List Act}
    (begun : Covers (first.map (called [])) acts) (mem : id ∈ first)
    (part : ∀ a ∈ acts, a ∈ walk cases s.config (filterRecipeList cases mode list)) :
    ∃ e ∈ (acts.foldl (Exec.act cases env s.calls) ⟨ready cases env d,[]⟩).log, e.Clears (fileKey id) := by
  have entered : ¬ FailedAbove acts (called [] id) := fun failed =>
    (walkConfigured cases s.config (filterRecipeList cases mode list)).entered starts.configs (failed.mono part)
  obtain ⟨pid,sourced,call⟩ := begun.called (List.mem_map_of_mem mem) entered
  obtain ⟨c,d',inside⟩ := actsLogged cases env s.calls ⟨ready cases env d,[]⟩ call
  refine ⟨_,inside,calledClears plain same again starts ⟨rfl,c,d',(runRecipe cases env (called [] id) c d').length,?_⟩⟩
  exact (List.take_of_length_le (Nat.le_succ _)).symm

theorem killedClears (d : RoundDir) (run : (ready cases env d).runRecipes = filterRecipeList cases mode list)
    (covers : Covers ((filterRecipeList cases mode list).map (called []))
      (walk cases s.config (filterRecipeList cases mode list)))
    {k n : Nat} (kill : s.kill = some (.call k n)) (starts : s.Starts cases mode list id) :
    ∃ e ∈ (killedWalk cases env s k n (ready cases env d)).log, e.Clears (fileKey id) := by
  have spared := starts.spared
  rw [kill] at spared
  simp only [killedWalk,run]
  rcases splitCallCases k (walk cases s.config (filterRecipeList cases mode list)) with
    split | ⟨pre,pid,name,sourced,post,whole,count,split⟩ <;> simp only [split]
  · exact coveredClears plain same again d starts covers starts.spared.mem (fun _ mem => mem)
  · obtain ⟨front,rest,names,before⟩ := covers.before whole
    obtain ⟨first,tail,parts,rfl,shape⟩ := List.map_eq_append_iff.mp names
    obtain ⟨x,more,rfl,rfl,rfl⟩ := List.map_eq_cons_iff.mp shape
    have reached : k ≤ first.length := by
      have := before.count
      rwa [count,List.length_map] at this
    rw [parts] at spared
    rcases spared.early reached with mem | ⟨some,rfl⟩
    · obtain ⟨e,inside,clears⟩ := coveredClears plain same again d starts before mem
        (fun a inside => by rw [whole]; simp [inside])
      exact ⟨e,List.mem_append_left _ inside,clears⟩
    · obtain ⟨m,rfl⟩ : ∃ m, n = m+1 := ⟨n-1,by omega⟩
      exact ⟨_,List.mem_append_right _ (List.mem_singleton_self _),
        calledClears plain same again starts ⟨rfl,_,_,m,rfl⟩⟩

theorem startsClears {d : RoundDir} (listed : d.recipelist = some list) (foreground : (env.root && env.background) = false)
    (starts : s.Starts cases mode list id) :
    ∃ e ∈ (runTestSh cases env s d).log, e.Clears (fileKey id) := by
  have run : (ready cases env d).runRecipes = filterRecipeList cases mode list := againRuns same cases again listed
  have filtered : Filtered cases mode list (filterRecipeList cases mode list) := .inr ⟨list,fun _ mem => mem,rfl⟩
  have covers : Covers ((filterRecipeList cases mode list).map (called []))
      (walk cases s.config (filterRecipeList cases mode list)) :=
    walkCovers cases s.config (fun _ mem => (filtered.plain plain mem).1.walk)
  rcases runTestShCases cases env s d with
    ⟨n,kill,_⟩ | ⟨other,_⟩ | ⟨service,_⟩ | ⟨k,n,kill,eq⟩ | ⟨_,eq⟩
  · have spared := starts.spared
    rw [kill] at spared
    exact spared.elim
  · simp [checkEnvironment,again] at other
  · rw [foreground] at service
    contradiction
  · rw [eq]
    exact killedClears plain same again d run covers kill starts
  · have logged := coveredClears plain same again d starts covers starts.spared.mem (fun _ mem => mem)
    rw [eq]
    simp only [wholeWalk,run]
    split
    · exact logged
    · exact logged

end Started

section Iteration
variable (cases : Cases) (inv : RunTest)

def RunState.Replayed (from_ : Project) (s : RunState) : Prop :=
  ∀ r, (s.project.rounds r).tc = replay (from_.rounds r).tc (executions r s.logs)

theorem resetTc (env : Env) (d : RoundDir) : (resetRound env d).tc = d.tc := by
  unfold resetRound
  split <;> rfl

theorem updateTc (p : Project) {round : Nat} {f : RoundDir → RoundDir} (same : ∀ d, (f d).tc = d.tc) (r : Nat) :
    ((p.update round f).rounds r).tc = (p.rounds r).tc := by
  by_cases here : r = round
  · subst here
    rw [updateSame,same]
  · rw [updateOther p f here]

theorem prepareTc (p : Project) (round : Nat) (d : RoundDir) : (prepareRound cases p round d).tc = d.tc := rfl

theorem prepareListed (p : Project) (round : Nat) (d : RoundDir) :
    ∃ list, (prepareRound cases p round d).recipelist = some list := by
  cases listed : d.recipelist with
  | some list => exact ⟨list,by simp [prepareRound,listed]⟩
  | none =>
    by_cases later : 1 < round
    · exact ⟨_,by simp only [prepareRound,listed,if_pos later]; rfl⟩
    · exact ⟨_,by simp only [prepareRound,listed,if_neg later]; rfl⟩

theorem roundBodyForms (round : Nat) (s : RunState) :
    let p := s.project.update round (resetRound inv.env)
    let q := p.update round (prepareRound cases p round)
    (∃ on, roundBody cases inv round s = (on,{ s with project := p })) ∨
    roundBody cases inv round s = (false,{ s with project := q }) ∨
    (p.rounds round).finished = false ∧ roundBody cases inv round s = startRound cases inv round s q := by
  intro p q
  simp only [roundBody]
  split
  · exact .inl ⟨_,rfl⟩
  · split
    · exact .inl ⟨_,rfl⟩
    · rename_i unfinished
      split
      · exact .inr (.inl rfl)
      · exact .inr (.inr ⟨Bool.eq_false_iff.mpr unfinished,rfl⟩)

omit cases inv in
theorem executionsAppend (r : Nat) (a b : List (Nat × RunLog)) :
    executions r (a ++ b) = executions r a ++ executions r b := by simp [executions]

theorem roundBodyReplayed {from_ : Project} {s : RunState} (round : Nat) (before : s.Replayed from_) :
    (roundBody cases inv round s).2.Replayed from_ := by
  have reset : ∀ r, ((s.project.update round (resetRound inv.env)).rounds r).tc =
      replay (from_.rounds r).tc (executions r s.logs) := fun r =>
    (updateTc s.project (resetTc inv.env) r).trans (before r)
  rcases roundBodyForms cases inv round s with ⟨on,eq⟩ | eq | ⟨_,eq⟩ <;> rw [eq]
  · exact reset
  · exact fun r => (updateTc _ (fun _ => prepareTc cases _ _ _) r).trans (reset r)
  · generalize s.project.update round (resetRound inv.env) = p at reset
    intro r
    obtain ⟨list,listed⟩ := prepareListed cases p round (p.rounds round)
    by_cases here : r = round
    · subst here
      have now : executions r [(r,runTestSh cases inv.env (inv.sessions r) (prepareRound cases p r (p.rounds r)))] =
          (runTestSh cases inv.env (inv.sessions r) (prepareRound cases p r (p.rounds r))).log := by
        simp [executions]
      simp only [startRound,updateSame,executionsAppend,now]
      rw [runTestShReplay cases inv.env _ listed,prepareTc,reset r]
      exact List.foldl_append.symm
    · have none : ∀ l, executions r [(round,l)] = [] := fun l => by simp [executions,Ne.symm here]
      simp only [startRound,executionsAppend,none,List.append_nil]
      rw [updateOther _ _ here,updateOther _ _ here]
      exact reset r

theorem runTestReplayed (p : Project) : (runTest cases inv p).Replayed p :=
  Loop.iterateKeeps (RunState.Replayed p) (fun i _ before => roundBodyReplayed cases inv i before) _ (fun _ => rfl)

theorem roundBodyTouched {s : RunState} {i r : Nat}
    (finished : ((roundBody cases inv i s).2.project.rounds r).finished = true) :
    (∃ l, (r,l) ∈ (roundBody cases inv i s).2.logs ∧ l.outcome = .finished) ∨
      ((s.project.update i (resetRound inv.env)).rounds r).finished = true := by
  rcases roundBodyForms cases inv i s with ⟨on,eq⟩ | eq | ⟨unfinished,eq⟩ <;> rw [eq] at finished ⊢
  · exact .inr finished
  · refine .inr ?_
    by_cases here : r = i
    · subst here
      simpa [prepareRound] using finished
    · simpa [updateOther _ _ here] using finished
  · generalize s.project.update i (resetRound inv.env) = p at finished unfinished
    obtain ⟨list,listed⟩ := prepareListed cases p i (p.rounds i)
    by_cases here : r = i
    · subst here
      have left := runTestShLeft cases inv.env (inv.sessions r) (d := prepareRound cases p r (p.rounds r))
        listed unfinished
      simp only [startRound,updateSame] at finished ⊢
      rw [left.finished] at finished
      exact .inl ⟨_,List.mem_append_right _ (List.mem_singleton_self _),by simpa using finished⟩
    · simp only [startRound,updateOther _ _ here] at finished ⊢
      exact .inr finished

theorem roundBodyGrows (i : Nat) (s : RunState) :
    ∃ new, (roundBody cases inv i s).2.logs = s.logs ++ new ∧
      ∀ r l, (r,l) ∈ new → ∃ d, l = runTestSh cases inv.env (inv.sessions r) d := by
  rcases roundBodyForms cases inv i s with ⟨on,eq⟩ | eq | ⟨_,eq⟩ <;> rw [eq]
  · exact ⟨[],(List.append_nil _).symm,by simp⟩
  · exact ⟨[],(List.append_nil _).symm,by simp⟩
  · refine ⟨[_],rfl,fun r l mem => ?_⟩
    cases List.mem_singleton.mp mem
    exact ⟨_,rfl⟩

theorem runTestTouched (once : inv.env.again = false) (p : Project) {r : Nat}
    (finished : ((runTest cases inv p).project.rounds r).finished = true) :
    (∃ l, (r,l) ∈ (runTest cases inv p).logs ∧ l.outcome = .finished) ∨ (p.rounds r).finished = true := by
  refine Loop.iterateKeeps (fun s : RunState => (s.project.rounds r).finished = true →
    (∃ l, (r,l) ∈ s.logs ∧ l.outcome = .finished) ∨ (p.rounds r).finished = true)
    (fun i s before finished => ?_) _ (s := ⟨p,[],[]⟩) .inr finished
  rcases roundBodyTouched cases inv finished with now | old
  · exact .inl now
  · rw [resetKeeps once] at old
    obtain ⟨new,logs,_⟩ := roundBodyGrows cases inv i s
    refine (before old).imp_left ?_
    rintro ⟨l,mem,outcome⟩
    exact ⟨l,by simp [logs,mem],outcome⟩

theorem runTestLogged (p : Project) {r : Nat} {l : RunLog} (mem : (r,l) ∈ (runTest cases inv p).logs) :
    ∃ d, l = runTestSh cases inv.env (inv.sessions r) d := by
  refine Loop.iterateKeeps (fun s : RunState => ∀ r l, (r,l) ∈ s.logs →
    ∃ d, l = runTestSh cases inv.env (inv.sessions r) d) (fun i s before r l mem => ?_) _ (s := ⟨p,[],[]⟩) (by simp) r l mem
  obtain ⟨new,logs,fresh⟩ := roundBodyGrows cases inv i s
  rw [logs] at mem
  rcases List.mem_append.mp mem with mem | mem
  · exact before r l mem
  · exact fresh r l mem

theorem runTestLists (once : inv.env.again = false) {p : Project} {r : Nat} {list : List Text}
    (listed : (p.rounds r).recipelist = some list) :
    ((runTest cases inv p).project.rounds r).recipelist = some list := by
  refine Loop.iterateKeeps (fun s : RunState => (s.project.rounds r).recipelist = some list)
    (fun i s before => ?_) _ (s := ⟨p,[],[]⟩) listed
  have prepared : ((s.project.update i (prepareRound cases s.project i)).rounds r).recipelist = some list := by
    by_cases here : r = i
    · subst here
      simp [prepareRound,before]
    · rwa [updateOther _ _ here]
  rcases roundBodyForms cases inv i s with ⟨on,eq⟩ | eq | ⟨unfinished,eq⟩ <;> rw [eq] <;>
    simp only [resetKeeps once] at *
  · exact before
  · exact prepared
  · by_cases here : r = i
    · subst here
      have left := runTestShLeft cases inv.env (inv.sessions r) prepared (by simpa [prepareRound] using unfinished)
      simp only [startRound]
      rw [updateSame]
      exact left.recipelist
    · simp only [startRound]
      rwa [updateOther _ _ here]

end Iteration

end MmRegression
