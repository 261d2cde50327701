import MmRegression.ReportedResult
import MmRegression.Resume
import MmRegression.RoundLoop

/-! What is listed and what is run. `recipe.rb list` goes by the file names below `cases/`,
`run_recipe` looks at the file itself and has its own suffixes to turn down. -/
namespace MmRegression

/- The two early returns of `run_recipe` that depend on the file. -/
def Runnable (cases : Cases) (env : Env) (id : Text) : Prop :=
  cases.nonEmpty (called [] id) = true ∧ checkRemoveSuffix cases env.develMode (called [] id) = true

structure Reached (cases : Cases) (env : Env) (config : List Act → Text → Nat) (id : Text) : Prop where
  accepted : Accepted cases env id
  filtered : ∀ word ∈ env.filter, grepWord word id = true
  entered : ∀ before dir, Above dir (called [] id) → config before dir = 0

/-! ### One call -/

def readsNone (l : Text) : Bool := matchResult l == some "NONE".toList

theorem markedNone : Marked readsNone := by
  intro l reads
  refine markedResult l ?_
  rw [readsNone,beq_iff_eq] at reads
  rw [isResult,reads]
  rfl

theorem freeResult (env : Env) (id : Text) (v : Verdict) : Free readsNone [echoLog env (resultLine id v)] := by
  refine freeLog ?_ env
  rw [readsNone,matchResultLine]
  cases v <;> decide

theorem softTryFree (env : Env) {c : Call} (silent : ∀ s h, (c.trials s h).Silent readsNone) (k : Counters) :
    ∀ l ∈ written (softTryWrites env c k), readsNone l = false := by
  have effects : (doSoftTry env c.trials ⟨k,[]⟩).2.effects =
      (softTries env c.trials ⟨k,[]⟩).2.effects ++ verdictLines env (doSoftTry env c.trials ⟨k,[]⟩).1 := rfl
  have tries := softTriesFree markedNone env silent (p := ⟨k,[]⟩) (fun l mem => by simp at mem)
  have verdict : Free readsNone (verdictLines env (doSoftTry env c.trials ⟨k,[]⟩).1) := by
    unfold verdictLines
    split
    · exact freeResult env [] _
    · intro l mem
      contradiction
  rw [softTryWrites,effects,writtenEffects]
  exact fun l mem => freeAppend tries verdict l (memPrinted.mp mem)

theorem loadCheckFree {env : Env} {id : Text} {c : Call} {loadret : Nat} {fx : List Effect}
    (check : recipeLoadCheck env id c loadret = some fx) : Free readsNone fx := by
  have flag : Free readsNone (testFlagLines env id c) := by
    refine freeAppend (a := [_]) (freeLog (markedNone.unmarked rfl) env) (freeLog (markedNone.unmarked rfl) env)
  unfold recipeLoadCheck at check
  split at check
  · cases Option.some.inj check
    exact freeSkipped markedNone env _
  · split at check
    · cases Option.some.inj check
      exact freeAppend flag (freeAppend (freeSkipped markedNone env _) flag)
    · split at check
      · cases Option.some.inj check
        exact freeSkipped markedNone env _
      · split at check
        · cases Option.some.inj check
          exact freeAppend (freeSkipped markedNone env _) (freeLog (markedNone.unmarked rfl) env)
        · contradiction

theorem restartFree (env : Env) (id : Text) {c : Call} (silent : ∀ s h, (c.trials s h).Silent readsNone)
    (t : TestcaseDir) : ∀ l ∈ written (restartWrites env id c t), readsNone l = false := by
  have tries := softTryFree env silent
  have again : ∀ n k, ∀ l ∈ written (.result [restartLine id n] :: softTryWrites env c k), readsNone l = false := by
    intro n k l mem
    rcases List.mem_cons.mp mem with rfl | mem
    · exact markedNone.unmarked rfl
    · exact tries k l mem
  unfold restartWrites
  split
  · split
    · intro l mem
      rw [List.mem_singleton.mp mem]
      exact markedNone.unmarked rfl
    · exact again _ _
  · exact again _ _

theorem executeFree (env : Env) (id : Text) {c : Call} (silent : ∀ s h, (c.trials s h).Silent readsNone)
    (current : Option Text) (t : TestcaseDir) : ∀ l ∈ written (executeBody env id c current t), readsNone l = false := by
  simp only [executeBody]
  split
  · exact restartFree env id silent t
  · exact softTryFree env silent .zero

theorem callFree {cases : Cases} {env : Env} {id : Text} {c : Call} (d : RoundDir)
    (silent : ∀ s h, (c.trials s h).Silent readsNone) :
    ∀ l ∈ written (runRecipe cases env id c d), readsNone l = false := by
  have cleared : written (clearWrites env) = [] := by
    unfold clearWrites
    split <;> rfl
  rcases runRecipeCases cases env id c d with
    ⟨_,ws⟩ | ⟨_,ws⟩ | ⟨_,_,_,fx,check,ws⟩ | ⟨_,_,_,_,ws⟩
  · simp [ws,written]
  · simp [ws,cleared]
  · have all := freeAppend (loadCheckFree check) (freeResult env id .skip)
    have lines : written (runRecipe cases env id c d) = printed (fx ++ [echoLog env (resultLine id .skip)]) := by
      rw [ws,writtenAppend,cleared,writtenAppend,← writtenEffects]
      simp [skipBody,written]
    rw [lines]
    exact fun l mem => all l (memPrinted.mp mem)
  · have lines : written (runRecipe cases env id c d) = written (executeBody env id c d.currentTestcase
        (if env.again then .empty else d.tc (fileKey id))) := by
      rw [ws,writtenAppend,cleared,writtenAppend]
      simp [finishWrites,written]
    rw [lines]
    exact executeFree env id silent _ _

/-! ### The whole run -/

def RoundDir.Spoken (d : RoundDir) : Prop := ∀ k, ∀ l ∈ (d.tc k).result.getD [], readsNone l = false

theorem RoundDir.Spoken.writes {d : RoundDir} (id : Text) {ws : List Write} (spoken : d.Spoken)
    (free : ∀ l ∈ written ws, readsNone l = false) : (d.writes id ws).Spoken := by
  induction ws generalizing d with
  | nil => exact spoken
  | cons w ws ih =>
    have parts : written (w::ws) = written [w] ++ written ws := writtenAppend [w] ws
    rw [RoundDir.writes,List.foldl_cons,← RoundDir.writes]
    refine ih (fun k l mem => ?_) (fun l mem => free l (by simp [parts,mem]))
    simp only [RoundDir.write] at mem
    split at mem
    · cases w with
      | clear => simp [TestcaseDir.write,TestcaseDir.empty] at mem
      | result lines =>
        rcases List.mem_append.mp (by simpa [TestcaseDir.write] using mem) with old | new
        · exact spoken k l old
        · exact free l (by simp [written,new])
      | _ => exact spoken k l mem
    · split at mem
      · simp [TestcaseDir.empty] at mem
      · exact spoken k l mem

theorem actsKeep {cases : Cases} {env : Env} {calls : Nat → Call} {P : RoundDir → Prop} {acts : List Act}
    (keeps : ∀ pid id sourced k d, .recipe pid id sourced ∈ acts → P d →
      P (d.writes id (runRecipe cases env id (calls k) d)))
    (s : Exec) (start : P s.dir) : P (acts.foldl (Exec.act cases env calls) s).dir := by
  induction acts generalizing s with
  | nil => exact start
  | cons a acts ih =>
    refine ih (fun pid id sourced k d mem => keeps pid id sourced k d (List.mem_cons_of_mem a mem)) _ ?_
    cases a with
    | recipe pid id sourced => exact keeps pid id sourced _ s.dir (by simp) start
    | _ => exact start

theorem otherEmpty {id k : Text} (other : k ≠ fileKey id) {d : RoundDir} (empty : d.tc k = .empty) (ws : List Write) :
    (d.writes id ws).tc k = .empty := by
  induction ws generalizing d with
  | nil => exact empty
  | cons w ws ih =>
    rw [RoundDir.writes,List.foldl_cons,← RoundDir.writes]
    refine ih ?_
    simp only [RoundDir.write,if_neg other,empty,ite_self]

/- Nothing is written for a testcase that `run_recipe` turns down. -/
theorem turnedDown {cases : Cases} {env : Env} {name : Text} (c : Call) {d : RoundDir}
    (down : ¬ (cases.nonEmpty name = true ∧ checkRemoveSuffix cases env.develMode name = true))
    (empty : d.tc (fileKey name) = .empty) : (d.writes name (runRecipe cases env name c d)).tc (fileKey name) = .empty := by
  rcases runRecipeCases cases env name c d with
    ⟨_,ws⟩ | ⟨_,ws⟩ | ⟨runs,_⟩ | ⟨runs,_⟩
  · rw [ws]
    exact empty
  · rw [writesKey,ws,foldClear,empty,ite_self]
  · exact absurd ⟨runs.1,runs.2.2⟩ down
  · exact absurd ⟨runs.1,runs.2.2⟩ down

theorem callRecorded {cases : Cases} {env : Env} {name : Text} {c : Call} {d : RoundDir}
    (found : cases.nonEmpty name = true) (suffix : checkRemoveSuffix cases env.develMode name = true)
    (load : c.loadret ≠ none) (before : d.tc (fileKey name) = .empty ∨ (d.tc (fileKey name)).Done) :
    ((d.writes name (runRecipe cases env name c d)).tc (fileKey name)).Done := by
  rcases runRecipeCases cases env name c d with
    ⟨missing | already,ws⟩ | ⟨rejected | left,_⟩ | ⟨_,_,_,fx,_,ws⟩ | ⟨_,_,_,_,ws⟩
  · rw [found] at missing; contradiction
  · rw [ws]
    refine before.resolve_left (fun empty => ?_)
    rw [empty] at already
    simp [checkTestcaseAlreadyRun,TestcaseDir.empty] at already
  · rw [suffix] at rejected; contradiction
  · exact absurd left load
  · rw [writesKey,ws,← List.append_assoc,List.foldl_append]
    exact .inr rfl
  · rw [writesKey,ws,← List.append_assoc,List.foldl_append]
    exact .inl rfl

theorem otherRecorded {cases : Cases} {env : Env} {name k : Text} (c : Call) {d : RoundDir} (other : k ≠ fileKey name)
    (apart : env.again = true → startsWith (fileKey name ++ ['/']) k = false) (done : (d.tc k).Done) :
    ((d.writes name (runRecipe cases env name c d)).tc k).Done := by
  rw [writesOther other]
  · exact done
  · cases again : env.again with
    | false => exact .inl (notClearing again)
    | true => exact .inr (apart again)

theorem Covers.names {ids : List Text} {acts : List Act} (covers : Covers ids acts) {pid : Nat} {id : Text}
    {sourced : List Text} (mem : .recipe pid id sourced ∈ acts) : id ∈ ids := by
  obtain ⟨pre,post,split⟩ := List.append_of_mem mem
  obtain ⟨first,rest,names,_⟩ := covers.before split
  simp [names]

def allowed (env : Env) (id : Text) : Bool := env.filter.all (fun word => grepWord word id)

theorem preparedFresh (cases : Cases) (env : Env) : prepared cases env .fresh =
    { RoundDir.fresh with
      fullRecipeList := some (allrecipes cases)
      recipelist := if allrecipes cases = [] then none else some (allrecipes cases)
      remaining := if allrecipes cases = [] then none else some (allrecipes cases)
      runRecipes := if allrecipes cases = [] then [] else
        (filterRecipeList cases env (allrecipes cases)).filter (allowed env) } := by
  have every : allowed env = env.filter.elim (fun _ => true) grepWord := by
    funext id
    cases word : env.filter <;> simp [allowed,word]
  by_cases none : allrecipes cases = [] <;> cases word : env.filter <;>
    simp [prepared,startup,resetCounts,makeFullList,copyFullList,forgetFinished,writeRemaining,filterRemaining,
      applyFilter,RoundDir.resumePoint,RoundDir.fresh,none,word,every]

theorem memFreshRun {cases : Cases} {env : Env} (plain : ∀ id ∈ allrecipes cases, PlainId id) {id : Text} :
    id ∈ (ready cases env .fresh).runRecipes ↔
      id ∈ allrecipes cases ∧ Accepted cases env id ∧ ∀ word ∈ env.filter, grepWord word id = true := by
  have ids : PlainIds cases env (allrecipes cases) := fun f _ _ listed => plain f.id listed
  rw [ready,preparedFresh,collectEnvironmentInfo]
  by_cases none : allrecipes cases = []
  · simp [none]
  · simp only [if_neg none,List.mem_filter,memFilterRecipeList ids,allowed,Option.all_eq_true,and_assoc]
    rfl

theorem freshRun (cases : Cases) {env : Env} {s : Session} (whole : s.kill = none)
    (foreground : (env.root && env.background) = false) :
    runTestSh cases env s .fresh = wholeWalk cases env s (ready cases env .fresh) := by
  have same : checkEnvironment env (prepared cases env .fresh) = true := by
    rw [preparedFresh,checkEnvironment]
    exact Bool.or_true _
  rcases runTestShCases cases env s .fresh with
    ⟨n,kill,_⟩ | ⟨other,_⟩ | ⟨service,_⟩ | ⟨k,n,kill,_⟩ | ⟨_,eq⟩
  · simp [whole] at kill
  · rw [same] at other; contradiction
  · rw [foreground] at service; contradiction
  · simp [whole] at kill
  · exact eq

section Fresh
variable {cases : Cases} {env : Env} {s : Session} (plain : ∀ id ∈ allrecipes cases, PlainId id)
include plain

theorem freshCovers : Covers ((ready cases env .fresh).runRecipes.map (called []))
    (walk cases s.config (ready cases env .fresh).runRecipes) :=
  walkCovers cases s.config (fun id mem => (plain id ((memFreshRun plain).mp mem).1).1.walk)

/- Every call of the walk is of a listed id, by the name that `run_recipes` makes of it. -/
theorem freshNames {pid : Nat} {name : Text} {sourced : List Text}
    (mem : .recipe pid name sourced ∈ walk cases s.config (ready cases env .fresh).runRecipes) :
    fileKey name ∈ allrecipes cases ∧ name = called [] (fileKey name) := by
  obtain ⟨id,run,rfl⟩ := List.mem_map.mp ((freshCovers plain).names mem)
  have listed := ((memFreshRun plain).mp run).1
  have key := fileKeyCalled (plain id listed).1.walk.1
  rw [key]
  exact ⟨listed,rfl⟩

theorem freshUntaken {id : Text} (untaken : ¬ Runnable cases env id) (start : Exec) (empty : start.dir.tc id = .empty) :
    ((walk cases s.config (ready cases env .fresh).runRecipes).foldl (Exec.act cases env s.calls) start).dir.tc id =
      .empty := by
  refine actsKeep (P := fun d => d.tc id = .empty) (fun pid name sourced k d mem kept => ?_) start empty
  by_cases own : id = fileKey name
  · have down := untaken
    rw [Runnable,own,← (freshNames plain mem).2] at down
    subst own
    exact turnedDown (s.calls k) down kept
  · exact otherEmpty own kept _

theorem freshRecorded (loads : ∀ k, (s.calls k).loadret ≠ none)
    (files : env.again = true → ∀ y ∈ allrecipes cases, ∀ z ∈ allrecipes cases, startsWith (z ++ ['/']) y = false)
    {id : Text} (listed : id ∈ allrecipes cases) (reached : Reached cases env s.config id)
    (runnable : Runnable cases env id) (start : Exec) (empty : start.dir.tc id = .empty) :
    (((walk cases s.config (ready cases env .fresh).runRecipes).foldl (Exec.act cases env s.calls) start).dir.tc id).Done := by
  have key := fileKeyCalled (plain id listed).1.walk.1
  have run := (memFreshRun plain).mpr ⟨listed,reached.accepted,reached.filtered⟩
  have configured := walkConfigured cases s.config (ready cases env .fresh).runRecipes
  obtain ⟨pid,sourced,mem⟩ := (freshCovers plain (s := s)).called (List.mem_map_of_mem run) (configured.entered reached.entered)
  have names : ∀ pid name sourced, .recipe pid name sourced ∈ walk cases s.config (ready cases env .fresh).runRecipes →
      fileKey name ∈ allrecipes cases ∧ name = called [] (fileKey name) := fun _ _ _ => freshNames plain
  obtain ⟨pre,post,split⟩ := List.append_of_mem mem
  rw [split] at names ⊢
  -- A call for `id` records it, whatever came before; the others leave it alone.
  have own : ∀ {name : Text} (k : Nat) {d : RoundDir}, name = called [] (fileKey name) → id = fileKey name →
      d.tc id = .empty ∨ (d.tc id).Done → ((d.writes name (runRecipe cases env name (s.calls k) d)).tc id).Done := by
    intro name k d named same before
    subst same
    rw [Runnable,← named] at runnable
    exact callRecorded runnable.1 runnable.2 (loads k) before
  have apart : ∀ {name : Text}, fileKey name ∈ allrecipes cases → env.again = true →
      startsWith (fileKey name ++ ['/']) id = false := fun member again => files again id listed _ member
  have before : (pre.foldl (Exec.act cases env s.calls) start).dir.tc id = .empty ∨
      ((pre.foldl (Exec.act cases env s.calls) start).dir.tc id).Done := by
    refine actsKeep (P := fun d => d.tc id = .empty ∨ (d.tc id).Done) (fun pid name sourced k d mem kept => ?_) start (.inl empty)
    obtain ⟨member,named⟩ := names pid name sourced (List.mem_append_left _ mem)
    by_cases same : id = fileKey name
    · exact .inr (own k named same kept)
    · exact kept.imp (fun none => otherEmpty same none _) (otherRecorded (s.calls k) same (apart member))
  rw [List.foldl_append,List.foldl_cons]
  refine actsKeep (P := fun d => (d.tc id).Done) (fun pid name sourced k d mem kept => ?_) _ ?_
  · obtain ⟨member,named⟩ := names pid name sourced (by simp [mem])
    by_cases same : id = fileKey name
    · exact own k named same (.inr kept)
    · exact otherRecorded (s.calls k) same (apart member) kept
  · exact own _ (by rw [key]) key.symm before

end Fresh

theorem doneNotNone {t : TestcaseDir} (done : t.Done) (spoken : ∀ l ∈ t.result.getD [], readsNone l = false) :
    testcaseResult t ≠ "NONE".toList := by
  rcases done with status | status
  · simp only [testcaseResult,status]
    cases found : (t.result.getD []).findSome? matchResult with
    | none => decide
    | some w =>
      obtain ⟨l,mem,reads⟩ := List.exists_of_findSome?_eq_some found
      rintro rfl
      have quiet := spoken l mem
      rw [readsNone,reads] at quiet
      contradiction
  · simp only [testcaseResult,status]
    decide

theorem wholeWalkTc (cases : Cases) (env : Env) (s : Session) (d : RoundDir) : (wholeWalk cases env s d).dir.tc =
    ((walk cases s.config d.runRecipes).foldl (Exec.act cases env s.calls) ⟨d,[]⟩).dir.tc := by
  unfold wholeWalk
  split <;> rfl

theorem wholeWalkRecipelist (cases : Cases) (env : Env) (s : Session) (d : RoundDir) :
    (wholeWalk cases env s d).dir.recipelist = d.recipelist := by
  have lists := actsSameLists cases env s.calls ⟨d,[]⟩ (walk cases s.config d.runRecipes)
  unfold wholeWalk
  split <;> exact lists.recipelist

theorem freshTc (cases : Cases) (env : Env) : (ready cases env .fresh).tc = fun _ => .empty := by
  rw [ready,preparedFresh]
  rfl

theorem freshSummaryIds {cases : Cases} {env : Env} {s : Session} {id : Text}
    (mem : id ∈ (wholeWalk cases env s (ready cases env .fresh)).dir.summaryIds) : id ∈ allrecipes cases := by
  by_cases none : allrecipes cases = []
  · rw [RoundDir.summaryIds,wholeWalkRecipelist,ready,preparedFresh] at mem
    simp [collectEnvironmentInfo,none] at mem
  · refine memSummaryIds ?_ mem
    rw [wholeWalkRecipelist,ready,preparedFresh]
    exact if_neg none

theorem freshSpoken {cases : Cases} {env : Env} {s : Session} (silent : ∀ k r h, ((s.calls k).trials r h).Silent readsNone)
    (acts : List Act) : (acts.foldl (Exec.act cases env s.calls) ⟨ready cases env .fresh,[]⟩).dir.Spoken := by
  refine actsKeep (P := RoundDir.Spoken) (fun _ name _ k d _ kept => kept.writes name (callFree d (silent k))) _ ?_
  intro k l mem
  simp [congrFun (freshTc cases env) k,TestcaseDir.empty] at mem

/- A file without content, as `cases/mce/cmci` is, and a helper script. -/
def emptyCase : Cases := [⟨"mce/cmci".toList,[]⟩,⟨"mce/lib.sh".toList,"true".toList⟩,⟨"mce/uc".toList,"true".toList⟩]

def passingSession : Session := ⟨fun _ _ => 0,fun _ => passingCall,none⟩

end MmRegression
