import MmRegression.RunRecipe
import MmRegression.RunRecipes

/-! One invocation of `run-test.sh` on a round directory: `generate_recipelist`, the
environment check, and the calls of `run_recipe` that `run_recipes` makes over
`__run_recipes`. An invocation may be killed at any of its steps. -/
namespace MmRegression

/- `grep -x` with a plain id for a pattern, in which only the dot is special. -/
def grepLine : Text → Text → Bool
  | [], [] => true
  | p::ps, c::cs => (p == '.' || p == c) && grepLine ps cs
  | _, _ => false

def grepPrefix : Text → Text → Bool
  | [], _ => true
  | p::ps, c::cs => (p == '.' || p == c) && grepPrefix ps cs
  | _, _ => false

def grepWord (pat line : Text) : Bool := line.tails.any (grepPrefix pat)

def grepNumbers (pat : Text) (lines : List Text) : List Nat :=
  (lines.zipIdx 1).filterMap (fun l => if grepLine pat l.1 then some l.2 else none)

/-- The value of `$nr_point` in `$[nr_point + 1]`: an empty one counts as 0, and several lines
are a syntax error, which ends `generate_recipelist` at this place. -/
def nrPoint (id : Text) (recipelist : List Text) : Option Nat :=
  match grepNumbers id recipelist with
  | [] => some 0
  | [n] => some n
  | _ => none

def RoundDir.resumePoint (d : RoundDir) : Option Nat :=
  match d.finishedTestcase with
  | none => some 0
  | some id => nrPoint id (d.recipelist.getD [])

section Startup
variable (cases : Cases) (env : Env)

def resetCounts (d : RoundDir) : RoundDir := { d with skipped := 0 }

def makeFullList (d : RoundDir) : RoundDir :=
  if d.fullRecipeList.isSome then d else { d with fullRecipeList := some (allrecipes cases) }

def copyFullList (d : RoundDir) : RoundDir :=
  if d.fullRecipeList.getD [] ≠ [] ∧ d.recipelist = none then
    { d with recipelist := d.fullRecipeList }
  else d

def forgetFinished (d : RoundDir) : RoundDir :=
  if env.again then { d with finishedTestcase := none } else d

def writeRemaining (d : RoundDir) : RoundDir :=
  match d.resumePoint, d.recipelist with
  | none, _ => d
  | some n, some list => { d with remaining := some (list.drop n) }
  | some _, none => if d.finishedTestcase.isSome then { d with remaining := some [] } else d

def filterRemaining (d : RoundDir) : RoundDir :=
  if d.resumePoint = none then d
  else { d with runRecipes := (d.remaining.map (filterRecipeList cases env)).getD [] }

def applyFilter (d : RoundDir) : RoundDir :=
  match d.resumePoint, env.filter with
  | some _, some word => { d with runRecipes := d.runRecipes.filter (grepWord word) }
  | _, _ => d

def startup : List (RoundDir → RoundDir) :=
  [resetCounts,makeFullList cases,copyFullList,forgetFinished env,writeRemaining,
    filterRemaining cases env,applyFilter env]

def prepared (d : RoundDir) : RoundDir := (startup cases env).foldl (fun d f => f d) d

/- `check_environment`, true when the script goes on. The file `uname-r` it looks for is never
written. -/
def checkEnvironment (d : RoundDir) : Bool :=
  env.again || d.environment.all (fun host => host == env.hostname)

def collectEnvironmentInfo (d : RoundDir) : RoundDir := { d with environment := some env.hostname }

end Startup

/-! ### The calls -/

structure Execution where
  id : Text
  writes : List Write
  deriving DecidableEq, Repr

structure Exec where
  dir : RoundDir
  log : List Execution

def Exec.call (cases : Cases) (env : Env) (calls : Nat → Call) (cut : List Write → List Write)
    (s : Exec) (id : Text) : Exec :=
  let ws := cut (runRecipe cases env id (calls s.log.length) s.dir)
  ⟨s.dir.writes id ws,s.log ++ [⟨id,ws⟩]⟩

def Exec.act (cases : Cases) (env : Env) (calls : Nat → Call) (s : Exec) : Act → Exec
  | .recipe _ id _ => s.call cases env calls (fun ws => ws) id
  | _ => s

def splitCall : Nat → List Act → List Act × Option Text
  | _, [] => ([],none)
  | 0, .recipe _ id _ :: _ => ([],some id)
  | k+1, .recipe pid id sourced :: rest =>
      let r := splitCall k rest
      (.recipe pid id sourced :: r.1,r.2)
  | k, a::rest =>
      let r := splitCall k rest
      (a::r.1,r.2)

/-- Where an invocation is killed: after `n` of its first steps, or in the `k`-th call after
`n` writes; with fewer calls than that, after the last one. -/
inductive Kill where
  | startup (n : Nat)
  | call (k n : Nat)
  deriving DecidableEq, Repr

structure Session where
  config : List Act → Text → Nat
  calls : Nat → Call
  kill : Option Kill

inductive Outcome where
  | killed
  | exited
  | finished
  deriving DecidableEq, Repr

structure RunLog where
  dir : RoundDir
  acts : List Act
  log : List Execution
  outcome : Outcome

def Exec.lastCall (cases : Cases) (env : Env) (calls : Nat → Call) (n : Nat) (s : Exec) :
    Option Text → Exec
  | some id => s.call cases env calls (List.take n) id
  | none => s

def killedWalk (cases : Cases) (env : Env) (s : Session) (k n : Nat) (d : RoundDir) : RunLog :=
  let cut := splitCall k (walk cases s.config d.runRecipes)
  let last := (cut.1.foldl (Exec.act cases env s.calls) ⟨d,[]⟩).lastCall cases env s.calls n cut.2
  ⟨last.dir,cut.1,last.log,.killed⟩

def wholeWalk (cases : Cases) (env : Env) (s : Session) (d : RoundDir) : RunLog :=
  let acts := walk cases s.config d.runRecipes
  let last := acts.foldl (Exec.act cases env s.calls) ⟨d,[]⟩
  if env.root then ⟨{ last.dir with finished := true },acts,last.log,.finished⟩
  else ⟨last.dir,acts,last.log,.exited⟩

def runTestSh (cases : Cases) (env : Env) (s : Session) (d : RoundDir) : RunLog :=
  match s.kill with
  | some (.startup n) => ⟨((startup cases env).take n).foldl (fun d f => f d) d,[],[],.killed⟩
  | kill =>
      let ready := prepared cases env d
      if !checkEnvironment env ready then ⟨ready,[],[],.exited⟩
      else
        let ready := collectEnvironmentInfo env ready
        -- The calls are left to the service that is started here.
        if env.root && env.background then ⟨ready,[],[],.exited⟩
        else match kill with
          | some (.call k n) => killedWalk cases env s k n ready
          | _ => wholeWalk cases env s ready

/-! ### What an invocation can do -/

def ready (cases : Cases) (env : Env) (d : RoundDir) : RoundDir :=
  collectEnvironmentInfo env (prepared cases env d)

theorem runTestShCases (cases : Cases) (env : Env) (s : Session) (d : RoundDir) :
    (∃ n, s.kill = some (.startup n) ∧ runTestSh cases env s d =
      ⟨((startup cases env).take n).foldl (fun d f => f d) d,[],[],.killed⟩) ∨
    (checkEnvironment env (prepared cases env d) = false ∧
      runTestSh cases env s d = ⟨prepared cases env d,[],[],.exited⟩) ∨
    ((env.root && env.background) = true ∧
      runTestSh cases env s d = ⟨ready cases env d,[],[],.exited⟩) ∨
    (∃ k n, s.kill = some (.call k n) ∧
      runTestSh cases env s d = killedWalk cases env s k n (ready cases env d)) ∨
    (s.kill = none ∧ runTestSh cases env s d = wholeWalk cases env s (ready cases env d)) := by
  cases kill : s.kill with
  | none =>
    cases same : checkEnvironment env (prepared cases env d) with
    | false => exact .inr (.inl ⟨rfl,by simp [runTestSh,kill,same]⟩)
    | true =>
      cases service : env.root && env.background with
      | true => exact .inr (.inr (.inl ⟨rfl,by simp [runTestSh,kill,same,service,ready]⟩))
      | false => exact .inr (.inr (.inr (.inr ⟨rfl,by simp [runTestSh,kill,same,service,ready]⟩)))
  | some at_ =>
    cases at_ with
    | startup n => exact .inl ⟨n,rfl,by simp [runTestSh,kill]⟩
    | call k n =>
      cases same : checkEnvironment env (prepared cases env d) with
      | false => exact .inr (.inl ⟨rfl,by simp [runTestSh,kill,same]⟩)
      | true =>
        cases service : env.root && env.background with
        | true => exact .inr (.inr (.inl ⟨rfl,by simp [runTestSh,kill,same,service,ready]⟩))
        | false =>
          exact .inr (.inr (.inr (.inl ⟨k,n,rfl,by simp [runTestSh,kill,same,service,ready]⟩)))

theorem splitCallCases (k : Nat) (acts : List Act) : splitCall k acts = (acts,none) ∨
    ∃ pre pid id sourced post, acts = pre ++ .recipe pid id sourced :: post ∧ pre.countP Act.isRecipe = k ∧
      splitCall k acts = (pre,some id) := by
  induction acts generalizing k with
  | nil => exact .inl rfl
  | cons a acts ih =>
    have passed : ∀ j, j + (if a.isRecipe then 1 else 0) = k →
        splitCall k (a::acts) = (a::(splitCall j acts).1,(splitCall j acts).2) →
        splitCall k (a::acts) = (a::acts,none) ∨ ∃ pre pid id sourced post,
          a::acts = pre ++ .recipe pid id sourced :: post ∧ pre.countP Act.isRecipe = k ∧
            splitCall k (a::acts) = (pre,some id) := by
      intro j number eq
      rcases ih j with whole | ⟨pre,pid,id,sourced,post,rfl,count,cut⟩
      · exact .inl (by rw [eq,whole])
      · exact .inr ⟨a::pre,pid,id,sourced,post,rfl,by rw [List.countP_cons,count,number],by rw [eq,cut]⟩
    cases a with
    | recipe pid id sourced =>
      cases k with
      | zero => exact .inr ⟨[],pid,id,sourced,acts,rfl,rfl,rfl⟩
      | succ k => exact passed k rfl rfl
    | config pid dir status => exact passed k rfl (by simp [splitCall])
    | cleanup pid dir sourced => exact passed k rfl (by simp [splitCall])

theorem runTestShConfigured (cases : Cases) (env : Env) (s : Session) (d : RoundDir) :
    Configured s.config (runTestSh cases env s d).acts := by
  have none : Configured s.config [] := by intro pid dir status mem; contradiction
  have all := walkConfigured cases s.config (ready cases env d).runRecipes
  rcases runTestShCases cases env s d with
    ⟨n,_,eq⟩ | ⟨_,eq⟩ | ⟨_,eq⟩ | ⟨k,n,_,eq⟩ | ⟨_,eq⟩ <;> rw [eq]
  · exact none
  · exact none
  · exact none
  · rcases splitCallCases k (walk cases s.config (ready cases env d).runRecipes) with
      split | ⟨pre,pid,id,sourced,post,whole,_,split⟩ <;> simp only [killedWalk,split]
    · exact all
    · intro pid dir status mem
      exact all pid dir status (by rw [whole]; simp [mem])
  · unfold wholeWalk
    split <;> exact all

theorem actSameLists (cases : Cases) (env : Env) (calls : Nat → Call) (s : Exec) (a : Act) :
    s.dir.SameLists (s.act cases env calls a).dir := by
  cases a with
  | recipe pid id sourced => exact writesSameLists id s.dir _
  | _ => exact .refl _

theorem actsSameLists (cases : Cases) (env : Env) (calls : Nat → Call) (s : Exec) (acts : List Act) :
    s.dir.SameLists (acts.foldl (Exec.act cases env calls) s).dir := by
  induction acts generalizing s with
  | nil => exact .refl _
  | cons a acts ih => exact (actSameLists cases env calls s a).trans (ih _)

theorem lastCallSameLists (cases : Cases) (env : Env) (calls : Nat → Call) (n : Nat) (s : Exec)
    (id : Option Text) : s.dir.SameLists (s.lastCall cases env calls n id).dir := by
  cases id with
  | none => exact .refl _
  | some id => exact writesSameLists id s.dir _

theorem killedWalkSameLists (cases : Cases) (env : Env) (s : Session) (k n : Nat) (d : RoundDir) :
    d.SameLists (killedWalk cases env s k n d).dir :=
  (actsSameLists cases env s.calls ⟨d,[]⟩ _).trans (lastCallSameLists cases env s.calls n _ _)

structure Started (env : Env) (list : List Text) (d e : RoundDir) : Prop where
  recipelist : e.recipelist = some list
  tc : e.tc = d.tc
  finished : e.finished = d.finished
  environment : e.environment = d.environment
  finishedTestcase : e.finishedTestcase = d.finishedTestcase ∨
    env.again = true ∧ e.finishedTestcase = none

section Startup
variable {cases : Cases} {env : Env} {list : List Text} {d e : RoundDir}

theorem Started.refl (listed : d.recipelist = some list) : Started env list d d :=
  ⟨listed,rfl,rfl,rfl,.inl rfl⟩

theorem Started.resetCounts (st : Started env list d e) : Started env list d (resetCounts e) :=
  ⟨st.1,st.2,st.3,st.4,st.5⟩

theorem Started.makeFullList (cases : Cases) (st : Started env list d e) :
    Started env list d (makeFullList cases e) := by
  unfold MmRegression.makeFullList
  split
  · exact st
  · exact ⟨st.1,st.2,st.3,st.4,st.5⟩

theorem copyFullListListed (listed : e.recipelist = some list) : copyFullList e = e := by
  simp [copyFullList,listed]

theorem Started.copyFullList (st : Started env list d e) : Started env list d (copyFullList e) := by
  rwa [copyFullListListed st.recipelist]

theorem Started.forgetFinished (st : Started env list d e) : Started env list d (forgetFinished env e) := by
  unfold MmRegression.forgetFinished
  split
  · rename_i again
    exact ⟨st.1,st.2,st.3,st.4,.inr ⟨again,rfl⟩⟩
  · exact st

theorem writeRemainingEq (listed : e.recipelist = some list) :
    ∃ r, writeRemaining e = { e with remaining := r } ∧ ∀ m, e.resumePoint = some m → r = some (list.drop m) := by
  unfold writeRemaining
  cases point : e.resumePoint with
  | none => exact ⟨e.remaining,rfl,by simp⟩
  | some m =>
    simp only [listed]
    exact ⟨some (list.drop m),rfl,by simp⟩

theorem filterRemainingEq (cases : Cases) (env : Env) (e : RoundDir) :
    ∃ r, filterRemaining cases env e = { e with runRecipes := r } ∧
      (e.resumePoint = none ∧ r = e.runRecipes ∨
        ∃ m, e.resumePoint = some m ∧ r = (e.remaining.map (filterRecipeList cases env)).getD []) := by
  unfold filterRemaining
  cases point : e.resumePoint with
  | none => exact ⟨e.runRecipes,by simp,.inl ⟨rfl,rfl⟩⟩
  | some m => exact ⟨_,by simp,.inr ⟨m,rfl,rfl⟩⟩

theorem applyFilterEq (env : Env) (e : RoundDir) : ∃ r, applyFilter env e = { e with runRecipes := r } := by
  unfold applyFilter
  split
  · exact ⟨_,rfl⟩
  · exact ⟨e.runRecipes,rfl⟩

theorem Started.writeRemaining (st : Started env list d e) : Started env list d (writeRemaining e) := by
  obtain ⟨r,eq,_⟩ := writeRemainingEq st.recipelist
  rw [eq]
  exact ⟨st.1,st.2,st.3,st.4,st.5⟩

theorem Started.filterRemaining (cases : Cases) (st : Started env list d e) :
    Started env list d (filterRemaining cases env e) := by
  obtain ⟨r,eq,_⟩ := filterRemainingEq cases env e
  rw [eq]
  exact ⟨st.1,st.2,st.3,st.4,st.5⟩

theorem Started.applyFilter (st : Started env list d e) : Started env list d (applyFilter env e) := by
  obtain ⟨r,eq⟩ := applyFilterEq env e
  rw [eq]
  exact ⟨st.1,st.2,st.3,st.4,st.5⟩

theorem startupStarted (cases : Cases) (env : Env) (listed : d.recipelist = some list) (n : Nat) :
    Started env list d (((startup cases env).take n).foldl (fun d f => f d) d) := by
  have s0 : Started env list d d := .refl listed
  have s1 := s0.resetCounts
  have s2 := s1.makeFullList cases
  have s3 := s2.copyFullList
  have s4 := s3.forgetFinished
  have s5 := s4.writeRemaining
  have s6 := s5.filterRemaining cases
  match n with
  | 0 => exact s0
  | 1 => exact s1
  | 2 => exact s2
  | 3 => exact s3
  | 4 => exact s4
  | 5 => exact s5
  | 6 => exact s6
  | n+7 =>
    rw [List.take_of_length_le (by simp [startup])]
    exact s6.applyFilter

theorem preparedStarted (cases : Cases) (env : Env) (listed : d.recipelist = some list) :
    Started env list d (prepared cases env d) := by
  have whole := startupStarted cases env listed 7
  rwa [List.take_of_length_le (by simp [startup])] at whole

def Taken (cases : Cases) (env : Env) (list : List Text) (d e : RoundDir) : Prop :=
  (e.resumePoint = none ∧ e.runRecipes = d.runRecipes) ∨
    ∃ m, e.resumePoint = some m ∧ e.runRecipes = filterRecipeList cases env (list.drop m)

theorem filteredTaken (cases : Cases) (env : Env) (st : Started env list d e)
    (old : e.runRecipes = d.runRecipes) :
    Taken cases env list d (filterRemaining cases env (writeRemaining e)) := by
  obtain ⟨r,first,rest⟩ := writeRemainingEq st.recipelist
  obtain ⟨q,second,which⟩ := filterRemainingEq cases env (writeRemaining e)
  rw [first] at second which
  rw [first,second]
  rcases which with ⟨none,rfl⟩ | ⟨m,point,rfl⟩
  · exact .inl ⟨none,old⟩
  · refine .inr ⟨m,point,?_⟩
    simp [rest m point]

def forgotten (cases : Cases) (env : Env) (d : RoundDir) : RoundDir :=
  forgetFinished env (copyFullList (makeFullList cases (resetCounts d)))

theorem forgottenStarted (cases : Cases) (env : Env) (listed : d.recipelist = some list) :
    Started env list d (forgotten cases env d) :=
  (((Started.refl listed).resetCounts.makeFullList cases).copyFullList).forgetFinished

theorem forgottenRunRecipes (cases : Cases) (env : Env) (d : RoundDir) :
    (makeFullList cases (resetCounts d)).runRecipes = d.runRecipes ∧
    (copyFullList (makeFullList cases (resetCounts d))).runRecipes = d.runRecipes ∧
    (forgotten cases env d).runRecipes = d.runRecipes := by
  have full : (makeFullList cases (resetCounts d)).runRecipes = d.runRecipes := by
    unfold makeFullList
    split <;> rfl
  have copied : (copyFullList (makeFullList cases (resetCounts d))).runRecipes = d.runRecipes := by
    rw [← full,copyFullList]
    split <;> rfl
  refine ⟨full,copied,?_⟩
  rw [← copied,forgotten,forgetFinished]
  split <;> rfl

theorem preparedUnfiltered (cases : Cases) {env : Env} (unfiltered : env.filter = none) (d : RoundDir) :
    prepared cases env d = filterRemaining cases env (writeRemaining (forgotten cases env d)) := by
  have kept : ∀ e, applyFilter env e = e := by
    intro e
    simp [applyFilter,unfiltered]
  simp only [prepared,startup,List.foldl_cons,List.foldl_nil,kept,forgotten]

theorem preparedTaken (cases : Cases) {env : Env} (unfiltered : env.filter = none)
    (listed : d.recipelist = some list) : Taken cases env list d (prepared cases env d) := by
  rw [preparedUnfiltered cases unfiltered]
  exact filteredTaken cases env (forgottenStarted cases env listed) (forgottenRunRecipes cases env d).2.2

theorem startupTaken (cases : Cases) {env : Env} (unfiltered : env.filter = none)
    (listed : d.recipelist = some list) (n : Nat) :
    (((startup cases env).take n).foldl (fun d f => f d) d).runRecipes = d.runRecipes ∨
      Taken cases env list d (((startup cases env).take n).foldl (fun d f => f d) d) := by
  obtain ⟨full,copied,same⟩ := forgottenRunRecipes cases env d
  have started := forgottenStarted cases env listed
  match n with
  | 0 => exact .inl rfl
  | 1 => exact .inl rfl
  | 2 => exact .inl full
  | 3 => exact .inl copied
  | 4 => exact .inl same
  | 5 =>
    obtain ⟨r,eq,_⟩ := writeRemainingEq started.recipelist
    exact .inl ((congrArg RoundDir.runRecipes eq).trans same)
  | 6 => exact .inr (filteredTaken cases env started same)
  | n+7 =>
    rw [List.take_of_length_le (by simp [startup])]
    exact .inr (preparedTaken cases unfiltered listed)

theorem startupForgets (cases : Cases) {env : Env} (again : env.again = true)
    (listed : d.recipelist = some list) {n : Nat} (late : 4 ≤ n) :
    (((startup cases env).take n).foldl (fun d f => f d) d).finishedTestcase = none := by
  have gone : (forgotten cases env d).finishedTestcase = none := by
    simp [forgotten,forgetFinished,again]
  have fifth : (writeRemaining (forgotten cases env d)).finishedTestcase = none := by
    obtain ⟨_,eq,_⟩ := writeRemainingEq (forgottenStarted cases env listed).recipelist
    rw [eq,gone]
  have sixth : (filterRemaining cases env (writeRemaining (forgotten cases env d))).finishedTestcase = none := by
    obtain ⟨_,eq,_⟩ := filterRemainingEq cases env (writeRemaining (forgotten cases env d))
    rw [eq,fifth]
  match n, late with
  | 4, _ => exact gone
  | 5, _ => exact fifth
  | 6, _ => exact sixth
  | n+7, _ =>
    rw [List.take_of_length_le (by simp [startup])]
    obtain ⟨_,eq⟩ := applyFilterEq env (filterRemaining cases env (writeRemaining (forgotten cases env d)))
    exact (congrArg RoundDir.finishedTestcase eq).trans sixth

theorem preparedForgets (cases : Cases) {env : Env} (again : env.again = true)
    (listed : d.recipelist = some list) : (prepared cases env d).finishedTestcase = none := by
  have whole := startupForgets cases again listed (n := 7) (by omega)
  rwa [List.take_of_length_le (by simp [startup])] at whole

end Startup

structure Left (env : Env) (list : List Text) (d : RoundDir) (r : RunLog) : Prop where
  recipelist : r.dir.recipelist = some list
  finished : r.dir.finished = (r.outcome == .finished)
  environment : r.dir.environment = d.environment ∨ r.dir.environment = some env.hostname
  recorded : r.outcome = .finished → r.dir.environment = some env.hostname

theorem runTestShLeft (cases : Cases) (env : Env) (s : Session) {d : RoundDir} {list : List Text}
    (listed : d.recipelist = some list) (unfinished : d.finished = false) :
    Left env list d (runTestSh cases env s d) := by
  have prep := preparedStarted cases env listed
  rcases runTestShCases cases env s d with
    ⟨n,_,eq⟩ | ⟨_,eq⟩ | ⟨_,eq⟩ | ⟨k,n,_,eq⟩ | ⟨_,eq⟩ <;> rw [eq]
  · have started := startupStarted cases env listed n
    exact ⟨started.recipelist,started.finished.trans unfinished,.inl started.environment,by simp⟩
  · exact ⟨prep.recipelist,prep.finished.trans unfinished,.inl prep.environment,by simp⟩
  · exact ⟨prep.recipelist,prep.finished.trans unfinished,.inr rfl,by simp⟩
  · have same := killedWalkSameLists cases env s k n (ready cases env d)
    exact ⟨same.recipelist.trans prep.recipelist,same.finished.trans (prep.finished.trans unfinished),
      .inr same.environment,by simp [killedWalk]⟩
  · have same := actsSameLists cases env s.calls ⟨ready cases env d,[]⟩
      (walk cases s.config (ready cases env d).runRecipes)
    unfold wholeWalk
    split
    · exact ⟨same.recipelist.trans prep.recipelist,rfl,.inr same.environment,fun _ => same.environment⟩
    · exact ⟨same.recipelist.trans prep.recipelist,same.finished.trans (prep.finished.trans unfinished),
        .inr same.environment,by simp⟩

theorem runTestShFinishes (cases : Cases) {env : Env} (s : Session) {d : RoundDir} {list : List Text}
    (listed : d.recipelist = some list) (root : env.root = true) (foreground : env.background = false)
    (host : ∀ h ∈ d.environment, h = env.hostname)
    (whole : (runTestSh cases env s d).outcome ≠ .killed) : (runTestSh cases env s d).outcome = .finished := by
  rcases runTestShCases cases env s d with
    ⟨n,_,eq⟩ | ⟨other,eq⟩ | ⟨service,eq⟩ | ⟨k,n,_,eq⟩ | ⟨_,eq⟩
  · simp [eq] at whole
  · rw [checkEnvironment,(preparedStarted cases env listed).environment] at other
    cases recorded : d.environment with
    | none => simp [recorded] at other
    | some h => simp [recorded,host h (by simp [recorded])] at other
  · simp [foreground] at service
  · simp [eq,killedWalk] at whole
  · simp [eq,wholeWalk,root]

end MmRegression
