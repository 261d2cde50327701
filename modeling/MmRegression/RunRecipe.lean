import MmRegression.Recipes
import MmRegression.Trials

/-! `run_recipe` of `run-test.sh` with `check_testcase_already_run` and
`recipe_load_check`, as the list of the writes one call makes below `$GTMPD`. A call
that is killed makes a beginning of that list. `tee` is taken to have written a line
before the script goes on. -/
namespace MmRegression

inductive RunStatus where
  | running | finished | skipped
  deriving DecidableEq, Repr

structure TestcaseDir where
  runStatus : Option RunStatus
  result : Option (List Text)
  rebootCount : Option Nat
  counters : Counters
  deriving DecidableEq, Repr

def TestcaseDir.empty : TestcaseDir := ⟨none,none,none,.missing⟩

/-- `$GTMPD`: one round of a project. `environment` holds the recorded host name, and `tc`
the testcase directories by their path. -/
structure RoundDir where
  fullRecipeList : Option (List Text)
  recipelist : Option (List Text)
  remaining : Option (List Text)
  runRecipes : List Text
  currentTestcase : Option Text
  finishedTestcase : Option Text
  finished : Bool
  environment : Option Text
  skipped : Nat
  tc : Text → TestcaseDir

def RoundDir.fresh : RoundDir where
  fullRecipeList := none
  recipelist := none
  remaining := none
  runRecipes := []
  currentTestcase := none
  finishedTestcase := none
  finished := false
  environment := none
  skipped := 0
  tc := fun _ => .empty

inductive Write where
  | clear
  | result (lines : List Text)
  | runStatus (s : RunStatus)
  | rebootCount (n : Nat)
  | resetCounter (k : Counter)
  | count (k : Counter)
  | skipped
  | currentTestcase (file : Text)
  | removeCurrent
  | finishedTestcase
  | step
  deriving DecidableEq, Repr

def TestcaseDir.write (t : TestcaseDir) : Write → TestcaseDir
  | .clear => .empty
  | .result lines => { t with result := some (t.result.getD [] ++ lines) }
  | .runStatus s => { t with runStatus := some s }
  | .rebootCount n => { t with rebootCount := some n }
  | .resetCounter k => { t with counters := t.counters.update (fun _ => 0) k }
  | .count k => { t with counters := t.counters.add k }
  | _ => t

def RoundDir.write (id : Text) (d : RoundDir) (w : Write) : RoundDir :=
  { d with
    tc := fun k =>
      if k = fileKey id then (d.tc k).write w
      -- `rm -rf $RTMPD/*` takes the testcases below the directory with it.
      else if w = .clear ∧ startsWith (fileKey id ++ ['/']) k then .empty
      else d.tc k
    currentTestcase := match w with
      | .currentTestcase file => some file
      | .removeCurrent => none
      | _ => d.currentTestcase
    finishedTestcase := match w with
      | .finishedTestcase => some id
      | _ => d.finishedTestcase
    skipped := match w with
      | .skipped => d.skipped + 1
      | _ => d.skipped }

def RoundDir.writes (id : Text) (d : RoundDir) (ws : List Write) : RoundDir :=
  ws.foldl (RoundDir.write id) d

def Effect.write : Effect → Write
  | .mkdir _ => .step
  | .line t => .result [t]
  -- Nothing reaches `tee`, which has opened the file.
  | .quiet => .result []
  | .count k => .count k
  | .skipped => .skipped

/-! ### The call -/

/-- What a call gets from its recipe and from the system. `loadret` is `none` when the subshell
is left by `exit` before the load check: by the recipe while it is being sourced, or by
`system_health_check` before it. -/
structure Call where
  loadret : Option Nat
  testType : Text
  testPriority : Text
  skipThisTest : Bool
  maxReboot : Nat
  trials : Nat → Nat → Trial

def grepVerdict (v : Verdict) (line : Text) : Bool :=
  startsWith resultMark line && endsWith (": ".toList ++ v.text) (line.drop resultMark.length)

def checkTestcaseAlreadyRun (env : Env) (t : TestcaseDir) : Bool :=
  if env.skipPass && (t.result.getD []).any (grepVerdict .pass) then true
  else if env.skipFail && (t.result.getD []).any (grepVerdict .fail) then true
  else if env.skipWarn && t.result.isSome && !(t.result.getD []).any (startsWith resultMark) then true
  else if env.again then false
  else t.runStatus == some .finished

def testFlagLines (env : Env) (id : Text) (c : Call) : List Effect :=
  let type := if c.testType = [] then "normal".toList else c.testType
  [echoLog env ("Testcase ".toList ++ (id ++ (" has TEST_TYPE tags \"".toList ++ (type ++
      "\", but RUN_MODE does not contain all of keywords in TEST_TYPE.".toList)))),
    echoLog env ("If you really want to run this testcase, please set environment variable RUN_MODE to contain \"".toList ++
      (type ++ "\", OR simply set to \"all\".".toList))]

def recipeLoadCheck (env : Env) (id : Text) (c : Call) (loadret : Nat) : Option (List Effect) :=
  if loadret ≠ 0 then some (countSkipped env "Failed to load recipe file.".toList)
  else if checkTestFlag env.runMode c.testType then
    some (testFlagLines env id c ++ (countSkipped env "Filtered by RUN_MODE/TEST_TYPE setting.".toList ++
      testFlagLines env id c))
  else if c.skipThisTest then
    some (countSkipped env "This testcase is marked to be skipped by developer.".toList)
  else if !checkSkipPriority env.priority c.testPriority then
    some (countSkipped env "This testcase is out of range of given priority range.".toList ++
      [echoLog env ("The testcase priority (".toList ++ (c.testPriority ++
        (") is not within given priority range [".toList ++ (env.priority ++ "].".toList))))])
  else none

def resetPerTestcaseCounters : List Write :=
  [.resetCounter .testcount,.resetCounter .success,.resetCounter .failure,.resetCounter .warning,
    .resetCounter .later]

def softTryWrites (env : Env) (c : Call) (counters : Counters) : List Write :=
  (doSoftTry env c.trials ⟨counters,[]⟩).2.effects.map Effect.write

def tooManyReboots (c : Call) : Text :=
  "System rebooted more than expected (".toList ++ (digits c.maxReboot ++
    "), so let's finish this testcase.".toList)

def restartLine (id : Text) (round : Nat) : Text :=
  "reboot during running testcase ".toList ++ (id ++
    (", and the testcase expect the reboot, so let's start round ".toList ++ (digits round ++ ['.'])))

def restartWrites (env : Env) (id : Text) (c : Call) (t : TestcaseDir) : List Write :=
  match t.rebootCount with
  | some n =>
      .rebootCount (n+1) ::
        if c.maxReboot < n+1 then [.result [tooManyReboots c]]
        else .result [restartLine id (n+2)] :: softTryWrites env c t.counters
  | none => .result [restartLine id 1] :: softTryWrites env c t.counters

def startWrites (env : Env) (id : Text) (c : Call) : List Write :=
  .rebootCount 0 :: .currentTestcase ("cases/".toList ++ id) :: .runStatus .running ::
    (resetPerTestcaseCounters ++ softTryWrites env c .zero)

def finishWrites : List Write := [.runStatus .finished,.removeCurrent,.finishedTestcase]

def clearWrites (env : Env) : List Write := if env.again then [.clear] else []

def skipBody (env : Env) (id : Text) (fx : List Effect) : List Write :=
  .result [] :: (fx ++ [echoLog env (resultLine id .skip)]).map Effect.write

def executeBody (env : Env) (id : Text) (c : Call) (current : Option Text) (t : TestcaseDir) : List Write :=
  .result [] ::
    if env.testRunMode && current == some ("cases/".toList ++ id) then restartWrites env id c t
    else startWrites env id c

def runRecipe (cases : Cases) (env : Env) (id : Text) (c : Call) (d : RoundDir) : List Write :=
  if !cases.nonEmpty id then [] else
  if checkTestcaseAlreadyRun env (d.tc (fileKey id)) then [] else
  let t := if env.again then TestcaseDir.empty else d.tc (fileKey id)
  if !checkRemoveSuffix cases env.develMode id then clearWrites env else
  match c.loadret with
  | none => clearWrites env
  | some loadret =>
      match recipeLoadCheck env id c loadret with
      | some fx => clearWrites env ++ (skipBody env id fx ++ [.runStatus .skipped])
      | none => clearWrites env ++ (executeBody env id c d.currentTestcase t ++ finishWrites)

def passingCall : Call where
  loadret := some 0
  testType := []
  testPriority := "5".toList
  skipThisTest := false
  maxReboot := 0
  trials := fun _ _ => ⟨[],.done⟩

def failingCall : Call := { passingCall with trials := fun _ _ => ⟨[.failure false "check".toList],.done⟩ }

def testcaseResult (t : TestcaseDir) : Text :=
  match t.runStatus with
  | none => "NONE".toList
  | some .skipped => "SKIP".toList
  -- The first line that matches wins.
  | some _ => ((t.result.getD []).findSome? matchResult).getD "WARN".toList

/-! ### What a call can do -/

def Runs (cases : Cases) (env : Env) (id : Text) (t : TestcaseDir) : Prop :=
  cases.nonEmpty id = true ∧ checkTestcaseAlreadyRun env t = false ∧
    checkRemoveSuffix cases env.develMode id = true

theorem runRecipeCases (cases : Cases) (env : Env) (id : Text) (c : Call) (d : RoundDir) :
    ((cases.nonEmpty id = false ∨ checkTestcaseAlreadyRun env (d.tc (fileKey id)) = true) ∧
      runRecipe cases env id c d = []) ∨
    ((checkRemoveSuffix cases env.develMode id = false ∨ c.loadret = none) ∧
      runRecipe cases env id c d = clearWrites env) ∨
    (Runs cases env id (d.tc (fileKey id)) ∧
      ∃ loadret, c.loadret = some loadret ∧ ∃ fx, recipeLoadCheck env id c loadret = some fx ∧
        runRecipe cases env id c d = clearWrites env ++ (skipBody env id fx ++ [.runStatus .skipped])) ∨
    (Runs cases env id (d.tc (fileKey id)) ∧
      ∃ loadret, c.loadret = some loadret ∧ recipeLoadCheck env id c loadret = none ∧
        runRecipe cases env id c d = clearWrites env ++ (executeBody env id c d.currentTestcase
          (if env.again then .empty else d.tc (fileKey id)) ++ finishWrites)) := by
  cases found : cases.nonEmpty id with
  | false => exact .inl ⟨.inl rfl,by simp [runRecipe,found]⟩
  | true =>
    cases already : checkTestcaseAlreadyRun env (d.tc (fileKey id)) with
    | true => exact .inl ⟨.inr rfl,by simp [runRecipe,already]⟩
    | false =>
      cases suffix : checkRemoveSuffix cases env.develMode id with
      | false => exact .inr (.inl ⟨.inl rfl,by simp [runRecipe,found,already,suffix]⟩)
      | true =>
        cases load : c.loadret with
        | none => exact .inr (.inl ⟨.inr rfl,by simp [runRecipe,found,already,suffix,load]⟩)
        | some loadret =>
          cases check : recipeLoadCheck env id c loadret with
          | some fx =>
            exact .inr (.inr (.inl ⟨⟨found,already,suffix⟩,loadret,rfl,fx,check,
              by simp [runRecipe,found,already,suffix,load,check]⟩))
          | none =>
            exact .inr (.inr (.inr ⟨⟨found,already,suffix⟩,loadret,rfl,check,
              by simp [runRecipe,found,already,suffix,load,check]⟩))

def Write.inner : Write → Bool
  | .clear => false
  | .runStatus .finished => false
  | .runStatus .skipped => false
  | .removeCurrent => false
  | .finishedTestcase => false
  | _ => true

theorem effectInner (e : Effect) : e.write.inner = true := by
  cases e <;> rfl

theorem skipBodyInner (env : Env) (id : Text) (fx : List Effect) {w : Write}
    (mem : w ∈ skipBody env id fx) : w.inner = true := by
  rcases List.mem_cons.mp mem with rfl | mem
  · rfl
  · obtain ⟨e,_,rfl⟩ := List.mem_map.mp mem
    exact effectInner e

theorem softTryInner (env : Env) (c : Call) (k : Counters) {w : Write}
    (mem : w ∈ softTryWrites env c k) : w.inner = true := by
  obtain ⟨e,_,rfl⟩ := List.mem_map.mp mem
  exact effectInner e

theorem restartInner (env : Env) (id : Text) (c : Call) (t : TestcaseDir) {w : Write}
    (mem : w ∈ restartWrites env id c t) : w.inner = true := by
  unfold restartWrites at mem
  split at mem
  · rcases List.mem_cons.mp mem with rfl | mem
    · rfl
    · split at mem
      · rw [List.mem_singleton.mp mem]; rfl
      · rcases List.mem_cons.mp mem with rfl | mem
        · rfl
        · exact softTryInner env c _ mem
  · rcases List.mem_cons.mp mem with rfl | mem
    · rfl
    · exact softTryInner env c _ mem

theorem startInner (env : Env) (id : Text) (c : Call) {w : Write}
    (mem : w ∈ startWrites env id c) : w.inner = true := by
  simp only [startWrites,List.mem_cons,List.mem_append] at mem
  rcases mem with rfl | rfl | rfl | mem | mem
  · rfl
  · rfl
  · rfl
  · have all : ∀ v ∈ resetPerTestcaseCounters, v.inner = true := by decide
    exact all w mem
  · exact softTryInner env c _ mem

theorem executeBodyInner (env : Env) (id : Text) (c : Call) (current : Option Text) (t : TestcaseDir)
    {w : Write} (mem : w ∈ executeBody env id c current t) : w.inner = true := by
  rcases List.mem_cons.mp mem with rfl | mem
  · rfl
  · split at mem
    · exact restartInner env id c t mem
    · exact startInner env id c mem

theorem memClearWrites {env : Env} {w : Write} (mem : w ∈ clearWrites env) : w = .clear := by
  unfold clearWrites at mem
  split at mem
  · exact List.mem_singleton.mp mem
  · contradiction

theorem notEarly {env : Env} {body : List Write} (inner : ∀ w ∈ body, w.inner = true) {w : Write}
    (closing : w.inner = false) (kept : w ≠ .clear) : w ∉ clearWrites env ++ body := by
  intro mem
  rcases List.mem_append.mp mem with mem | mem
  · exact kept (memClearWrites mem)
  · rw [inner w mem] at closing; contradiction

theorem takeThrough {α : Type} {a b : List α} {x : α} {n : Nat} (fresh : x ∉ a)
    (mem : x ∈ (a ++ x::b).take n) : ∃ m, (a ++ x::b).take n = a ++ x :: b.take m := by
  rw [List.take_append] at mem ⊢
  rcases List.mem_append.mp mem with early | late
  · exact absurd (List.mem_of_mem_take early) fresh
  · have reached : a.length < n := by
      by_contra short
      rw [show n - a.length = 0 by omega] at late
      simp at late
    obtain ⟨m,hm⟩ : ∃ m, n - a.length = m+1 := ⟨n - a.length - 1,by omega⟩
    exact ⟨m,by rw [List.take_of_length_le (by omega),hm,List.take_succ_cons]⟩

theorem writesKey (id : Text) (d : RoundDir) (ws : List Write) :
    (d.writes id ws).tc (fileKey id) = ws.foldl TestcaseDir.write (d.tc (fileKey id)) := by
  induction ws generalizing d with
  | nil => rfl
  | cons w ws ih =>
    rw [RoundDir.writes,List.foldl_cons,← RoundDir.writes,ih,List.foldl_cons]
    congr 1
    simp [RoundDir.write]

theorem writesOther {id k : Text} (other : k ≠ fileKey id) (d : RoundDir) {ws : List Write}
    (apart : Write.clear ∉ ws ∨ startsWith (fileKey id ++ ['/']) k = false) :
    (d.writes id ws).tc k = d.tc k := by
  induction ws generalizing d with
  | nil => rfl
  | cons w ws ih =>
    have tail := ih (d.write id w) (apart.imp_left (fun h mem => h (by simp [mem])))
    rw [RoundDir.writes,List.foldl_cons,← RoundDir.writes,tail]
    have head : ¬ (w = .clear ∧ startsWith (fileKey id ++ ['/']) k = true) := by
      rintro ⟨rfl,below⟩
      rcases apart with kept | kept
      · exact kept (by simp)
      · rw [kept] at below; contradiction
    simp only [RoundDir.write,if_neg other,if_neg head]

theorem writesFinishedTestcase (id : Text) (d : RoundDir) (ws : List Write) :
    (d.writes id ws).finishedTestcase =
      if .finishedTestcase ∈ ws then some id else d.finishedTestcase := by
  induction ws generalizing d with
  | nil => rfl
  | cons w ws ih =>
    rw [RoundDir.writes,List.foldl_cons,← RoundDir.writes,ih]
    by_cases mem : Write.finishedTestcase ∈ ws
    · simp [mem]
    · cases w <;> simp [mem,RoundDir.write]

structure RoundDir.SameLists (d e : RoundDir) : Prop where
  fullRecipeList : e.fullRecipeList = d.fullRecipeList
  recipelist : e.recipelist = d.recipelist
  remaining : e.remaining = d.remaining
  runRecipes : e.runRecipes = d.runRecipes
  finished : e.finished = d.finished
  environment : e.environment = d.environment

theorem RoundDir.SameLists.refl (d : RoundDir) : d.SameLists d := ⟨rfl,rfl,rfl,rfl,rfl,rfl⟩

theorem RoundDir.SameLists.trans {d e f : RoundDir} (de : d.SameLists e) (ef : e.SameLists f) :
    d.SameLists f :=
  ⟨ef.1.trans de.1,ef.2.trans de.2,ef.3.trans de.3,ef.4.trans de.4,ef.5.trans de.5,ef.6.trans de.6⟩

theorem writesSameLists (id : Text) (d : RoundDir) (ws : List Write) : d.SameLists (d.writes id ws) := by
  induction ws generalizing d with
  | nil => exact .refl d
  | cons w ws ih =>
    have first : d.SameLists (d.write id w) := ⟨rfl,rfl,rfl,rfl,rfl,rfl⟩
    exact first.trans (ih (d.write id w))

end MmRegression
