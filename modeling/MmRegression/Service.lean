import MmRegression.Listing
import MmRegression.Replay

/-! The hand-over to a background service: the unit file that `setup_systemd_service` writes,
what `run.sh` makes of its command and its environment, and the unit that a finished round
writes for the next one. -/
namespace MmRegression

/- The shell variables that `setup_systemd_service` puts into the file. -/
structure Settings where
  trdir : Text
  priority : Text
  loglevel : Text
  runMode : Text
  softRetry : Text
  hardRetry : Text
  vm : Text
  pmemdev : Text
  daxdev : Text
  deriving DecidableEq, Repr

structure ServiceUnit where
  execStart : List Text
  environment : List (Text × Text)
  deriving DecidableEq, Repr

def setupSystemdService (s : Settings) (runname failretry round : Text) : ServiceUnit where
  execStart := ["/bin/bash".toList,s.trdir ++ "/run.sh".toList]
  environment := [("RUNNAME".toList,runname),("PRIORITY".toList,s.priority),("LOGLEVEL".toList,s.loglevel),
    ("RUN_MODE".toList,s.runMode),("SOFT_RETRY".toList,s.softRetry),("HARD_RETRY".toList,s.hardRetry),
    ("TEST_RUN_MODE".toList,"background".toList),("FAILRETRY".toList,failretry),("ROUND".toList,round),
    ("VM".toList,s.vm),("PMEMDEV".toList,s.pmemdev),("DAXDEV".toList,s.daxdev)]

/- An unset variable reads as an empty one. -/
def ServiceUnit.value (u : ServiceUnit) (name : String) : Text := (u.environment.lookup name.toList).getD []

def valueOr (default t : Text) : Text := if t = [] then default else t

/- What `run_test` and the scripts below it find in the environment of the service. -/
def ServiceUnit.env (u : ServiceUnit) (hostname : Text) : Env where
  loglevel := number (valueOr ['1'] (u.value "LOGLEVEL"))
  again := false
  skipPass := false
  skipFail := false
  skipWarn := false
  runMode := valueOr "normal".toList (u.value "RUN_MODE")
  priority := valueOr "0-10".toList (u.value "PRIORITY")
  softRetry := some (number (valueOr ['1'] (u.value "SOFT_RETRY")))
  hardRetry := some (number (valueOr ['1'] (u.value "HARD_RETRY")))
  testRunMode := u.value "TEST_RUN_MODE" ≠ []
  develMode := false
  filter := none
  root := true
  background := false
  hostname := hostname

/-! ### `run.sh` -/

inductive Subcommand where
  | test
  | projectRun
  -- What does not get to `run_test`; without arguments "no command given".
  | other
  deriving DecidableEq, Repr

def projectNames : List Text :=
  ["pro","proj","proje","projec","project","ru","run","runn","runna","runnam","runname"].map String.toList

def subcommand (args : List Text) : Subcommand :=
  if args.headD [] = "test".toList then .test
  else if projectNames.contains (args.headD []) && (["r","ru","run"].map String.toList).contains (args.getD 1 []) then .projectRun
  else .other

/- The loop over the rounds is only entered when ROUND is empty. -/
def runTestRound (cases : Cases) (round : Text) (inv : RunTest) (p : Project) : RunState :=
  if round = [] then runTest cases inv p else ⟨p,[],[]⟩

def runSh (cases : Cases) (args : List Text) (round : Text) (inv : RunTest) (p : Project) : RunState :=
  match subcommand args with
  | .test => runTestRound cases round inv p
  | .projectRun => runTestRound cases round inv p
  | .other => ⟨p,[],[]⟩

/- One start of the service. -/
structure Start where
  hostname : Text
  sessions : Nat → Session
  stops : Nat → Bool

def ServiceUnit.runTest (u : ServiceUnit) (start : Start) : RunTest where
  env := u.env start.hostname
  failretry := number (valueOr ['1'] (u.value "FAILRETRY"))
  sessions := start.sessions
  stops := start.stops

def ServiceUnit.execute (cases : Cases) (u : ServiceUnit) (start : Start) (p : Project) : RunState :=
  runSh cases (u.execStart.drop 2) (u.value "ROUND") (u.runTest start) p

/-- The unit that `run-test.sh` writes when it is called with BACKGROUND; RUNNAME has the round
in it by then. -/
def backgroundService (s : Settings) (runname : Text) (failretry round : Nat) : ServiceUnit :=
  if round < failretry then setupSystemdService s runname (digits failretry) (digits round)
  else setupSystemdService s (runname ++ '/'::digits round) [] []

/- The unit that `run-test.sh` writes at the end of a round of the service, if any. -/
def continueService (s : Settings) (runname : Text) (failretry round : Nat) : Option ServiceUnit :=
  if round < failretry then some (setupSystemdService s runname (digits failretry) (digits (round + 1))) else none

/-! ### The hand-over -/

/- A testcase of the round that is still to be executed. -/
structure Unfinished (cases : Cases) (env : Env) (session : Session) (d : RoundDir) (id : Text) : Prop where
  listed : id ∈ d.recipelist.getD []
  reached : Reached cases env session.config id
  runnable : Runnable cases env id
  unfinished : (d.tc id).runStatus ≠ some .finished

def Executes (round : Nat) (s : RunState) (id : Text) : Prop := ∃ e ∈ executions round s.logs, fileKey e.id = id

structure HandsOver (cases : Cases) (s : Settings) (runname : Text) (failretry round : Nat) (start : Start) (u : ServiceUnit)
    (p : Project) : Prop where
  executes : ∀ id, Unfinished cases (u.env start.hostname) (start.sessions round) (p.rounds round) id →
    Executes round (u.execute cases start p) id
  continues : (∃ l, (round,l) ∈ (u.execute cases start p).logs ∧ l.outcome = .finished) →
    ((u.execute cases start p).project.rounds round).failing ≠ [] → round < failretry →
    ∃ next, continueService s runname failretry round = some next ∧ ∀ again : Start, ∀ id,
      Executes (round + 1) (next.execute cases again (u.execute cases start p).project) id ↔
        id ∈ ((u.execute cases start p).project.rounds round).failing

theorem runShIdle (cases : Cases) {args : List Text} {round : Text} (idle : round ≠ [] ∨ subcommand args = .other)
    (inv : RunTest) (p : Project) : runSh cases args round inv p = ⟨p,[],[]⟩ := by
  rcases idle with set | other
  · unfold runSh runTestRound
    rw [if_neg set]
    split <;> rfl
  · rw [runSh,other]

theorem serviceIdle (cases : Cases) (s : Settings) (runname failretry round : Text) (start : Start) (p : Project) :
    (setupSystemdService s runname failretry round).execute cases start p = ⟨p,[],[]⟩ :=
  runShIdle cases (.inr rfl) _ p

/-- The service executes nothing, whatever stands in its file: the hand-over works when nothing
is left to be executed. -/
theorem handsOverIff (cases : Cases) (s : Settings) (runname : Text) (failretry round : Nat) (name retries number : Text)
    (start : Start) (p : Project) :
    HandsOver cases s runname failretry round start (setupSystemdService s name retries number) p ↔
    ∀ id, ¬ Unfinished cases ((setupSystemdService s name retries number).env start.hostname) (start.sessions round)
      (p.rounds round) id := by
  have idle := serviceIdle cases s name retries number start p
  constructor
  · intro handed id left
    obtain ⟨e,mem,_⟩ := handed.executes id left
    rw [idle] at mem
    contradiction
  · intro none
    refine ⟨fun id left => absurd left (none id),fun ⟨l,mem,_⟩ => ?_⟩
    rw [idle] at mem
    contradiction

def usualSettings : Settings :=
  ⟨"/root/mm_regression".toList,"0-10".toList,['1'],"normal".toList,['1'],['1'],[],[],[]⟩

def waitingProject : Project :=
  ⟨none,["d/a".toList],fun _ => { RoundDir.fresh with recipelist := some ["d/a".toList] }⟩

theorem waitingNotHandedOver : ¬ HandsOver oneCase usualSettings "debug".toList 2 1
    ⟨"localhost".toList,fun _ => passingSession,fun _ => false⟩
    (backgroundService usualSettings "debug".toList 2 1) waitingProject := by
  intro handed
  have written : backgroundService usualSettings "debug".toList 2 1 =
      setupSystemdService usualSettings "debug".toList ['2'] ['1'] := by decide
  have left : Unfinished oneCase ((backgroundService usualSettings "debug".toList 2 1).env "localhost".toList)
      passingSession (waitingProject.rounds 1) "d/a".toList := by
    refine ⟨by decide,⟨⟨by decide,_,List.mem_singleton.mpr rfl,by unfold CaseFile.AcceptedBy; decide,by decide⟩,?_,?_⟩,
      by unfold Runnable; decide,by decide⟩
    · simp [ServiceUnit.env]
    · intro _ _ _
      rfl
  obtain ⟨e,mem,_⟩ := handed.executes _ left
  rw [written,serviceIdle] at mem
  contradiction

end MmRegression
