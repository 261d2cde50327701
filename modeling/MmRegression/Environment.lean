import MmRegression.Listing
import MmRegression.Machine
import MmRegression.RunTest

/-! `environment.sh` over the invocations of a project: what `collect_environment_info` records
and what `check_environment` compares it with. The kernel is looked for in a file that
nothing writes, so only the host name is checked. -/
namespace MmRegression

/- Where an invocation runs: the answers of `uname -a` and `hostname`. -/
structure Place where
  uname : Text
  hostname : Text
  deriving DecidableEq, Repr

/- `$ENVDIR`, as far as `check_environment` reads it or says it does. -/
structure EnvDir where
  unameA : Option Text
  unameR : Option Text
  hostname : Option Text
  deriving DecidableEq, Repr

def EnvDir.empty : EnvDir := ⟨none,none,none⟩

def EnvDir.collect (p : Place) (e : EnvDir) : EnvDir := { e with unameA := some p.uname, hostname := some p.hostname }

def EnvDir.check (again : Bool) (p : Place) (e : EnvDir) : Bool :=
  again || (e.unameR.all (fun uname => uname == p.uname) && e.hostname.all (fun host => host == p.hostname))

/- One invocation of `run-test.sh` in the directory of a round, with what else is found there. -/
structure Visit where
  round : Nat
  uname : Text
  env : Env
  session : Session
  found : RoundDir

def Visit.place (v : Visit) : Place := ⟨v.uname,v.env.hostname⟩

def Visit.dir (v : Visit) (e : EnvDir) : RoundDir := { v.found with environment := e.hostname }

/- Killed before it gets to `check_environment`. -/
def Visit.early (v : Visit) : Bool :=
  match v.session.kill with
  | some (.startup _) => true
  | _ => false

def Visit.log (cases : Cases) (v : Visit) (e : EnvDir) : RunLog :=
  if v.early || e.check v.env.again v.place then runTestSh cases v.env v.session (v.dir e)
  else ⟨prepared cases v.env (v.dir e),[],[],.exited⟩

def Visit.leaves (v : Visit) (e : EnvDir) : EnvDir :=
  if !v.early && e.check v.env.again v.place then e.collect v.place else e

/- The environment directories of the rounds, the place of the first invocation and what has
been executed so far, with its place. -/
structure History where
  envDir : Nat → EnvDir
  first : Option Place
  executed : List (Execution × Place)

def History.start : History := ⟨fun _ => .empty,none,[]⟩

def History.step (cases : Cases) (h : History) (v : Visit) : Option History :=
  some {
    envDir := Function.update h.envDir v.round (v.leaves (h.envDir v.round))
    first := some (h.first.getD v.place)
    executed := h.executed ++ (v.log cases (h.envDir v.round)).log.map (fun e => (e,v.place)) }

/-- AGAIN is unset, and wherever the check of the host name lets an invocation pass, it runs in
the place of the first one: the recorded host has not got another kernel, and a directory without
a record is not entered anywhere else. -/
def SameKernel (h : History) (v : Visit) : Prop :=
  v.env.again = false ∧ ∀ p ∈ h.first,
    match (h.envDir v.round).hostname with
    | some host => v.env.hostname = host → v.uname = p.uname
    | none => v.place = p

structure OneKernel (cases : Cases) (h : History) : Prop where
  executed : ∀ x ∈ h.executed, h.first = some x.2
  -- An invocation in another place runs no testcase and leaves the record as it is.
  turnedAway : ∀ v, SameKernel h v → ∀ p ∈ h.first, v.place ≠ p →
    (v.log cases (h.envDir v.round)).log = [] ∧ v.leaves (h.envDir v.round) = h.envDir v.round

/- The invariant: what is recorded is the place of the first invocation, and uname-r is not there. -/
structure Recorded (h : History) : Prop where
  unameR : ∀ r, (h.envDir r).unameR = none
  hostname : ∀ r, ∀ host ∈ (h.envDir r).hostname, ∃ p, h.first = some p ∧ host = p.hostname
  executed : ∀ x ∈ h.executed, h.first = some x.2

theorem earlyLog (cases : Cases) {v : Visit} (early : v.early = true) (e : EnvDir) : (v.log cases e).log = [] := by
  unfold Visit.early at early
  split at early
  · rename_i n kill
    unfold Visit.log
    split
    · simp [runTestSh,kill]
    · rfl
  · contradiction

theorem checkedPlace {h : History} {v : Visit} (recorded : Recorded h) (same : SameKernel h v)
    (passes : (h.envDir v.round).check v.env.again v.place = true) : ∀ p ∈ h.first, v.place = p := by
  intro p first
  obtain ⟨fresh,kernel⟩ := same
  have place := kernel p first
  rw [EnvDir.check,fresh,Bool.false_or,recorded.unameR] at passes
  cases found : (h.envDir v.round).hostname with
  | none => simpa only [found] using place
  | some host =>
    obtain ⟨q,first',rfl⟩ := recorded.hostname v.round host found
    rw [found] at place passes
    cases Option.some.inj (first'.symm.trans first)
    have here : p.hostname = v.env.hostname := by simpa [Visit.place] using passes
    simp only [Visit.place,place here.symm,← here]

theorem firstKept {h : History} {v : Visit} {p : Place} (known : h.first = some p) :
    some (h.first.getD v.place) = some p := by
  rw [known]
  rfl

theorem loggedPasses {cases : Cases} {v : Visit} {e : EnvDir} {x : Execution} (logged : x ∈ (v.log cases e).log) :
    e.check v.env.again v.place = true := by
  by_contra stopped
  by_cases early : v.early = true
  · rw [earlyLog cases early] at logged
    contradiction
  · rw [Visit.log,if_neg (by simp [early,stopped])] at logged
    contradiction

theorem leavesUnameR (v : Visit) (e : EnvDir) : (v.leaves e).unameR = e.unameR := by
  unfold Visit.leaves
  split <;> rfl

theorem leavesHostname {v : Visit} {e : EnvDir} {host : Text} (mem : host ∈ (v.leaves e).hostname) :
    host ∈ e.hostname ∨ e.check v.env.again v.place = true ∧ host = v.place.hostname := by
  unfold Visit.leaves at mem
  split at mem
  · rename_i passes
    rw [Bool.and_eq_true] at passes
    exact .inr ⟨passes.2,(Option.mem_some_iff.mp mem).symm⟩
  · exact .inl mem

theorem stepRecorded {cases : Cases} {h h' : History} {v : Visit} (recorded : Recorded h) (same : SameKernel h v)
    (moved : h.step cases v = some h') : Recorded h' := by
  cases Option.some.inj moved
  have place : ((h.envDir v.round).check v.env.again v.place) = true → some (h.first.getD v.place) = some v.place := by
    intro passes
    cases known : h.first with
    | none => rfl
    | some p => exact congrArg some (checkedPlace recorded same passes p known).symm
  have older : ∀ {r host}, host ∈ (h.envDir r).hostname →
      ∃ p, some (h.first.getD v.place) = some p ∧ host = p.hostname := by
    intro r host mem
    obtain ⟨p,first,eq⟩ := recorded.hostname r host mem
    exact ⟨p,firstKept first,eq⟩
  refine ⟨fun r => ?_,fun r host mem => ?_,fun x mem => ?_⟩
  · by_cases own : r = v.round
    · subst own
      simp only [Function.update_self,leavesUnameR]
      exact recorded.unameR _
    · simp only [Function.update_of_ne own]
      exact recorded.unameR r
  · by_cases own : r = v.round
    · subst own
      simp only [Function.update_self] at mem
      rcases leavesHostname mem with old | ⟨passes,eq⟩
      · exact older old
      · exact ⟨v.place,place passes,eq⟩
    · simp only [Function.update_of_ne own] at mem
      exact older mem
  · rcases List.mem_append.mp mem with old | new
    · exact firstKept (recorded.executed x old)
    · obtain ⟨e,logged,rfl⟩ := List.mem_map.mp new
      exact place (loggedPasses logged)

theorem oneKernel {cases : Cases} {vs : List Visit} {h : History}
    (along : Machine.Along (History.step cases) SameKernel .start vs)
    (ran : Machine.run (History.step cases) .start vs = some h) : OneKernel cases h := by
  have start : Recorded .start := ⟨fun _ => rfl,fun _ _ mem => by contradiction,fun _ mem => by contradiction⟩
  have recorded := Machine.runKeeps Recorded (fun {_ _ _} => stepRecorded) start along ran
  refine ⟨recorded.executed,fun v same p first other => ?_⟩
  have stopped : (h.envDir v.round).check v.env.again v.place = false := by
    by_contra passes
    exact other (checkedPlace recorded same (by simpa using passes) p first)
  constructor
  · refine List.eq_nil_iff_forall_not_mem.mpr (fun x logged => ?_)
    rw [loggedPasses logged] at stopped
    contradiction
  · rw [Visit.leaves,stopped,Bool.and_false]
    rfl

def listedDir : RoundDir := { RoundDir.fresh with recipelist := some ["d/a".toList,"d/b".toList] }

/- Rebooted after the call for d/a. -/
def firstVisit : Visit := ⟨1,"5.10".toList,.initial,{ passingSession with kill := some (.call 1 0) },listedDir⟩

def nextVisit (uname hostname : Text) : Visit :=
  ⟨1,uname,{ Env.initial with hostname := hostname },passingSession,(firstVisit.log twoCases .empty).dir⟩

theorem oneKernelMoved : ∃ h, Machine.run (History.step twoCases) .start
    [firstVisit,nextVisit "6.0".toList "other".toList,nextVisit "5.10".toList "localhost".toList] = some h ∧
    h.executed.length = 3 ∧ OneKernel twoCases h := by
  have along : Machine.Along (History.step twoCases) SameKernel .start
      [firstVisit,nextVisit "6.0".toList "other".toList,nextVisit "5.10".toList "localhost".toList] := by
    refine ⟨⟨rfl,by simp [History.start]⟩,fun t moved => ?_⟩
    cases Option.some.inj moved
    refine ⟨⟨rfl,fun p mem => ?_⟩,fun t moved => ?_⟩
    · intro same
      exact absurd same (by decide)
    · cases Option.some.inj moved
      refine ⟨⟨rfl,fun p mem => ?_⟩,fun _ _ => trivial⟩
      cases Option.mem_some_iff.mp mem
      intro _
      decide
  exact ⟨_,rfl,by decide,oneKernel along rfl⟩

theorem otherKernelRuns : ∃ h, Machine.run (History.step twoCases) .start
    [firstVisit,nextVisit "5.11".toList "localhost".toList] = some h ∧ ¬ OneKernel twoCases h := by
  refine ⟨_,rfl,fun one => ?_⟩
  exact absurd one.executed (by decide)

end MmRegression
