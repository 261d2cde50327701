import MmRegression.Loop
import MmRegression.Shell

/-! `do_test_try`, `do_hard_try` and `do_soft_try` of `setup_test_core.sh`, with the
counters of `setup_generic.sh` they compare. A trial is opaque but for what the
harness sees of it: the checks it counts, the lines it prints and how its
subshell ends. -/
namespace MmRegression

structure Counters where
  testcount : Option Nat
  success : Option Nat
  failure : Option Nat
  warning : Option Nat
  later : Option Nat
  deriving DecidableEq, Repr

def Counters.zero : Counters := ⟨some 0,some 0,some 0,some 0,some 0⟩
def Counters.missing : Counters := ⟨none,none,none,none,none⟩

inductive Counter where
  | testcount | success | failure | warning | later
  deriving DecidableEq, Repr

def Counters.update (c : Counters) (f : Option Nat → Nat) : Counter → Counters
  | .testcount => { c with testcount := some (f c.testcount) }
  | .success => { c with success := some (f c.success) }
  | .failure => { c with failure := some (f c.failure) }
  | .warning => { c with warning := some (f c.warning) }
  | .later => { c with later := some (f c.later) }

def Counters.add (c : Counters) (k : Counter) : Counters := c.update (fun n => n.getD 0 + 1) k

/-- What the harness does to the file system while a testcase runs. `skipped` is
`add_counts $GTMPD/__skipped 1`, `line` one line of output on its way to `tee`, and
`quiet` an `echo_log` or `echo_verbose` that LOGLEVEL holds back. -/
inductive Effect where
  | mkdir (dir : Text)
  | line (t : Text)
  | quiet
  | count (c : Counter)
  | skipped
  deriving DecidableEq, Repr

def echoLog (env : Env) (line : Text) : Effect := if 1 ≤ env.loglevel then .line line else .quiet
def echoVerbose (env : Env) (line : Text) : Effect := if 2 ≤ env.loglevel then .line line else .quiet

inductive Event where
  | testcount
  | success (known : Bool) (label : Text)
  | failure (known : Bool) (label : Text)
  | warning (label : Text)
  | skipped (label : Text)
  | echo (line : Text)
  | log (line : Text)
  | verbose (line : Text)
  deriving DecidableEq, Repr

def countSuccess (env : Env) (known : Bool) (label : Text) : List Effect :=
  if known then [.count .later,echoLog env ("LATER: PASS: ".toList ++ label)]
  else [.count .success,echoLog env ("PASS: ".toList ++ label)]

def countFailure (env : Env) (known : Bool) (label : Text) : List Effect :=
  if known then [.count .later,echoLog env ("EXPECTED: FAIL: ".toList ++ label)]
  else [.count .failure,echoLog env ("FAIL: ".toList ++ label)]

def countSkipped (env : Env) (label : Text) : List Effect :=
  [.skipped,echoLog env ("SKIPPED: ".toList ++ label)]

def Event.effects (env : Env) : Event → List Effect
  | .testcount => [.count .testcount]
  | .success known label => countSuccess env known label
  | .failure known label => countFailure env known label
  | .warning label => [.count .warning,echoLog env ("WARN: ".toList ++ label)]
  | .skipped label => countSkipped env label
  | .echo line => [.line line]
  | .log line => [echoLog env line]
  | .verbose line => [echoVerbose env line]

def Effect.onCounters (c : Counters) : Effect → Counters
  | .count k => c.add k
  | _ => c

/-- How the subshell of a trial ends: `__do_test` ran to its end, gave up because `prepare`
failed, or the subshell was killed or left by `exit` with the given status. -/
inductive Ending where
  | done
  | aborted
  | exited (status : Nat)
  deriving DecidableEq, Repr

structure Trial where
  events : List Event
  ending : Ending
  deriving DecidableEq, Repr

def Trial.effects (env : Env) (t : Trial) : List Effect := t.events.flatMap (Event.effects env)

structure Proc where
  counters : Counters
  effects : List Effect
  deriving DecidableEq, Repr

def Proc.emit (p : Proc) (fx : List Effect) : Proc :=
  ⟨fx.foldl Effect.onCounters p.counters,p.effects ++ fx⟩

def grew : Option Nat → Option Nat → Bool
  | some before, some after => decide (before < after)
  -- `[ .. -gt .. ]` fails on the empty output of `cat`.
  | _, _ => false

def doTestTry (env : Env) (t : Trial) (p : Proc) : Nat × Proc :=
  let failureBefore := p.counters.failure
  let q := p.emit (t.effects env)
  match t.ending with
  | .exited n => (n,q)
  | .aborted => (1,q)
  | .done => (if grew failureBefore q.counters.failure then 2 else 0,q)

def trialDir (soft hard : Nat) : Text := digits soft ++ '-' :: digits hard

def doTestTryIn (env : Env) (trials : Nat → Nat → Trial) (soft hard : Nat) (p : Proc) : Nat × Proc :=
  doTestTry env (trials soft hard) (p.emit [.mkdir (trialDir soft hard)])

def hardNote (name : Text) : Nat → List Text
  | 0 => ["<==== Trial #".toList ++ (name ++ " passed".toList)]
  | 2 => ["<==== Trial #".toList ++ (name ++ " failed".toList)]
  | _ => []

def hardBody (env : Env) (trials : Nat → Nat → Trial) (soft hard : Nat) (p : Proc) : Nat × Proc :=
  let name := trialDir soft hard
  let r := doTestTryIn env trials soft hard (p.emit [echoLog env ("====> Trial #".toList ++ name)])
  (r.1,r.2.emit ((hardNote name r.1).map (echoLog env)))

def hardStop (ret : Nat) : Bool := ret == 1 || ret == 2

def doHardTry (env : Env) (trials : Nat → Nat → Trial) (soft : Nat) (p : Proc) : Nat × Proc :=
  match env.hardRetry with
  | none => doTestTryIn env trials soft 1 p
  | some 1 => doTestTryIn env trials soft 1 p
  | some n => Loop.run (hardBody env trials soft) hardStop (Loop.seq n) 0 p

def softNote (name : Text) : Nat → List Text
  | 0 => ["<===== Trial #".toList ++ (name ++ " passed".toList)]
  | 1 => ["<===== skipped".toList]
  | 2 => ["<===== Trial #".toList ++ (name ++ " failed".toList)]
  | _ => []

def softBody (env : Env) (trials : Nat → Nat → Trial) (soft : Nat) (p : Proc) : Nat × Proc :=
  let name := digits soft
  let r := doHardTry env trials soft (p.emit [echoLog env ("=====> Trial #".toList ++ name)])
  (r.1,r.2.emit ((softNote name r.1).map (echoLog env)))

def softStop (ret : Nat) : Bool := ret == 0 || ret == 1

def softTries (env : Env) (trials : Nat → Nat → Trial) (p : Proc) : Nat × Proc :=
  match env.softRetry with
  | none => doHardTry env trials 1 p
  | some 1 => doHardTry env trials 1 p
  | some n => Loop.run (softBody env trials) softStop (Loop.seq n) 0 p

def verdictOf : Nat → Option Verdict
  | 0 => some .pass
  | 1 => some .skip
  | 2 => some .fail
  -- A status above 2 meets no arm, neither here nor in the two loops.
  | _ => none

def verdictLines (env : Env) (ret : Nat) : List Effect :=
  match verdictOf ret with
  | some v => [echoLog env (resultLine [] v)]
  | none => []

def doSoftTry (env : Env) (trials : Nat → Nat → Trial) (p : Proc) : Nat × Proc :=
  let r := softTries env trials p
  (r.1,r.2.emit (verdictLines env r.1))

def Event.failed : Event → Bool
  | .failure false _ => true
  | _ => false

def Trial.status (t : Trial) : Nat :=
  match t.ending with
  | .exited n => n
  | .aborted => 1
  | .done => if t.events.any Event.failed then 2 else 0

def failures (fx : List Effect) : Nat := fx.count (.count .failure)

theorem onCountersFailure (e : Effect) {c : Counters} {f : Nat} (file : c.failure = some f) :
    (e.onCounters c).failure = some (f + failures [e]) := by
  cases e with
  | count k => cases k <;> simp [Effect.onCounters,Counters.add,Counters.update,file,failures]
  | _ => simp [Effect.onCounters,file,failures]

theorem countersFailure (fx : List Effect) {c : Counters} {f : Nat} (file : c.failure = some f) :
    (fx.foldl Effect.onCounters c).failure = some (f + failures fx) := by
  induction fx generalizing c f with
  | nil => exact file
  | cons e fx ih =>
    have split : failures (e::fx) = failures [e] + failures fx := by
      simp only [failures,List.count_cons,List.count_nil]; omega
    rw [List.foldl_cons,ih (onCountersFailure e file),split,Nat.add_assoc]

@[simp] theorem echoLogNotCount (env : Env) (line : Text) (c : Counter) :
    echoLog env line ≠ .count c := by
  unfold echoLog
  split <;> simp

@[simp] theorem echoVerboseNotCount (env : Env) (line : Text) (c : Counter) :
    echoVerbose env line ≠ .count c := by
  unfold echoVerbose
  split <;> simp

theorem failuresCons (e : Effect) (fx : List Effect) :
    failures (e::fx) = (if e = .count .failure then 1 else 0) + failures fx := by
  simp only [failures,List.count_cons,beq_iff_eq]
  omega

@[simp] theorem failuresNil : failures [] = 0 := rfl

theorem eventFailures (env : Env) (e : Event) :
    failures (e.effects env) = if e.failed then 1 else 0 := by
  cases e with
  | success known label => cases known <;> simp [Event.effects,Event.failed,countSuccess,failuresCons]
  | failure known label => cases known <;> simp [Event.effects,Event.failed,countFailure,failuresCons]
  | _ => simp [Event.effects,Event.failed,countSkipped,failuresCons]

theorem trialFailures (env : Env) (t : Trial) :
    0 < failures (t.effects env) ↔ t.events.any Event.failed = true := by
  obtain ⟨events,ending⟩ := t
  show 0 < failures (events.flatMap (Event.effects env)) ↔ _
  induction events with
  | nil => simp
  | cons e es ih =>
    have split : failures ((e::es).flatMap (Event.effects env)) =
        failures (e.effects env) + failures (es.flatMap (Event.effects env)) := by
      simp [failures]
    rw [split,eventFailures,List.any_cons,Bool.or_eq_true,← ih]
    cases e.failed with
    | true =>
      have positive : 0 < 1 + failures (es.flatMap (Event.effects env)) := by omega
      exact iff_of_true positive (.inl rfl)
    | false => simp

def Proc.Counted (p : Proc) : Prop := p.counters.failure.isSome = true

instance (p : Proc) : Decidable p.Counted := inferInstanceAs (Decidable (_ = true))

theorem Proc.Counted.emit {p : Proc} (file : p.Counted) (fx : List Effect) : (p.emit fx).Counted := by
  obtain ⟨f,eq⟩ := Option.isSome_iff_exists.mp file
  simp [Proc.Counted,Proc.emit,countersFailure fx eq]

theorem doTestTryProc (env : Env) (t : Trial) (p : Proc) :
    (doTestTry env t p).2 = p.emit (t.effects env) := by
  unfold doTestTry
  split <;> rfl

theorem doTestTryStatus (env : Env) (t : Trial) {p : Proc} (file : p.Counted) :
    (doTestTry env t p).1 = t.status := by
  have failed := trialFailures env t
  obtain ⟨f,eq⟩ := Option.isSome_iff_exists.mp file
  cases h : t.ending with
  | exited n => simp [doTestTry,Trial.status,h]
  | aborted => simp [doTestTry,Trial.status,h]
  | done =>
    simp only [doTestTry,Trial.status,h,Proc.emit,countersFailure _ eq]
    simp only [eq,grew,Nat.lt_add_right_iff_pos,failed,decide_eq_true_eq]

theorem doTestTryInStatus (env : Env) (trials : Nat → Nat → Trial) (soft hard : Nat) {p : Proc}
    (file : p.Counted) : (doTestTryIn env trials soft hard p).1 = (trials soft hard).status :=
  doTestTryStatus env _ (file.emit _)

theorem doTestTryInProc (env : Env) (trials : Nat → Nat → Trial) (soft hard : Nat) (p : Proc) :
    (doTestTryIn env trials soft hard p).2 =
      (p.emit [.mkdir (trialDir soft hard)]).emit ((trials soft hard).effects env) :=
  doTestTryProc env _ _

theorem hardBodyStatus (env : Env) (trials : Nat → Nat → Trial) (soft hard : Nat) {p : Proc}
    (file : p.Counted) : (hardBody env trials soft hard p).1 = (trials soft hard).status :=
  doTestTryInStatus env trials soft hard (file.emit _)

theorem hardBodyCounted (env : Env) (trials : Nat → Nat → Trial) (soft hard : Nat) (p : Proc)
    (file : p.Counted) : (hardBody env trials soft hard p).2.Counted := by
  rw [hardBody,doTestTryInProc]
  exact (((file.emit _).emit _).emit _).emit _

def hardRet (hardRetry : Option Nat) (o : Nat → Nat) : Nat :=
  match hardRetry with
  | none => o 1
  | some 1 => o 1
  | some n => Loop.status o hardStop (Loop.seq n) 0

def hardRan (hardRetry : Option Nat) (o : Nat → Nat) : List Nat :=
  match hardRetry with
  | none => [1]
  | some 1 => [1]
  | some n => Loop.ran o hardStop (Loop.seq n)

theorem doHardTryStatus (env : Env) (trials : Nat → Nat → Trial) (soft : Nat) {p : Proc}
    (file : p.Counted) :
    (doHardTry env trials soft p).1 = hardRet env.hardRetry (fun h => (trials soft h).status) := by
  unfold doHardTry hardRet
  split
  · exact doTestTryInStatus env trials soft 1 file
  · exact doTestTryInStatus env trials soft 1 file
  · rw [Loop.runEq hardStop (fun h _ => hardBodyStatus env trials soft h)
      (hardBodyCounted env trials soft) _ _ file]

theorem doHardTryCounted (env : Env) (trials : Nat → Nat → Trial) (soft : Nat) {p : Proc}
    (file : p.Counted) : (doHardTry env trials soft p).2.Counted := by
  unfold doHardTry
  split
  · rw [doTestTryInProc]; exact (file.emit _).emit _
  · rw [doTestTryInProc]; exact (file.emit _).emit _
  · exact Loop.runKeeps Proc.Counted hardStop (hardBodyCounted env trials soft) _ _ file

theorem softBodyStatus (env : Env) (trials : Nat → Nat → Trial) (soft : Nat) {p : Proc}
    (file : p.Counted) :
    (softBody env trials soft p).1 = hardRet env.hardRetry (fun h => (trials soft h).status) :=
  doHardTryStatus env trials soft (file.emit _)

theorem softBodyCounted (env : Env) (trials : Nat → Nat → Trial) (soft : Nat) (p : Proc)
    (file : p.Counted) : (softBody env trials soft p).2.Counted :=
  (doHardTryCounted env trials soft (file.emit _)).emit _

def softRet (softRetry hardRetry : Option Nat) (o : Nat → Nat → Nat) : Nat :=
  match softRetry with
  | none => hardRet hardRetry (o 1)
  | some 1 => hardRet hardRetry (o 1)
  | some n => Loop.status (fun s => hardRet hardRetry (o s)) softStop (Loop.seq n) 0

def softRan (softRetry hardRetry : Option Nat) (o : Nat → Nat → Nat) : List Nat :=
  match softRetry with
  | none => [1]
  | some 1 => [1]
  | some n => Loop.ran (fun s => hardRet hardRetry (o s)) softStop (Loop.seq n)

theorem softTriesStatus (env : Env) (trials : Nat → Nat → Trial) {p : Proc} (file : p.Counted) :
    (softTries env trials p).1 =
      softRet env.softRetry env.hardRetry (fun s h => (trials s h).status) := by
  unfold softTries softRet
  split
  · exact doHardTryStatus env trials 1 file
  · exact doHardTryStatus env trials 1 file
  · rw [Loop.runEq softStop (fun s _ => softBodyStatus env trials s)
      (softBodyCounted env trials) _ _ file]

theorem doSoftTryStatus (env : Env) (trials : Nat → Nat → Trial) {p : Proc} (file : p.Counted) :
    (doSoftTry env trials p).1 =
      softRet env.softRetry env.hardRetry (fun s h => (trials s h).status) :=
  softTriesStatus env trials file

def dirs (fx : List Effect) : List Text :=
  fx.filterMap (fun e => match e with | .mkdir d => some d | _ => none)

theorem dirsAppend (a b : List Effect) : dirs (a ++ b) = dirs a ++ dirs b := by
  simp [dirs]

theorem dirsCount (c : Counter) (fx : List Effect) : dirs (.count c :: fx) = dirs fx := rfl

@[simp] theorem dirsLog (env : Env) (line : Text) (fx : List Effect) :
    dirs (echoLog env line :: fx) = dirs fx := by
  unfold echoLog
  split <;> rfl

@[simp] theorem dirsVerbose (env : Env) (line : Text) (fx : List Effect) :
    dirs (echoVerbose env line :: fx) = dirs fx := by
  unfold echoVerbose
  split <;> rfl

@[simp] theorem dirsNil : dirs [] = [] := rfl

theorem dirsEvent (env : Env) (e : Event) : dirs (e.effects env) = [] := by
  cases e with
  | success known label => cases known <;> simp [Event.effects,countSuccess,dirsCount]
  | failure known label => cases known <;> simp [Event.effects,countFailure,dirsCount]
  | skipped label => exact dirsLog env _ []
  | echo line => rfl
  | _ => simp [Event.effects,dirsCount]

theorem dirsTrial (env : Env) (t : Trial) : dirs (t.effects env) = [] := by
  obtain ⟨events,ending⟩ := t
  show dirs (events.flatMap (Event.effects env)) = []
  induction events with
  | nil => rfl
  | cons e es ih => rw [List.flatMap_cons,dirsAppend,dirsEvent,ih]; rfl

@[simp] theorem emitEffects (p : Proc) (fx : List Effect) : (p.emit fx).effects = p.effects ++ fx := rfl

theorem doTestTryInDirs (env : Env) (trials : Nat → Nat → Trial) (soft hard : Nat) (p : Proc) :
    dirs (doTestTryIn env trials soft hard p).2.effects = dirs p.effects ++ [trialDir soft hard] := by
  rw [doTestTryInProc,emitEffects,emitEffects,dirsAppend,dirsAppend,dirsTrial]
  simp [dirs]

theorem emitLogsDirs (env : Env) (p : Proc) (ls : List Text) :
    dirs (p.emit (ls.map (echoLog env))).effects = dirs p.effects := by
  rw [emitEffects,dirsAppend]
  induction ls with
  | nil => simp
  | cons l ls ih => simpa using ih

theorem hardBodyDirs (env : Env) (trials : Nat → Nat → Trial) (soft hard : Nat) (p : Proc) :
    dirs (hardBody env trials soft hard p).2.effects = dirs p.effects ++ [trialDir soft hard] := by
  rw [hardBody,emitLogsDirs,doTestTryInDirs]
  exact congrArg (· ++ _) (emitLogsDirs env p [_])

theorem foldlDirs {ι : Type} {body : ι → Proc → Nat × Proc} (made : ι → List Text)
    (step : ∀ i p, p.Counted → dirs (body i p).2.effects = dirs p.effects ++ made i)
    (keeps : ∀ i p, p.Counted → (body i p).2.Counted) (is : List ι) {p : Proc} (file : p.Counted) :
    dirs (is.foldl (fun p i => (body i p).2) p).effects = dirs p.effects ++ is.flatMap made := by
  induction is generalizing p with
  | nil => simp
  | cons i is ih =>
    rw [List.foldl_cons,ih (keeps i p file),step i p file,List.flatMap_cons,List.append_assoc]

theorem doHardTryDirs (env : Env) (trials : Nat → Nat → Trial) (soft : Nat) {p : Proc}
    (file : p.Counted) : dirs (doHardTry env trials soft p).2.effects = dirs p.effects ++
      (hardRan env.hardRetry (fun h => (trials soft h).status)).map (trialDir soft) := by
  unfold doHardTry hardRan
  split
  · exact doTestTryInDirs env trials soft 1 p
  · exact doTestTryInDirs env trials soft 1 p
  · rw [Loop.runEq hardStop (fun h _ => hardBodyStatus env trials soft h)
      (hardBodyCounted env trials soft) _ _ file]
    rw [foldlDirs (fun h => [trialDir soft h]) (fun h q _ => hardBodyDirs env trials soft h q) (hardBodyCounted env trials soft) _ file]
    rw [List.map_eq_flatMap]

theorem softBodyDirs (env : Env) (trials : Nat → Nat → Trial) (soft : Nat) (p : Proc)
    (file : p.Counted) : dirs (softBody env trials soft p).2.effects = dirs p.effects ++
      (hardRan env.hardRetry (fun h => (trials soft h).status)).map (trialDir soft) := by
  rw [softBody,emitLogsDirs,doHardTryDirs _ _ _ (file.emit _)]
  exact congrArg (· ++ _) (emitLogsDirs env p [_])

def trialsRan (softRetry hardRetry : Option Nat) (o : Nat → Nat → Nat) : List (Nat × Nat) :=
  (softRan softRetry hardRetry o).flatMap (fun s => (hardRan hardRetry (o s)).map (fun h => (s,h)))

theorem doSoftTryDirs (env : Env) (trials : Nat → Nat → Trial) {p : Proc} (file : p.Counted) :
    dirs (doSoftTry env trials p).2.effects = dirs p.effects ++
      (trialsRan env.softRetry env.hardRetry (fun s h => (trials s h).status)).map
        (fun t => trialDir t.1 t.2) := by
  have closing : dirs (doSoftTry env trials p).2.effects = dirs (softTries env trials p).2.effects := by
    rw [doSoftTry,emitEffects,dirsAppend,verdictLines]
    split <;> simp
  rw [closing]
  unfold softTries trialsRan softRan
  split
  · simpa [Function.comp_def] using doHardTryDirs env trials 1 file
  · simpa [Function.comp_def] using doHardTryDirs env trials 1 file
  · rw [Loop.runEq softStop (fun s _ => softBodyStatus env trials s)
      (softBodyCounted env trials) _ _ file]
    rw [foldlDirs _ (softBodyDirs env trials) (softBodyCounted env trials) _ file]
    simp [List.map_flatMap,Function.comp_def]

theorem digitsInjective {a b : Nat} (h : digits a = digits b) : a = b := by
  have value := congrArg (fun t => Nat.ofDigitChars 10 t 0) h
  simpa [digits] using value

theorem digitsNoDash (n : Nat) : '-' ∉ digits n := digitsFree n (by decide)

theorem trialDirInjective {s h s' h' : Nat} (same : trialDir s h = trialDir s' h') : s = s' ∧ h = h' := by
  have cut : ∀ a b, cutFirst '-' (trialDir a b) = digits a := fun a b => cutFirstAppend (digitsNoDash a) _
  have first := congrArg (cutFirst '-') same
  rw [cut,cut] at first
  have soft := digitsInjective first
  subst soft
  have rest := List.append_cancel_left same
  exact ⟨rfl,digitsInjective (List.cons.inj rest).2⟩

end MmRegression
