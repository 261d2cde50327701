import MmRegression.RoundLoop

/-! Two runs that differ in LOGLEVEL alone. From level 1 on only the lines of `echo_verbose` come
and go, and of the `result` files the harness reads back no line without the mark of a result
line. So the two runs stay equal in what is left when the unmarked lines are taken out. Level 0
takes out the result lines as well. -/
namespace MmRegression

def Env.atLevel (env : Env) (level : Nat) : Env := { env with loglevel := level }

def RunTest.atLevel (level : Nat) (inv : RunTest) : RunTest := { inv with env := inv.env.atLevel level }

def marked (line : Text) : Bool := startsWith resultMark line

def Effect.shown : Effect → Effect
  | .line t => if marked t then .line t else .quiet
  | e => e

def Write.shown : Write → Write
  | .result lines => .result (lines.filter marked)
  | w => w

def TestcaseDir.shown (t : TestcaseDir) : TestcaseDir := { t with result := t.result.map (List.filter marked) }

def RoundDir.shown (d : RoundDir) : RoundDir := { d with tc := fun k => (d.tc k).shown }

def Project.shown (p : Project) : Project := { p with rounds := fun r => (p.rounds r).shown }

theorem effectWriteShown (e : Effect) : e.write.shown = e.shown.write := by
  cases e with
  | line t =>
    cases mark : marked t <;> simp [Effect.write,Effect.shown,Write.shown,mark]
  | _ => rfl

theorem testcaseWriteShown (t : TestcaseDir) (w : Write) : (t.write w).shown = t.shown.write w.shown := by
  cases w with
  | result lines => cases held : t.result <;> simp [TestcaseDir.write,TestcaseDir.shown,Write.shown,held]
  | _ => rfl

theorem writeShownClear (w : Write) : w.shown = .clear ↔ w = .clear := by
  cases w <;> simp [Write.shown]

theorem roundWriteShown (id : Text) (d : RoundDir) (w : Write) : (d.write id w).shown = d.shown.write id w.shown := by
  have tc : ∀ k, ((d.write id w).tc k).shown = (d.shown.write id w.shown).tc k := by
    intro k
    simp only [RoundDir.write,writeShownClear]
    split
    · exact testcaseWriteShown (d.tc k) w
    · split
      · rfl
      · rfl
  have others : { (d.write id w).shown with tc := (d.shown.write id w.shown).tc } = d.shown.write id w.shown := by
    cases w <;> rfl
  rw [← others]
  simp only [RoundDir.shown,tc]

theorem roundWritesShown (id : Text) (d : RoundDir) (ws : List Write) :
    (d.writes id ws).shown = d.shown.writes id (ws.map Write.shown) := by
  induction ws generalizing d with
  | nil => rfl
  | cons w ws ih =>
    rw [RoundDir.writes,List.foldl_cons,← RoundDir.writes,ih,roundWriteShown]
    rfl

theorem anyMarked {p : Text → Bool} (carries : ∀ l, p l = true → marked l = true) (lines : List Text) :
    (lines.filter marked).any p = lines.any p := by
  rw [List.any_filter]
  congr 1
  funext l
  cases hit : p l with
  | false => simp
  | true => simp [carries l hit]

theorem alreadyRunShown (env : Env) (t : TestcaseDir) :
    checkTestcaseAlreadyRun env t.shown = checkTestcaseAlreadyRun env t := by
  have verdict : ∀ v, (t.shown.result.getD []).any (grepVerdict v) = (t.result.getD []).any (grepVerdict v) := by
    intro v
    cases held : t.result with
    | none => simp [TestcaseDir.shown,held]
    | some lines =>
      simp only [TestcaseDir.shown,held,Option.map_some,Option.getD_some]
      exact anyMarked (fun l hit => (Bool.and_eq_true_iff.mp hit).1) lines
  have mark : (t.shown.result.getD []).any (startsWith resultMark) =
      (t.result.getD []).any (startsWith resultMark) := by
    cases held : t.result with
    | none => simp [TestcaseDir.shown,held]
    | some lines =>
      simp only [TestcaseDir.shown,held,Option.map_some,Option.getD_some]
      exact anyMarked (fun l hit => hit) lines
  have there : t.shown.result.isSome = t.result.isSome := by simp [TestcaseDir.shown]
  have status : t.shown.runStatus = t.runStatus := rfl
  simp only [checkTestcaseAlreadyRun,verdict,mark,there,status]

theorem findMarked (lines : List Text) : (lines.filter marked).findSome? matchResult = lines.findSome? matchResult := by
  induction lines with
  | nil => rfl
  | cons l lines ih =>
    cases mark : marked l with
    | true =>
      rw [List.filter_cons_of_pos mark,List.findSome?_cons,List.findSome?_cons,ih]
    | false =>
      have none : matchResult l = none := if_neg (by rw [← marked,mark]; simp)
      rw [List.filter_cons_of_neg (by simp [mark]),List.findSome?_cons,none,ih]

theorem testcaseResultShown (t : TestcaseDir) : testcaseResult t.shown = testcaseResult t := by
  have found : (t.shown.result.getD []).findSome? matchResult = (t.result.getD []).findSome? matchResult := by
    cases held : t.result with
    | none => simp [TestcaseDir.shown,held]
    | some lines =>
      simp only [TestcaseDir.shown,held,Option.map_some,Option.getD_some]
      exact findMarked lines
  have status : t.shown.runStatus = t.runStatus := rfl
  simp only [testcaseResult,found,status]

def Trial.Unmarked (t : Trial) : Prop := ∀ line, .verbose line ∈ t.events → marked line = false

structure Proc.Alike (p q : Proc) : Prop where
  counters : p.counters = q.counters
  effects : p.effects.map Effect.shown = q.effects.map Effect.shown

section Levels
variable {l m : Nat} (loud : 1 ≤ l) (loud' : 1 ≤ m) (env : Env)
include loud loud'

theorem echoLogSame : echoLog (env.atLevel l) = echoLog (env.atLevel m) := by
  funext line
  simp [echoLog,Env.atLevel,loud,loud']

theorem eventShown {e : Event} (unmarked : ∀ line, e = .verbose line → marked line = false) :
    (e.effects (env.atLevel l)).map Effect.shown = (e.effects (env.atLevel m)).map Effect.shown := by
  cases e with
  | verbose line =>
    have hidden : ∀ n, (echoVerbose (env.atLevel n) line).shown = .quiet := by
      intro n
      unfold echoVerbose
      split
      · simp [Effect.shown,unmarked line rfl]
      · rfl
    simp [Event.effects,hidden]
  | _ => simp only [Event.effects,countSuccess,countFailure,countSkipped,echoLogSame loud loud' env]

theorem trialShown {t : Trial} (unmarked : t.Unmarked) :
    (t.effects (env.atLevel l)).map Effect.shown = (t.effects (env.atLevel m)).map Effect.shown := by
  obtain ⟨events,ending⟩ := t
  show (events.flatMap _).map Effect.shown = (events.flatMap _).map Effect.shown
  rw [List.map_flatMap,List.map_flatMap]
  refine List.flatMap_congr fun e mem => eventShown loud loud' env fun line same => ?_
  subst same
  exact unmarked line mem

omit loud loud' in
theorem onCountersShown (c : Counters) (fx : List Effect) :
    (fx.map Effect.shown).foldl Effect.onCounters c = fx.foldl Effect.onCounters c := by
  induction fx generalizing c with
  | nil => rfl
  | cons e fx ih =>
    have same : e.shown.onCounters c = e.onCounters c := by
      cases e with
      | line t => cases mark : marked t <;> simp [Effect.shown,Effect.onCounters,mark]
      | _ => rfl
    rw [List.map_cons,List.foldl_cons,List.foldl_cons,same,ih]

omit loud loud' in
theorem Proc.Alike.emit {p q : Proc} (alike : p.Alike q) {fx gx : List Effect}
    (same : fx.map Effect.shown = gx.map Effect.shown) : (p.emit fx).Alike (q.emit gx) := by
  refine ⟨?_,by simp [alike.effects,same]⟩
  rw [Proc.emit,Proc.emit,← onCountersShown,← onCountersShown q.counters,same,alike.counters]

theorem Proc.Alike.logs {p q : Proc} (alike : p.Alike q) (lines : List Text) :
    (p.emit (lines.map (echoLog (env.atLevel l)))).Alike (q.emit (lines.map (echoLog (env.atLevel m)))) :=
  alike.emit (by rw [echoLogSame loud loud'])

def EndAlike (x y : Nat × Proc) : Prop := x.1 = y.1 ∧ x.2.Alike y.2

theorem EndAlike.noted {x y : Nat × Proc} (alike : EndAlike x y) (note : Nat → List Text) :
    EndAlike (x.1,x.2.emit ((note x.1).map (echoLog (env.atLevel l))))
      (y.1,y.2.emit ((note y.1).map (echoLog (env.atLevel m)))) := by
  refine ⟨alike.1,?_⟩
  rw [alike.1]
  exact alike.2.logs loud loud' env (note y.1)

variable {trials : Nat → Nat → Trial} (unmarked : ∀ s h, (trials s h).Unmarked)
include unmarked

theorem doTestTryInAlike (soft hard : Nat) {p q : Proc} (alike : p.Alike q) :
    EndAlike (doTestTryIn (env.atLevel l) trials soft hard p) (doTestTryIn (env.atLevel m) trials soft hard q) := by
  have made : (p.emit [.mkdir (trialDir soft hard)]).Alike (q.emit [.mkdir (trialDir soft hard)]) := alike.emit rfl
  have ran := made.emit (trialShown loud loud' env (unmarked soft hard))
  refine ⟨?_,by rw [doTestTryInProc,doTestTryInProc]; exact ran⟩
  simp only [doTestTryIn,doTestTry,made.counters,ran.counters]
  split <;> rfl

theorem hardBodyAlike (soft hard : Nat) {p q : Proc} (alike : p.Alike q) :
    EndAlike (hardBody (env.atLevel l) trials soft hard p) (hardBody (env.atLevel m) trials soft hard q) :=
  (doTestTryInAlike loud loud' env unmarked soft hard
    (alike.logs loud loud' env ["====> Trial #".toList ++ trialDir soft hard])).noted loud loud' env
      (hardNote (trialDir soft hard))

theorem doHardTryAlike (soft : Nat) {p q : Proc} (alike : p.Alike q) :
    EndAlike (doHardTry (env.atLevel l) trials soft p) (doHardTry (env.atLevel m) trials soft q) := by
  cases retry : env.hardRetry with
  | none =>
    simp only [doHardTry,Env.atLevel,retry]
    exact doTestTryInAlike loud loud' env unmarked soft 1 alike
  | some n =>
    by_cases one : n = 1
    · subst one
      simp only [doHardTry,Env.atLevel,retry]
      exact doTestTryInAlike loud loud' env unmarked soft 1 alike
    · simp only [doHardTry,Env.atLevel,retry]
      exact Loop.runRelated Proc.Alike hardStop
        (fun h p q alike => hardBodyAlike loud loud' env unmarked soft h alike) (Loop.seq n) 0 alike

theorem softBodyAlike (soft : Nat) {p q : Proc} (alike : p.Alike q) :
    EndAlike (softBody (env.atLevel l) trials soft p) (softBody (env.atLevel m) trials soft q) :=
  (doHardTryAlike loud loud' env unmarked soft
    (alike.logs loud loud' env ["=====> Trial #".toList ++ digits soft])).noted loud loud' env
      (softNote (digits soft))

theorem softTriesAlike {p q : Proc} (alike : p.Alike q) :
    EndAlike (softTries (env.atLevel l) trials p) (softTries (env.atLevel m) trials q) := by
  cases retry : env.softRetry with
  | none =>
    simp only [softTries,Env.atLevel,retry]
    exact doHardTryAlike loud loud' env unmarked 1 alike
  | some n =>
    by_cases one : n = 1
    · subst one
      simp only [softTries,Env.atLevel,retry]
      exact doHardTryAlike loud loud' env unmarked 1 alike
    · simp only [softTries,Env.atLevel,retry]
      exact Loop.runRelated Proc.Alike softStop
        (fun s p q alike => softBodyAlike loud loud' env unmarked s alike) (Loop.seq n) 0 alike

theorem doSoftTryAlike {p q : Proc} (alike : p.Alike q) :
    EndAlike (doSoftTry (env.atLevel l) trials p) (doSoftTry (env.atLevel m) trials q) := by
  obtain ⟨status,next⟩ := softTriesAlike loud loud' env unmarked alike
  refine ⟨status,next.emit ?_⟩
  rw [status,verdictLines,verdictLines,echoLogSame loud loud']

end Levels

def Call.Unmarked (c : Call) : Prop := ∀ s h, (c.trials s h).Unmarked

section Calls
variable {l m : Nat} (loud : 1 ≤ l) (loud' : 1 ≤ m) (cases : Cases) (env : Env)
include loud loud'

theorem softTryShown {c : Call} (unmarked : c.Unmarked) (k : Counters) :
    (softTryWrites (env.atLevel l) c k).map Write.shown = (softTryWrites (env.atLevel m) c k).map Write.shown := by
  have shown : ∀ fx : List Effect, (fx.map Effect.write).map Write.shown =
      (fx.map Effect.shown).map Effect.write := by
    intro fx
    simp [List.map_map,Function.comp_def,effectWriteShown]
  have alike := (doSoftTryAlike loud loud' env unmarked (p := ⟨k,[]⟩) (q := ⟨k,[]⟩) ⟨rfl,rfl⟩).2.effects
  rw [softTryWrites,softTryWrites,shown,shown,alike]

theorem executeBodyShown (id : Text) {c : Call} (unmarked : c.Unmarked) (current : Option Text)
    {t u : TestcaseDir} (same : t.shown = u.shown) :
    (executeBody (env.atLevel l) id c current t).map Write.shown =
      (executeBody (env.atLevel m) id c current u).map Write.shown := by
  have count : t.rebootCount = u.rebootCount := show t.shown.rebootCount = u.shown.rebootCount by rw [same]
  have counters : t.counters = u.counters := show t.shown.counters = u.shown.counters by rw [same]
  have tries := softTryShown loud loud' env unmarked
  have mode : (env.atLevel l).testRunMode = (env.atLevel m).testRunMode := rfl
  simp only [executeBody,mode,List.map_cons]
  congr 1
  split
  · simp only [restartWrites,count,counters]
    split
    · split <;> simp [tries]
    · simp [tries]
  · simp [startWrites,tries]

theorem runRecipeShown (id : Text) {c : Call} (unmarked : c.Unmarked) {d e : RoundDir} (same : d.shown = e.shown) :
    (runRecipe cases (env.atLevel l) id c d).map Write.shown =
      (runRecipe cases (env.atLevel m) id c e).map Write.shown := by
  have dir : (d.tc (fileKey id)).shown = (e.tc (fileKey id)).shown :=
    congrFun (congrArg RoundDir.tc same) (fileKey id)
  have current : d.currentTestcase = e.currentTestcase :=
    show d.shown.currentTestcase = e.shown.currentTestcase by rw [same]
  have already : checkTestcaseAlreadyRun (env.atLevel l) (d.tc (fileKey id)) =
      checkTestcaseAlreadyRun (env.atLevel m) (e.tc (fileKey id)) := by
    rw [← alreadyRunShown,dir,alreadyRunShown]
    rfl
  have check : recipeLoadCheck (env.atLevel l) = recipeLoadCheck (env.atLevel m) := by
    funext id c loadret
    simp only [recipeLoadCheck,testFlagLines,countSkipped,echoLogSame loud loud' env]
    rfl
  have skip : skipBody (env.atLevel l) = skipBody (env.atLevel m) := by
    funext id fx
    simp only [skipBody,echoLogSame loud loud' env]
  have start : (if env.again then TestcaseDir.empty else d.tc (fileKey id)).shown =
      (if env.again then TestcaseDir.empty else e.tc (fileKey id)).shown := by
    split
    · rfl
    · exact dir
  have body := executeBodyShown loud loud' env id unmarked e.currentTestcase start
  have again : ∀ n, (env.atLevel n).again = env.again := fun _ => rfl
  have devel : ∀ n, (env.atLevel n).develMode = env.develMode := fun _ => rfl
  have clear : ∀ n, clearWrites (env.atLevel n) = clearWrites env := fun _ => rfl
  simp only [runRecipe,already,check,skip,current,again,devel,clear]
  split
  · rfl
  · split
    · rfl
    · split
      · rfl
      · split
        · rfl
        · split
          · rfl
          · simp only [List.map_append,body]

def Exec.Alike (s t : Exec) : Prop := s.dir.shown = t.dir.shown ∧ s.log.length = t.log.length

theorem callAlike (id : Text) {calls : Nat → Call} (unmarked : ∀ k, (calls k).Unmarked)
    (cut : List Write → List Write) (shown : ∀ ws, (cut ws).map Write.shown = cut (ws.map Write.shown))
    {s t : Exec} (alike : s.Alike t) :
    (s.call cases (env.atLevel l) calls cut id).Alike (t.call cases (env.atLevel m) calls cut id) := by
  refine ⟨?_,by simp [Exec.call,alike.2]⟩
  simp only [Exec.call]
  rw [roundWritesShown,roundWritesShown,shown,shown,alike.2,
    runRecipeShown loud loud' cases env id (unmarked _) alike.1,alike.1]

theorem actsAlike {calls : Nat → Call} (unmarked : ∀ k, (calls k).Unmarked) (acts : List Act) {s t : Exec}
    (alike : s.Alike t) : (acts.foldl (Exec.act cases (env.atLevel l) calls) s).Alike
      (acts.foldl (Exec.act cases (env.atLevel m) calls) t) := by
  induction acts generalizing s t with
  | nil => exact alike
  | cons a acts ih =>
    refine ih ?_
    cases a with
    | recipe pid id sourced => 
      exact callAlike loud loud' cases env id unmarked (fun ws => ws) (fun _ => rfl) alike
    | _ => exact alike

theorem lastCallAlike {calls : Nat → Call} (unmarked : ∀ k, (calls k).Unmarked) (n : Nat) (id : Option Text)
    {s t : Exec} (alike : s.Alike t) :
    (s.lastCall cases (env.atLevel l) calls n id).Alike (t.lastCall cases (env.atLevel m) calls n id) := by
  cases id with
  | none => exact alike
  | some id => exact callAlike loud loud' cases env id unmarked (List.take n) (fun _ => List.map_take) alike

omit loud loud' in
theorem stepShown {f : RoundDir → RoundDir} (mem : f ∈ startup cases env) (d : RoundDir) :
    (f d).shown = f d.shown := by
  have point : d.shown.resumePoint = d.resumePoint := rfl
  have lists : d.shown.recipelist = d.recipelist := rfl
  simp only [startup,List.mem_cons,List.not_mem_nil,or_false] at mem
  rcases mem with rfl | rfl | rfl | rfl | rfl | rfl | rfl
  · rfl
  · exact apply_ite RoundDir.shown _ _ _
  · exact apply_ite RoundDir.shown _ _ _
  · exact apply_ite RoundDir.shown _ _ _
  · simp only [writeRemaining,point,lists]
    split
    · rfl
    · rfl
    · exact apply_ite RoundDir.shown _ _ _
  · exact apply_ite RoundDir.shown _ _ _
  · simp only [applyFilter,point]
    split
    · rfl
    · rfl

omit loud loud' in
theorem stepsShown {fs : List (RoundDir → RoundDir)} (part : ∀ f ∈ fs, f ∈ startup cases env) (d : RoundDir) :
    (fs.foldl (fun d f => f d) d).shown = fs.foldl (fun d f => f d) d.shown := by
  induction fs generalizing d with
  | nil => rfl
  | cons f fs ih =>
    rw [List.foldl_cons,List.foldl_cons,ih (fun g mem => part g (by simp [mem])),
      stepShown cases env (part f (by simp))]

omit loud loud' in
theorem preparedShown (d : RoundDir) : (prepared cases env d).shown = prepared cases env d.shown :=
  stepsShown cases env (fun _ mem => mem) d

theorem killedWalkAlike {s : Session} (unmarked : ∀ k, (s.calls k).Unmarked) (k n : Nat) {d e : RoundDir}
    (same : d.shown = e.shown) : (killedWalk cases (env.atLevel l) s k n d).dir.shown =
      (killedWalk cases (env.atLevel m) s k n e).dir.shown := by
  have list : d.runRecipes = e.runRecipes := show d.shown.runRecipes = e.shown.runRecipes by rw [same]
  simp only [killedWalk,list]
  exact (lastCallAlike loud loud' cases env unmarked n _
    (actsAlike loud loud' cases env unmarked _ (s := ⟨d,[]⟩) (t := ⟨e,[]⟩) ⟨same,rfl⟩)).1

theorem wholeWalkAlike {s : Session} (unmarked : ∀ k, (s.calls k).Unmarked) {d e : RoundDir}
    (same : d.shown = e.shown) : (wholeWalk cases (env.atLevel l) s d).dir.shown =
        (wholeWalk cases (env.atLevel m) s e).dir.shown ∧
      (wholeWalk cases (env.atLevel l) s d).outcome = (wholeWalk cases (env.atLevel m) s e).outcome := by
  have list : d.runRecipes = e.runRecipes := show d.shown.runRecipes = e.shown.runRecipes by rw [same]
  have root : ∀ n, (env.atLevel n).root = env.root := fun _ => rfl
  obtain ⟨dirs,_⟩ := actsAlike loud loud' cases env unmarked (walk cases s.config e.runRecipes)
    (s := ⟨d,[]⟩) (t := ⟨e,[]⟩) ⟨same,rfl⟩
  simp only [wholeWalk,list,root]
  split
  · exact ⟨congrArg (fun d : RoundDir => { d with finished := true }) dirs,rfl⟩
  · exact ⟨dirs,rfl⟩

theorem runTestShAlike {s : Session} (unmarked : ∀ k, (s.calls k).Unmarked) {d e : RoundDir}
    (same : d.shown = e.shown) : (runTestSh cases (env.atLevel l) s d).dir.shown =
        (runTestSh cases (env.atLevel m) s e).dir.shown ∧
      (runTestSh cases (env.atLevel l) s d).outcome = (runTestSh cases (env.atLevel m) s e).outcome := by
  have steps : ∀ n, startup cases (env.atLevel n) = startup cases env := fun _ => rfl
  have prep : ∀ n d, prepared cases (env.atLevel n) d = prepared cases env d := fun _ _ => rfl
  have host : ∀ n, checkEnvironment (env.atLevel n) = checkEnvironment env := fun _ => rfl
  have info : ∀ n, collectEnvironmentInfo (env.atLevel n) = collectEnvironmentInfo env := fun _ => rfl
  have service : ∀ n, ((env.atLevel n).root && (env.atLevel n).background) = (env.root && env.background) :=
    fun _ => rfl
  have first : (prepared cases env d).shown = (prepared cases env e).shown := by
    rw [preparedShown,preparedShown,same]
  have check : checkEnvironment env (prepared cases env d) = checkEnvironment env (prepared cases env e) :=
    show checkEnvironment env (prepared cases env d).shown = checkEnvironment env (prepared cases env e).shown by
      rw [first]
  have recorded : (collectEnvironmentInfo env (prepared cases env d)).shown =
      (collectEnvironmentInfo env (prepared cases env e)).shown :=
    congrArg (collectEnvironmentInfo env) first
  have whole := wholeWalkAlike loud loud' cases env unmarked recorded
  have killed := fun k n => killedWalkAlike loud loud' cases env unmarked k n recorded
  simp only [runTestSh,steps,prep,host,info,service,check]
  split
  · rename_i n _
    refine ⟨?_,rfl⟩
    show (((startup cases env).take n).foldl (fun d f => f d) d).shown = _
    have part : ∀ f ∈ (startup cases env).take n, f ∈ startup cases env := fun f => List.mem_of_mem_take
    rw [stepsShown cases env part,stepsShown cases env part,same]
  · split
    · exact ⟨first,rfl⟩
    · split
      · exact ⟨recorded,rfl⟩
      · split
        · exact ⟨killed _ _,rfl⟩
        · exact whole

omit loud loud' in
theorem failLinesShown (d : RoundDir) : d.shown.failLines = d.failLines := by
  have reported : ∀ id, d.shown.reported id = d.reported id := fun id => testcaseResultShown (d.tc (fileKey id))
  have lines : d.shown.showProgress = d.showProgress := by
    simp only [RoundDir.showProgress,reported]
    rfl
  rw [RoundDir.failLines,RoundDir.failLines,lines]

omit loud loud' in
theorem failIdsShown (d : RoundDir) : d.shown.failIds = d.failIds := by
  rw [RoundDir.failIds,RoundDir.failIds,failLinesShown]

omit loud loud' in
theorem updateAlike {p q : Project} (same : p.shown = q.shown) {r : Nat} {f g : RoundDir → RoundDir}
    (new : (f (p.rounds r)).shown = (g (q.rounds r)).shown) : (p.update r f).shown = (q.update r g).shown := by
  have rounds : ∀ r', ((p.update r f).rounds r').shown = ((q.update r g).rounds r').shown := by
    intro r'
    by_cases here : r' = r
    · subst here
      rw [updateSame,updateSame,new]
    · rw [updateOther p f here,updateOther q g here]
      exact congrFun (congrArg Project.rounds same) r'
  have base : ({ p.shown with rounds := fun r' => ((q.update r g).rounds r').shown } : Project) =
      { q.shown with rounds := fun r' => ((q.update r g).rounds r').shown } := by rw [same]
  rw [← funext rounds] at base
  refine Eq.trans base ?_
  simp only [rounds]
  rfl

omit loud loud' in
theorem roundAlike {p q : Project} (same : p.shown = q.shown) (r : Nat) : (p.rounds r).shown = (q.rounds r).shown :=
  congrFun (congrArg Project.rounds same) r

omit loud loud' in
theorem prepareAlike {p q : Project} (same : p.shown = q.shown) (round : Nat) :
    (prepareRound cases p round (p.rounds round)).shown = (prepareRound cases q round (q.rounds round)).shown := by
  have dir := roundAlike same round
  have failed : (p.rounds (round-1)).failIds = (q.rounds (round-1)).failIds := by
    rw [← failIdsShown,roundAlike same (round-1),failIdsShown]
  have base : p.recipelist.getD p.fullRecipeList = q.recipelist.getD q.fullRecipeList :=
    show p.shown.recipelist.getD p.shown.fullRecipeList = q.shown.recipelist.getD q.shown.fullRecipeList by rw [same]
  have project : ∀ d, prepareRound cases p round d = prepareRound cases q round d := by
    intro d
    simp only [prepareRound,failed,base]
  have testcases : ∀ d : RoundDir, (prepareRound cases q round d).shown = prepareRound cases q round d.shown :=
    fun _ => rfl
  rw [project,testcases,testcases,dir]

end Calls

def RunTest.Unmarked (inv : RunTest) : Prop := ∀ r k, ((inv.sessions r).calls k).Unmarked

section Rounds
variable {l m : Nat} (loud : 1 ≤ l) (loud' : 1 ≤ m) (cases : Cases) {inv : RunTest} (unmarked : inv.Unmarked)
include loud loud' unmarked

theorem startRoundAlike (round : Nat) (s t : RunState) {p q : Project} (same : p.shown = q.shown) :
    (startRound cases (inv.atLevel l) round s p).1 = (startRound cases (inv.atLevel m) round t q).1 ∧
    (startRound cases (inv.atLevel l) round s p).2.project.shown =
      (startRound cases (inv.atLevel m) round t q).2.project.shown := by
  obtain ⟨dirs,outcome⟩ := runTestShAlike loud loud' cases inv.env (unmarked round) (roundAlike same round)
  refine ⟨?_,updateAlike same dirs⟩
  have done : allDone (runTestSh cases (inv.env.atLevel l) (inv.sessions round) (p.rounds round)).dir =
      allDone (runTestSh cases (inv.env.atLevel m) (inv.sessions round) (q.rounds round)).dir := by
    rw [allDone,allDone,← failIdsShown,dirs,failIdsShown]
  simp only [startRound,RunTest.atLevel,outcome,done]

theorem roundBodyAlike (round : Nat) {s t : RunState} (same : s.project.shown = t.project.shown) :
    (roundBody cases (inv.atLevel l) round s).1 = (roundBody cases (inv.atLevel m) round t).1 ∧
    (roundBody cases (inv.atLevel l) round s).2.project.shown =
      (roundBody cases (inv.atLevel m) round t).2.project.shown := by
  have env : ∀ n, resetRound (inv.atLevel n).env = resetRound inv.env := fun _ => rfl
  have reset : (s.project.update round (resetRound inv.env)).shown =
      (t.project.update round (resetRound inv.env)).shown := by
    refine updateAlike same ?_
    have dir := roundAlike same round
    unfold resetRound
    split
    · exact congrArg (fun d : RoundDir => { d with finished := false, recipelist := none }) dir
    · exact dir
  simp only [roundBody,env]
  generalize s.project.update round (resetRound inv.env) = p at reset
  generalize t.project.update round (resetRound inv.env) = q at reset
  have finished : ∀ r, (p.rounds r).finished = (q.rounds r).finished := fun r =>
    show (p.rounds r).shown.finished = (q.rounds r).shown.finished by rw [roundAlike reset r]
  have prepared := updateAlike reset (f := prepareRound cases p round) (g := prepareRound cases q round)
    (prepareAlike cases reset round)
  simp only [finished]
  generalize p.update round (prepareRound cases p round) = p' at prepared
  generalize q.update round (prepareRound cases q round) = q' at prepared
  have listed : (p'.rounds round).recipelist = (q'.rounds round).recipelist :=
    show (p'.rounds round).shown.recipelist = (q'.rounds round).shown.recipelist by rw [roundAlike prepared round]
  simp only [listed]
  split
  · exact ⟨rfl,reset⟩
  · split
    · exact ⟨rfl,reset⟩
    · split
      · exact ⟨rfl,prepared⟩
      · exact startRoundAlike loud loud' cases unmarked round s t prepared

theorem runTestAlike {p q : Project} (same : p.shown = q.shown) :
    (runTest cases (inv.atLevel l) p).project.shown = (runTest cases (inv.atLevel m) q).project.shown :=
  Loop.iterateRelated (fun s t : RunState => s.project.shown = t.project.shown)
    (fun round _ _ same => roundBodyAlike loud loud' cases unmarked round same) (Loop.seq inv.failretry)
    (s := ⟨p,[],[]⟩) (t := ⟨q,[],[]⟩) same

end Rounds

/-! ### Runs of invocations -/

structure SameOutcome (failretry : Nat) (p q : Project) : Prop where
  runStatus : ∀ r k, ((p.rounds r).tc k).runStatus = ((q.rounds r).tc k).runStatus
  result : ∀ r k, testcaseResult ((p.rounds r).tc k) = testcaseResult ((q.rounds r).tc k)
  counters : ∀ r k, ((p.rounds r).tc k).counters = ((q.rounds r).tc k).counters
  skipped : ∀ r, (p.rounds r).skipped = (q.rounds r).skipped
  recipelist : ∀ r, (p.rounds r).recipelist = (q.rounds r).recipelist
  finished : checkProjectFinished failretry p = checkProjectFinished failretry q

theorem sameOutcomeShown (failretry : Nat) (p : Project) : SameOutcome failretry p.shown p := by
  have failed : ∀ r, (p.shown.rounds r).failLines = (p.rounds r).failLines := fun r => failLinesShown (p.rounds r)
  refine ⟨fun _ _ => rfl,fun r k => testcaseResultShown _,fun _ _ => rfl,fun _ => rfl,fun _ => rfl,?_⟩
  simp only [checkProjectFinished,failed]
  rfl

theorem SameOutcome.symm {failretry : Nat} {p q : Project} (same : SameOutcome failretry p q) :
    SameOutcome failretry q p :=
  ⟨fun r k => (same.1 r k).symm,fun r k => (same.2 r k).symm,fun r k => (same.3 r k).symm,
    fun r => (same.4 r).symm,fun r => (same.5 r).symm,same.6.symm⟩

theorem SameOutcome.trans {failretry : Nat} {p q o : Project} (pq : SameOutcome failretry p q)
    (qo : SameOutcome failretry q o) : SameOutcome failretry p o :=
  ⟨fun r k => (pq.1 r k).trans (qo.1 r k),fun r k => (pq.2 r k).trans (qo.2 r k),
    fun r k => (pq.3 r k).trans (qo.3 r k),fun r => (pq.4 r).trans (qo.4 r),
    fun r => (pq.5 r).trans (qo.5 r),pq.6.trans qo.6⟩

theorem sameOutcomeOf {p q : Project} (same : p.shown = q.shown) (failretry : Nat) : SameOutcome failretry p q := by
  have left := (sameOutcomeShown failretry p).symm
  rw [same] at left
  exact left.trans (sameOutcomeShown failretry q)

def OnlyVerbosity (l m : Nat) : Prop :=
  ∀ (cases : Cases) (failretry : Nat) (p q q' : Project) (invs : List RunTest), (∀ inv ∈ invs, inv.Unmarked) →
    Machine.run (Project.step cases) p (invs.map (RunTest.atLevel l)) = some q →
    Machine.run (Project.step cases) p (invs.map (RunTest.atLevel m)) = some q' → SameOutcome failretry q q'

theorem onlyVerbosityLoud {l m : Nat} (loud : 1 ≤ l) (loud' : 1 ≤ m) : OnlyVerbosity l m := by
  intro cases failretry p q q' invs unmarked first second
  have shown : ∀ (invs : List RunTest) (p p' : Project), (∀ inv ∈ invs, inv.Unmarked) → p.shown = p'.shown →
      Machine.run (Project.step cases) p (invs.map (RunTest.atLevel l)) = some q →
      Machine.run (Project.step cases) p' (invs.map (RunTest.atLevel m)) = some q' → q.shown = q'.shown := by
    intro invs
    induction invs with
    | nil =>
      intro p p' _ same first second
      cases Option.some.inj first
      cases Option.some.inj second
      exact same
    | cons inv invs ih =>
      intro p p' unmarked same first second
      exact ih _ _ (fun i mem => unmarked i (by simp [mem]))
        (runTestAlike loud loud' cases (unmarked inv (by simp)) same) first second
  exact sameOutcomeOf (shown invs p p unmarked rfl first second) failretry

def failing : RunTest := ⟨.initial,2,fun _ => ⟨fun _ _ => 0,fun _ => failingCall,none⟩,fun _ => true⟩

theorem failingUnmarked : ∀ inv ∈ [failing], inv.Unmarked := by
  intro inv mem
  cases List.mem_singleton.mp mem
  intro r k s h line mem
  simp [failing,failingCall] at mem

def failingResult (level : Nat) : Text :=
  testcaseResult (((runTest twoCases (failing.atLevel level) twoProject).project.rounds 1).tc "d/a".toList)

theorem OnlyVerbosity.failingResult {l m : Nat} (only : OnlyVerbosity l m) : failingResult l = failingResult m :=
  (only twoCases 2 twoProject _ _ [failing] failingUnmarked rfl rfl).result 1 "d/a".toList

theorem failingResultQuiet : failingResult 0 ≠ failingResult 1 := by decide

theorem onlyVerbosityIff (l m : Nat) : OnlyVerbosity l m ↔ (l = 0 ↔ m = 0) := by
  constructor
  · intro only
    have same := only.failingResult
    have loud : ∀ n, 1 ≤ n → failingResult n = failingResult 1 := fun n loud =>
      (onlyVerbosityLoud loud le_rfl).failingResult
    constructor
    · rintro rfl
      by_contra other
      exact failingResultQuiet (same.trans (loud m (by omega)))
    · rintro rfl
      by_contra other
      exact failingResultQuiet (same.symm.trans (loud l (by omega)))
  · intro both
    rcases Nat.eq_zero_or_pos l with rfl | loud
    · obtain rfl := both.mp rfl
      intro cases failretry p q q' invs _ first second
      rw [first] at second
      cases Option.some.inj second
      exact (sameOutcomeShown failretry q).symm.trans (sameOutcomeShown failretry q)
    · have loud' : m ≠ 0 := fun zero => absurd (both.mpr zero) (by omega)
      exact onlyVerbosityLoud loud (by omega)

theorem quietRunHidesFailure : ¬ OnlyVerbosity 0 1 :=
  fun only => failingResultQuiet only.failingResult

end MmRegression
