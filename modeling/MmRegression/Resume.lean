import MmRegression.Machine
import MmRegression.RunTest

/-! Resuming a killed project. `recipe.rb` orders the calls by priority and id, while the
resume point `__finished_testcase` is looked up among the lines of the recipelist.
No testcase is lost as long as the two orders agree. -/
namespace MmRegression

def CaseFile.AcceptedBy (mode : Env) (f : CaseFile) : Prop :=
  f.accepted (typeOption mode.runMode) (some (priorityOption mode.priority)) = true

def Accepted (cases : Cases) (mode : Env) (id : Text) : Prop :=
  shown id = true ∧ ∃ f ∈ cases, f.AcceptedBy mode ∧ f.id = id

def PlainIds (cases : Cases) (mode : Env) (list : List Text) : Prop :=
  ∀ f ∈ cases, f.AcceptedBy mode → f.id ∈ list → PlainId f.id

section Filter
variable {cases : Cases} {mode : Env} {list sub : List Text}

theorem PlainIds.mono (plain : PlainIds cases mode list) (part : ∀ id ∈ sub, id ∈ list) :
    PlainIds cases mode sub :=
  fun f mem accepted listed => plain f mem accepted (part _ listed)

theorem plainNoTab {id : Text} (plain : PlainId id) : cutFirst '\t' id = id := by
  refine cutFirstClean (fun mem => ?_)
  rcases plain.1.walk.1.chars mem with slash | ok
  · exact absurd slash (by decide)
  · exact absurd ok (by decide)

theorem memShown {e : Entry} (mem : e ∈ showList cases
      ⟨typeOption mode.runMode,some (priorityOption mode.priority),some list⟩) :
    shown e.id = true ∧ ∃ f ∈ cases, f.AcceptedBy mode ∧ f.id ∈ list ∧ e = f.entry := by
  obtain ⟨member,sh⟩ := List.mem_filter.mp mem
  obtain ⟨f,inside,accepted,listed,rfl⟩ := memGenerateList.mp member
  exact ⟨sh,f,inside,accepted,by simpa [CaseFile.listed] using listed,rfl⟩

theorem filterMap (plain : PlainIds cases mode list) : filterRecipeList cases mode list =
    (showList cases ⟨typeOption mode.runMode,some (priorityOption mode.priority),some list⟩).map Entry.id := by
  refine List.map_congr_left (fun e mem => ?_)
  obtain ⟨_,f,inside,accepted,listed,rfl⟩ := memShown mem
  exact plainNoTab (plain f inside accepted listed)

theorem memFilterRecipeList (plain : PlainIds cases mode list) {id : Text} :
    id ∈ filterRecipeList cases mode list ↔ id ∈ list ∧ Accepted cases mode id := by
  rw [filterMap plain,List.mem_map]
  constructor
  · rintro ⟨e,mem,rfl⟩
    obtain ⟨sh,f,inside,accepted,listed,rfl⟩ := memShown mem
    exact ⟨listed,sh,f,inside,accepted,rfl⟩
  · rintro ⟨listed,sh,f,inside,accepted,rfl⟩
    refine ⟨f.entry,List.mem_filter.mpr ⟨memGenerateList.mpr ⟨f,inside,accepted,?_,rfl⟩,sh⟩,rfl⟩
    simpa [CaseFile.listed] using listed

def Filtered (cases : Cases) (mode : Env) (list run : List Text) : Prop :=
  run = [] ∨ ∃ sub, (∀ id ∈ sub, id ∈ list) ∧ run = filterRecipeList cases mode sub

theorem Filtered.mem {run : List Text} (plain : PlainIds cases mode list)
    (filtered : Filtered cases mode list run) {id : Text} (mem : id ∈ run) :
    id ∈ list ∧ Accepted cases mode id := by
  rcases filtered with rfl | ⟨sub,part,rfl⟩
  · contradiction
  · obtain ⟨listed,accepted⟩ := (memFilterRecipeList (plain.mono part)).mp mem
    exact ⟨part _ listed,accepted⟩

theorem Filtered.order {run first rest : List Text} {x y : Text} (plain : PlainIds cases mode list)
    (filtered : Filtered cases mode list run) (eq : run = first ++ x::rest) (later : y ∈ rest) :
    ∃ f ∈ cases, ∃ g ∈ cases, f.AcceptedBy mode ∧ g.AcceptedBy mode ∧ f.id = x ∧ g.id = y ∧
      f.entry.RunsBefore g.entry := by
  rcases filtered with rfl | ⟨sub,part,rfl⟩
  · simp at eq
  · have small := plain.mono part
    rw [filterMap small] at eq
    obtain ⟨a,b,split,_,tail⟩ := List.map_eq_append_iff.mp eq
    obtain ⟨e,c,rfl,rfl,rfl⟩ := List.map_eq_cons_iff.mp tail
    obtain ⟨e',mem,rfl⟩ := List.mem_map.mp later
    have sorted := (generatedSorted cases
      ⟨typeOption mode.runMode,some (priorityOption mode.priority),some sub⟩).filter (fun e => shown e.id)
    rw [← showList,split] at sorted
    have before := (List.pairwise_cons.mp (List.pairwise_append.mp sorted).2.1).1 e' mem
    obtain ⟨_,f,fin,facc,_,rfl⟩ := memShown (show e ∈ showList cases
      ⟨typeOption mode.runMode,some (priorityOption mode.priority),some sub⟩ by rw [split]; simp)
    obtain ⟨_,g,gin,gacc,_,rfl⟩ := memShown (show e' ∈ showList cases
      ⟨typeOption mode.runMode,some (priorityOption mode.priority),some sub⟩ by rw [split]; simp [mem])
    exact ⟨f,fin,g,gin,facc,gacc,rfl,rfl,before⟩

end Filter

def TestcaseDir.Done (t : TestcaseDir) : Prop :=
  t.runStatus = some .finished ∨ t.runStatus = some .skipped

instance (t : TestcaseDir) : Decidable t.Done := by unfold TestcaseDir.Done; infer_instance

theorem finishedBeforePoint (cases : Cases) (env : Env) (id : Text) (c : Call) (d : RoundDir) (n : Nat)
    (moved : .finishedTestcase ∈ (runRecipe cases env id c d).take n) :
    ((d.writes id ((runRecipe cases env id c d).take n)).tc (fileKey id)).runStatus = some .finished := by
  rcases runRecipeCases cases env id c d with
    ⟨_,ws⟩ | ⟨_,ws⟩ | ⟨_,_,_,fx,_,ws⟩ | ⟨_,_,_,_,ws⟩
  · rw [ws] at moved; simp at moved
  · rw [ws] at moved
    exact absurd (memClearWrites (List.mem_of_mem_take moved)) (by simp)
  · rw [ws,← List.append_assoc] at moved
    rcases List.mem_append.mp (List.mem_of_mem_take moved) with early | last
    · exact absurd early (notEarly (fun w => skipBodyInner env id fx) rfl (by simp))
    · simp at last
  · have inner := fun w => executeBodyInner env id c d.currentTestcase
      (if env.again then .empty else d.tc (fileKey id)) (w := w)
    generalize executeBody env id c d.currentTestcase _ = body at ws inner
    have shape : clearWrites env ++ (body ++ finishWrites) =
        (clearWrites env ++ (body ++ [.runStatus .finished,.removeCurrent])) ++ [.finishedTestcase] := by
      simp [finishWrites]
    have fresh : .finishedTestcase ∉ clearWrites env ++ (body ++ [.runStatus .finished,.removeCurrent]) := by
      rw [← List.append_assoc,List.mem_append]
      rintro (mem | mem)
      · exact absurd mem (notEarly inner rfl (by simp))
      · simp at mem
    rw [ws,shape] at moved
    obtain ⟨m,whole⟩ := takeThrough fresh moved
    rw [writesKey,ws,shape,whole,List.take_nil,← shape,← List.append_assoc,List.foldl_append]
    rfl

theorem movedRuns {cases : Cases} {env : Env} {id : Text} {c : Call} {d : RoundDir}
    (moved : .finishedTestcase ∈ runRecipe cases env id c d) : Runs cases env id (d.tc (fileKey id)) := by
  rcases runRecipeCases cases env id c d with
    ⟨_,ws⟩ | ⟨_,ws⟩ | ⟨runs,_⟩ | ⟨runs,_⟩
  · rw [ws] at moved; contradiction
  · rw [ws] at moved
    exact absurd (memClearWrites moved) (by simp)
  · exact runs
  · exact runs

def Env.Unskipped (env : Env) : Prop := env.skipPass = false ∧ env.skipFail = false ∧ env.skipWarn = false

instance (env : Env) : Decidable env.Unskipped := by unfold Env.Unskipped; infer_instance

theorem alreadyRunIff {env : Env} (unskipped : env.Unskipped) (t : TestcaseDir) :
    checkTestcaseAlreadyRun env t = true ↔ env.again = false ∧ t.runStatus = some .finished := by
  obtain ⟨pass,fail,warn⟩ := unskipped
  simp only [checkTestcaseAlreadyRun,pass,fail,warn,Bool.false_and]
  cases env.again <;> simp

theorem callDone {cases : Cases} {env : Env} {id : Text} {c : Call} (d : RoundDir)
    (unskipped : env.Unskipped) (found : cases.nonEmpty id = true)
    (suffix : checkRemoveSuffix cases env.develMode id = true) (load : c.loadret ≠ none) :
    ((d.writes id (runRecipe cases env id c d)).tc (fileKey id)).Done := by
  rcases runRecipeCases cases env id c d with
    ⟨missing | already,ws⟩ | ⟨rejected | left,_⟩ | ⟨_,_,_,fx,_,ws⟩ | ⟨_,_,_,_,ws⟩
  · rw [found] at missing; contradiction
  · rw [ws]
    exact .inl ((alreadyRunIff unskipped _).mp already).2
  · rw [suffix] at rejected; contradiction
  · exact absurd left load
  · rw [writesKey,ws,← List.append_assoc,List.foldl_append]
    exact .inr rfl
  · rw [writesKey,ws,← List.append_assoc,List.foldl_append]
    exact .inl rfl

theorem suffixAnyMode {cases : Cases} {id : Text} (suffix : checkRemoveSuffix cases false id = true)
    (develMode : Bool) : checkRemoveSuffix cases develMode id = true := by
  cases develMode with
  | false => exact suffix
  | true =>
    simp only [checkRemoveSuffix,Bool.and_eq_true] at suffix ⊢
    exact ⟨suffix.1,by simp⟩

theorem suffixDevelMode {cases : Cases} {id : Text} {develMode : Bool}
    (suffix : checkRemoveSuffix cases develMode id = true) : checkRemoveSuffix cases true id = true := by
  cases develMode with
  | true => exact suffix
  | false => exact suffixAnyMode suffix true

theorem notClearing {cases : Cases} {env : Env} {id : Text} {c : Call} {d : RoundDir}
    (fresh : env.again = false) : .clear ∉ runRecipe cases env id c d := by
  have none : clearWrites env = [] := by simp [clearWrites,fresh]
  have body : ∀ {ws : List Write}, (∀ w ∈ ws, w.inner = true) → .clear ∉ ws :=
    fun inner mem => absurd (inner _ mem) (by decide)
  rcases runRecipeCases cases env id c d with
    ⟨_,ws⟩ | ⟨_,ws⟩ | ⟨_,_,_,fx,_,ws⟩ | ⟨_,_,_,_,ws⟩
  · simp [ws]
  · simp [ws,none]
  · rw [ws,none,List.nil_append,List.mem_append]
    rintro (mem | mem)
    · exact body (fun w => skipBodyInner env id fx) mem
    · simp at mem
  · rw [ws,none,List.nil_append,List.mem_append]
    rintro (mem | mem)
    · exact body (fun w => executeBodyInner env id c _ _) mem
    · simp [finishWrites] at mem

/-! ### The invariant -/

structure Wanted (cases : Cases) (mode : Env) (list : List Text) (id : Text) : Prop where
  listed : id ∈ list
  found : cases.nonEmpty (called [] id) = true
  suffix : checkRemoveSuffix cases false (called [] id) = true
  accepted : Accepted cases mode id

/-- Whenever the name recorded for a testcase is the resume point, what has to be run of the
lines up to it comes before that testcase in the order of the calls. -/
def ResumeOrdered (cases : Cases) (mode : Env) (list : List Text) : Prop :=
  ∀ f ∈ cases, ∀ g ∈ cases, f.AcceptedBy mode → g.AcceptedBy mode → f.id ∈ list →
    cases.nonEmpty (called [] f.id) = true → checkRemoveSuffix cases true (called [] f.id) = true →
    Wanted cases mode list g.id → g.id ≠ f.id →
    ∀ n, nrPoint (called [] f.id) list = some n → g.id ∈ list.take n → g.entry.RunsBefore f.entry

structure Orderly (cases : Cases) (mode : Env) (list : List Text) : Prop where
  plain : PlainIds cases mode list
  distinct : list.Nodup
  ordered : ResumeOrdered cases mode list

def Ahead (d : RoundDir) (list : List Text) (id : Text) : Prop :=
  ∀ n, d.resumePoint = some n → id ∉ list.take n

/-- Between two invocations: what is not done will be called again. -/
structure Resumable (cases : Cases) (mode : Env) (list : List Text) (acts : List Act) (d : RoundDir) :
    Prop where
  recipelist : d.recipelist = some list
  filtered : d.finishedTestcase ≠ none → Filtered cases mode list d.runRecipes
  kept : ∀ id, Wanted cases mode list id → ¬ FailedAbove acts (called [] id) →
    (d.tc id).Done ∨ Ahead d list id ∧ (d.finishedTestcase ≠ none → id ∈ d.runRecipes)

structure Underway (cases : Cases) (mode : Env) (list : List Text) (again : Bool) (acts : List Act)
    (rest : List Text) (d : RoundDir) : Prop where
  recipelist : d.recipelist = some list
  coming : ∀ id, Wanted cases mode list id → ¬ FailedAbove acts (called [] id) → id ∈ rest →
    again = false ∧ (d.tc id).runStatus = some .finished ∨ Ahead d list id
  past : ∀ id, Wanted cases mode list id → ¬ FailedAbove acts (called [] id) → id ∉ rest → (d.tc id).Done

section Invariant
variable {cases : Cases} {mode : Env} {list : List Text}

theorem Wanted.plain (plain : PlainIds cases mode list) {id : Text} (wanted : Wanted cases mode list id) :
    PlainId id := by
  obtain ⟨_,f,mem,accepted,rfl⟩ := wanted.accepted
  exact plain f mem accepted wanted.listed

theorem Filtered.plain {run : List Text} (plain : PlainIds cases mode list)
    (filtered : Filtered cases mode list run) {id : Text} (mem : id ∈ run) : PlainId id := by
  obtain ⟨listed,_,f,inside,accepted,rfl⟩ := filtered.mem plain mem
  exact plain f inside accepted listed

theorem Underway.mono {again : Bool} {acts more : List Act} {rest : List Text} {d : RoundDir}
    (under : Underway cases mode list again acts rest d) :
    Underway cases mode list again (acts ++ more) rest d := by
  have fewer : ∀ id, ¬ FailedAbove (acts ++ more) id → ¬ FailedAbove acts id :=
    fun id entered failed => entered (failed.mono (by simp +contextual))
  exact ⟨under.recipelist,fun id wanted entered => under.coming id wanted (fewer _ entered),
    fun id wanted entered => under.past id wanted (fewer _ entered)⟩

theorem aheadOfPoint {d e : RoundDir} {id : Text} (listed : e.recipelist = d.recipelist)
    (same : e.finishedTestcase = d.finishedTestcase) (ahead : Ahead d list id) : Ahead e list id := by
  intro n point
  refine ahead n ?_
  simpa only [RoundDir.resumePoint,listed,same] using point

section Call
variable (orderly : Orderly cases mode list) {run first rest : List Text} {x : Text}
  (filtered : Filtered cases mode list run) (eq : run = first ++ x::rest)
  {env : Env} (unskipped : env.Unskipped)
  (alone : env.again = true → run.Nodup ∧ ∀ z ∈ run, ∀ y, Wanted cases mode list y →
    startsWith (z ++ ['/']) y = false)
include orderly filtered eq

theorem aheadOfMoved {c : Call} {d e : RoundDir} (listed : e.recipelist = some list)
    (moved : .finishedTestcase ∈ runRecipe cases env (called [] x) c d)
    (point : e.finishedTestcase = some (called [] x)) {y : Text} (wanted : Wanted cases mode list y)
    (later : y ∈ rest) (other : y ≠ x) : Ahead e list y := by
  intro n found mem
  -- The calls put `x` first; were `y` among the lines up to the point, the list would put it first.
  obtain ⟨f,fin,g,gin,facc,gacc,rfl,rfl,before⟩ := filtered.order orderly.plain eq later
  obtain ⟨flisted,_⟩ := filtered.mem orderly.plain (show f.id ∈ run by rw [eq]; simp)
  obtain ⟨exists_,_,suffix⟩ := movedRuns moved
  have number : nrPoint (called [] f.id) list = some n := by
    simpa [RoundDir.resumePoint,point,listed] using found
  exact other (before.antisymm (orderly.ordered f fin g gin facc gacc flisted exists_
    (suffixDevelMode suffix) wanted other n number mem)).symm

include alone

theorem otherUntouched {c : Call} (d : RoundDir) (n : Nat) {y : Text} (wanted : Wanted cases mode list y)
    (other : y ≠ x) :
    (d.writes (called [] x) ((runRecipe cases env (called [] x) c d).take n)).tc y = d.tc y := by
  have key : fileKey (called [] x) = x :=
    fileKeyCalled (filtered.plain orderly.plain (show x ∈ run by rw [eq]; simp)).1.walk.1
  refine writesOther (by rwa [key]) d ?_
  cases again : env.again with
  | false => exact .inl (fun mem => notClearing again (List.mem_of_mem_take mem))
  | true =>
    rw [key]
    exact .inr ((alone again).2 x (by rw [eq]; simp) y wanted)

theorem otherKept {c : Call} {acts : List Act} {d : RoundDir}
    (under : Underway cases mode list env.again acts (x::rest) d) (n : Nat) {y : Text}
    (wanted : Wanted cases mode list y) (entered : ¬ FailedAbove acts (called [] y)) (other : y ≠ x) :
    let e := d.writes (called [] x) ((runRecipe cases env (called [] x) c d).take n)
    (y ∈ rest → env.again = false ∧ (e.tc y).runStatus = some .finished ∨ Ahead e list y) ∧
    (y ∉ rest → (e.tc y).Done) := by
  intro e
  have same : e.tc y = d.tc y := otherUntouched orderly filtered eq alone d n wanted other
  have lists := writesSameLists (called [] x) d ((runRecipe cases env (called [] x) c d).take n)
  have point := writesFinishedTestcase (called [] x) d ((runRecipe cases env (called [] x) c d).take n)
  rw [same]
  constructor
  · intro later
    rcases under.coming y wanted entered (List.mem_cons_of_mem x later) with done | ahead
    · exact .inl done
    · refine .inr ?_
      split at point
      · rename_i moved
        exact aheadOfMoved orderly filtered eq (lists.recipelist.trans under.recipelist)
          (List.mem_of_mem_take moved) point wanted later other
      · exact aheadOfPoint lists.recipelist point ahead
  · intro gone
    exact under.past y wanted entered (by simp [other,gone])

include unskipped

omit filtered eq alone in
theorem ownKept {c : Call} {acts : List Act} {d : RoundDir}
    (under : Underway cases mode list env.again acts (x::rest) d) (n : Nat)
    (wanted : Wanted cases mode list x) (entered : ¬ FailedAbove acts (called [] x)) :
    let e := d.writes (called [] x) ((runRecipe cases env (called [] x) c d).take n)
    (e.tc x).runStatus = some .finished ∨ Ahead e list x := by
  intro e
  have key : fileKey (called [] x) = x := fileKeyCalled (wanted.plain orderly.plain).1.walk.1
  have lists := writesSameLists (called [] x) d ((runRecipe cases env (called [] x) c d).take n)
  have point := writesFinishedTestcase (called [] x) d ((runRecipe cases env (called [] x) c d).take n)
  split at point
  · rename_i moved
    have finished := finishedBeforePoint cases env (called [] x) c d n moved
    rw [key] at finished
    exact .inl finished
  · rcases under.coming x wanted entered (by simp) with ⟨again,finished⟩ | ahead
    · have already : checkTestcaseAlreadyRun env (d.tc (fileKey (called [] x))) = true := by
        rw [key]
        exact (alreadyRunIff unskipped _).mpr ⟨again,finished⟩
      have nothing : runRecipe cases env (called [] x) c d = [] := by
        simp [runRecipe,already]
      refine .inl ?_
      simp only [e,nothing,List.take_nil]
      exact finished
    · exact .inr (aheadOfPoint lists.recipelist point ahead)

theorem callKilled {c : Call} {acts : List Act} {d : RoundDir}
    (under : Underway cases mode list env.again acts (x::rest) d) (n : Nat) {y : Text}
    (wanted : Wanted cases mode list y) (entered : ¬ FailedAbove acts (called [] y)) :
    let e := d.writes (called [] x) ((runRecipe cases env (called [] x) c d).take n)
    (e.tc y).Done ∨ Ahead e list y ∧ y ∈ run := by
  intro e
  by_cases own : y = x
  · subst own
    rcases ownKept orderly unskipped under n wanted entered with finished | ahead
    · exact .inl (.inl finished)
    · exact .inr ⟨ahead,by simp [eq]⟩
  · obtain ⟨coming,past⟩ := otherKept orderly filtered eq alone under n wanted entered own
    by_cases later : y ∈ rest
    · rcases coming later with finished | ahead
      · exact .inl (.inl finished.2)
      · exact .inr ⟨ahead,by simp [eq,later]⟩
    · exact .inl (past later)

theorem callMade {c : Call} (load : c.loadret ≠ none) {acts : List Act} {d : RoundDir}
    (under : Underway cases mode list env.again acts (x::rest) d) :
    Underway cases mode list env.again acts rest
      (d.writes (called [] x) (runRecipe cases env (called [] x) c d)) := by
  have whole : (runRecipe cases env (called [] x) c d).take (runRecipe cases env (called [] x) c d).length =
      runRecipe cases env (called [] x) c d := List.take_length
  have others := fun y wanted entered => otherKept orderly filtered eq alone under
    (runRecipe cases env (called [] x) c d).length (y := y) (c := c) wanted entered
  have own := fun wanted entered => ownKept orderly unskipped under
    (runRecipe cases env (called [] x) c d).length (c := c) wanted entered
  rw [whole] at others own
  refine ⟨(writesSameLists _ d _).recipelist.trans under.recipelist,fun y wanted entered later => ?_,
    fun y wanted entered gone => ?_⟩
  · by_cases same : y = x
    · subst same
      have once : env.again = false := by
        cases again : env.again with
        | false => rfl
        | true =>
          have nodup := (alone again).1
          rw [eq] at nodup
          exact absurd later (List.nodup_cons.mp (List.nodup_append.mp nodup).2.1).1
      exact (own wanted entered).imp_left (fun finished => ⟨once,finished⟩)
    · exact (others y wanted entered same).1 later
  · by_cases same : y = x
    · subst same
      have done := callDone (c := c) d unskipped wanted.found (suffixAnyMode wanted.suffix env.develMode) load
      rwa [fileKeyCalled (wanted.plain orderly.plain).1.walk.1] at done
    · exact (others y wanted entered same).2 gone

end Call

structure SameMode (mode env : Env) : Prop where
  runMode : env.runMode = mode.runMode
  priority : env.priority = mode.priority
  unfiltered : env.filter = none
  unskipped : env.Unskipped

theorem filterSameMode {env : Env} (same : SameMode mode env) (list : List Text) :
    filterRecipeList cases env list = filterRecipeList cases mode list := by
  simp only [filterRecipeList,same.runMode,same.priority]

def Alone (cases : Cases) (mode : Env) (list run : List Text) : Prop :=
  run.Nodup ∧ ∀ z ∈ run, ∀ y, Wanted cases mode list y → startsWith (z ++ ['/']) y = false

section Run
variable (orderly : Orderly cases mode list) {env : Env} (same : SameMode mode env) {calls : Nat → Call}
  (loads : ∀ k, (calls k).loadret ≠ none)
include orderly same

theorem actsUnderway {run : List Text} (filtered : Filtered cases mode list run)
    (alone : env.again = true → Alone cases mode list run) {earlier : List Act} {s : Exec}
    (start : Underway cases mode list env.again earlier run s.dir)
    (loads : ∀ k, (calls k).loadret ≠ none) {names : List Text} {acts : List Act}
    (covers : Covers names acts) : ∀ {first rest : List Text}, names = first.map (called []) →
      run = first ++ rest → Underway cases mode list env.again (earlier ++ acts) rest
        (acts.foldl (Exec.act cases env calls) s).dir := by
  -- On how the walk covers the list: `first` is dealt with, `rest` still to come.
  induction covers with
  | nil =>
    intro first rest none eq
    rw [List.map_eq_nil_iff.mp none.symm,List.nil_append] at eq
    subst eq
    exact start.mono
  | @call ids acts before pid id sourced ih =>
    intro first rest names eq
    obtain ⟨init,last,rfl,front,tail⟩ := List.map_eq_append_iff.mp names.symm
    obtain ⟨x,more,rfl,rfl,empty⟩ := List.map_eq_cons_iff.mp tail
    rw [List.map_eq_nil_iff.mp empty] at eq
    have split : run = init ++ x::rest := by rw [eq]; simp
    have made := callMade orderly filtered split same.unskipped alone
      (loads (acts.foldl (Exec.act cases env calls) s).log.length) (ih front.symm split)
    rw [List.foldl_append,← List.append_assoc]
    exact made.mono
  | @act ids acts before a other ih =>
    intro first rest names eq
    have still : ∀ t : Exec, t.act cases env calls a = t := by
      intro t
      cases a with
      | recipe => contradiction
      | _ => rfl
    rw [List.foldl_append,← List.append_assoc]
    simp only [List.foldl_cons,List.foldl_nil,still]
    exact (ih names eq).mono
  | @skip ids acts before id failed ih =>
    intro first rest names eq
    obtain ⟨init,last,rfl,front,tail⟩ := List.map_eq_append_iff.mp names.symm
    obtain ⟨x,more,rfl,rfl,empty⟩ := List.map_eq_cons_iff.mp tail
    rw [List.map_eq_nil_iff.mp empty] at eq
    have under := ih front.symm (show run = init ++ x::rest by rw [eq]; simp)
    refine ⟨under.recipelist,fun y wanted entered later => under.coming y wanted entered (by simp [later]),
      fun y wanted entered gone => ?_⟩
    have other : y ≠ x := by
      rintro rfl
      exact entered (failed.mono (by simp +contextual))
    exact under.past y wanted entered (by simp [other,gone])

omit orderly same in
theorem Underway.resumable {again : Bool} {acts : List Act} {rest : List Text} {d : RoundDir}
    (under : Underway cases mode list again acts rest d) (part : ∀ id ∈ rest, id ∈ d.runRecipes)
    (filtered : Filtered cases mode list d.runRecipes) : Resumable cases mode list acts d := by
  refine ⟨under.recipelist,fun _ => filtered,fun id wanted entered => ?_⟩
  by_cases mem : id ∈ rest
  · rcases under.coming id wanted entered mem with ⟨_,finished⟩ | ahead
    · exact .inl (.inl finished)
    · exact .inr ⟨ahead,fun _ => part id mem⟩
  · exact .inl (under.past id wanted entered mem)

omit same in
theorem walkOf {d : RoundDir} (config : List Act → Text → Nat)
    (filtered : Filtered cases mode list d.runRecipes) :
    Covers (d.runRecipes.map (called [])) (walk cases config d.runRecipes) :=
  walkCovers cases config (fun _ mem => (filtered.plain orderly.plain mem).1.walk)

theorem killedWalkResumable {earlier : List Act} {d : RoundDir} (s : Session) (k n : Nat)
    (loads : ∀ k, (s.calls k).loadret ≠ none) (filtered : Filtered cases mode list d.runRecipes)
    (alone : env.again = true → Alone cases mode list d.runRecipes)
    (start : Underway cases mode list env.again earlier d.runRecipes d) :
    Resumable cases mode list (earlier ++ (killedWalk cases env s k n d).acts)
      (killedWalk cases env s k n d).dir := by
  have covers := walkOf orderly s.config filtered
  rcases splitCallCases k (walk cases s.config d.runRecipes) with split | ⟨pre,pid,id,sourced,post,whole,_,split⟩
  · have lists := actsSameLists cases env s.calls ⟨d,[]⟩ (walk cases s.config d.runRecipes)
    have under := actsUnderway orderly same filtered alone (s := ⟨d,[]⟩) start loads covers
      rfl (List.append_nil _).symm
    simp only [killedWalk,split,Exec.lastCall]
    refine under.resumable (by simp) ?_
    rw [lists.runRecipes]
    exact filtered
  · have lists := actsSameLists cases env s.calls ⟨d,[]⟩ pre
    obtain ⟨first,rest,names,before⟩ := covers.before whole
    obtain ⟨a,b,run,front,tail⟩ := List.map_eq_append_iff.mp names
    obtain ⟨x,more,rfl,rfl,rfl⟩ := List.map_eq_cons_iff.mp tail
    have under := actsUnderway orderly same filtered alone (s := ⟨d,[]⟩) start loads before front.symm run
    have last := lists.trans (lastCallSameLists cases env s.calls n
      (pre.foldl (Exec.act cases env s.calls) ⟨d,[]⟩) (some (called [] x)))
    simp only [killedWalk,split]
    refine ⟨last.recipelist.trans start.recipelist,?_,fun y wanted entered => ?_⟩
    · rw [last.runRecipes]
      exact fun _ => filtered
    · rcases callKilled orderly filtered run same.unskipped alone under n wanted entered with done | ⟨ahead,mem⟩
      · exact .inl done
      · refine .inr ⟨ahead,fun _ => ?_⟩
        rw [last.runRecipes]
        exact mem

theorem wholeWalkDone {earlier : List Act} {d : RoundDir} (s : Session)
    (loads : ∀ k, (s.calls k).loadret ≠ none) (filtered : Filtered cases mode list d.runRecipes)
    (alone : env.again = true → Alone cases mode list d.runRecipes)
    (start : Underway cases mode list env.again earlier d.runRecipes d) :
    Filtered cases mode list (wholeWalk cases env s d).dir.runRecipes ∧
    Underway cases mode list env.again (earlier ++ (wholeWalk cases env s d).acts) []
      (wholeWalk cases env s d).dir := by
  have under := actsUnderway orderly same filtered alone (s := ⟨d,[]⟩) start loads
    (walkOf orderly s.config filtered) rfl (List.append_nil _).symm
  have lists := actsSameLists cases env s.calls ⟨d,[]⟩ (walk cases s.config d.runRecipes)
  unfold wholeWalk
  split
  · exact ⟨by simpa only [lists.runRecipes] using filtered,under.1,under.2,under.3⟩
  · exact ⟨by simpa only [lists.runRecipes] using filtered,under⟩

omit orderly same in
theorem aheadUnrecorded {d : RoundDir} (absent : d.finishedTestcase = none) (id : Text) : Ahead d list id := by
  intro n point
  simp only [RoundDir.resumePoint,absent,Option.some.injEq] at point
  subst point
  simp

omit orderly same in
theorem aheadStarted {d e : RoundDir} (listed : d.recipelist = some list)
    (started : Started env list d e) {id : Text} (ahead : Ahead d list id) : Ahead e list id := by
  rcases started.finishedTestcase with same | ⟨_,none⟩
  · exact aheadOfPoint (started.recipelist.trans listed.symm) same ahead
  · exact aheadUnrecorded none id

omit orderly same in
theorem startedRecorded {d e : RoundDir} (started : Started env list d e) (recorded : e.finishedTestcase ≠ none) :
    d.finishedTestcase ≠ none := by
  rcases started.finishedTestcase with eq | ⟨_,eq⟩
  · rwa [← eq]
  · exact absurd eq recorded

omit orderly in
theorem takenFiltered {d e : RoundDir} (filtered : d.finishedTestcase ≠ none → Filtered cases mode list d.runRecipes)
    (started : Started env list d e) (taken : Taken cases env list d e) :
    Filtered cases mode list e.runRecipes := by
  rcases taken with ⟨error,old⟩ | ⟨m,_,new⟩
  · rw [old]
    exact filtered (startedRecorded started (fun absent => by simp [RoundDir.resumePoint,absent] at error))
  · rw [new,filterSameMode same]
    exact .inr ⟨list.drop m,fun id mem => List.mem_of_mem_drop mem,rfl⟩

theorem memTaken {m : Nat} {id : Text} (wanted : Wanted cases mode list id) :
    id ∈ filterRecipeList cases env (list.drop m) ↔ id ∉ list.take m := by
  rw [filterSameMode same,memFilterRecipeList (orderly.plain.mono (fun _ mem => List.mem_of_mem_drop mem))]
  have parts := wanted.listed
  rw [← List.take_append_drop m list,List.mem_append] at parts
  have nodup := orderly.distinct
  rw [← List.take_append_drop m list] at nodup
  constructor
  · rintro ⟨late,_⟩ early
    exact List.disjoint_of_nodup_append nodup early late
  · intro late
    exact ⟨parts.resolve_left late,wanted.accepted⟩

theorem preparedUnderway {acts : List Act} {d : RoundDir} (resumable : Resumable cases mode list acts d) :
    Filtered cases mode list (prepared cases env d).runRecipes ∧
    Underway cases mode list env.again acts (prepared cases env d).runRecipes (prepared cases env d) := by
  have started := preparedStarted cases env resumable.recipelist
  have taken := preparedTaken cases same.unfiltered resumable.recipelist
  refine ⟨takenFiltered same resumable.filtered started taken,started.recipelist,
    fun id wanted entered mem => .inr (fun n point early => ?_),fun id wanted entered gone => ?_⟩
  · rcases taken with ⟨error,_⟩ | ⟨m,found,new⟩
    · rw [error] at point; contradiction
    · rw [found] at point
      cases Option.some.inj point
      exact (memTaken orderly same wanted).mp (new ▸ mem) early
  · rw [started.tc]
    rcases resumable.kept id wanted entered with done | ⟨ahead,listed⟩
    · exact done
    · have later := aheadStarted resumable.recipelist started ahead
      rcases taken with ⟨error,old⟩ | ⟨m,found,new⟩
      · have recorded : d.finishedTestcase ≠ none :=
          startedRecorded started (fun absent => by simp [RoundDir.resumePoint,absent] at error)
        rw [old] at gone
        exact absurd (listed recorded) gone
      · rw [new] at gone
        exact absurd ((memTaken orderly same wanted).mpr (later m found)) gone

theorem startupResumable {acts : List Act} {d : RoundDir} (resumable : Resumable cases mode list acts d)
    (n : Nat) : Resumable cases mode list acts (((startup cases env).take n).foldl (fun d f => f d) d) := by
  have started := startupStarted cases env resumable.recipelist n
  have taken := startupTaken cases same.unfiltered resumable.recipelist n
  generalize ((startup cases env).take n).foldl (fun d f => f d) d = e at started taken
  refine ⟨started.recipelist,?_,fun id wanted entered => ?_⟩
  · intro recorded
    rcases taken with old | taken
    · rw [old]; exact resumable.filtered (startedRecorded started recorded)
    · exact takenFiltered same resumable.filtered started taken
  · rw [started.tc]
    rcases resumable.kept id wanted entered with done | ⟨ahead,listed⟩
    · exact .inl done
    · have later := aheadStarted resumable.recipelist started ahead
      refine .inr ⟨later,fun recorded => ?_⟩
      have before := startedRecorded started recorded
      rcases taken with old | ⟨_,old⟩ | ⟨m,found,new⟩
      · rw [old]; exact listed before
      · rw [old]; exact listed before
      · rw [new]; exact (memTaken orderly same wanted).mpr (later m found)

theorem walkResumable {acts : List Act} {d : RoundDir} (s : Session)
    (loads : ∀ k, (s.calls k).loadret ≠ none)
    (first : ∀ n, s.kill = some (.startup n) → Resumable cases mode list acts
      (((startup cases env).take n).foldl (fun d f => f d) d))
    (filtered : Filtered cases mode list (prepared cases env d).runRecipes)
    (alone : env.again = true → Alone cases mode list (prepared cases env d).runRecipes)
    (under : Underway cases mode list env.again acts (prepared cases env d).runRecipes (prepared cases env d)) :
    Resumable cases mode list (acts ++ (runTestSh cases env s d).acts) (runTestSh cases env s d).dir ∧
    ((runTestSh cases env s d).outcome = .finished → ∀ id, Wanted cases mode list id →
      ¬ FailedAbove (acts ++ (runTestSh cases env s d).acts) (called [] id) →
      ((runTestSh cases env s d).dir.tc id).Done) := by
  have begun : Underway cases mode list env.again acts (ready cases env d).runRecipes (ready cases env d) :=
    ⟨under.1,under.2,under.3⟩
  rcases runTestShCases cases env s d with
    ⟨n,kill,eq⟩ | ⟨_,eq⟩ | ⟨_,eq⟩ | ⟨k,n,_,eq⟩ | ⟨_,eq⟩
  · rw [eq,List.append_nil]
    exact ⟨first n kill,by simp⟩
  · rw [eq,List.append_nil]
    exact ⟨under.resumable (fun _ mem => mem) filtered,by simp⟩
  · rw [eq,List.append_nil]
    exact ⟨begun.resumable (fun _ mem => mem) filtered,by simp⟩
  · rw [eq]
    exact ⟨killedWalkResumable (d := ready cases env d) orderly same s k n loads filtered alone begun,
      by simp [killedWalk]⟩
  · rw [eq]
    obtain ⟨listed,done⟩ := wholeWalkDone (d := ready cases env d) orderly same s loads filtered alone begun
    exact ⟨done.resumable (by simp) listed,fun _ id wanted entered => done.past id wanted entered (by simp)⟩

theorem invocationResumable {acts : List Act} {d : RoundDir} (s : Session)
    (loads : ∀ k, (s.calls k).loadret ≠ none) (once : env.again = false)
    (resumable : Resumable cases mode list acts d) :
    Resumable cases mode list (acts ++ (runTestSh cases env s d).acts) (runTestSh cases env s d).dir ∧
    ((runTestSh cases env s d).outcome = .finished → ∀ id, Wanted cases mode list id →
      ¬ FailedAbove (acts ++ (runTestSh cases env s d).acts) (called [] id) →
      ((runTestSh cases env s d).dir.tc id).Done) := by
  obtain ⟨filtered,under⟩ := preparedUnderway orderly same resumable
  refine walkResumable orderly same s loads (fun n _ => startupResumable orderly same resumable n) filtered ?_ under
  intro again
  rw [once] at again
  contradiction

omit orderly same in
theorem resumableUnrecorded {acts : List Act} {d : RoundDir} (listed : d.recipelist = some list)
    (absent : d.finishedTestcase = none) : Resumable cases mode list acts d :=
  ⟨listed,fun recorded => absurd absent recorded,
    fun id _ _ => .inr ⟨aheadUnrecorded absent id,fun recorded => absurd absent recorded⟩⟩

omit orderly in
theorem againRuns (cases : Cases) (again : env.again = true) {d : RoundDir} (listed : d.recipelist = some list) :
    (prepared cases env d).runRecipes = filterRecipeList cases mode list := by
  rcases preparedTaken cases same.unfiltered listed with ⟨error,_⟩ | ⟨m,found,new⟩
  · simp [RoundDir.resumePoint,preparedForgets cases again listed] at error
  · simp only [RoundDir.resumePoint,preparedForgets cases again listed,Option.some.injEq] at found
    subst found
    rw [new,List.drop_zero,filterSameMode same]

theorem againResumable (acts : List Act) {d : RoundDir} (s : Session)
    (loads : ∀ k, (s.calls k).loadret ≠ none) (again : env.again = true) (listed : d.recipelist = some list)
    (alone : Alone cases mode list (filterRecipeList cases mode list))
    (point : d.finishedTestcase = none ∨ ∀ n, s.kill = some (.startup n) → 4 ≤ n) :
    Resumable cases mode list (acts ++ (runTestSh cases env s d).acts) (runTestSh cases env s d).dir ∧
    ((runTestSh cases env s d).outcome = .finished → ∀ id, Wanted cases mode list id →
      ¬ FailedAbove (acts ++ (runTestSh cases env s d).acts) (called [] id) →
      ((runTestSh cases env s d).dir.tc id).Done) := by
  have started := preparedStarted cases env listed
  have absent := preparedForgets cases again listed
  have all := againRuns same cases again listed
  refine walkResumable orderly same s loads (fun n kill => ?_) ?_ ?_ ?_
  · refine resumableUnrecorded (startupStarted cases env listed n).recipelist ?_
    rcases point with none | late
    · rcases (startupStarted cases env listed n).finishedTestcase with eq | ⟨_,eq⟩
      · rw [eq,none]
      · exact eq
    · exact startupForgets cases again listed (late n kill)
  · rw [all]
    exact .inr ⟨list,fun _ mem => mem,rfl⟩
  · rw [all]
    exact fun _ => alone
  · refine ⟨started.recipelist,fun id _ _ _ => .inr (aheadUnrecorded absent id),fun id wanted _ gone => ?_⟩
    rw [all] at gone
    exact absurd ((memFilterRecipeList orderly.plain).mpr ⟨wanted.listed,wanted.accepted⟩) gone

end Run

end Invariant

/-! ### Runs of invocations -/

structure Invocation where
  env : Env
  session : Session

structure Progress where
  dir : RoundDir
  acts : List Act
  touched : Bool

def Progress.start (list : List Text) : Progress := ⟨{ RoundDir.fresh with recipelist := some list },[],false⟩

def Progress.step (cases : Cases) (s : Progress) (inv : Invocation) : Option Progress :=
  let r := runTestSh cases inv.env inv.session s.dir
  some ⟨r.dir,s.acts ++ r.acts,r.outcome == .finished⟩

def NoneLost (cases : Cases) (mode : Env) (list : List Text) (s : Progress) : Prop :=
  s.touched = true → ∀ id, Wanted cases mode list id → ¬ FailedAbove s.acts (called [] id) →
    (s.dir.tc id).Done

def Invocation.Plain (mode : Env) (inv : Invocation) : Prop :=
  SameMode mode inv.env ∧ inv.env.again = false

def Invocation.Loads (inv : Invocation) : Prop := ∀ k, (inv.session.calls k).loadret ≠ none

theorem resumingLosesNothing {cases : Cases} {mode : Env} {list : List Text}
    (orderly : Orderly cases mode list) {invs : List Invocation} {s : Progress}
    (along : Machine.Along (Progress.step cases) (fun _ inv => inv.Plain mode ∧ inv.Loads) (.start list) invs)
    (ran : Machine.run (Progress.step cases) (.start list) invs = some s) : NoneLost cases mode list s := by
  have both : Resumable cases mode list s.acts s.dir ∧ NoneLost cases mode list s := by
    refine Machine.runKeeps (fun s => Resumable cases mode list s.acts s.dir ∧ NoneLost cases mode list s)
      ?_ ⟨resumableUnrecorded rfl rfl,fun touched => by contradiction⟩ along ran
    rintro s inv t ⟨resumable,_⟩ ⟨⟨same,once⟩,loads⟩ moved
    cases Option.some.inj moved
    obtain ⟨next,done⟩ := invocationResumable orderly same inv.session loads once resumable
    exact ⟨next,fun touched => done (by simpa using touched)⟩
  exact both.2

section Decide
variable (cases : Cases) (mode : Env) (list : List Text)

instance (f : CaseFile) : Decidable (f.AcceptedBy mode) := inferInstanceAs (Decidable (_ = true))

instance (id : Text) : Decidable (Accepted cases mode id) := by unfold Accepted; infer_instance

instance (id : Text) : Decidable (Wanted cases mode list id) :=
  decidable_of_iff (id ∈ list ∧ cases.nonEmpty (called [] id) = true ∧
    checkRemoveSuffix cases false (called [] id) = true ∧ Accepted cases mode id)
    ⟨fun h => ⟨h.1,h.2.1,h.2.2.1,h.2.2.2⟩,fun h => ⟨h.1,h.2,h.3,h.4⟩⟩

instance : Decidable (PlainIds cases mode list) := by unfold PlainIds; infer_instance

instance : Decidable (ResumeOrdered cases mode list) :=
  decidable_of_iff (∀ f ∈ cases, ∀ g ∈ cases, ¬ (f.AcceptedBy mode ∧ g.AcceptedBy mode ∧ f.id ∈ list ∧
      cases.nonEmpty (called [] f.id) = true ∧ checkRemoveSuffix cases true (called [] f.id) = true ∧
      Wanted cases mode list g.id ∧ g.id ≠ f.id) ∨
    (nrPoint (called [] f.id) list).all
      (fun n => decide (g.id ∉ list.take n ∨ g.entry.RunsBefore f.entry)) = true) (by
      simp only [ResumeOrdered,Option.all_eq_true,decide_eq_true_eq,← imp_iff_not_or,and_imp])

instance : Decidable (Orderly cases mode list) :=
  decidable_of_iff (PlainIds cases mode list ∧ list.Nodup ∧ ResumeOrdered cases mode list)
    ⟨fun h => ⟨h.1,h.2.1,h.2.2⟩,fun h => ⟨h.1,h.2,h.3⟩⟩

end Decide

def killedOnce : List Invocation :=
  [⟨.initial,⟨fun _ _ => 0,fun _ => passingCall,some (.call 1 0)⟩⟩,
    ⟨.initial,⟨fun _ _ => 0,fun _ => passingCall,none⟩⟩]

theorem killedOncePlain (list : List Text) : Machine.Along (Progress.step twoCases)
    (fun _ inv => inv.Plain .initial ∧ inv.Loads) (.start list) killedOnce := by
  have same : SameMode .initial .initial := ⟨rfl,rfl,rfl,by decide⟩
  exact ⟨⟨⟨same,rfl⟩,fun _ => by simp [passingCall]⟩,fun _ _ =>
    ⟨⟨⟨same,rfl⟩,fun _ => by simp [passingCall]⟩,fun _ _ => trivial⟩⟩

def sortedList : List Text := ["d/a".toList,"d/b".toList]
def reversedList : List Text := ["d/b".toList,"d/a".toList]

theorem sortedListResumes : ∃ s, Machine.run (Progress.step twoCases) (.start sortedList) killedOnce = some s ∧
    s.touched = true ∧ NoneLost twoCases .initial sortedList s :=
  ⟨_,rfl,by decide,resumingLosesNothing (by decide) (killedOncePlain sortedList) rfl⟩

theorem onlyCalls {acts : List Act} (calls : ∀ a ∈ acts, a.isRecipe = true) (id : Text) :
    ¬ FailedAbove acts id := by
  rintro ⟨pid,dir,status,mem,_⟩
  exact absurd (calls _ mem) (by simp [Act.isRecipe])

theorem reversedListLosesTestcase :
    Machine.Along (Progress.step twoCases) (fun _ inv => inv.Plain .initial ∧ inv.Loads)
      (.start reversedList) killedOnce ∧
    ∃ s, Machine.run (Progress.step twoCases) (.start reversedList) killedOnce = some s ∧
      ¬ NoneLost twoCases .initial reversedList s := by
  refine ⟨killedOncePlain reversedList,_,rfl,fun kept => ?_⟩
  have done := kept (by decide) "d/b".toList (by decide) (onlyCalls (by decide) _)
  exact absurd done (by decide)

end MmRegression
