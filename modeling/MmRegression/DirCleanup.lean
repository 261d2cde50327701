import Mathlib.Data.List.Induction
import MmRegression.Workflow

/-! The cleanup hooks of the configs. A config defines `dir_cleanup`, which replaces the function of
`setup_test_core.sh`, or `_dir_cleanup`, which that function calls; the subshells of the
directories below inherit either. -/
namespace MmRegression

inductive Hook where
  | dirCleanup | underscore
  deriving DecidableEq, Repr

/- For each of the two functions, the config whose definition is in effect. -/
abbrev Functions := Hook → Option Text

def sourceHook (hooks : Text → Option Hook) (f : Functions) (dir : Text) : Functions :=
  match hooks dir with
  | none => f
  | some h => Function.update f h (some dir)

def functions (hooks : Text → Option Hook) (sourced : List Text) : Functions :=
  sourced.foldl (sourceHook hooks) (fun _ => none)

/- The config whose hook a call of `dir_cleanup` executes. -/
def hookRun (hooks : Text → Option Hook) (sourced : List Text) : Option Text :=
  match functions hooks sourced .dirCleanup with
  | some dir => some dir
  | none => functions hooks sourced .underscore

def Act.runsHook (hooks : Text → Option Hook) (dir : Text) : Act → Bool
  | .cleanup _ _ sourced => hookRun hooks sourced == some dir
  | _ => false

def Act.enters (dir : Text) : Act → Bool
  | .config _ dir' status => dir' == dir && status == 0
  | _ => false

def Act.leaves (dir : Text) : Act → Bool
  | .cleanup _ dir' _ => dir' == dir
  | _ => false

/-- The acts over `ids` are bracketed, a directory being left once its batch is over; and the hook
of a directory is executed once for each time its config was sourced, where that directory is left
and no other. -/
structure HooksBelong (cases : Cases) (hooks : Text → Option Hook) (ids : List Text) (acts : List Act) : Prop where
  bracketed : Workflow cases [] ids acts
  once : ∀ dir, (hooks dir).isSome → acts.countP (Act.runsHook hooks dir) = acts.countP (Act.enters dir)
  own : ∀ pid dir sourced owner, .cleanup pid dir sourced ∈ acts → hookRun hooks sourced = some owner → owner = dir

/- No definition from further out is in effect in `dir` when it is left. -/
def Apart (hooks : Text → Option Hook) (outer : List Text) (dir : Text) : Prop :=
  match hooks dir with
  | some .dirCleanup => True
  | some .underscore => ∀ d ∈ outer, hooks d ≠ some .dirCleanup
  | none => ∀ d ∈ outer, hooks d = none

def HooksApart (cases : Cases) (hooks : Text → Option Hook) (ids : List Text) : Prop :=
  ∀ id ∈ ids, ∀ outer dir inner, configsAbove cases id = outer ++ dir::inner → Apart hooks outer dir

section Hooks
variable (hooks : Text → Option Hook)

theorem functionsSnoc (outer : List Text) (dir : Text) :
    functions hooks (outer ++ [dir]) = sourceHook hooks (functions hooks outer) dir := by
  simp [functions]

theorem functionsOwn (outer : List Text) {h : Hook} {dir : Text} (held : functions hooks outer h = some dir) :
    hooks dir = some h := by
  induction outer using List.reverseRecOn with
  | nil => simp [functions] at held
  | append_singleton outer d ih =>
    rw [functionsSnoc,sourceHook] at held
    cases own : hooks d with
    | none =>
      rw [own] at held
      exact ih held
    | some h' =>
      simp only [own] at held
      by_cases same : h = h'
      · rw [same,Function.update_self] at held
        rw [← Option.some.inj held,own,same]
      · rw [Function.update_of_ne same] at held
        exact ih held

theorem functionsNone (outer : List Text) (h : Hook) :
    functions hooks outer h = none ↔ ∀ d ∈ outer, hooks d ≠ some h := by
  induction outer using List.reverseRecOn with
  | nil => simp [functions]
  | append_singleton outer d ih =>
    rw [functionsSnoc,sourceHook]
    cases own : hooks d with
    | none => simp [ih,own,or_imp,forall_and]
    | some h' =>
      by_cases same : h = h'
      · simp [same,own,or_imp,forall_and]
      · simp [same,ih,own,Ne.symm same,or_imp,forall_and]

theorem hookRunNone {sourced : List Text} (run : hookRun hooks sourced = none) (h : Hook) :
    functions hooks sourced h = none := by
  rw [hookRun] at run
  split at run
  · contradiction
  · rename_i none
    cases h with
    | dirCleanup => exact none
    | underscore => exact run

theorem hookRunDefines {sourced : List Text} {owner : Text} (run : hookRun hooks sourced = some owner) :
    (hooks owner).isSome := by
  rw [hookRun] at run
  split at run
  · rename_i held
    rw [← Option.some.inj run,functionsOwn hooks sourced held]
    rfl
  · rw [functionsOwn hooks sourced run]
    rfl

theorem hookRunOwn {outer : List Text} {dir : Text} (apart : Apart hooks outer dir) :
    hookRun hooks (outer ++ [dir]) = if (hooks dir).isSome then some dir else none := by
  rw [hookRun,functionsSnoc,sourceHook]
  unfold Apart at apart
  cases own : hooks dir with
  | none =>
    rw [own] at apart
    have none : ∀ h, functions hooks outer h = none := fun h =>
      (functionsNone hooks outer h).mpr (fun d mem => by simp [apart d mem])
    simp [none]
  | some h =>
    rw [own] at apart
    cases h with
    | dirCleanup => simp
    | underscore => simp [(functionsNone hooks outer .dirCleanup).mpr apart]

/- Otherwise the hook of a config further out is run there. -/
theorem hookRunForeign {outer : List Text} {dir : Text} (foreign : ¬ Apart hooks outer dir) :
    ∃ owner, hookRun hooks (outer ++ [dir]) = some owner ∧ owner ≠ dir := by
  unfold Apart at foreign
  cases own : hooks dir with
  | none =>
    rw [own] at foreign
    push Not at foreign
    obtain ⟨d,mem,defines⟩ := foreign
    have same : functions hooks (outer ++ [dir]) = functions hooks outer := by rw [functionsSnoc,sourceHook,own]
    cases run : hookRun hooks (outer ++ [dir]) with
    | none =>
      obtain ⟨h,found⟩ := Option.ne_none_iff_exists'.mp defines
      have empty := hookRunNone hooks run h
      rw [same] at empty
      exact absurd found ((functionsNone hooks outer h).mp empty d mem)
    | some owner =>
      refine ⟨owner,rfl,?_⟩
      rintro rfl
      have defined := hookRunDefines hooks run
      rw [own] at defined
      contradiction
  | some h =>
    rw [own] at foreign
    cases h with
    | dirCleanup => exact absurd trivial foreign
    | underscore =>
      push Not at foreign
      obtain ⟨d,mem,defines⟩ := foreign
      cases held : functions hooks outer .dirCleanup with
      | none => exact absurd defines ((functionsNone hooks outer .dirCleanup).mp held d mem)
      | some owner =>
        refine ⟨owner,?_,?_⟩
        · simp [hookRun,functionsSnoc,sourceHook,own,held]
        · rintro rfl
          have defined := functionsOwn hooks outer held
          rw [own] at defined
          contradiction

end Hooks

/-! ### The brackets of a workflow -/

section Workflow
variable {cases : Cases} {opened : List (Nat × Text)} {todo : List Text} {acts : List Act}

/- Each directory that is entered at the moment is left later, by the process that entered it. -/
theorem Workflow.closes (flow : Workflow cases opened todo acts) {pid : Nat} {dir : Text} {outer : List (Nat × Text)}
    (entered : (pid,dir)::outer <:+ opened) : .cleanup pid dir ((outer.map Prod.snd).reverse ++ [dir]) ∈ acts := by
  induction flow with
  | done => simp at entered
  | call pid' named configs inside rest ih => exact List.mem_cons_of_mem _ (ih entered)
  | enter pid' next rest ih => exact List.mem_cons_of_mem _ (ih (entered.trans (List.suffix_cons _ _)))
  | refuse pid' failed next below ends rest ih => exact List.mem_cons_of_mem _ (ih entered)
  | leave inside ends rest ih =>
    rcases List.suffix_cons_iff.mp entered with same | further
    · cases same
      rw [inside]
      simp
    · exact List.mem_cons_of_mem _ (ih further)

theorem Workflow.closesAbove (flow : Workflow cases opened todo acts) {id : Text} (mem : id ∈ todo)
    {outer inner : List Text} {dir : Text} (above : configsAbove cases id = outer ++ dir::inner) :
    (∃ pid, .cleanup pid dir (outer ++ [dir]) ∈ acts) ∨ FailedAbove acts id := by
  have later : ∀ (a : Act) (acts : List Act), (∃ pid, .cleanup pid dir (outer ++ [dir]) ∈ acts) ∨ FailedAbove acts id →
      (∃ pid, .cleanup pid dir (outer ++ [dir]) ∈ a::acts) ∨ FailedAbove (a::acts) id := fun a acts =>
    Or.imp (fun ⟨pid,left⟩ => ⟨pid,List.mem_cons_of_mem a left⟩)
      (FailedAbove.mono (fun _ mem => List.mem_cons_of_mem a mem))
  induction flow with
  | done => contradiction
  | @call opened todo acts pid id' name named sourced configs inside rest ih =>
    rcases List.mem_cons.mp mem with rfl | mem
    · have entered : opened.map Prod.snd = inner.reverse ++ dir::outer.reverse := by
        rw [← List.reverse_inj,← inside,configs,above]
        simp
      obtain ⟨deeper,here,rfl,_,split⟩ := List.map_eq_append_iff.mp entered
      obtain ⟨⟨pid',dir'⟩,before,rfl,rfl,further⟩ := List.map_eq_cons_iff.mp split
      have left := rest.closes (List.suffix_append deeper _)
      rw [further,List.reverse_reverse] at left
      exact .inl ⟨pid',List.mem_cons_of_mem _ left⟩
    · exact later _ _ (ih mem)
  | enter pid next rest ih => exact later _ _ (ih mem)
  | refuse pid failed next below ends rest ih =>
    rcases List.mem_append.mp mem with batch | mem
    · exact .inr ⟨_,_,_,List.mem_cons_self,failed,below _ batch⟩
    · exact later _ _ (ih mem)
  | leave inside ends rest ih => exact later _ _ (ih mem)

/- A directory that is left was entered before, or is entered for an id still to come. -/
theorem Workflow.leaves (flow : Workflow cases opened todo acts) {pid : Nat} {dir : Text} {sourced : List Text}
    (mem : .cleanup pid dir sourced ∈ acts) : ∃ outer, sourced = outer ++ [dir] ∧
      ((∃ before, (pid,dir)::before <:+ opened ∧ outer = (before.map Prod.snd).reverse) ∨ outer = [] ∨
        ∃ id ∈ todo, outer ++ [dir] <+: configsAbove cases id) := by
  induction flow with
  | done => contradiction
  | call pid' named configs inside rest ih =>
    obtain ⟨outer,same,entered | top | ⟨id,later,above⟩⟩ := ih (List.mem_of_ne_of_mem (by simp) mem)
    · exact ⟨outer,same,.inl entered⟩
    · exact ⟨outer,same,.inr (.inl top)⟩
    · exact ⟨outer,same,.inr (.inr ⟨id,List.mem_cons_of_mem _ later,above⟩)⟩
  | @enter opened todo acts pid' dir' next rest ih =>
    obtain ⟨outer,same,⟨before,entered,stack⟩ | other⟩ := ih (List.mem_of_ne_of_mem (by simp) mem)
    · rcases List.suffix_cons_iff.mp entered with here | further
      · cases here
        refine ⟨outer,same,.inr ?_⟩
        cases todo with
        | nil => exact .inl (by rw [stack,next.2]; rfl)
        | cons id todo => exact .inr ⟨id,List.mem_cons_self,stack ▸ next⟩
      · exact ⟨outer,same,.inl ⟨before,further,stack⟩⟩
    · exact ⟨outer,same,.inr other⟩
  | refuse pid' failed next below ends rest ih =>
    obtain ⟨outer,same,entered | top | ⟨id,later,above⟩⟩ := ih (List.mem_of_ne_of_mem (by simp) mem)
    · exact ⟨outer,same,.inl entered⟩
    · exact ⟨outer,same,.inr (.inl top)⟩
    · exact ⟨outer,same,.inr (.inr ⟨id,List.mem_append_right _ later,above⟩)⟩
  | @leave opened todo acts pid' dir' sourced' inside ends rest ih =>
    rcases List.mem_cons.mp mem with here | mem
    · cases here
      exact ⟨(opened.map Prod.snd).reverse,by rw [inside]; simp,.inl ⟨opened,List.suffix_rfl,rfl⟩⟩
    · obtain ⟨outer,same,⟨before,entered,stack⟩ | other⟩ := ih mem
      · exact ⟨outer,same,.inl ⟨before,entered.trans (List.suffix_cons _ _),stack⟩⟩
      · exact ⟨outer,same,.inr other⟩

theorem Workflow.balanced (flow : Workflow cases opened todo acts) (dir : Text) :
    acts.countP (Act.leaves dir) = acts.countP (Act.enters dir) + (opened.map Prod.snd).count dir := by
  induction flow with
  | done => rfl
  | call pid named configs inside rest ih => simpa [List.countP_cons,Act.leaves,Act.enters] using ih
  | enter pid next rest ih =>
    simp only [List.map_cons,List.count_cons] at ih
    simp only [List.countP_cons,Act.leaves,Act.enters,beq_self_eq_true,Bool.and_true,Bool.false_eq_true,if_false]
    omega
  | refuse pid failed next below ends rest ih => simpa [List.countP_cons,Act.leaves,Act.enters,failed] using ih
  | @leave opened todo acts pid dir' sourced inside ends rest ih =>
    by_cases same : dir' = dir
    · simp [Act.leaves,Act.enters,same,ih,Nat.add_assoc]
    · simp [Act.leaves,Act.enters,same,ih]

end Workflow

theorem hooksBelong {cases : Cases} {hooks : Text → Option Hook} {ids : List Text} {acts : List Act}
    (apart : HooksApart cases hooks ids) (flow : Workflow cases [] ids acts) : HooksBelong cases hooks ids acts := by
  have own : ∀ pid dir sourced, .cleanup pid dir sourced ∈ acts →
      hookRun hooks sourced = if (hooks dir).isSome then some dir else none := by
    intro pid dir sourced mem
    obtain ⟨outer,rfl,⟨before,entered,_⟩ | rfl | ⟨id,later,inner,above⟩⟩ := flow.leaves mem
    · simp at entered
    · refine hookRunOwn hooks ?_
      unfold Apart
      split <;> simp
    · exact hookRunOwn hooks (apart id later outer dir inner (by simpa using above.symm))
  refine ⟨flow,fun dir defines => ?_,fun pid dir sourced owner mem run => ?_⟩
  · have balanced := flow.balanced dir
    rw [List.map_nil,List.count_nil,Nat.add_zero] at balanced
    rw [← balanced]
    refine List.countP_congr (fun a mem => ?_)
    cases a with
    | config => rfl
    | recipe => rfl
    | cleanup pid dir' sourced =>
      simp only [Act.runsHook,Act.leaves,own pid dir' sourced mem,beq_iff_eq]
      constructor
      · intro run
        split at run
        · exact Option.some.inj run
        · contradiction
      · rintro rfl
        rw [if_pos defines]
  · rw [own pid dir sourced mem] at run
    split at run
    · exact (Option.some.inj run).symm
    · contradiction

theorem hooksBelongIff (cases : Cases) (hooks : Text → Option Hook) {ids : List Text} (paths : ∀ id ∈ ids, IdPath id) :
    (∀ config, HooksBelong cases hooks ids (walk cases config ids)) ↔
      (∀ id ∈ ids, Echoes id) ∧ HooksApart cases hooks ids := by
  constructor
  · intro belong
    have entered : ∀ id, ¬ FailedAbove (walk cases (fun _ _ => 0) ids) id := fun id =>
      (walkConfigured cases _ ids).entered (fun _ _ _ => rfl)
    refine ⟨fun id mem => ?_,fun id mem outer dir inner above => ?_⟩
    · exact calledEchoes (paths id mem) (((belong _).bracketed.reaches mem).resolve_right (entered id))
    · by_contra foreign
      obtain ⟨owner,run,other⟩ := hookRunForeign hooks foreign
      obtain ⟨pid,left⟩ := ((belong _).bracketed.closesAbove mem above).resolve_right (entered id)
      exact other ((belong _).own pid dir _ owner left run)
  · rintro ⟨echoes,apart⟩ config
    exact hooksBelong apart (walkFollows cases config (fun id mem => ⟨paths id mem,echoes id mem⟩))

def nestedConfigs : Cases := [⟨"d/config".toList,[]⟩,⟨"d/e/config".toList,[]⟩]

theorem hooksBelongEachOwn : HooksBelong nestedConfigs (fun _ => some .dirCleanup) ["d/e/a".toList,"d/b".toList]
    (walk nestedConfigs (fun _ _ => 0) ["d/e/a".toList,"d/b".toList]) :=
  (hooksBelongIff nestedConfigs (fun _ => some .dirCleanup) (by decide)).mpr ⟨by decide,fun _ _ _ _ _ _ => trivial⟩ _

/- `d/e` has a config but no hook: the hook of `d` is run when `d/e` is left, before `d/b`. -/
theorem parentHookRunsEarly :
    let hooks : Text → Option Hook := fun dir => if dir = "d".toList then some .dirCleanup else none
    let acts := walk nestedConfigs (fun _ _ => 0) ["d/e/a".toList,"d/b".toList]
    acts.countP (Act.enters "d".toList) = 1 ∧ acts.countP (Act.runsHook hooks "d".toList) = 2 ∧
      ¬ HooksBelong nestedConfigs hooks ["d/e/a".toList,"d/b".toList] acts := by
  refine ⟨by decide,by decide,fun belong => ?_⟩
  have twice := belong.once "d".toList (by decide)
  revert twice
  decide

end MmRegression
