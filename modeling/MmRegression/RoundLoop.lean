import MmRegression.Loop
import MmRegression.Machine
import MmRegression.RunTest

/-! The rounds of a project: `run_test` and `check_project_finished` of `run.sh`, with the
list of failures that `test_summary.rb -p` hands from one round to the next. -/
namespace MmRegression

def basename (t : Text) : Text := ((t.reverse.dropWhile (· == '/')).takeWhile (· != '/')).reverse

def RoundDir.summaryIds (d : RoundDir) : List Text :=
  ((d.recipelist.getD []).filter (fun id => basename id != "config".toList)).eraseDups

def RoundDir.reported (d : RoundDir) (id : Text) : Text := testcaseResult (d.tc (fileKey id))

/- `show_progress` but for its closing line. Only a round with a recipelist and an
`environment` directory is a target. -/
def RoundDir.showProgress (d : RoundDir) : List Text :=
  if d.recipelist.isSome && d.environment.isSome then
    d.summaryIds.map (fun id => d.reported id ++ ' '::id)
  else []

def RoundDir.failLines (d : RoundDir) : List Text := d.showProgress.filter (startsWith "FAIL".toList)

def RoundDir.failIds (d : RoundDir) : List Text :=
  d.failLines.map (fun line => cutFirst ' ' (cutRest ' ' line))

/-! ### `run_test` -/

structure Project where
  recipelist : Option (List Text)
  fullRecipeList : List Text
  rounds : Nat → RoundDir

def Project.update (p : Project) (round : Nat) (f : RoundDir → RoundDir) : Project :=
  { p with rounds := Function.update p.rounds round (f (p.rounds round)) }

/-- One invocation of `run_test` with ROUND unset. A kill of `run-test.sh` in round `r` that
`stops r` takes `run.sh` with it; otherwise the loop goes on. -/
structure RunTest where
  env : Env
  failretry : Nat
  sessions : Nat → Session
  stops : Nat → Bool

structure RunState where
  project : Project
  started : List (Nat × Project)
  logs : List (Nat × RunLog)

def RunState.killed (s : RunState) : Bool := s.logs.any (fun l => l.2.outcome == .killed)

def resetRound (env : Env) (d : RoundDir) : RoundDir :=
  if env.again then { d with finished := false, recipelist := none } else d

def prepareRound (cases : Cases) (p : Project) (round : Nat) (d : RoundDir) : RoundDir :=
  { d with
    fullRecipeList := some (allrecipes cases)
    recipelist := match d.recipelist with
      | some list => some list
      | none => if 1 < round then some (p.rounds (round-1)).failIds
          else some (p.recipelist.getD p.fullRecipeList) }

-- `$tmp` holds the failed ids, one to a line.
def allDone (d : RoundDir) : Bool := d.failIds.all (fun id => id.isEmpty)

def startRound (cases : Cases) (inv : RunTest) (round : Nat) (s : RunState) (p : Project) : Bool × RunState :=
  let r := runTestSh cases inv.env (inv.sessions round) (p.rounds round)
  (!(r.outcome == .killed && inv.stops round) && !allDone r.dir,
    ⟨p.update round (fun _ => r.dir),s.started ++ [(round,p)],s.logs ++ [(round,r)]⟩)

def roundBody (cases : Cases) (inv : RunTest) (round : Nat) (s : RunState) : Bool × RunState :=
  let p := s.project.update round (resetRound inv.env)
  if 1 < round ∧ (p.rounds (round-1)).finished = false then (false,{ s with project := p }) else
  if (p.rounds round).finished then (true,{ s with project := p }) else
  let p := p.update round (prepareRound cases p round)
  if 1 < round ∧ (p.rounds round).recipelist = some [] then (false,{ s with project := p }) else
  startRound cases inv round s p

def runTest (cases : Cases) (inv : RunTest) (p : Project) : RunState :=
  Loop.iterate (roundBody cases inv) (Loop.seq inv.failretry) ⟨p,[],[]⟩

def checkProjectFinished (failretry : Nat) (p : Project) : Bool :=
  (Loop.seq failretry).any (fun round => (p.rounds round).finished && (p.rounds round).failLines.isEmpty) ||
    (p.rounds failretry).finished

def RoundDir.failing (d : RoundDir) : List Text :=
  d.summaryIds.filter (fun id => startsWith "FAIL".toList (d.reported id))

def IsId (t : Text) : Prop := t ≠ [] ∧ ' ' ∉ t

instance (t : Text) : Decidable (IsId t) := by unfold IsId; infer_instance

theorem reportedWord (t : TestcaseDir) : ' ' ∉ testcaseResult t := by
  unfold testcaseResult
  split
  · decide
  · decide
  · cases found : (t.result.getD []).findSome? matchResult with
    | none => rw [Option.getD_none]; decide
    | some w =>
      obtain ⟨line,_,word⟩ := List.exists_of_findSome?_eq_some found
      intro blank
      exact absurd (matchResultWord word ' ' blank) (by decide)

theorem memSummaryIds {d : RoundDir} {list : List Text} (listed : d.recipelist = some list) {id : Text}
    (mem : id ∈ d.summaryIds) : id ∈ list := by
  simp only [RoundDir.summaryIds,listed,Option.getD_some] at mem
  exact List.mem_of_mem_filter (List.mem_eraseDups.mp mem)

structure RoundDir.Target (d : RoundDir) : Prop where
  recipelist : d.recipelist.isSome = true
  environment : d.environment.isSome = true
  ids : ∀ list, d.recipelist = some list → ∀ id ∈ list, IsId id

theorem failLinesEq {d : RoundDir} (target : d.Target) :
    d.failLines = d.failing.map (fun id => d.reported id ++ ' '::id) := by
  simp only [RoundDir.failLines,RoundDir.showProgress,target.1,target.2,Bool.and_self,if_true,
    List.filter_map,RoundDir.failing]
  congr 1
  refine List.filter_congr fun id _ => ?_
  exact startsWithField (by decide)

theorem failIdsEq {d : RoundDir} (target : d.Target) : d.failIds = d.failing := by
  obtain ⟨list,listed⟩ := Option.isSome_iff_exists.mp target.recipelist
  have field : ∀ id ∈ d.failing, cutFirst ' ' (cutRest ' ' (d.reported id ++ ' '::id)) = id := by
    intro id mem
    have ident := target.ids list listed id (memSummaryIds listed (List.mem_of_mem_filter mem))
    rw [RoundDir.reported,cutRestAppend (reportedWord _),cutFirstClean ident.2]
  rw [RoundDir.failIds,failLinesEq target,List.map_map]
  exact (List.map_congr_left field).trans (List.map_id' _)

theorem failLinesEmpty {d : RoundDir} (target : d.Target) : d.failLines.isEmpty = true ↔ d.failing = [] := by
  rw [failLinesEq target,List.isEmpty_iff,List.map_eq_nil_iff]

theorem allDoneEq {d : RoundDir} (target : d.Target) : allDone d = true ↔ d.failing = [] := by
  obtain ⟨list,listed⟩ := Option.isSome_iff_exists.mp target.recipelist
  rw [allDone,failIdsEq target]
  constructor
  · intro blank
    cases some : d.failing with
    | nil => rfl
    | cons id ids =>
      have mem : id ∈ d.failing := by simp [some]
      have ident := target.ids list listed id (memSummaryIds listed (List.mem_of_mem_filter mem))
      have empty := List.all_eq_true.mp blank id mem
      exact absurd (List.isEmpty_iff.mp empty) ident.1
  · intro none
    simp [none]

@[simp] theorem updateSame (p : Project) (r : Nat) (f : RoundDir → RoundDir) :
    (p.update r f).rounds r = f (p.rounds r) := by simp [Project.update]

theorem updateOther (p : Project) {r r' : Nat} (f : RoundDir → RoundDir) (other : r' ≠ r) :
    (p.update r f).rounds r' = p.rounds r' := by simp [Project.update,other]

/-- The rounds 1 to `top` when those up to `m` are finished: each recipelist after the first
holds the failures of the round before, and no round came after one without failures. -/
structure Project.Shape (p : Project) (top m : Nat) : Prop where
  bound : m ≤ top
  finished : ∀ r, 1 ≤ r → r ≤ top → ((p.rounds r).finished = true ↔ r ≤ m)
  target : ∀ r, 1 ≤ r → r ≤ m → (p.rounds r).Target
  next : ∀ r list, 1 ≤ r → r+1 ≤ top → (p.rounds (r+1)).recipelist = some list →
    r ≤ m ∧ list = (p.rounds r).failing
  going : ∀ r, 1 ≤ r → r < m → (p.rounds r).failing ≠ []
  ids : ∀ r list, 1 ≤ r → r ≤ top → (p.rounds r).recipelist = some list → ∀ id ∈ list, IsId id
  base : ∀ id ∈ p.recipelist.getD p.fullRecipeList, IsId id

theorem failingIds {d : RoundDir} (target : d.Target) : ∀ id ∈ d.failing, IsId id := by
  obtain ⟨list,listed⟩ := Option.isSome_iff_exists.mp target.recipelist
  intro id mem
  exact target.ids list listed id (memSummaryIds listed (List.mem_of_mem_filter mem))

section Shape
variable {cases : Cases} {p : Project} {top m : Nat}

structure Project.Fits (p : Project) (m : Nat) (list : List Text) : Prop where
  failures : 1 ≤ m → list = (p.rounds m).failing
  ids : ∀ id ∈ list, IsId id

theorem Project.Shape.fits (shape : p.Shape top m) (room : m+1 ≤ top) {list : List Text}
    (listed : (p.rounds (m+1)).recipelist = some list) : p.Fits m list :=
  ⟨fun later => (shape.next m list later room listed).2,shape.ids (m+1) list (by omega) room listed⟩

theorem Project.Shape.prepareList (cases : Cases) (shape : p.Shape top m) (room : m+1 ≤ top) :
    ∃ list, (prepareRound cases p (m+1) (p.rounds (m+1))).recipelist = some list ∧ p.Fits m list := by
  cases listed : (p.rounds (m+1)).recipelist with
  | some list => exact ⟨list,by simp [prepareRound,listed],shape.fits room listed⟩
  | none =>
    by_cases later : 1 ≤ m
    · have target := shape.target m later (by omega)
      refine ⟨(p.rounds m).failing,?_,fun _ => rfl,failingIds target⟩
      simp [prepareRound,listed,show 1 < m+1 by omega,failIdsEq target]
    · obtain rfl : m = 0 := by omega
      exact ⟨_,by simp [prepareRound,listed],fun _ => by contradiction,shape.base⟩

theorem Project.Shape.unfinished {q : Project} {list : List Text} (shape : p.Shape top m)
    (fits : p.Fits m list) (others : ∀ r, r ≠ m+1 → q.rounds r = p.rounds r)
    (new : (q.rounds (m+1)).recipelist = some list) (still : (q.rounds (m+1)).finished = false)
    (base : q.recipelist = p.recipelist ∧ q.fullRecipeList = p.fullRecipeList) : q.Shape top m := by
  refine ⟨shape.bound,fun r low high => ?_,fun r low high => ?_,fun r other low high listed => ?_,
    fun r low high => ?_,fun r other low high listed => ?_,?_⟩
  · by_cases here : r = m+1
    · subst here
      simp [still]
    · rw [others r here]
      exact shape.finished r low high
  · rw [others r (by omega)]
    exact shape.target r low high
  · by_cases here : r = m
    · subst here
      rw [new] at listed
      cases Option.some.inj listed
      rw [others r (by omega)]
      exact ⟨le_rfl,fits.failures low⟩
    · rw [others (r+1) (by omega)] at listed
      obtain ⟨below,eq⟩ := shape.next r other low high listed
      rw [others r (by omega)]
      exact ⟨below,eq⟩
  · rw [others r (by omega)]
    exact shape.going r low high
  · by_cases here : r = m+1
    · subst here
      rw [new] at listed
      cases Option.some.inj listed
      exact fits.ids
    · rw [others r here] at listed
      exact shape.ids r other low high listed
  · rw [base.1,base.2]
    exact shape.base

theorem Project.Shape.finish {q : Project} {list : List Text} (shape : p.Shape top m) (room : m+1 ≤ top)
    (listed : (p.rounds (m+1)).recipelist = some list) (recorded : (p.rounds (m+1)).environment.isSome = true)
    (some : 1 ≤ m → (p.rounds m).failing ≠ []) (others : ∀ r, r ≠ m+1 → q.rounds r = p.rounds r)
    (touched : q.rounds (m+1) = { p.rounds (m+1) with finished := true })
    (base : q.recipelist = p.recipelist ∧ q.fullRecipeList = p.fullRecipeList) : q.Shape top (m+1) := by
  have same : ∀ r, (q.rounds r).recipelist = (p.rounds r).recipelist ∧
      (q.rounds r).failing = (p.rounds r).failing := by
    intro r
    by_cases new : r = m+1
    · subst new
      rw [touched]
      exact ⟨rfl,rfl⟩
    · rw [others r new]
      exact ⟨rfl,rfl⟩
  refine ⟨room,fun r low high => ?_,fun r low high => ?_,fun r other low high held => ?_,
    fun r low high => ?_,fun r other low high held => ?_,?_⟩
  · by_cases new : r = m+1
    · subst new
      simp [touched]
    · rw [others r new,shape.finished r low high]
      omega
  · by_cases new : r = m+1
    · subst new
      rw [touched]
      exact ⟨by simp [listed],recorded,fun other => shape.ids (m+1) other low room⟩
    · rw [others r new]
      exact shape.target r low (by omega)
  · rw [(same (r+1)).1] at held
    rw [(same r).2]
    obtain ⟨below,eq⟩ := shape.next r other low high held
    exact ⟨by omega,eq⟩
  · rw [(same r).2]
    by_cases new : r = m
    · subst new
      exact some low
    · exact shape.going r low (by omega)
  · rw [(same r).1] at held
    exact shape.ids r other low high held
  · rw [base.1,base.2]
    exact shape.base

theorem Project.Shape.prepare (cases : Cases) (shape : p.Shape top m) (room : m+1 ≤ top) :
    (p.update (m+1) (prepareRound cases p (m+1))).Shape top m := by
  obtain ⟨list,listed,fits⟩ := shape.prepareList cases room
  refine shape.unfinished fits (fun r other => updateOther p _ other) ?_ ?_ ⟨rfl,rfl⟩
  · rw [updateSame]
    exact listed
  · have unfinished := (shape.finished (m+1) (by omega) room).not.mpr (by omega)
    simpa [prepareRound] using unfinished

theorem Project.Shape.ran {env : Env} {list : List Text} {r : RunLog} (shape : p.Shape top m)
    (room : m+1 ≤ top) (listed : (p.rounds (m+1)).recipelist = some list)
    (some : 1 ≤ m → (p.rounds m).failing ≠ []) (left : Left env list (p.rounds (m+1)) r) :
    (p.update (m+1) (fun _ => r.dir)).Shape top (if r.outcome = .finished then m+1 else m) := by
  split
  · rename_i done
    have still : (p.update (m+1) (fun _ => { r.dir with finished := false })).Shape top m :=
      shape.unfinished (shape.fits room listed) (fun r other => updateOther p _ other)
        (by rw [updateSame]; exact left.recipelist) (by rw [updateSame]) ⟨rfl,rfl⟩
    have listed : ((p.update (m+1) (fun _ => { r.dir with finished := false })).rounds (m+1)).recipelist =
        .some list := by rw [updateSame]; exact left.recipelist
    refine still.finish room listed ?_ ?_ (fun r other => ?_) ?_ ⟨rfl,rfl⟩
    · rw [updateSame]; simp [left.recorded done]
    · rw [updateOther p _ (by omega)]; exact some
    · rw [updateOther p _ other,updateOther p _ other]
    · have touched : r.dir.finished = true := by simp [left.finished,done]
      simp [← touched]
  · rename_i cut
    refine shape.unfinished (shape.fits room listed) (fun r other => updateOther p _ other)
      ?_ ?_ ⟨rfl,rfl⟩
    · rw [updateSame]; exact left.recipelist
    · rw [updateSame,left.finished]; simp [cut]

theorem Project.Shape.start (cases : Cases) (env : Env) (session : Session) (shape : p.Shape top m)
    (room : m+1 ≤ top) (some : 1 ≤ m → (p.rounds m).failing ≠ []) :
    let q := p.update (m+1) (prepareRound cases p (m+1))
    let r := runTestSh cases env session (q.rounds (m+1))
    (∃ list, (q.rounds (m+1)).recipelist = .some list ∧ Left env list (q.rounds (m+1)) r) ∧
      (q.update (m+1) (fun _ => r.dir)).Shape top (if r.outcome = .finished then m+1 else m) := by
  intro q r
  have prepared : q.Shape top m := shape.prepare cases room
  obtain ⟨list,listed,_⟩ := shape.prepareList cases room
  have held : (q.rounds (m+1)).recipelist = .some list := by rw [updateSame]; exact listed
  have unfinished : (q.rounds (m+1)).finished = false := by
    have late := (prepared.finished (m+1) (by omega) room).not.mpr (by omega)
    simpa using late
  have left := runTestShLeft cases env session held unfinished
  refine ⟨⟨list,held,left⟩,prepared.ran room held ?_ left⟩
  rw [updateOther p _ (by omega)]
  exact some

theorem roundBodyCases (cases : Cases) (inv : RunTest) {s : RunState} {round : Nat} (low : 1 ≤ round)
    (high : round ≤ top) (reset : s.project.update round (resetRound inv.env) = p) (shape : p.Shape top m) :
    (m+1 < round ∧ roundBody cases inv round s = (false,{ s with project := p })) ∨
    (round ≤ m ∧ roundBody cases inv round s = (true,{ s with project := p })) ∨
    (round = m+1 ∧ 1 ≤ m ∧ (p.rounds m).failing = [] ∧ roundBody cases inv round s =
      (false,{ s with project := p.update round (prepareRound cases p round) })) ∨
    (round = m+1 ∧ (1 ≤ m → (p.rounds m).failing ≠ []) ∧ roundBody cases inv round s =
      startRound cases inv round s (p.update round (prepareRound cases p round))) := by
  have done := shape.finished round low high
  by_cases far : m+1 < round
  · have before := (shape.finished (round-1) (by omega) (by omega)).not.mpr (by omega)
    exact .inl ⟨far,by simp [roundBody,reset,before,show 1 < round by omega]⟩
  · have before : ¬ (1 < round ∧ (p.rounds (round-1)).finished = false) := by
      rintro ⟨later,unfinished⟩
      have reached := (shape.finished (round-1) (by omega) (by omega)).mpr (by omega)
      simp [reached] at unfinished
    by_cases past : round ≤ m
    · refine .inr (.inl ⟨past,?_⟩)
      simp only [roundBody,reset,if_neg before,done.mpr past,if_true]
    · obtain rfl : round = m+1 := by omega
      obtain ⟨list,listed,fits⟩ := shape.prepareList cases high
      have unfinished : (p.rounds (m+1)).finished = false := by simpa using done.not.mpr past
      by_cases empty : 1 < m+1 ∧ list = []
      · obtain ⟨later,rfl⟩ := empty
        refine .inr (.inr (.inl ⟨rfl,by omega,(fits.failures (by omega)).symm,?_⟩))
        simp only [roundBody,reset,if_neg before,unfinished,updateSame,listed]
        simp [show 0 < m by omega]
      · refine .inr (.inr (.inr ⟨rfl,fun later none => ?_,?_⟩))
        · exact empty ⟨by omega,by rw [fits.failures later,none]⟩
        · have some : ¬ (1 < m+1 ∧ some list = some []) := by simpa using empty
          simp only [roundBody,reset,if_neg before,unfinished,updateSame,listed,if_neg some]
          simp

end Shape

theorem resetKeeps {env : Env} (once : env.again = false) (p : Project) (round : Nat) :
    p.update round (resetRound env) = p := by
  simp [Project.update,resetRound,once]

def StartedAfter (e : Nat × Project) : Prop :=
  1 < e.1 → (e.2.rounds (e.1-1)).finished = true ∧
    (e.2.rounds e.1).recipelist = some (e.2.rounds (e.1-1)).failing

structure RunState.Sound (top i : Nat) (s : RunState) : Prop where
  shape : ∃ m, s.project.Shape top m
  started : ∀ e ∈ s.started, 1 ≤ e.1 ∧ e.1 < i ∧ StartedAfter e
  increasing : s.started.Pairwise (fun a b => a.1 < b.1)

section Loop
variable {cases : Cases} {inv : RunTest} {top : Nat}

theorem Project.Shape.startedAfter {p : Project} {m : Nat} (shape : p.Shape top m) (room : m+1 ≤ top)
    (cases : Cases) : StartedAfter (m+1,p.update (m+1) (prepareRound cases p (m+1))) := by
  intro later
  have positive : 1 ≤ m := Nat.lt_succ_iff.mp later
  have prepared := shape.prepare cases room
  obtain ⟨list,listed,_⟩ := shape.prepareList cases room
  have held : ((p.update (m+1) (prepareRound cases p (m+1))).rounds (m+1)).recipelist = some list := by
    rw [updateSame]; exact listed
  refine ⟨(prepared.finished m positive (by omega)).mpr le_rfl,?_⟩
  rw [held,(prepared.fits room held).failures positive]
  rfl

theorem roundBodySound (cases : Cases) (once : inv.env.again = false) {i : Nat} {s : RunState} (low : 1 ≤ i) (high : i ≤ top)
    (sound : s.Sound top i) : (roundBody cases inv i s).2.Sound top (i+1) := by
  obtain ⟨⟨m,shape⟩,started,increasing⟩ := sound
  have earlier : ∀ e ∈ s.started, 1 ≤ e.1 ∧ e.1 < i+1 ∧ StartedAfter e := by
    intro e mem
    obtain ⟨first,before,after⟩ := started e mem
    exact ⟨first,by omega,after⟩
  rcases roundBodyCases cases inv low high (resetKeeps once s.project i) shape with
    ⟨_,eq⟩ | ⟨_,eq⟩ | ⟨rfl,_,_,eq⟩ | ⟨rfl,some,eq⟩ <;> rw [eq]
  · exact ⟨⟨m,shape⟩,earlier,increasing⟩
  · exact ⟨⟨m,shape⟩,earlier,increasing⟩
  · exact ⟨⟨m,shape.prepare cases high⟩,earlier,increasing⟩
  · obtain ⟨_,ran⟩ := shape.start cases inv.env (inv.sessions (m+1)) high some
    refine ⟨⟨_,ran⟩,fun e mem => ?_,?_⟩
    · rcases List.mem_append.mp mem with mem | mem
      · exact earlier e mem
      · cases List.mem_singleton.mp mem
        exact ⟨low,by simp,shape.startedAfter high cases⟩
    · refine List.pairwise_append.mpr ⟨increasing,by simp,fun a mem b last => ?_⟩
      cases List.mem_singleton.mp last
      exact (started a mem).2.1

theorem runTestSound (cases : Cases) (once : inv.env.again = false) {p : Project} {m : Nat}
    (shape : p.Shape inv.failretry m) :
    ∃ i, i ≤ inv.failretry+1 ∧ (runTest cases inv p).Sound inv.failretry i := by
  obtain ⟨i,_,high,sound⟩ := Loop.iterateSeq (RunState.Sound inv.failretry) (RunState.Sound inv.failretry)
    (fun i s low high sound _ => roundBodySound cases once low high sound)
    (fun i s low high sound _ => roundBodySound cases once low high sound) (fun s sound => sound)
    (s := ⟨p,[],[]⟩) ⟨⟨m,shape⟩,by simp,by simp⟩
  exact ⟨i,high,sound⟩

def Project.Closed (p : Project) (top m : Nat) : Prop := m = top ∨ 1 ≤ m ∧ (p.rounds m).failing = []

theorem Project.Shape.checkIff {p : Project} {m : Nat} (shape : p.Shape top m) (some : 1 ≤ top) :
    checkProjectFinished top p = true ↔ p.Closed top m := by
  have last := shape.finished top some le_rfl
  have bound := shape.bound
  simp only [checkProjectFinished,Bool.or_eq_true,List.any_eq_true,Bool.and_eq_true,Loop.memSeq,last]
  constructor
  · rintro (⟨r,⟨low,high⟩,done,none⟩ | full)
    · have within := (shape.finished r low high).mp done
      rw [failLinesEmpty (shape.target r low within)] at none
      rcases Nat.lt_or_ge r m with before | same
      · exact absurd none (shape.going r low before)
      · obtain rfl : r = m := by omega
        exact .inr ⟨low,none⟩
    · exact .inl (by omega)
  · rintro (rfl | ⟨low,none⟩)
    · exact .inr le_rfl
    · refine .inl ⟨m,⟨low,bound⟩,(shape.finished m low bound).mpr le_rfl,?_⟩
      exact (failLinesEmpty (shape.target m low le_rfl)).mpr none

theorem runTestIdle (cases : Cases) (inv : RunTest) (once : inv.env.again = false) {p : Project} {m : Nat}
    (shape : p.Shape inv.failretry m) (closed : p.Closed inv.failretry m) :
    (runTest cases inv p).started = [] ∧ (runTest cases inv p).logs = [] := by
  have idle : ∀ i s, 1 ≤ i → i ≤ inv.failretry → s = ⟨p,[],[]⟩ →
      roundBody cases inv i s = (true,s) ∨
      (roundBody cases inv i s).1 = false ∧ (roundBody cases inv i s).2.started = [] ∧
        (roundBody cases inv i s).2.logs = [] := by
    rintro i s low high rfl
    rcases roundBodyCases cases inv (s := ⟨p,[],[]⟩) low high (resetKeeps once p i) shape with
      ⟨_,eq⟩ | ⟨_,eq⟩ | ⟨_,_,_,eq⟩ | ⟨rfl,some,_⟩
    · exact .inr ⟨by rw [eq],by rw [eq],by rw [eq]⟩
    · exact .inl eq
    · exact .inr ⟨by rw [eq],by rw [eq],by rw [eq]⟩
    · rcases closed with full | ⟨later,none⟩
      · omega
      · exact absurd none (some later)
  suffices rule : ∃ next, 1 ≤ next ∧ next ≤ inv.failretry+1 ∧
      (runTest cases inv p).started = [] ∧ (runTest cases inv p).logs = [] by
    obtain ⟨_,_,_,none⟩ := rule
    exact none
  refine Loop.iterateSeq (fun _ s => s = RunState.mk p [] []) (fun _ s => RunState.started s = [] ∧ s.logs = [])
    ?_ ?_ ?_ rfl
  · intro i s low high same on
    rcases idle i s low high same with eq | ⟨off,_⟩
    · rw [eq]; exact same
    · rw [off] at on; contradiction
  · intro i s low high same off
    rcases idle i s low high same with eq | ⟨_,none⟩
    · rw [eq] at off; contradiction
    · exact none
  · rintro s rfl
    exact ⟨rfl,rfl⟩

def Project.OnHost (p : Project) (host : Text) : Prop := ∀ r, ∀ h ∈ (p.rounds r).environment, h = host

theorem Project.OnHost.update {p : Project} {host : Text} (on : p.OnHost host) {r : Nat} {f : RoundDir → RoundDir}
    (new : ∀ h ∈ (f (p.rounds r)).environment, h = host) : (p.update r f).OnHost host := by
  intro r' h recorded
  by_cases same : r' = r
  · subst same
    rw [updateSame] at recorded
    exact new h recorded
  · rw [updateOther p f same] at recorded
    exact on r' h recorded

structure RunTest.Plain (failretry : Nat) (host : Text) (inv : RunTest) : Prop where
  failretry : inv.failretry = failretry
  again : inv.env.again = false
  root : inv.env.root = true
  foreground : inv.env.background = false
  hostname : inv.env.hostname = host

def RunState.OnTrack (top : Nat) (host : Text) (i : Nat) (s : RunState) : Prop :=
  s.project.OnHost host ∧ ∃ m, s.project.Shape top m ∧ (s.killed = false → i ≤ m+1)

def RunState.Settled (top : Nat) (host : Text) (s : RunState) : Prop :=
  s.project.OnHost host ∧ (s.killed = false → checkProjectFinished top s.project = true)

theorem startRoundOnTrack (cases : Cases) {host : Text} (plain : inv.Plain top host) {m : Nat} {s : RunState} (room : m+1 ≤ top)
    (shape : s.project.Shape top m) (on : s.project.OnHost host)
    (some : 1 ≤ m → (s.project.rounds m).failing ≠ []) :
    let r := startRound cases inv (m+1) s (s.project.update (m+1) (prepareRound cases s.project (m+1)))
    r.2.OnTrack top host (m+2) ∧ (r.1 = false → r.2.Settled top host) := by
  obtain ⟨⟨list,listed,left⟩,ran⟩ := shape.start cases inv.env (inv.sessions (m+1)) room some
  have here : (s.project.update (m+1) (prepareRound cases s.project (m+1))).OnHost host := on.update (on (m+1))
  generalize s.project.update (m+1) (prepareRound cases s.project (m+1)) = p at listed left ran here ⊢
  intro r
  have finishes : r.2.killed = false →
      (runTestSh cases inv.env (inv.sessions (m+1)) (p.rounds (m+1))).outcome = .finished := by
    intro quiet
    refine runTestShFinishes cases _ listed plain.root plain.foreground ?_ fun killed => ?_
    · rw [plain.hostname]
      exact here (m+1)
    · simp [r,startRound,RunState.killed,killed] at quiet
  have moved : r.2.project.OnHost host := by
    refine here.update (r := m+1) (f := fun _ => (runTestSh cases inv.env _ _).dir) fun h recorded => ?_
    rcases left.environment with same | new
    · exact here (m+1) h (by rwa [same] at recorded)
    · rw [new] at recorded
      cases Option.some.inj recorded
      exact plain.hostname
  refine ⟨⟨moved,_,ran,fun quiet => ?_⟩,fun off => ⟨moved,fun quiet => ?_⟩⟩
  · rw [if_pos (finishes quiet)]
  · have done := finishes quiet
    rw [if_pos done] at ran
    refine (ran.checkIff (by omega)).mpr (.inr ⟨by omega,?_⟩)
    have none : allDone (runTestSh cases inv.env (inv.sessions (m+1)) (p.rounds (m+1))).dir = true := by
      simpa [r,startRound,done] using off
    have target := ran.target (m+1) (by omega) le_rfl
    rw [updateSame] at target ⊢
    exact (allDoneEq target).mp none

theorem runTestSettled (cases : Cases) {host : Text} (plain : inv.Plain top host) (positive : 1 ≤ top)
    {p : Project} {m : Nat} (shape : p.Shape top m) (on : p.OnHost host) :
    (runTest cases inv p).Settled top host := by
  have body : ∀ i s, 1 ≤ i → i ≤ top → RunState.OnTrack top host i s →
      ((roundBody cases inv i s).1 = true → (roundBody cases inv i s).2.OnTrack top host (i+1)) ∧
      ((roundBody cases inv i s).1 = false → (roundBody cases inv i s).2.Settled top host) := by
    rintro i s low high ⟨on,m,shape,track⟩
    rcases roundBodyCases cases inv low high (resetKeeps plain.again s.project i) shape with
      ⟨far,eq⟩ | ⟨past,eq⟩ | ⟨rfl,later,none,eq⟩ | ⟨rfl,some,eq⟩ <;> rw [eq]
    · refine ⟨fun on => by contradiction,fun _ => ⟨on,fun quiet => ?_⟩⟩
      exact absurd (track quiet) (by omega)
    · exact ⟨fun _ => ⟨on,m,shape,fun _ => by omega⟩,fun off => by contradiction⟩
    · refine ⟨fun on => by contradiction,fun _ => ⟨on.update (on (m+1)),fun _ => ?_⟩⟩
      refine ((shape.prepare cases high).checkIff positive).mpr (.inr ⟨later,?_⟩)
      rw [updateOther _ _ (by omega)]
      exact none
    · obtain ⟨track,settled⟩ := startRoundOnTrack cases plain high shape on some
      exact ⟨fun _ => track,settled⟩
  unfold runTest
  rw [plain.failretry]
  have rule := Loop.iterateSeq (RunState.OnTrack top host) (fun _ => RunState.Settled top host)
    (fun i s low high track => (body i s low high track).1)
    (fun i s low high track => (body i s low high track).2) ?_ (s := ⟨p,[],[]⟩) ⟨on,m,shape,?_⟩
  · obtain ⟨_,_,_,settled⟩ := rule
    exact settled
  · rintro s ⟨on,m,shape,track⟩
    refine ⟨on,fun quiet => (shape.checkIff positive).mpr (.inl ?_)⟩
    have bound := shape.bound
    have reached := track quiet
    omega
  · intro _
    omega

end Loop

/-! ### Runs of invocations -/

def Project.step (cases : Cases) (p : Project) (inv : RunTest) : Option Project :=
  some (runTest cases inv p).project

structure Project.New (p : Project) : Prop where
  rounds : ∀ r, p.rounds r = .fresh
  ids : ∀ id ∈ p.recipelist.getD p.fullRecipeList, IsId id

theorem Project.New.shape {p : Project} (new : p.New) (top : Nat) : p.Shape top 0 := by
  refine ⟨by omega,fun r low high => ?_,fun r low high => by omega,fun r list low high listed => ?_,
    fun r low high => by omega,fun r list low high listed => ?_,new.ids⟩
  · rw [new.rounds]
    simp [RoundDir.fresh]
    omega
  · simp [new.rounds,RoundDir.fresh] at listed
  · simp [new.rounds,RoundDir.fresh] at listed

def results : List Text := ["NONE","SKIP","WARN","PASS","FAIL"].map String.toList

structure FailuresOf (d : RoundDir) (list : List Text) : Prop where
  begin : list = d.summaryIds.filter (fun id => startsWith "FAIL".toList (d.reported id))
  exact : (∀ id ∈ d.summaryIds, d.reported id ∈ results) →
    list = d.summaryIds.filter (fun id => d.reported id == "FAIL".toList)

theorem failuresOfFailing (d : RoundDir) : FailuresOf d d.failing := by
  refine ⟨rfl,fun known => List.filter_congr fun id mem => ?_⟩
  have each : ∀ w ∈ results, startsWith "FAIL".toList w = (w == "FAIL".toList) := by decide
  exact each _ (known id mem)

/-- Whatever was killed before, `run_test` and `check_project_finished` agree: `run-test.sh` is
started for a later round only when the one before is finished, and on its failures; no round
is started beyond the limit; an invocation in which nothing is killed leaves the project DONE;
and one that finds it DONE starts nothing. -/
theorem roundsAgree {cases : Cases} {failretry : Nat} (positive : 1 ≤ failretry) {host : Text} {p q : Project}
    (new : p.New) {invs : List RunTest}
    (along : Machine.Along (Project.step cases) (fun _ inv => inv.Plain failretry host) p invs)
    (ran : Machine.run (Project.step cases) p invs = some q) {next : RunTest} (plain : next.Plain failretry host) :
    let s := runTest cases next q
    (∀ r at_, (r,at_) ∈ s.started → 1 < r → (at_.rounds (r-1)).finished = true ∧
      ∃ list, (at_.rounds r).recipelist = some list ∧ FailuresOf (at_.rounds (r-1)) list) ∧
    (∀ r list, 1 ≤ r → r+1 ≤ failretry → (s.project.rounds (r+1)).recipelist = some list →
      FailuresOf (s.project.rounds r) list) ∧
    ((∀ e ∈ s.started, 1 ≤ e.1 ∧ e.1 ≤ failretry) ∧ s.started.Pairwise (fun a b => a.1 < b.1)) ∧
    (s.killed = false → checkProjectFinished failretry s.project = true) ∧
    (checkProjectFinished failretry q = true → s.started = [] ∧ s.logs = []) := by
  have reached : (∃ m, q.Shape failretry m) ∧ q.OnHost host := by
    refine Machine.runKeeps (fun p => (∃ m, p.Shape failretry m) ∧ p.OnHost host) ?_
      ⟨⟨0,new.shape failretry⟩,fun r h recorded => by simp [new.rounds,RoundDir.fresh] at recorded⟩ along ran
    rintro p inv q ⟨⟨m,shape⟩,on⟩ plain moved
    cases Option.some.inj moved
    obtain ⟨i,_,sound⟩ := runTestSound cases plain.again (plain.failretry.symm ▸ shape)
    rw [plain.failretry] at sound
    exact ⟨sound.shape,(runTestSettled cases plain positive shape on).1⟩
  obtain ⟨⟨m,shape⟩,on⟩ := reached
  obtain ⟨i,last,sound⟩ := runTestSound cases plain.again (plain.failretry.symm ▸ shape)
  rw [plain.failretry] at sound last
  refine ⟨fun r at_ mem later => ?_,fun r list low high listed => ?_,⟨fun e mem => ?_,sound.increasing⟩,
    (runTestSettled cases plain positive shape on).2,fun done => ?_⟩
  · obtain ⟨finished,listed⟩ := (sound.started _ mem).2.2 later
    exact ⟨finished,_,listed,failuresOfFailing _⟩
  · obtain ⟨m',shape'⟩ := sound.shape
    rw [(shape'.next r list low high listed).2]
    exact failuresOfFailing _
  · obtain ⟨low,high,_⟩ := sound.started e mem
    exact ⟨low,by omega⟩
  · have closed := (shape.checkIff positive).mp done
    exact runTestIdle cases next plain.again (plain.failretry.symm ▸ shape) (plain.failretry.symm ▸ closed)

def twoProject : Project := ⟨none,["d/a".toList,"d/b".toList],fun _ => .fresh⟩

def retriedOnce (kill : Option Kill) : RunTest :=
  ⟨.initial,2,fun r => ⟨fun _ _ => 0,fun k => if r = 1 ∧ k = 0 then failingCall else passingCall,
    if r = 1 then kill else none⟩,fun _ => true⟩

theorem retriedOncePlain (kill : Option Kill) : (retriedOnce kill).Plain 2 "localhost".toList :=
  ⟨rfl,rfl,rfl,rfl,rfl⟩

theorem roundsAgreeRetriedOnce :
    ∃ q, Machine.run (Project.step twoCases) twoProject [retriedOnce (some (.call 1 0))] = some q ∧
      checkProjectFinished 2 q = false ∧
      ((runTest twoCases (retriedOnce none) q).started.map Prod.fst = [1,2] ∧
      checkProjectFinished 2 (runTest twoCases (retriedOnce none) q).project = true) := by
  refine ⟨_,rfl,by decide,by decide,?_⟩
  have new : twoProject.New := ⟨fun _ => rfl,by decide⟩
  have along : Machine.Along (Project.step twoCases) (fun _ inv => inv.Plain 2 "localhost".toList) twoProject
      [retriedOnce (some (.call 1 0))] := ⟨retriedOncePlain _,fun _ _ => trivial⟩
  have agree := roundsAgree (by decide) new along rfl (retriedOncePlain none)
  exact agree.2.2.2.1 (by decide)

end MmRegression
