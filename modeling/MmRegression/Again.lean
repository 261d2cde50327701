import MmRegression.Replay

/-! A project started over with AGAIN. The reset is spread over the round loop, which removes
`__finished` and the recipelist of the rounds it enters, `generate_recipelist`, which removes
the resume point, and `run_recipe`, which empties the directory of a testcase it starts. What
none of the three gets to stays behind for the invocations that follow. -/
namespace MmRegression

theorem Project.Shape.widen {p q : Project} {top top' m : Nat} (shape : p.Shape top m) (wider : top ≤ top')
    (same : ∀ r, 1 ≤ r → r ≤ top → q.rounds r = p.rounds r)
    (bare : ∀ r, top < r → r ≤ top' → (q.rounds r).finished = false ∧ (q.rounds r).recipelist = none)
    (base : q.recipelist = p.recipelist ∧ q.fullRecipeList = p.fullRecipeList) : q.Shape top' m := by
  have bound := shape.bound
  refine ⟨by omega,fun r low high => ?_,fun r low high => ?_,fun r list low high listed => ?_,
    fun r low high => ?_,fun r list low high listed => ?_,?_⟩
  · by_cases within : r ≤ top
    · rw [same r low within]
      exact shape.finished r low within
    · simp only [(bare r (by omega) high).1]
      simp
      omega
  · rw [same r low (by omega)]
    exact shape.target r low high
  · by_cases within : r+1 ≤ top
    · rw [same (r+1) (by omega) within] at listed
      rw [same r low (by omega)]
      exact shape.next r list low within listed
    · rw [(bare (r+1) (by omega) high).2] at listed
      contradiction
  · rw [same r low (by omega)]
    exact shape.going r low high
  · by_cases within : r ≤ top
    · rw [same r low within] at listed
      exact shape.ids r list low within listed
    · rw [(bare r (by omega) high).2] at listed
      contradiction
  · rw [base.1,base.2]
    exact shape.base

theorem roundBodyOther (cases : Cases) (inv : RunTest) {round r : Nat} (other : r ≠ round) (s : RunState) :
    (roundBody cases inv round s).2.project.rounds r = s.project.rounds r ∧
    (roundBody cases inv round s).2.logs.filter (fun l => l.1 == r) = s.logs.filter (fun l => l.1 == r) := by
  rcases roundBodyForms cases inv round s with ⟨on,eq⟩ | eq | ⟨_,eq⟩ <;> rw [eq]
  · exact ⟨updateOther _ _ other,rfl⟩
  · exact ⟨(updateOther _ _ other).trans (updateOther _ _ other),rfl⟩
  · refine ⟨?_,by simp [startRound,Ne.symm other]⟩
    simp only [startRound]
    rw [updateOther _ _ other,updateOther _ _ other,updateOther _ _ other]

theorem roundBodyBase (cases : Cases) (inv : RunTest) (round : Nat) (s : RunState) :
    (roundBody cases inv round s).2.project.recipelist = s.project.recipelist ∧
    (roundBody cases inv round s).2.project.fullRecipeList = s.project.fullRecipeList := by
  rcases roundBodyForms cases inv round s with ⟨on,eq⟩ | eq | ⟨_,eq⟩ <;> rw [eq] <;> exact ⟨rfl,rfl⟩

def Project.retried (p : Project) (round : Nat) : List Text :=
  if 1 < round then (p.rounds (round-1)).failIds else p.recipelist.getD p.fullRecipeList

structure RoundDir.Blank (list : List Text) (d : RoundDir) : Prop where
  finished : d.finished = false
  recipelist : d.recipelist = none
  results : ∀ id ∈ list, d.tc (fileKey id) = .empty

/-- The directories of the ids that the round is or may still be run on held nothing in `old`, or
were emptied since. -/
def RoundDir.Cleared (d : RoundDir) (list : List Text) (old : RoundDir) (log : List Execution) : Prop :=
  ∀ id ∈ d.recipelist.getD list, old.tc (fileKey id) = .empty ∨ ∃ e ∈ log, e.Clears (fileKey id)

/-- One iteration of the loop with AGAIN gets to what is left in its round, and the loop is not
left in it while a later round still holds something. -/
structure RunTest.Sweeps (cases : Cases) (mode : Env) (list : List Text) (inv : RunTest) (i : Nat) (s : RunState) :
    Prop where
  foreground : (inv.env.root && inv.env.background) = false
  point : i = 1 → (s.project.rounds 1).finishedTestcase = none ∨
    ∀ n, (inv.sessions 1).kill = some (.startup n) → 4 ≤ n
  starts : (1 < i → (s.project.rounds (i-1)).finished = true) → ∀ id ∈ s.project.retried i,
    (s.project.rounds i).tc (fileKey id) = .empty ∨ (inv.sessions i).Starts cases mode (s.project.retried i) id
  waits : 1 < i → (s.project.rounds (i-1)).finished = false → ∀ id ∈ list,
    (s.project.rounds i).tc (fileKey id) = .empty
  leaves : (roundBody cases inv i s).1 = false → ∀ r, i < r → r ≤ inv.failretry → (s.project.rounds r).Blank list

theorem againForms (cases : Cases) {inv : RunTest} (again : inv.env.again = true) (i : Nat) (s : RunState) :
    let p := s.project.update i (resetRound inv.env)
    let q := p.update i (prepareRound cases p i)
    (1 < i ∧ (s.project.rounds (i-1)).finished = false ∧ roundBody cases inv i s = (false,{ s with project := p })) ∨
    (1 < i → (s.project.rounds (i-1)).finished = true) ∧ (q.rounds i).recipelist = some (s.project.retried i) ∧
      (q.rounds i).tc = (s.project.rounds i).tc ∧ (q.rounds i).finished = false ∧
      (s.project.retried i = [] ∧ roundBody cases inv i s = (false,{ s with project := q }) ∨
        roundBody cases inv i s = startRound cases inv i s q) := by
  intro p q
  have here : p.rounds i = { s.project.rounds i with finished := false, recipelist := none } := by
    simp [p,resetRound,again]
  have previous : 1 < i → p.rounds (i-1) = s.project.rounds (i-1) := fun later =>
    updateOther _ _ (by omega)
  have listed : (q.rounds i).recipelist = some (s.project.retried i) := by
    by_cases later : 1 < i
    · simp [q,prepareRound,here,later,previous later,Project.retried]
    · simp [q,p,prepareRound,resetRound,again,later,Project.retried,Project.update]
  by_cases waiting : 1 < i ∧ (s.project.rounds (i-1)).finished = false
  · refine .inl ⟨waiting.1,waiting.2,?_⟩
    have stops : 1 < i ∧ (p.rounds (i-1)).finished = false := ⟨waiting.1,by rw [previous waiting.1]; exact waiting.2⟩
    simp only [roundBody]
    rw [if_pos stops]
  · have ready : 1 < i → (s.project.rounds (i-1)).finished = true := fun later => by
      simpa using fun unfinished => waiting ⟨later,unfinished⟩
    refine .inr ⟨ready,listed,?_,?_,?_⟩
    · simp [q,prepareRound,here]
    · simp [q,prepareRound,here]
    · have goes : ¬ (1 < i ∧ (p.rounds (i-1)).finished = false) := by
        rintro ⟨later,unfinished⟩
        rw [previous later] at unfinished
        exact waiting ⟨later,unfinished⟩
      have unfinished : ¬ (p.rounds i).finished = true := by simp [here]
      simp only [roundBody]
      rw [if_neg goes,if_neg unfinished]
      split
      · rename_i empty
        rw [show (((s.project.update i (resetRound inv.env)).update i _).rounds i).recipelist = _ from listed] at empty
        exact .inl ⟨Option.some.inj empty.2,rfl⟩
      · exact .inr rfl

/-- What holds when iteration `i` of the loop with AGAIN begins: the rounds before it are new, the
others as they were. -/
structure RunState.Restarting (list : List Text) (old : Project) (i : Nat) (s : RunState) : Prop where
  shape : ∃ m, s.project.Shape (i-1) m
  ahead : ∀ r, i ≤ r → s.project.rounds r = old.rounds r
  base : s.project.recipelist = old.recipelist ∧ s.project.fullRecipeList = old.fullRecipeList
  part : ∀ r l, 1 ≤ r → r < i → (s.project.rounds r).recipelist = some l → ∀ id ∈ l, id ∈ list
  cleared : ∀ r, 1 ≤ r → r < i → (s.project.rounds r).Cleared list (old.rounds r) (executions r s.logs)
  touched : ∀ r, 1 ≤ r → r < i → (s.project.rounds r).finished = true →
    ∃ l, (r,l) ∈ s.logs ∧ l.outcome = .finished

section Restarting
variable {cases : Cases} {mode : Env} {list : List Text} {inv : RunTest} {old : Project} {i : Nat} {s : RunState}

theorem RunState.Restarting.retriedPart (before : s.Restarting list old i)
    (base : old.recipelist.getD old.fullRecipeList = list)
    (ready : 1 < i → (s.project.rounds (i-1)).finished = true) : ∀ id ∈ s.project.retried i, id ∈ list := by
  intro id mem
  unfold Project.retried at mem
  split at mem
  · rename_i later
    obtain ⟨m,shape⟩ := before.shape
    have reached := (shape.finished (i-1) (by omega) le_rfl).mp (ready later)
    have target := shape.target (i-1) (by omega) reached
    rw [failIdsEq target] at mem
    obtain ⟨l,listed⟩ := Option.isSome_iff_exists.mp target.recipelist
    exact before.part (i-1) l (by omega) (by omega) listed id (memSummaryIds listed (List.mem_of_mem_filter mem))
  · rwa [before.base.1,before.base.2,base] at mem

theorem roundBodyShape (cases : Cases) (again : inv.env.again = true) {m : Nat} (low : 1 ≤ i)
    (shape : s.project.Shape (i-1) m) : ∃ m', (roundBody cases inv i s).2.project.Shape i m' := by
  have bound := shape.bound
  have reset : (s.project.update i (resetRound inv.env)).Shape i m := by
    refine shape.widen (by omega) (fun r _ high => updateOther _ _ (by omega)) (fun r late high => ?_) ⟨rfl,rfl⟩
    obtain rfl : r = i := by omega
    rw [updateSame,resetRound,if_pos again]
    exact ⟨rfl,rfl⟩
  rcases roundBodyCases cases inv low le_rfl rfl reset with
    ⟨_,eq⟩ | ⟨past,_⟩ | ⟨rfl,_,_,eq⟩ | ⟨rfl,some,eq⟩
  · exact ⟨m,by rw [eq]; exact reset⟩
  · omega
  · exact ⟨m,by rw [eq]; exact reset.prepare cases le_rfl⟩
  · exact ⟨_,by rw [eq]; exact (reset.start cases inv.env (inv.sessions (m+1)) le_rfl some).2⟩

theorem roundBodyCleared (again : inv.env.again = true) (same : SameMode mode inv.env)
    (plain : PlainIds cases mode list) (part : (1 < i → (s.project.rounds (i-1)).finished = true) →
      ∀ id ∈ s.project.retried i, id ∈ list) (sweeps : inv.Sweeps cases mode list i s) :
    (∀ l, ((roundBody cases inv i s).2.project.rounds i).recipelist = some l → ∀ id ∈ l, id ∈ list) ∧
    ((roundBody cases inv i s).2.project.rounds i).Cleared list (s.project.rounds i)
      (executions i (roundBody cases inv i s).2.logs) := by
  rcases againForms cases again i s with
    ⟨later,waiting,eq⟩ | ⟨ready,listed,tc,unfinished,⟨none,eq⟩ | eq⟩ <;> rw [eq]
  · have bare : ((s.project.update i (resetRound inv.env)).rounds i).recipelist = none := by simp [resetRound,again]
    refine ⟨fun l listed => ?_,fun id mem => .inl (sweeps.waits later waiting id ?_)⟩
    · rw [bare] at listed
      contradiction
    · rwa [bare] at mem
  · rw [none] at listed
    refine ⟨fun l given => ?_,fun id mem => ?_⟩
    · rw [listed] at given
      cases Option.some.inj given
      simp
    · rw [listed] at mem
      contradiction
  · generalize (s.project.update i (resetRound inv.env)).update i
      (prepareRound cases (s.project.update i (resetRound inv.env)) i) = q at listed tc unfinished
    have left := runTestShLeft cases inv.env (inv.sessions i) listed unfinished
    simp only [startRound,updateSame,executionsAppend]
    refine ⟨fun l given => ?_,fun id mem => ?_⟩
    · rw [left.recipelist] at given
      cases Option.some.inj given
      exact part ready
    · rw [left.recipelist] at mem
      refine (sweeps.starts ready id mem).imp_right (fun starts => ?_)
      obtain ⟨e,inside,clears⟩ := startsClears (plain.mono (part ready)) same again listed sweeps.foreground starts
      exact ⟨e,List.mem_append_right _ (by simpa [executions] using inside),clears⟩

theorem roundBodyRestarting (again : inv.env.again = true) (same : SameMode mode inv.env)
    (plain : PlainIds cases mode list) (base : old.recipelist.getD old.fullRecipeList = list) (low : 1 ≤ i)
    (sweeps : inv.Sweeps cases mode list i s) (before : s.Restarting list old i) :
    (roundBody cases inv i s).2.Restarting list old (i+1) := by
  obtain ⟨m,shape⟩ := before.shape
  have others := fun r (other : r ≠ i) => roundBodyOther cases inv other s
  have lists := roundBodyBase cases inv i s
  obtain ⟨part,cleared⟩ := roundBodyCleared again same plain (before.retriedPart base) sweeps
  rw [before.ahead i le_rfl] at cleared
  refine ⟨roundBodyShape cases again low shape,fun r late => ?_,⟨lists.1.trans before.base.1,lists.2.trans before.base.2⟩,
    fun r l low' high listed => ?_,fun r low' high => ?_,fun r low' high finished => ?_⟩
  · exact (others r (by omega)).1.trans (before.ahead r (by omega))
  · by_cases here : r = i
    · subst here
      exact part l listed
    · rw [(others r here).1] at listed
      exact before.part r l low' (by omega) listed
  · by_cases here : r = i
    · subst here
      exact cleared
    · rw [(others r here).1,executions,(others r here).2]
      exact before.cleared r low' (by omega)
  · rcases roundBodyTouched cases inv finished with now | kept
    · exact now
    · by_cases here : r = i
      · subst here
        simp [resetRound,again] at kept
      · rw [updateOther _ _ here] at kept
        obtain ⟨l,mem,outcome⟩ := before.touched r low' (by omega) kept
        obtain ⟨new,logs,_⟩ := roundBodyGrows cases inv i s
        exact ⟨l,by simp [logs,mem],outcome⟩

theorem RunState.Restarting.blank {top : Nat} (before : s.Restarting list old (i+1)) (high : i ≤ top)
    (blank : ∀ r, i < r → r ≤ top → (old.rounds r).Blank list) : s.Restarting list old (top+1) := by
  obtain ⟨m,shape⟩ := before.shape
  have same : ∀ r, i < r → s.project.rounds r = old.rounds r := fun r late => before.ahead r (by omega)
  have wide := shape.widen (q := s.project) (show i+1-1 ≤ top by omega) (fun _ _ _ => rfl) (fun r late below => by
    rw [same r (by omega)]
    exact ⟨(blank r (by omega) below).finished,(blank r (by omega) below).recipelist⟩) ⟨rfl,rfl⟩
  refine ⟨⟨m,wide⟩,fun r late => before.ahead r (by omega),before.base,fun r l low below listed => ?_,
    fun r low below => ?_,fun r low below finished => ?_⟩
  · rcases Nat.lt_or_ge i r with late | early
    · rw [same r late,(blank r late (by omega)).recipelist] at listed
      contradiction
    · exact before.part r l low (by omega) listed
  · rcases Nat.lt_or_ge i r with late | early
    · rw [same r late]
      intro id mem
      rw [(blank r late (by omega)).recipelist] at mem
      exact .inl ((blank r late (by omega)).results id mem)
    · exact before.cleared r low (by omega)
  · rcases Nat.lt_or_ge i r with late | early
    · rw [same r late,(blank r late (by omega)).finished] at finished
      contradiction
    · exact before.touched r low (by omega) finished

theorem againRestarts (again : inv.env.again = true) (same : SameMode mode inv.env) (plain : PlainIds cases mode list)
    (base : old.recipelist.getD old.fullRecipeList = list) (ids : ∀ id ∈ list, IsId id)
    (sweeps : Loop.Along (roundBody cases inv) (inv.Sweeps cases mode list) (Loop.seq inv.failretry) ⟨old,[],[]⟩) :
    (runTest cases inv old).Restarting list old (inv.failretry+1) := by
  have start : RunState.Restarting list old 1 ⟨old,[],[]⟩ :=
    ⟨⟨0,by omega,by omega,by omega,by omega,by omega,by omega,by rwa [base]⟩,fun _ _ => rfl,⟨rfl,rfl⟩,
      by omega,by omega,by omega⟩
  obtain ⟨_,_,_,done⟩ := Loop.iterateAlong (n := inv.failretry) (RunState.Restarting list old)
    (fun _ s => s.Restarting list old (inv.failretry+1))
    (fun i s low _ sweeps before _ => roundBodyRestarting again same plain base low sweeps before)
    (fun i s low high sweeps before left => (roundBodyRestarting again same plain base low sweeps before).blank high
      (fun r late below => before.ahead r (by omega) ▸ sweeps.leaves left r late below))
    (fun s done => done) sweeps start
  exact done

end Restarting

theorem runTestFirst (cases : Cases) (inv : RunTest) (positive : 1 ≤ inv.failretry) (p : Project) :
    (runTest cases inv p).project.rounds 1 = (roundBody cases inv 1 ⟨p,[],[]⟩).2.project.rounds 1 ∧
    (runTest cases inv p).logs.filter (fun l => l.1 == 1) =
      (roundBody cases inv 1 ⟨p,[],[]⟩).2.logs.filter (fun l => l.1 == 1) := by
  let kept (s : RunState) : Prop := s.project.rounds 1 = (roundBody cases inv 1 ⟨p,[],[]⟩).2.project.rounds 1 ∧
    s.logs.filter (fun l => l.1 == 1) = (roundBody cases inv 1 ⟨p,[],[]⟩).2.logs.filter (fun l => l.1 == 1)
  have body : ∀ i s, 1 ≤ i → (i = 1 ∧ s = ⟨p,[],[]⟩ ∨ 1 < i ∧ kept s) → kept (roundBody cases inv i s).2 := by
    rintro i s low (⟨rfl,rfl⟩ | ⟨late,same⟩)
    · exact ⟨rfl,rfl⟩
    · obtain ⟨rounds,logs⟩ := roundBodyOther cases inv (show 1 ≠ i by omega) s
      exact ⟨rounds.trans same.1,logs.trans same.2⟩
  obtain ⟨_,_,_,done⟩ := Loop.iterateSeq (n := inv.failretry)
    (fun i s => i = 1 ∧ s = RunState.mk p [] [] ∨ 1 < i ∧ kept s) (fun _ s => kept s)
    (fun i s low _ before _ => .inr ⟨by omega,body i s low before⟩)
    (fun i s low _ before _ => body i s low before)
    (fun s before => before.elim (fun none => by omega) And.right) (s := ⟨p,[],[]⟩) (.inl ⟨rfl,rfl⟩)
  exact done

structure Kept (cases : Cases) (mode : Env) (list : List Text) (acts : List Act) (d : RoundDir) : Prop where
  resumable : Resumable cases mode list acts d
  done : d.finished = true → ∀ id, Wanted cases mode list id → ¬ FailedAbove acts (called [] id) → (d.tc id).Done

/-- An invocation of the project: RUN_MODE and PRIORITY stay, FILTER and SKIP_* are unset, and
of the first round every recipe returns from being sourced and no config above a testcase that
has to be run fails. -/
structure RunTest.Uses (cases : Cases) (mode : Env) (failretry : Nat) (list : List Text) (inv : RunTest) : Prop where
  failretry : inv.failretry = failretry
  same : SameMode mode inv.env
  loads : ∀ k, ((inv.sessions 1).calls k).loadret ≠ none
  configs : ∀ id, Wanted cases mode list id → ∀ before dir, Above dir (called [] id) →
    (inv.sessions 1).config before dir = 0

theorem RunTest.Uses.entered {cases : Cases} {mode : Env} {failretry : Nat} {list : List Text} {inv : RunTest}
    (uses : inv.Uses cases mode failretry list) (p : Project) {id : Text} (wanted : Wanted cases mode list id) :
    ¬ FailedAbove (actsOf 1 (runTest cases inv p).logs) (called [] id) := by
  have configured : Configured (inv.sessions 1).config (actsOf 1 (runTest cases inv p).logs) := by
    intro pid dir status mem
    obtain ⟨⟨r,l⟩,logged,inside⟩ := List.mem_flatMap.mp mem
    obtain ⟨logged,here⟩ := List.mem_filter.mp logged
    obtain rfl : r = 1 := by simpa using here
    obtain ⟨d,rfl⟩ := runTestLogged cases inv p logged
    exact runTestShConfigured cases inv.env (inv.sessions 1) d pid dir status inside
  exact configured.entered (uses.configs id wanted)

section First
variable {cases : Cases} {mode : Env} {list : List Text} (orderly : Orderly cases mode list) {inv : RunTest}
  {failretry : Nat} {p : Project} (positive : 1 ≤ failretry) (uses : inv.Uses cases mode failretry list)
include orderly positive uses

theorem firstAgain (again : inv.env.again = true) (base : p.recipelist.getD p.fullRecipeList = list)
    (alone : Alone cases mode list (filterRecipeList cases mode list))
    (point : (p.rounds 1).finishedTestcase = none ∨ ∀ n, (inv.sessions 1).kill = some (.startup n) → 4 ≤ n) :
    Kept cases mode list (actsOf 1 (runTest cases inv p).logs) ((runTest cases inv p).project.rounds 1) := by
  obtain ⟨rounds,logs⟩ := runTestFirst cases inv (by rw [uses.failretry]; exact positive) p
  have start : roundBody cases inv 1 ⟨p,[],[]⟩ = startRound cases inv 1 ⟨p,[],[]⟩
      ((p.update 1 (resetRound inv.env)).update 1 (prepareRound cases (p.update 1 (resetRound inv.env)) 1)) := by
    simp [roundBody,resetRound,again]
  rw [actsOf,rounds,logs,start]
  simp only [startRound,updateSame,List.nil_append,List.filter_cons,beq_self_eq_true,if_true,List.filter_nil,
    List.flatMap_cons,List.flatMap_nil,List.append_nil]
  generalize made : prepareRound cases (p.update 1 (resetRound inv.env)) 1 (resetRound inv.env (p.rounds 1)) = d
  have listed : d.recipelist = some list := by
    rw [← made,← base]
    simp [prepareRound,resetRound,again,Project.update]
  have unfinished : d.finished = false := by
    rw [← made]
    simp [prepareRound,resetRound,again]
  have same : d.finishedTestcase = (p.rounds 1).finishedTestcase := by
    rw [← made]
    simp [prepareRound,resetRound,again]
  obtain ⟨resumable,done⟩ := againResumable orderly uses.same [] (inv.sessions 1) uses.loads again listed
    alone (by rwa [same])
  refine ⟨resumable,fun finished => done ?_⟩
  simpa [(runTestShLeft cases inv.env (inv.sessions 1) listed unfinished).finished] using finished

theorem firstLater (once : inv.env.again = false) {acts : List Act}
    (kept : Kept cases mode list acts (p.rounds 1)) :
    Kept cases mode list (acts ++ actsOf 1 (runTest cases inv p).logs) ((runTest cases inv p).project.rounds 1) := by
  obtain ⟨rounds,logs⟩ := runTestFirst cases inv (by rw [uses.failretry]; exact positive) p
  have reset : p.update 1 (resetRound inv.env) = p := resetKeeps once p 1
  rw [actsOf,rounds,logs]
  cases finished : (p.rounds 1).finished with
  | true =>
    have skipped : roundBody cases inv 1 ⟨p,[],[]⟩ = (true,⟨p,[],[]⟩) := by
      simp [roundBody,reset,finished]
    rw [skipped]
    simpa using kept
  | false =>
    have start : roundBody cases inv 1 ⟨p,[],[]⟩ =
        startRound cases inv 1 ⟨p,[],[]⟩ (p.update 1 (prepareRound cases p 1)) := by
      simp [roundBody,reset,finished]
    rw [start]
    simp only [startRound,updateSame,List.nil_append,List.filter_cons,beq_self_eq_true,if_true,List.filter_nil,
      List.flatMap_cons,List.flatMap_nil,List.append_nil]
    have listed : (prepareRound cases p 1 (p.rounds 1)).recipelist = some list := by
      simp [prepareRound,kept.resumable.recipelist]
    have resumable : Resumable cases mode list acts (prepareRound cases p 1 (p.rounds 1)) := by
      refine ⟨listed,kept.resumable.filtered,fun id wanted entered => ?_⟩
      refine (kept.resumable.kept id wanted entered).imp_right (fun ahead => ⟨?_,ahead.2⟩)
      exact aheadOfPoint (listed.trans kept.resumable.recipelist.symm) rfl ahead.1
    obtain ⟨next,done⟩ := invocationResumable orderly uses.same (inv.sessions 1) uses.loads once resumable
    refine ⟨next,fun finished' => done ?_⟩
    simpa [(runTestShLeft cases inv.env (inv.sessions 1) listed finished).finished] using finished'

end First

/-! ### Runs that begin with AGAIN -/

structure Since where
  project : Project
  logs : List (Nat × RunLog)

def Since.step (cases : Cases) (s : Since) (inv : RunTest) : Option Since :=
  let t := runTest cases inv s.project
  some ⟨t.project,s.logs ++ t.logs⟩

structure Since.Renewed (cases : Cases) (mode : Env) (failretry : Nat) (list : List Text) (p : Project)
    (s : Since) : Prop where
  shape : ∃ m, s.project.Shape failretry m
  first : Kept cases mode list (actsOf 1 s.logs) (s.project.rounds 1)
  entered : ∀ id, Wanted cases mode list id → ¬ FailedAbove (actsOf 1 s.logs) (called [] id)
  replayed : ∀ r, (s.project.rounds r).tc = replay (p.rounds r).tc (executions r s.logs)
  cleared : ∀ r, 1 ≤ r → r ≤ failretry →
    (s.project.rounds r).Cleared list (p.rounds r) (executions r s.logs)
  touched : ∀ r, 1 ≤ r → r ≤ failretry → (s.project.rounds r).finished = true →
    ∃ l, (r,l) ∈ s.logs ∧ l.outcome = .finished

section Since
variable {cases : Cases} {mode : Env} {failretry : Nat} {list : List Text} {p : Project}

theorem failedAppend {a b : List Act} {id : Text} (first : ¬ FailedAbove a id) (second : ¬ FailedAbove b id) :
    ¬ FailedAbove (a ++ b) id := by
  rintro ⟨pid,dir,status,mem,failed⟩
  rcases List.mem_append.mp mem with mem | mem
  · exact first ⟨pid,dir,status,mem,failed⟩
  · exact second ⟨pid,dir,status,mem,failed⟩

theorem actsOfAppend (r : Nat) (a b : List (Nat × RunLog)) : actsOf r (a ++ b) = actsOf r a ++ actsOf r b := by
  simp [actsOf]

theorem renewedAgain (orderly : Orderly cases mode list) (positive : 1 ≤ failretry) {inv : RunTest}
    (uses : inv.Uses cases mode failretry list) (again : inv.env.again = true)
    (base : p.recipelist.getD p.fullRecipeList = list) (ids : ∀ id ∈ list, IsId id)
    (alone : Alone cases mode list (filterRecipeList cases mode list))
    (sweeps : Loop.Along (roundBody cases inv) (inv.Sweeps cases mode list) (Loop.seq failretry) ⟨p,[],[]⟩) :
    Since.Renewed cases mode failretry list p ⟨(runTest cases inv p).project,(runTest cases inv p).logs⟩ := by
  have point := (Loop.alongFirst positive sweeps).point rfl
  rw [← uses.failretry] at sweeps
  have restarting := againRestarts again uses.same orderly.plain base ids sweeps
  have shape := restarting.shape
  rw [uses.failretry] at restarting shape
  exact ⟨shape,firstAgain orderly positive uses again base alone point,fun _ wanted => uses.entered p wanted,
    runTestReplayed cases inv p,fun r low high => restarting.cleared r low (by omega),
    fun r low high => restarting.touched r low (by omega)⟩

theorem Project.Shape.sublist {q : Project} {m : Nat} (shape : q.Shape failretry m)
    (first : (q.rounds 1).recipelist = some list) : ∀ r l, 1 ≤ r → r ≤ failretry →
      (q.rounds r).recipelist = some l → ∀ id ∈ l, id ∈ list := by
  intro r l low
  induction r, low using Nat.le_induction generalizing l with
  | base =>
    intro _ listed
    rw [first] at listed
    cases Option.some.inj listed
    exact fun _ mem => mem
  | succ r low ih =>
    intro high listed id mem
    obtain ⟨below,rfl⟩ := shape.next r l low high listed
    obtain ⟨l',listed'⟩ := Option.isSome_iff_exists.mp (shape.target r low below).recipelist
    exact ih l' (by omega) listed' id (memSummaryIds listed' (List.mem_of_mem_filter mem))

theorem renewedLater (orderly : Orderly cases mode list) (positive : 1 ≤ failretry) {inv : RunTest} {s t : Since}
    (renewed : s.Renewed cases mode failretry list p) (uses : inv.Uses cases mode failretry list)
    (once : inv.env.again = false) (moved : s.step cases inv = some t) :
    t.Renewed cases mode failretry list p := by
  cases Option.some.inj moved
  obtain ⟨m,shape⟩ := renewed.shape
  obtain ⟨_,_,sound⟩ := runTestSound cases once (uses.failretry.symm ▸ shape)
  obtain ⟨m',shape'⟩ := sound.shape
  rw [uses.failretry] at shape'
  have first := firstLater orderly positive uses once renewed.first
  refine ⟨⟨m',shape'⟩,?_,fun id wanted => ?_,fun r => ?_,fun r low high id mem => ?_,fun r low high finished => ?_⟩
  · rw [actsOfAppend]
    exact first
  · rw [actsOfAppend]
    exact failedAppend (renewed.entered id wanted) (uses.entered s.project wanted)
  · rw [executionsAppend,runTestReplayed cases inv s.project r,renewed.replayed r]
    exact List.foldl_append.symm
  · -- A recipelist that is there stays, and a new one lists ids of the first round only.
    have before : id ∈ (s.project.rounds r).recipelist.getD list := by
      cases listed : (s.project.rounds r).recipelist with
      | some l => simpa [runTestLists cases inv once listed] using mem
      | none =>
        cases listed' : ((runTest cases inv s.project).project.rounds r).recipelist with
        | some l => exact shape'.sublist first.resumable.recipelist r l low high listed' id (by simpa [listed'] using mem)
        | none => simpa [listed'] using mem
    refine (renewed.cleared r low high id before).imp_right ?_
    rintro ⟨e,inside,clears⟩
    exact ⟨e,by rw [executionsAppend]; simp [inside],clears⟩
  · rcases runTestTouched cases inv once s.project finished with ⟨l,inside,outcome⟩ | old
    · exact ⟨l,by simp [inside],outcome⟩
    · obtain ⟨l,inside,outcome⟩ := renewed.touched r low high old
      exact ⟨l,by simp [inside],outcome⟩

def Since.Written (s : Since) (r : Nat) (id : Text) : Prop :=
  (s.project.rounds r).tc (fileKey id) = replay (fun _ => .empty) (executions r s.logs) (fileKey id)

/-- The generation that the invocation with AGAIN began owes nothing to what was there before:
every result that has to be there comes from an execution since, nothing is left to be run, and
all results that are reported, all later recipelists and all `__finished` marks are new. -/
structure Since.NewGeneration (cases : Cases) (mode : Env) (failretry : Nat) (list : List Text) (s : Since) :
    Prop where
  reported : ∀ id, Wanted cases mode list id → s.Written 1 id ∧ ∃ e ∈ executions 1 s.logs,
    fileKey e.id = fileKey id ∧ (.runStatus .finished ∈ e.writes ∨ .runStatus .skipped ∈ e.writes)
  idle : ∀ next : RunTest, next.failretry = failretry → next.env.again = false →
    ∀ r, executions r (runTest cases next s.project).logs = []
  results : ∀ r l, 1 ≤ r → r ≤ failretry → (s.project.rounds r).recipelist = some l → ∀ id ∈ l, s.Written r id
  recipelists : ∀ r l, 1 ≤ r → r+1 ≤ failretry → (s.project.rounds (r+1)).recipelist = some l →
    FailuresOf (s.project.rounds r) l
  marks : ∀ r, 1 ≤ r → r ≤ failretry → (s.project.rounds r).finished = true →
    ∃ l, (r,l) ∈ s.logs ∧ l.outcome = .finished

theorem Since.Renewed.written {s : Since} (renewed : s.Renewed cases mode failretry list p) {r : Nat} (low : 1 ≤ r)
    (high : r ≤ failretry) {id : Text} (mem : id ∈ (s.project.rounds r).recipelist.getD list) : s.Written r id := by
  rw [Since.Written,renewed.replayed r]
  rcases renewed.cleared r low high id mem with empty | ⟨e,inside,clears⟩
  · exact replayAt empty _
  · exact replayCleared inside clears _ _

theorem Since.Renewed.newGeneration {s : Since} (orderly : Orderly cases mode list) (positive : 1 ≤ failretry)
    (renewed : s.Renewed cases mode failretry list p)
    (done : checkProjectFinished failretry s.project = true) : s.NewGeneration cases mode failretry list := by
  obtain ⟨m,shape⟩ := renewed.shape
  have closed := (shape.checkIff positive).mp done
  refine ⟨fun id wanted => ?_,fun next limit once r => ?_,fun r l low high listed id mem => ?_,
    fun r l low high listed => ?_,renewed.touched⟩
  · have listed : id ∈ (s.project.rounds 1).recipelist.getD list := by
      simpa [renewed.first.resumable.recipelist] using wanted.listed
    have written := renewed.written le_rfl positive listed
    refine ⟨written,?_⟩
    have first : (s.project.rounds 1).finished = true := by
      refine (shape.finished 1 le_rfl positive).mpr ?_
      rcases closed with rfl | ⟨some,_⟩
      · exact positive
      · exact some
    have key : fileKey id = id := fileKeyPath (wanted.plain orderly.plain).1.walk.1
    have status := renewed.first.done first id wanted (renewed.entered id wanted)
    rw [← key,TestcaseDir.Done,written] at status
    rcases status with status | status
    · obtain ⟨e,mem,same,write⟩ := (replayStatus status).resolve_left (by simp [TestcaseDir.empty])
      exact ⟨e,mem,same,.inl write⟩
    · obtain ⟨e,mem,same,write⟩ := (replayStatus status).resolve_left (by simp [TestcaseDir.empty])
      exact ⟨e,mem,same,.inr write⟩
  · obtain ⟨_,none⟩ := runTestIdle cases next once (limit.symm ▸ shape) (limit.symm ▸ closed)
    simp [none,executions]
  · exact renewed.written low high (by simpa [listed] using mem)
  · rw [(shape.next r l low high listed).2]
    exact failuresOfFailing _

end Since

def passing (again : Bool) (failretry : Nat) (kill : Option Kill) : RunTest :=
  ⟨{ Env.initial with again },failretry,fun _ => ⟨fun _ _ => 0,fun _ => passingCall,kill⟩,fun _ => true⟩

def passedOnce : Project := (runTest twoCases (passing false 1 none) twoProject).project

theorem passingUses (again : Bool) (failretry : Nat) (kill : Option Kill) (list : List Text) :
    (passing again failretry kill).Uses twoCases .initial failretry list :=
  ⟨rfl,⟨rfl,rfl,rfl,by cases again <;> exact ⟨rfl,rfl,rfl⟩⟩,fun _ => by simp [passing,passingCall],
    fun _ _ _ _ _ => rfl⟩

theorem twoAlone : Alone twoCases .initial sortedList (filterRecipeList twoCases .initial sortedList) := by
  refine ⟨by decide,fun z mem y wanted => ?_⟩
  have all : ∀ z ∈ filterRecipeList twoCases .initial sortedList, ∀ y ∈ sortedList,
      startsWith (z ++ ['/']) y = false := by decide
  exact all z mem y wanted.listed

def failedOnce : Project :=
  (runTest twoCases ⟨.initial,2,fun r => ⟨fun _ _ => 0,fun k => if k = 0 then failingCall else passingCall,
    if r = 2 then some (.startup 0) else none⟩,fun _ => true⟩ twoProject).project

end MmRegression
