import MmRegression.RunRecipes

/-! The workflow of a hierarchical run. Every testcase is called once, in the order of the list and
below the configs of its directories; a directory is entered by its config and left by
`dir_cleanup` once its batch is over. -/
namespace MmRegression

def hasConfig (cases : Cases) (dir : Text) : Bool := cases.isFile (fileKey (dir ++ "/config".toList))

def dirsFrom (seen : Text) : Text → List Text
  | [] => []
  | c::cs => if c = '/' then seen :: dirsFrom (seen ++ [c]) cs else dirsFrom (seen ++ [c]) cs

/- The directories above a path, from `cases/` inwards. -/
def dirsAbove (id : Text) : List Text := if id = [] then [] else [] :: dirsFrom [] id

def configsAbove (cases : Cases) (id : Text) : List Text := (dirsAbove id).filter (hasConfig cases)

/- The next id is below `dir`, and `dir` is the next of its configs. A run over no ids at all sources
the config of `cases/`. -/
def Enters (cases : Cases) (opened : List (Nat × Text)) (dir : Text) (todo : List Text) : Prop :=
  match todo with
  | [] => dir = [] ∧ opened = []
  | id::_ => (opened.map Prod.snd).reverse ++ [dir] <+: configsAbove cases id

/-- The acts of a walk over the ids `todo`, with the directories that are entered at the moment and
the processes that entered them, innermost first. -/
inductive Workflow (cases : Cases) : List (Nat × Text) → List Text → List Act → Prop where
  | done : Workflow cases [] [] []
  | call {opened todo acts} (pid : Nat) {id name : Text} (named : fileKey name = id) {sourced : List Text}
      (configs : sourced = configsAbove cases id) (inside : sourced = (opened.map Prod.snd).reverse)
      (rest : Workflow cases opened todo acts) : Workflow cases opened (id::todo) (.recipe pid name sourced :: acts)
  | enter {opened todo acts} (pid : Nat) {dir : Text} (next : Enters cases opened dir todo)
      (rest : Workflow cases ((pid,dir)::opened) todo acts) : Workflow cases opened todo (.config pid dir 0 :: acts)
  | refuse {opened todo acts} (pid : Nat) {dir : Text} {status : Nat} (failed : status ≠ 0) {batch : List Text}
      (next : Enters cases opened dir (batch ++ todo)) (below : ∀ id ∈ batch, Above dir id)
      (ends : ∀ id ∈ todo.head?, ¬ Above dir id) (rest : Workflow cases opened todo acts) :
      Workflow cases opened (batch ++ todo) (.config pid dir status :: acts)
  | leave {opened todo acts} {pid : Nat} {dir : Text} {sourced : List Text}
      (inside : sourced = ((pid,dir)::opened).reverse.map Prod.snd) (ends : ∀ id ∈ todo.head?, ¬ Above dir id)
      (rest : Workflow cases opened todo acts) :
      Workflow cases ((pid,dir)::opened) todo (.cleanup pid dir sourced :: acts)

/-! ### Paths -/

theorem IdPath.join {basedir e : Text} (base : basedir = [] ∨ IdPath basedir) (path : IdPath e) :
    IdPath (joinDir basedir e) := by
  rcases base with rfl | base
  · simpa [joinDir] using path
  · have joined : joinDir basedir e = basedir ++ '/'::e := by simp [joinDir,base.nonempty]
    intro comp mem
    rw [joined,splitAppend,List.mem_append] at mem
    exact mem.elim (base comp) (path comp)

theorem IsName.path {d : Text} (name : IsName d) (clean : '/' ∉ d) : IdPath d := by
  intro comp mem
  rw [splitClean clean,List.mem_singleton] at mem
  rwa [mem]

theorem dirsFromClean {e : Text} (clean : '/' ∉ e) (seen : Text) : dirsFrom seen e = [] := by
  induction e generalizing seen with
  | nil => rfl
  | cons c cs ih =>
    have other : c ≠ '/' := fun eq => clean (by simp [eq])
    rw [dirsFrom,if_neg other]
    exact ih (fun mem => clean (by simp [mem])) _

theorem dirsFromAppend (a b seen : Text) :
    dirsFrom seen (a ++ '/'::b) = dirsFrom seen a ++ (seen ++ a) :: dirsFrom (seen ++ (a ++ ['/'])) b := by
  induction a generalizing seen with
  | nil => simp [dirsFrom]
  | cons c cs ih =>
    simp only [List.cons_append,dirsFrom,ih]
    split <;> simp

theorem dirsAboveJoin {basedir e : Text} (some : e ≠ []) (clean : '/' ∉ e) :
    dirsAbove (joinDir basedir e) = dirsAbove basedir ++ [basedir] := by
  by_cases top : basedir = []
  · simp [dirsAbove,joinDir,top,some,dirsFromClean clean]
  · simp [dirsAbove,joinDir,top,dirsFromAppend,dirsFromClean clean]

theorem dirsAbovePrefix (basedir : Text) {e : Text} (some : e ≠ []) :
    dirsAbove basedir ++ [basedir] <+: dirsAbove (joinDir basedir e) := by
  by_cases top : basedir = []
  · exact ⟨dirsFrom [] e,by simp [dirsAbove,joinDir,top,some]⟩
  · exact ⟨dirsFrom (basedir ++ ['/']) e,by simp [dirsAbove,joinDir,top,dirsFromAppend]⟩

theorem fileKeyFile {basedir e : Text} (base : basedir = [] ∨ IdPath basedir) (path : IdPath e) (clean : '/' ∉ e) :
    fileKey (basedir ++ '/'::e) = joinDir basedir e := by
  rcases base with rfl | base
  · have named := fileKeyCalled path
    simpa [called,clean,joinDir] using named
  · have joined : joinDir basedir e = basedir ++ '/'::e := by simp [joinDir,base.nonempty]
    rw [← joined]
    exact fileKeyPath (path.join (.inr base))

theorem fileKeyDir {basedir : Text} (base : basedir = [] ∨ IdPath basedir) : fileKey basedir = basedir := by
  rcases base with rfl | base
  · rfl
  · exact fileKeyPath base

theorem joinLonger (basedir : Text) {d : Text} (name : d ≠ []) : basedir.length < (joinDir basedir d).length := by
  have positive : 0 < d.length := List.length_pos_iff.mpr name
  unfold joinDir
  split
  · simp
  · rename_i top
    simp only [ne_eq,not_not] at top
    simpa [top] using positive

theorem aboveJoin {basedir d id : Text} (some : d ≠ []) (above : Above (joinDir basedir d) id) : Above basedir id := by
  by_cases top : basedir = []
  · exact .inl top
  · refine .inr ?_
    rcases above with none | below
    · simp [joinDir,some] at none
    · rw [startsWith,List.isPrefixOf_iff_prefix] at below ⊢
      refine List.IsPrefix.trans ?_ below
      simp [joinDir,top]

theorem aboveJoined (basedir e : Text) : Above basedir (joinDir basedir e) := by
  by_cases top : basedir = []
  · exact .inl top
  · refine .inr ?_
    rw [startsWith,List.isPrefixOf_iff_prefix]
    exact ⟨e,by simp [joinDir,top]⟩

theorem aboveSibling {basedir d e : Text} (some : d ≠ []) (above : Above (joinDir basedir d) (joinDir basedir e)) :
    (d ++ ['/']) <+: e := by
  rcases above with none | below
  · simp [joinDir,some] at none
  · rw [startsWith,List.isPrefixOf_iff_prefix] at below
    by_cases top : basedir = []
    · simpa [joinDir,top] using below
    · simp only [joinDir,ne_eq,top,not_false_eq_true,if_true,List.append_assoc] at below
      simpa using below

/- What follows a batch of `d` is not below `d`. -/
theorem Batches.apart {elms : List Text} {segs : List Segment} (batches : Batches elms segs) {d : Text}
    (clean : '/' ∉ d) (ends : firstDir segs ≠ some d) : ∀ e ∈ elms.head?, ¬ (d ++ ['/']) <+: e := by
  intro e mem below
  obtain ⟨t,rfl⟩ := below
  cases batches with
  | nil => simp at mem
  | file e' clean' rest =>
    simp only [List.head?_cons,Option.mem_some_iff] at mem
    exact clean' (by simp [mem])
  | batch d' rests name' clean' some' ends' rest =>
    cases rests with
    | nil => contradiction
    | cons r rests =>
      simp only [List.map_cons,List.cons_append,List.head?_cons,Option.mem_some_iff] at mem
      have first := congrArg (cutFirst '/') mem
      rw [cutFirstAppend clean',List.append_assoc,List.singleton_append,cutFirstAppend clean] at first
      exact ends (by rw [← first]; rfl)

/-! ### The walk follows the workflow -/

structure Moved (depth : Nat) (w v : World) : Prop where
  forks : w.forks ≤ v.forks
  fresh : ∀ key pid, v.pidFile key = some pid → pid < v.forks
  kept : ∀ key, key.length < depth → v.pidFile key = w.pidFile key

theorem Moved.trans {depth depth' : Nat} {u v w : World} (first : Moved depth u v) (second : Moved depth' v w)
    (deeper : depth ≤ depth') : Moved depth u w :=
  ⟨first.forks.trans second.forks,second.fresh,
    fun key short => (second.kept key (by omega)).trans (first.kept key short)⟩

/- A process that begins `run_recipes` for `basedir`. -/
structure Entering (cases : Cases) (basedir : Text) (opened : List (Nat × Text)) (p : Process) (w : World) : Prop where
  dir : basedir = [] ∨ IdPath basedir
  sourced : p.sourced = configsAbove cases basedir
  inside : p.sourced = (opened.map Prod.snd).reverse
  old : p.pid < w.forks
  fresh : ∀ key pid, w.pidFile key = some pid → pid < w.forks
  tmp : ∀ t ∈ p.tmp, (fileKey t).length < basedir.length ∧ w.pidFile (fileKey t) ≠ some p.pid

/- A process in `basedir` that works on its batch. -/
structure Working (cases : Cases) (basedir : Text) (opened : List (Nat × Text)) (p : Process) (w : World) : Prop where
  dir : basedir = [] ∨ IdPath basedir
  sourced : p.sourced = (dirsAbove basedir ++ [basedir]).filter (hasConfig cases)
  inside : p.sourced = (opened.map Prod.snd).reverse
  fresh : ∀ key pid, w.pidFile key = some pid → pid < w.forks
  tmp : ∀ t ∈ p.tmp, (fileKey t).length ≤ basedir.length

def Follows (cases : Cases) (basedir : Text) (opened : List (Nat × Text)) (ids : List Text) (acts : List Act) : Prop :=
  ∀ after rest, (∀ id ∈ after.head?, ¬ Above basedir id) → Workflow cases opened after rest →
    Workflow cases opened (ids ++ after) (acts ++ rest)

def SubFollows (cases : Cases) (sub : Text → Process → World → World) (n : Nat) : Prop :=
  ∀ basedir elms opened p w, elms ≠ [] → Fits n elms → Entering cases basedir opened p w →
    ∃ acts, (sub (recipeLine basedir elms) p w).acts = w.acts ++ acts ∧
      Moved basedir.length w (sub (recipeLine basedir elms) p w) ∧
      Follows cases basedir opened (elms.map (joinDir basedir)) acts

theorem dirChars {basedir : Text} (base : basedir = [] ∨ IdPath basedir) : DirChars basedir := by
  rcases base with rfl | base
  · simp [DirChars]
  · intro c mem
    rcases base.chars mem with rfl | ok
    · decide
    · exact ok

section Walk
variable {cases : Cases} {basedir : Text} {opened : List (Nat × Text)} {p : Process} {w : World}

theorem Working.enters (working : Working cases basedir opened p w) {d : Text} (name : IsName d) (clean : '/' ∉ d) :
    Entering cases (joinDir basedir d) opened { p with pid := w.forks } { w with forks := w.forks + 1 } := by
  have longer := joinLonger basedir name.1
  refine ⟨.inr ((name.path clean).join working.dir),?_,working.inside,Nat.lt_succ_self _,
    fun key pid held => Nat.lt_succ_of_lt (working.fresh key pid held),fun t mem => ⟨?_,fun held => ?_⟩⟩
  · rw [configsAbove,dirsAboveJoin name.1 clean]
    exact working.sourced
  · have short := working.tmp t mem
    omega
  · exact absurd (working.fresh _ _ held) (lt_irrefl _)

theorem Working.moved (working : Working cases basedir opened p w) {v : World} {depth : Nat} (moved : Moved depth w v) :
    Working cases basedir opened p v :=
  ⟨working.dir,working.sourced,working.inside,moved.fresh,working.tmp⟩

theorem segmentsFollow {sub : Text → Process → World → World} {n : Nat} (follows : SubFollows cases sub n)
    {elms : List Text} {segs : List Segment} (batches : Batches elms segs) (fits : Fits (n+1) elms)
    (working : Working cases basedir opened p w) :
    ∃ acts, (segs.foldl (runSegment sub basedir p) w).acts = w.acts ++ acts ∧
      Moved (basedir.length+1) w (segs.foldl (runSegment sub basedir p) w) ∧
      Follows cases basedir opened (elms.map (joinDir basedir)) acts := by
  induction batches generalizing w with
  | nil => exact ⟨[],by simp,⟨le_rfl,working.fresh,fun _ _ => rfl⟩,fun after rest _ flow => flow⟩
  | file e clean rest ih =>
    have path := (fits e (by simp)).1.1
    have moved : Moved (basedir.length+1) w (runSegment sub basedir p w (.file e)) :=
      ⟨Nat.le_succ _,fun key pid held => Nat.lt_succ_of_lt (working.fresh key pid held),fun _ _ => rfl⟩
    obtain ⟨acts,grown,later,flow⟩ := ih (fun x mem => fits x (List.mem_cons_of_mem e mem)) (working.moved moved)
    refine ⟨.recipe w.forks (basedir ++ '/'::e) p.sourced :: acts,?_,moved.trans later le_rfl,?_⟩
    · rw [List.foldl_cons,grown]
      simp [runSegment,fork,World.act]
    · intro after rest ends flowing
      refine .call w.forks (fileKeyFile working.dir path clean) ?_ working.inside (flow after rest ends flowing)
      rw [configsAbove,dirsAboveJoin path.nonempty clean]
      exact working.sourced
  | @batch elms segs d rests name clean some ends rest ih =>
    obtain ⟨more,inside,moved,batch⟩ := follows (joinDir basedir d) rests opened _ _ some (fits.rests clean)
      (working.enters name clean)
    have longer := joinLonger basedir name.1
    have here : Moved (basedir.length+1) w (runSegment sub basedir p w (.batch d rests)) :=
      ⟨(Nat.le_succ _).trans moved.forks,moved.fresh,fun key short => moved.kept key (by omega)⟩
    obtain ⟨acts,grown,later,flow⟩ := ih fits.tail (working.moved here)
    refine ⟨more ++ acts,?_,here.trans later le_rfl,?_⟩
    · rw [List.foldl_cons,grown]
      simp only [runSegment,fork]
      rw [inside,List.append_assoc]
    · intro after rest' out flowing
      have names : (rests.map (fun r => d ++ '/'::r)).map (joinDir basedir) = rests.map (joinDir (joinDir basedir d)) := by
        simp [joinDir,name.1]
      rw [List.map_append,names,List.append_assoc,List.append_assoc]
      refine batch _ _ (fun id mem above => ?_) (flow after rest' out flowing)
      -- The next id is another element of the directory, or comes after its whole batch.
      cases elms with
      | nil => exact out id (by simpa using mem) (aboveJoin name.1 above)
      | cons e es =>
        simp only [List.map_cons,List.cons_append,List.head?_cons,Option.mem_some_iff] at mem
        subst mem
        exact rest.apart clean ends e (by simp) (aboveSibling name.1 above)

theorem Entering.withoutConfig (entering : Entering cases basedir opened p w) (none : hasConfig cases basedir = false) :
    Working cases basedir opened p w := by
  refine ⟨entering.dir,?_,entering.inside,entering.fresh,fun t mem => (entering.tmp t mem).1.le⟩
  rw [entering.sourced,configsAbove,List.filter_append]
  simp [none]

theorem Entering.recorded (entering : Entering cases basedir opened p w) (status : Nat) :
    Moved basedir.length w { w.act (.config p.pid basedir status) with
      pidFile := Function.update w.pidFile (fileKey basedir) (some p.pid) } := by
  refine ⟨le_rfl,fun key pid held => ?_,fun key short => Function.update_of_ne ?_ _ _⟩
  · change Function.update w.pidFile (fileKey basedir) (some p.pid) key = some pid at held
    by_cases here : key = fileKey basedir
    · rw [here,Function.update_self] at held
      rw [← Option.some.inj held]
      exact entering.old
    · rw [Function.update_of_ne here] at held
      exact entering.fresh key pid held
  · rintro rfl
    rw [fileKeyDir entering.dir] at short
    exact absurd short (lt_irrefl _)

theorem Entering.withConfig (entering : Entering cases basedir opened p w) (found : hasConfig cases basedir = true) :
    Working cases basedir ((p.pid,basedir)::opened) ⟨p.pid,p.sourced ++ [basedir],some basedir⟩
      { w.act (.config p.pid basedir 0) with
        pidFile := Function.update w.pidFile (fileKey basedir) (some p.pid) } := by
  refine ⟨entering.dir,?_,?_,(entering.recorded 0).fresh,fun t mem => ?_⟩
  · rw [entering.sourced,configsAbove,List.filter_append]
    simp [found]
  · rw [entering.inside]
    simp
  · cases Option.mem_some_iff.mp mem
    rw [fileKeyDir entering.dir]

theorem Entering.next (entering : Entering cases basedir opened p w) (found : hasConfig cases basedir = true)
    {elms : List Text} (paths : ∀ e ∈ elms, WalkPath e) (batch : elms ≠ [] ∨ basedir = [] ∧ opened = [])
    {after : List Text} (ends : ∀ id ∈ after.head?, ¬ Above basedir id) :
    Enters cases opened basedir (elms.map (joinDir basedir) ++ after) := by
  cases elms with
  | nil =>
    obtain ⟨top,outer⟩ := batch.resolve_left (fun some => some rfl)
    cases after with
    | nil => exact ⟨top,outer⟩
    | cons id after => exact absurd (.inl top) (ends id rfl)
  | cons e es =>
    have outer := (dirsAbovePrefix basedir (paths e (by simp)).1.nonempty).filter (hasConfig cases)
    rw [List.filter_append,List.filter_cons_of_pos found,List.filter_nil] at outer
    show (opened.map Prod.snd).reverse ++ [basedir] <+: configsAbove cases (joinDir basedir e)
    rw [← entering.inside,entering.sourced]
    exact outer

/- The `BASHPID` that this process sees is that of a directory further out. -/
theorem Entering.silent (entering : Entering cases basedir opened p w) {v : World} (moved : Moved (basedir.length+1) w v) :
    leaveDir p v = v := by
  unfold leaveDir
  cases tmp : p.tmp with
  | none => rfl
  | some t =>
    obtain ⟨short,other⟩ := entering.tmp t (by simp [tmp])
    simp only [moved.kept (fileKey t) (by omega),if_neg other]

/- The process that wrote `BASHPID` finds itself in it, whatever the batch has done. -/
theorem Entering.leaves (entering : Entering cases basedir opened p w) {v : World} {status : Nat}
    (moved : Moved (basedir.length+1) { w.act (.config p.pid basedir status) with
      pidFile := Function.update w.pidFile (fileKey basedir) (some p.pid) } v) (sourced : List Text) :
    leaveDir ⟨p.pid,sourced,some basedir⟩ v = v.act (.cleanup p.pid basedir sourced) := by
  have own : v.pidFile (fileKey basedir) = some p.pid := by
    rw [moved.kept _ (by rw [fileKeyDir entering.dir]; exact Nat.lt_succ_self _)]
    exact Function.update_self _ _ _
  simp [leaveDir,own]

theorem enterDirFollows {sub : Text → Process → World → World} (config : List Act → Text → Nat) {n : Nat}
    (follows : SubFollows cases sub n) {elms : List Text} (fits : Fits (n+1) elms)
    (batch : elms ≠ [] ∨ basedir = [] ∧ opened = []) (entering : Entering cases basedir opened p w) :
    ∃ acts, (enterDir cases config sub (recipeLine basedir elms) p w).acts = w.acts ++ acts ∧
      Moved basedir.length w (enterDir cases config sub (recipeLine basedir elms) p w) ∧
      Follows cases basedir opened (elms.map (joinDir basedir)) acts := by
  rw [enterDirLine cases config sub (dirChars entering.dir) fits.paths]
  have batches := segmentsBatches fits.paths
  cases found : hasConfig cases basedir with
  | false =>
    have missing : ¬ cases.isFile (fileKey (basedir ++ "/config".toList)) = true := ne_true_of_eq_false found
    rw [if_neg missing]
    obtain ⟨acts,grown,moved,flow⟩ := segmentsFollow follows batches fits (entering.withoutConfig found)
    rw [entering.silent moved]
    exact ⟨acts,grown,⟨moved.forks,moved.fresh,fun key short => moved.kept key (by omega)⟩,flow⟩
  | true =>
    have file : cases.isFile (fileKey (basedir ++ "/config".toList)) = true := found
    rw [if_pos file]
    by_cases ok : config w.acts basedir = 0
    · simp only [ok,ne_eq,not_true_eq_false,if_false]
      obtain ⟨acts,grown,moved,flow⟩ := segmentsFollow follows batches fits (entering.withConfig found)
      rw [entering.leaves moved]
      generalize (segments elms).foldl (runSegment sub basedir ⟨p.pid,p.sourced ++ [basedir],some basedir⟩) _ = v
        at grown moved
      refine ⟨.config p.pid basedir 0 :: (acts ++ [.cleanup p.pid basedir (p.sourced ++ [basedir])]),?_,?_,?_⟩
      · simp [World.act,grown]
      · have whole := (entering.recorded 0).trans moved (Nat.le_succ _)
        exact ⟨whole.forks,whole.fresh,whole.kept⟩
      · intro after rest ends flowing
        have inside : p.sourced ++ [basedir] = ((p.pid,basedir)::opened).reverse.map Prod.snd := by
          rw [entering.inside]
          simp
        have left := Workflow.leave inside ends flowing
        have next := entering.next found fits.paths batch ends
        simpa using Workflow.enter p.pid next (flow after _ ends left)
    · simp only [ne_eq,ok,not_false_eq_true,if_true]
      refine ⟨_,rfl,entering.recorded _,fun after rest ends flowing => ?_⟩
      refine .refuse p.pid ok (entering.next found fits.paths batch ends) (fun id mem => ?_) ends flowing
      obtain ⟨e,_,rfl⟩ := List.mem_map.mp mem
      exact aboveJoined basedir e

end Walk

theorem runRecipesFollow (cases : Cases) (config : List Act → Text → Nat) (fuel : Nat) :
    SubFollows cases (runRecipes cases config fuel) fuel := by
  induction fuel with
  | zero =>
    intro basedir elms opened p w some fits _
    obtain ⟨e,mem⟩ := List.exists_mem_of_ne_nil elms some
    exact absurd (fits e mem).2 (by omega)
  | succ fuel ih =>
    intro basedir elms opened p w some fits entering
    rw [runRecipesLine cases config fuel (dirChars entering.dir) fits.paths]
    exact enterDirFollows config ih fits (.inl some) entering

theorem startEntering (cases : Cases) : Entering cases [] [] .start .start :=
  ⟨.inl rfl,rfl,rfl,Nat.zero_lt_one,by simp [World.start],by simp [Process.start]⟩

theorem walkFollows (cases : Cases) (config : List Act → Text → Nat) {ids : List Text}
    (paths : ∀ id ∈ ids, WalkPath id) : Workflow cases [] ids (walk cases config ids) := by
  obtain ⟨acts,grown,_,flow⟩ := enterDirFollows config (runRecipesFollow cases config (walkArg ids).length)
    (walkFits paths) (.inr ⟨rfl,rfl⟩) (startEntering cases)
  have started := runRecipesArg cases config (walkArg ids).length paths .start .start
  rw [show walk cases config ids = _ from congrArg World.acts started,grown]
  have whole := flow [] [] (by simp) .done
  have same : ids.map (joinDir []) = ids := List.map_id'' (fun id => by simp [joinDir]) ids
  simpa [same,World.start] using whole

/-! ### Termination -/

theorem segmentsFuel {sub sub' : Text → Process → World → World} {n : Nat} {basedir : Text} (base : DirChars basedir)
    (same : ∀ dir rests p w, DirChars dir → rests ≠ [] → Fits n rests →
      sub (recipeLine dir rests) p w = sub' (recipeLine dir rests) p w)
    {elms : List Text} {segs : List Segment} (batches : Batches elms segs) (fits : Fits (n+1) elms) (p : Process)
    (w : World) : segs.foldl (runSegment sub basedir p) w = segs.foldl (runSegment sub' basedir p) w := by
  induction batches generalizing w with
  | nil => rfl
  | file e clean rest ih =>
    rw [List.foldl_cons,List.foldl_cons]
    exact ih (fun x mem => fits x (List.mem_cons_of_mem e mem)) _
  | batch d rests name clean some ends rest ih =>
    have first : runSegment sub basedir p w (.batch d rests) = runSegment sub' basedir p w (.batch d rests) :=
      same _ _ _ _ (base.join name) some (fits.rests clean)
    rw [List.foldl_cons,List.foldl_cons,first]
    exact ih fits.tail _

theorem enterDirFuel (cases : Cases) (config : List Act → Text → Nat) {sub sub' : Text → Process → World → World} {n : Nat}
    {basedir : Text} (base : DirChars basedir)
    (same : ∀ dir rests p w, DirChars dir → rests ≠ [] → Fits n rests →
      sub (recipeLine dir rests) p w = sub' (recipeLine dir rests) p w)
    {elms : List Text} (fits : Fits (n+1) elms) (p : Process) (w : World) :
    enterDir cases config sub (recipeLine basedir elms) p w = enterDir cases config sub' (recipeLine basedir elms) p w := by
  have batches := segmentsBatches fits.paths
  rw [enterDirLine cases config sub base fits.paths,enterDirLine cases config sub' base fits.paths]
  simp only [segmentsFuel base same batches fits]

theorem runRecipesFuel (cases : Cases) (config : List Act → Text → Nat) {n fuel : Nat} (enough : n ≤ fuel)
    {basedir : Text} (base : DirChars basedir) {elms : List Text} (some : elms ≠ []) (fits : Fits n elms) (p : Process)
    (w : World) : runRecipes cases config fuel (recipeLine basedir elms) p w =
      runRecipes cases config n (recipeLine basedir elms) p w := by
  induction n generalizing fuel basedir elms p w with
  | zero =>
    obtain ⟨e,mem⟩ := List.exists_mem_of_ne_nil elms some
    exact absurd (fits e mem).2 (by omega)
  | succ n ih =>
    obtain ⟨m,rfl⟩ : ∃ m, fuel = m+1 := ⟨fuel-1,by omega⟩
    rw [runRecipesLine cases config m base fits.paths,runRecipesLine cases config n base fits.paths]
    exact enterDirFuel cases config base
      (fun dir rests p w base some fits => ih (by omega) base some fits p w) fits p w

theorem walkTerminates (cases : Cases) (config : List Act → Text → Nat) {ids : List Text}
    (paths : ∀ id ∈ ids, WalkPath id) {fuel : Nat} (enough : (walkArg ids).length < fuel) :
    runRecipes cases config fuel (walkArg ids) .start .start =
      runRecipes cases config ((walkArg ids).length + 1) (walkArg ids) .start .start := by
  obtain ⟨m,rfl⟩ : ∃ m, fuel = m+1 := ⟨fuel-1,by omega⟩
  have top : DirChars [] := by simp [DirChars]
  rw [runRecipesArg cases config m paths,runRecipesArg cases config _ paths]
  exact enterDirFuel cases config top
    (fun dir rests p w base some fits => runRecipesFuel cases config (by omega) base some fits p w) (walkFits paths) _ _

/-! ### Hierarchical execution -/

/-- `run_recipes` comes to an end (a greater depth of calls leaves the same world), and what it
does is a workflow over all ids. -/
def Hierarchical (cases : Cases) (config : List Act → Text → Nat) (ids : List Text) : Prop :=
  (∀ fuel > (walkArg ids).length, runRecipes cases config fuel (walkArg ids) .start .start =
    runRecipes cases config ((walkArg ids).length + 1) (walkArg ids) .start .start) ∧
  Workflow cases [] ids (walk cases config ids)

def Called (acts : List Act) (id : Text) : Prop := ∃ pid name sourced, .recipe pid name sourced ∈ acts ∧ fileKey name = id

theorem reachesCons (a : Act) {acts : List Act} {id : Text} (reached : Called acts id ∨ FailedAbove acts id) :
    Called (a::acts) id ∨ FailedAbove (a::acts) id := by
  rcases reached with ⟨pid,name,sourced,mem,named⟩ | failed
  · exact .inl ⟨pid,name,sourced,List.mem_cons_of_mem a mem,named⟩
  · exact .inr (failed.mono (fun _ mem => List.mem_cons_of_mem a mem))

theorem Workflow.reaches {cases : Cases} {opened : List (Nat × Text)} {todo : List Text} {acts : List Act}
    (flow : Workflow cases opened todo acts) {id : Text} (mem : id ∈ todo) : Called acts id ∨ FailedAbove acts id := by
  induction flow with
  | done => contradiction
  | call pid named configs inside rest ih =>
    rcases List.mem_cons.mp mem with rfl | mem
    · exact .inl ⟨_,_,_,List.mem_cons_self,named⟩
    · exact reachesCons _ (ih mem)
  | enter pid next rest ih => exact reachesCons _ (ih mem)
  | refuse pid failed next below ends rest ih =>
    rcases List.mem_append.mp mem with batch | later
    · exact .inr ⟨_,_,_,List.mem_cons_self,failed,below _ batch⟩
    · exact reachesCons _ (ih later)
  | leave inside ends rest ih => exact reachesCons _ (ih mem)

theorem squeezeFile (b : Text) {e : Text} (clean : '/' ∉ e) : ∃ a, squeeze (b ++ '/'::e) = a ++ '/'::e := by
  induction b with
  | nil =>
    have tight : ∀ c cs, e = c::cs → ¬ ('/' = '/' ∧ c = '/') := by
      rintro c cs rfl ⟨_,rfl⟩
      exact clean (by simp)
    have rest : squeeze e = e := squeezeTight (by simp [splitClean clean])
    refine ⟨[],?_⟩
    cases e with
    | nil => rfl
    | cons c cs => rw [List.nil_append,squeeze,if_neg (tight c cs rfl),rest]
  | cons c cs ih =>
    obtain ⟨a,ih⟩ := ih
    cases more : cs ++ '/'::e with
    | nil => simp at more
    | cons d ds =>
      rw [more] at ih
      rw [List.cons_append,more,squeeze,ih]
      split
      · exact ⟨a,rfl⟩
      · exact ⟨c::a,rfl⟩

theorem fileNameKey (b : Text) {e : Text} (clean : '/' ∉ e) : fileName (fileKey (b ++ '/'::e)) = e := by
  obtain ⟨a,squeezed⟩ := squeezeFile ('/'::b) clean
  rw [fileKey,← List.cons_append,squeezed]
  cases a with
  | nil => exact fileNameClean clean
  | cons c cs => rw [List.cons_append,List.tail_cons,fileNameAppend,fileNameClean clean]

/- A file that `run_recipe` is called for is one whose name `echo` prints. -/
theorem calledEchoes {cases : Cases} {config : List Act → Text → Nat} {ids : List Text} {id : Text} (path : IdPath id)
    (called : Called (walk cases config ids) id) : Echoes id := by
  obtain ⟨pid,name,sourced,mem,named⟩ := called
  have makes : Makes config (fun a => ∀ pid name sourced, a = .recipe pid name sourced →
      ∃ dir e, name = dir ++ '/'::e ∧ e = cutFirst '/' (echoWord e)) :=
    ⟨by simp,fun pid dir e sourced file _ _ _ same => by cases same; exact ⟨dir,e,rfl,file⟩,by simp⟩
  obtain ⟨dir,e,rfl,file⟩ := walkOk cases makes ids _ mem pid name sourced rfl
  have clean : '/' ∉ e := by
    intro slash
    rw [file] at slash
    have other := List.all_eq_true.mp List.all_takeWhile '/' slash
    simp at other
  have last : fileName id = e := by rw [← named,fileNameKey dir clean]
  rw [Echoes,last]
  cases option : echoOption e with
  | false => rfl
  | true =>
    -- `echo` prints nothing for the name, and the empty text names no file.
    rw [echoWord,if_pos option] at file
    have none : fileName id = [] := last.trans file
    exact absurd none (path _ (fileNameMem id)).1

theorem hierarchicalIff (cases : Cases) {ids : List Text} (paths : ∀ id ∈ ids, IdPath id) :
    (∀ config, Hierarchical cases config ids) ↔ ∀ id ∈ ids, Echoes id := by
  constructor
  · intro holds id mem
    rcases (holds (fun _ _ => 0)).2.reaches mem with called | failed
    · exact calledEchoes (paths id mem) called
    · exact absurd failed ((walkConfigured cases _ ids).entered (fun _ _ _ => rfl))
  · intro echoes config
    have walked : ∀ id ∈ ids, WalkPath id := fun id mem => ⟨paths id mem,echoes id mem⟩
    exact ⟨fun fuel enough => walkTerminates cases config walked enough,walkFollows cases config walked⟩

theorem hierarchicalTwoDirs :
    Hierarchical [⟨"d/config".toList,[]⟩] (fun _ _ => 0) ["d/a".toList,"d/e/b".toList,"c".toList] :=
  (hierarchicalIff [⟨"d/config".toList,[]⟩] (by decide)).mpr (by decide) _

theorem optionNameNotCalled : IdPath "-n".toList ∧ ¬ Hierarchical [] (fun _ _ => 0) ["-n".toList] := by
  refine ⟨by decide,fun holds => ?_⟩
  have nothing : walk [] (fun _ _ => 0) ["-n".toList] = [] := by decide
  have reached := holds.2.reaches (List.mem_singleton_self _)
  rw [nothing] at reached
  rcases reached with ⟨_,_,_,mem,_⟩ | ⟨_,_,_,mem,_⟩
  · exact List.not_mem_nil mem
  · exact List.not_mem_nil mem

end MmRegression
