import MmRegression.Fields
import MmRegression.Interaction

/-! The `run` command of `run_full.sh`. What it does outside itself is asked of the surroundings: the host,
the guest `$VM` and the files of both, which may answer in any way. Words of the run order and of the
options hold no pattern characters. -/
namespace MmRegression.RunFull

open Interaction

/- The lines that the command prints, the tools' own output apart. -/
inductive Message where
  | stoppedAfter (vm : Text)
  | undefinedSubproject (spj : Text)
  | subproject (spj : Text) (kvm : Bool)
  | validating (pj : Text)
  | irrelevant
  | skipped (spj : Text)
  | projectRun (options : List Text) (pj : Text)
  | onHost (spj : Text)
  | finished (spj : Text)
  | onGuest (spj vm : Text)
  | reported (out : Text)
  | ssh (vm command : Text)
  | stoppedForcibly (vm : Text)
  deriving DecidableEq, Repr

def joined (options : List Text) : Text := List.intercalate [' '] options

def runCommand (options : List Text) (pj : Text) : Text :=
  "run.sh project run ".toList ++ joined options ++ ' '::pj

def Message.text : Message → Text
  | .stoppedAfter vm => '['::vm ++ "] VM stopped after finishing unstable subproject.".toList
  | .undefinedSubproject spj => "Undefined subproject '".toList ++ spj ++ "', skipped".toList
  | .subproject spj kvm => "subproject:".toList ++ spj ++ ", cmds:".toList ++ (if kvm then "kvm".toList else [])
  | .validating pj => "validate recipelist for ".toList ++ pj
  | .irrelevant => "WARNING: recipefile contains irrelevant (not a recipe) line, so removed it.".toList
  | .skipped spj => "KVM-related testset ".toList ++ spj ++ " is skipped when VM= is not set.".toList
  | .projectRun options pj => "bash ".toList ++ runCommand options pj
  | .onHost spj => "Running testset \"".toList ++ spj ++ "\" on the host server.".toList
  | .finished spj => "Subproject ".toList ++ spj ++ " finished.".toList
  | .onGuest spj vm => "Running testset ".toList ++ spj ++ " on the guest ".toList ++ vm
  | .reported out => "Finished: ".toList ++ out
  | .ssh vm command => "ssh -t ".toList ++ vm ++ ' '::command
  | .stoppedForcibly vm => '['::vm ++ "] VM stopped forcibly".toList

inductive Ask where
  | echo (m : Message)
  | sleep (seconds : Nat)
  | isDir (path : Text)
  | recipelist (pj : Text)
  | writeRecipelist (pj : Text) (lines : List Text)
  | vmFile (projbase : Text)
  | pmemdev (vm : Text)
  | vmStartWait (vm : Text)
  | vmShutdownWait (vm : Text)
  | connectable (vm : Text)
  | rsync (vm projbase : Text)
  | checkFinished (pj : Text)
  | projectRun (options : List Text) (pj : Text)
  | sshRun (vm command : Text)
  deriving DecidableEq, Repr

abbrev Answer : Ask → Type
  | .isDir _ => Bool
  | .recipelist _ => Option (List Text)
  | .vmFile _ => Option Text
  | .pmemdev _ => Text
  | .connectable _ => Bool
  | .checkFinished _ => Text
  | _ => Unit

abbrev Script := Prog Answer

def query (q : Ask) : Script (Answer q) := ask q

/- `$VM` is the one that `check_and_set_env_vm` has left, empty when there is none. -/
structure Config where
  projbase : Text
  vm : Text
  options : List Text
  stapDir : Text
  pmemdev : Text

def Config.pj (cfg : Config) (spj : Text) : Text := cfg.projbase ++ '/'::spj

def Config.command (cfg : Config) (spj : Text) : Text :=
  "REBOOTABLE=true STAP_DIR=".toList ++ cfg.stapDir ++ " PMEMDEV=".toList ++ cfg.pmemdev ++
    " bash mm_regression/".toList ++ runCommand cfg.options (cfg.pj spj)

def done : Text := "DONE".toList
def notDone : Text := "NOTDONE".toList

/- `$FINISHED`, which is not set before the first line, and `$again`. -/
structure Vars where
  finished : Bool
  again : Bool
  deriving DecidableEq, Repr

structure Line where
  spj : Text
  kvm : Bool
  finished : Bool
  deriving DecidableEq, Repr

def tokens (line : Text) : List Text := words ((echoWord line).map (fun c => if c = ',' then ' ' else c))

section
variable (cfg : Config)

def validateRecipelist (spj : Text) : Script Unit := do
  let file : Option (List Text) ← query (.recipelist (cfg.pj spj))
  let lines := file.getD []
  if lines.any (fun line => line.contains ' ') then
    query (.echo .irrelevant)
    query (.writeRecipelist (cfg.pj spj) (lines.filter (fun line => !line.contains ' ')))

def readToken (l : Line) (tmp : Text) : Script Line := do
  if tmp = "reboot".toList then
    if l.finished && cfg.vm ≠ [] then
      query (.echo (.stoppedAfter cfg.vm))
      query (.vmShutdownWait cfg.vm)
      query (.sleep 5)
      return { l with finished := false }
    else return l
  else if tmp = "needvm".toList then return { l with kvm := true }
  else
    let dir : Bool ← query (.isDir ("work/".toList ++ cfg.pj tmp))
    if dir then return { l with spj := tmp }
    else
      query (.echo (.undefinedSubproject tmp))
      return { l with spj := [] }

def projectRun (spj : Text) : Script Unit := do
  query (.echo (.projectRun cfg.options (cfg.pj spj)))
  query (.projectRun cfg.options (cfg.pj spj))

def finishing (spj before after : Text) (s : Vars) : Script Vars := do
  if before = notDone ∧ after = done then
    query (.echo (.finished spj))
    return { s with finished := true }
  else return s

def sshRun (spj : Text) : Script Unit := do
  query (.echo (.ssh cfg.vm (cfg.command spj)))
  query (.sshRun cfg.vm (cfg.command spj))
  let connectable : Bool ← query (.connectable cfg.vm)
  if !connectable then
    query (.echo (.stoppedForcibly cfg.vm))
    query (.vmShutdownWait cfg.vm)
    query (.sleep 5)

/- `while [ "$count" -gt 0 ]`; what is left of `$again` comes back. -/
def guestLoop (spj : Text) : Nat → Bool → Script Bool
  | 0, again => return again
  | count+1, again => do
      query (.vmStartWait cfg.vm)
      query (.sleep 5)
      query (.echo (.onGuest spj cfg.vm))
      query (.rsync cfg.vm cfg.projbase)
      if again then
        sshRun cfg spj
        guestLoop spj count false
      else
        let finished : Text ← query (.checkFinished (cfg.pj spj))
        query (.echo (.reported finished))
        if finished = done then return again
        else
          sshRun cfg spj
          guestLoop spj count again

def runOnHost (spj : Text) (s : Vars) : Script Vars := do
  let before : Text ← query (.checkFinished (cfg.pj spj))
  query (.echo (.onHost spj))
  projectRun cfg spj
  let after : Text ← query (.checkFinished (cfg.pj spj))
  finishing spj before after s

def runOnGuest (spj : Text) (s : Vars) : Script Vars := do
  let before : Text ← query (.checkFinished (cfg.pj spj))
  let again ← guestLoop cfg spj 3 s.again
  query (.rsync cfg.vm cfg.projbase)
  let after : Text ← query (.checkFinished (cfg.pj spj))
  finishing spj before after { s with again := again }

def runSubproject (l : Line) (s : Vars) : Script Vars := do
  query (.echo (.subproject l.spj l.kvm))
  query (.echo (.validating (cfg.pj l.spj)))
  validateRecipelist cfg l.spj
  if cfg.vm = [] then
    if l.kvm then query (.echo (.skipped l.spj))
    else projectRun cfg l.spj
    return s
  else
    query (.vmStartWait cfg.vm)
    if l.kvm then runOnHost cfg l.spj s else runOnGuest cfg l.spj s

def runLine (s : Vars) (line : Text) : Script Vars := do
  let l ← (tokens line).foldlM (readToken cfg) ⟨[],false,s.finished⟩
  if l.spj = [] then return { s with finished := l.finished }
  else runSubproject cfg l { s with finished := l.finished }

def runLines (order : Text) (s : Vars) : Script Vars := (words order).foldlM (runLine cfg) s

end

/- The backslash of `^VM=\S` is the shell's, so `grep` looks for a capital S. -/
def checkAndSetEnvVm (projbase vm : Text) : Script Text := do
  if startsWith "S".toList vm then return vm
  else
    let file : Option Text ← query (.vmFile projbase)
    return file.getD []

structure Invocation where
  projbase : Text
  order : Text
  options : List Text
  vm : Text
  stapDir : Text
  pmemdev : Text
  deriving DecidableEq, Repr

def Invocation.again (i : Invocation) : Bool := i.options.any (fun opt => opt = "-a".toList)

def settings (i : Invocation) : Script Config := do
  let pmemdev ← if i.vm = [] then pure i.pmemdev else do
    query (.vmStartWait i.vm)
    query (.pmemdev i.vm)
  let vm ← checkAndSetEnvVm i.projbase i.vm
  return ⟨i.projbase,vm,i.options,i.stapDir,pmemdev⟩

def run (i : Invocation) : Script Vars := do
  let cfg ← settings i
  runLines cfg i.order ⟨false,i.again⟩

/-! ### What the record shows -/

def Ask.startsGuest : Ask → Bool
  | .sshRun .. => true
  | _ => false

def Ask.marks : Ask → Bool
  | .echo (.finished _) => true
  | .echo (.stoppedAfter _) => true
  | _ => false

def Ask.plain (q : Ask) : Bool := !q.marks

def Ask.calm : Ask → Bool
  | .sshRun .. => false
  | .projectRun .. => false
  | q => q.plain

def Ask.silent : Ask → Bool
  | .echo _ => true
  | _ => false

abbrev Log := Record Answer

/- A subproject was reported to be finished after the last stop for one. -/
def NewlyFinished (log : Log) : Prop :=
  ∃ pre spj post, log = pre ++ ⟨.echo (.finished spj),()⟩::post ∧ ∀ e ∈ post, e.1.marks = false

/- The files of the guest were fetched and say that the subproject is not done. -/
def CheckedUndone (cfg : Config) (spj : Text) (pre : Log) : Prop :=
  ∃ front out, pre.filter (fun e => !e.1.silent) =
    front ++ [⟨.rsync cfg.vm cfg.projbase,()⟩,⟨.checkFinished (cfg.pj spj),out⟩] ∧ out ≠ done

/- A line of the run order names the subproject, and its directory was there. -/
structure Named (cfg : Config) (order : Text) (kvm : Bool) (spj : Text) (pre : Log) : Prop where
  line : ∃ line ∈ words order, spj ∈ tokens line ∧ (kvm = true ↔ "needvm".toList ∈ tokens line)
  dir : ⟨.isDir ("work/".toList ++ cfg.pj spj),true⟩ ∈ pre

def Allowed (cfg : Config) (order : Text) (again : Bool) (pre : Log) (e : (q : Ask) × Answer q) : Prop :=
  match e.1 with
  | .sshRun vm command => vm = cfg.vm ∧ cfg.vm ≠ [] ∧ ∃ spj, command = cfg.command spj ∧
      Named cfg order false spj pre ∧
      (again = true ∧ (∀ d ∈ pre, d.1.startsGuest = false) ∨ CheckedUndone cfg spj pre)
  | .projectRun options pj => options = cfg.options ∧ ∃ spj kvm, pj = cfg.pj spj ∧ Named cfg order kvm spj pre ∧
      (kvm = true ↔ cfg.vm ≠ [])
  | .echo (.stoppedAfter vm) => vm = cfg.vm ∧ cfg.vm ≠ [] ∧ NewlyFinished pre
  | .echo (.finished spj) => ∃ front middle, (∀ d ∈ middle, d.1.marks = false) ∧ pre =
      front ++ ⟨.checkFinished (cfg.pj spj),notDone⟩::middle ++ [⟨.checkFinished (cfg.pj spj),done⟩]
  | _ => True

theorem newlyFinishedSnoc {log : Log} {q : Ask} {r : Answer q} :
    NewlyFinished (log ++ [⟨q,r⟩]) ↔ (∃ spj, q = .echo (.finished spj)) ∨ q.marks = false ∧ NewlyFinished log := by
  constructor
  · rintro ⟨pre,spj,post,parts,quiet⟩
    rcases List.eq_nil_or_concat post with rfl | ⟨front,e,rfl⟩
    · obtain ⟨_,same⟩ := List.append_inj' parts rfl
      exact .inl ⟨spj,congrArg Sigma.fst (List.singleton_inj.mp same)⟩
    · rw [List.concat_eq_append,← List.cons_append,← List.append_assoc] at parts
      obtain ⟨rfl,same⟩ := List.append_inj' parts rfl
      cases List.singleton_inj.mp same
      exact .inr ⟨quiet ⟨q,r⟩ (by simp),pre,spj,front,rfl,fun e mem => quiet e (by simp [mem])⟩
  · rintro (⟨spj,rfl⟩ | ⟨unmarked,pre,spj,post,rfl,quiet⟩)
    · exact ⟨log,spj,[],rfl,by simp⟩
    · refine ⟨pre,spj,post ++ [⟨q,r⟩],by simp,fun e mem => ?_⟩
      rcases List.mem_append.mp mem with mem | mem
      · exact quiet e mem
      · cases List.mem_singleton.mp mem
        exact unmarked

theorem newlyFinishedNil : ¬NewlyFinished [] := by
  rintro ⟨pre,spj,post,parts,_⟩
  simp at parts

theorem allowedCalm {cfg : Config} {order : Text} {again : Bool} {pre : Log} {q : Ask} (r : Answer q)
    (calm : q.calm = true) : Allowed cfg order again pre ⟨q,r⟩ := by
  cases q with
  | echo m => cases m <;> trivial
  | sshRun vm command => simp [Ask.calm] at calm
  | projectRun options pj => simp [Ask.calm] at calm
  | _ => trivial

theorem calmStarts {q : Ask} (calm : q.calm = true) : q.startsGuest = false := by
  cases q <;> first | rfl | simp [Ask.calm] at calm

theorem calmMarks {q : Ask} (calm : q.calm = true) : q.marks = false := by
  cases q <;> first | rfl | simpa [Ask.calm,Ask.plain] using calm

theorem notFinished {q : Ask} (unmarked : q.marks = false) (spj : Text) : q ≠ .echo (.finished spj) := by
  rintro rfl
  simp [Ask.marks] at unmarked

structure Inv (cfg : Config) (order : Text) (first : Bool) (log : Log) (s : Vars) : Prop where
  each : Each (Allowed cfg order first) log
  again : s.again = true → first = true ∧ ∀ d ∈ log, d.1.startsGuest = false
  finished : s.finished = true ↔ NewlyFinished log

section
variable {cfg : Config} {order : Text} {first : Bool} {log past : Log} {s : Vars} {spj : Text} {kvm : Bool}

theorem Inv.snoc (inv : Inv cfg order first log s) {q : Ask} (r : Answer q)
    (allowed : Allowed cfg order first log ⟨q,r⟩) (starts : q.startsGuest = true → s.again = false)
    (unmarked : q.marks = false) : Inv cfg order first (log ++ [⟨q,r⟩]) s := by
  refine ⟨eachSnoc.mpr ⟨inv.each,allowed⟩,fun again => ?_,?_⟩
  · refine ⟨(inv.again again).1,fun d mem => ?_⟩
    rcases List.mem_append.mp mem with mem | mem
    · exact (inv.again again).2 d mem
    · cases List.mem_singleton.mp mem
      refine Bool.eq_false_iff.mpr fun start => ?_
      rw [starts start] at again
      contradiction
  · rw [inv.finished,newlyFinishedSnoc]
    constructor
    · exact fun here => .inr ⟨unmarked,here⟩
    · rintro (⟨spj,same⟩ | ⟨_,here⟩)
      · exact absurd same (notFinished unmarked spj)
      · exact here

theorem Inv.calm (inv : Inv cfg order first log s) {q : Ask} (r : Answer q) (calm : q.calm = true) :
    Inv cfg order first (log ++ [⟨q,r⟩]) s := by
  refine inv.snoc r (allowedCalm r calm) (fun start => ?_) (calmMarks calm)
  rw [calmStarts calm] at start
  contradiction

theorem Inv.adds (inv : Inv cfg order first past s) (adds : Adds Ask.calm past log) : Inv cfg order first log s :=
  addsKeeps (fun log => Inv cfg order first log s) (fun _ _ r calm inv => inv.calm r calm) adds inv

theorem Named.append (named : Named cfg order kvm spj past) (new : Log) : Named cfg order kvm spj (past ++ new) :=
  ⟨named.line,List.mem_append_left _ named.dir⟩

theorem validateCalm (cfg : Config) (spj : Text) : Asks Ask.calm (validateRecipelist cfg spj) := by
  refine asksAskBind.mpr ⟨rfl,fun file => ?_⟩
  dsimp only
  split
  · exact ⟨rfl,fun _ => ⟨rfl,fun _ => asksPure⟩⟩
  · exact asksPure

/- What the tokens of a line up to some token have left. -/
structure LineInv (cfg : Config) (order : Text) (first again : Bool) (passed : List Text) (log : Log) (l : Line) :
    Prop where
  inv : Inv cfg order first log ⟨l.finished,again⟩
  kvm : l.kvm = true ↔ "needvm".toList ∈ passed
  spj : l.spj = [] ∨ l.spj ∈ passed ∧ ⟨.isDir ("work/".toList ++ cfg.pj l.spj),true⟩ ∈ log

theorem readTokenInv {again : Bool} {passed : List Text} {l : Line} (tmp : Text)
    (here : LineInv cfg order first again passed past l) :
    Ensures past (readToken cfg l tmp) (LineInv cfg order first again (passed ++ [tmp])) := by
  have kept : "needvm".toList ≠ tmp → (l.kvm = true ↔ "needvm".toList ∈ passed ++ [tmp]) := by
    intro other
    rw [here.kvm,List.mem_append,List.mem_singleton,or_iff_left other]
  have listed : l.spj = [] ∨ l.spj ∈ passed ++ [tmp] ∧ ⟨.isDir ("work/".toList ++ cfg.pj l.spj),true⟩ ∈ past :=
    here.spj.imp id (fun both => ⟨List.mem_append_left _ both.1,both.2⟩)
  unfold readToken
  split
  · rename_i reboot
    have other : "needvm".toList ≠ tmp := by
      rw [reboot]
      decide
    split
    · rename_i stops
      simp only [Bool.and_eq_true,decide_eq_true_eq] at stops
      simp only [query,ensuresBind,ensuresAsk,ensuresPure]
      intro _ _ _
      have stopped : Inv cfg order first (past ++ [⟨.echo (.stoppedAfter cfg.vm),()⟩]) ⟨false,again⟩ := by
        refine ⟨eachSnoc.mpr ⟨here.inv.each,rfl,stops.2,here.inv.finished.mp stops.1⟩,fun on => ?_,?_⟩
        · refine ⟨(here.inv.again on).1,fun d mem => ?_⟩
          rcases List.mem_append.mp mem with mem | mem
          · exact (here.inv.again on).2 d mem
          · cases List.mem_singleton.mp mem
            rfl
        · rw [newlyFinishedSnoc]
          simp [Ask.marks]
      refine ⟨(stopped.calm _ rfl).calm _ rfl,kept other,listed.imp id (fun both => ⟨both.1,?_⟩)⟩
      exact List.mem_append_left _ (List.mem_append_left _ (List.mem_append_left _ both.2))
    · exact ⟨here.inv,kept other,listed⟩
  · split
    · rename_i needvm
      exact ⟨here.inv,by simp [needvm],listed⟩
    · rename_i other
      simp only [query,ensuresBind,ensuresAsk]
      intro dir
      split
      · rename_i there
        rw [show dir = true from there]
        exact ⟨here.inv.calm _ rfl,kept (Ne.symm other),.inr ⟨by simp,by simp⟩⟩
      · simp only [ensuresBind,ensuresAsk,ensuresPure]
        exact fun _ => ⟨(here.inv.calm _ rfl).calm _ rfl,kept (Ne.symm other),.inl rfl⟩

theorem projectRunInv (inv : Inv cfg order first past s) (named : Named cfg order kvm spj past)
    (placed : kvm = true ↔ cfg.vm ≠ []) :
    Ensures past (projectRun cfg spj) (fun log _ => Inv cfg order first log s) := by
  simp only [projectRun,query,ensuresBind,ensuresAsk]
  intro _ _
  refine (inv.calm _ rfl).snoc _ ⟨rfl,spj,kvm,rfl,named.append _,placed⟩ ?_ rfl
  exact fun start => by contradiction

theorem finishingInv {before after : Text} {front middle : Log} (inv : Inv cfg order first past s)
    (parts : past = front ++ ⟨.checkFinished (cfg.pj spj),before⟩::middle ++ [⟨.checkFinished (cfg.pj spj),after⟩])
    (quiet : ∀ d ∈ middle, d.1.marks = false) :
    Ensures past (finishing spj before after s) (Inv cfg order first) := by
  unfold finishing
  split
  · rename_i both
    obtain ⟨rfl,rfl⟩ := both
    simp only [query,ensuresBind,ensuresAsk,ensuresPure]
    intro _
    refine ⟨eachSnoc.mpr ⟨inv.each,front,middle,quiet,parts⟩,fun again => ?_,?_⟩
    · refine ⟨(inv.again again).1,fun d mem => ?_⟩
      rcases List.mem_append.mp mem with mem | mem
      · exact (inv.again again).2 d mem
      · cases List.mem_singleton.mp mem
        rfl
    · rw [newlyFinishedSnoc]
      exact ⟨fun _ => .inl ⟨spj,rfl⟩,fun _ => rfl⟩
  · exact inv

theorem sshRunInv (inv : Inv cfg order first past s) (vm : cfg.vm ≠ []) (named : Named cfg order false spj past)
    (may : s.again = true ∨ CheckedUndone cfg spj past) :
    Ensures past (sshRun cfg spj) (fun log _ => Inv cfg order first log { s with again := false }) := by
  have echoed : Inv cfg order first (past ++ [⟨.echo (.ssh cfg.vm (cfg.command spj)),()⟩]) s := inv.calm _ rfl
  have started : Inv cfg order first (past ++ [⟨.echo (.ssh cfg.vm (cfg.command spj)),()⟩] ++
      [⟨.sshRun cfg.vm (cfg.command spj),()⟩]) { s with again := false } := by
    have off : Inv cfg order first (past ++ [⟨.echo (.ssh cfg.vm (cfg.command spj)),()⟩]) { s with again := false } :=
      ⟨echoed.each,fun on => by contradiction,echoed.finished⟩
    refine off.snoc _ ⟨rfl,vm,spj,rfl,named.append _,?_⟩ (fun _ => rfl) rfl
    rcases may with again | ⟨front,out,parts,undone⟩
    · exact .inl (echoed.again again)
    · refine .inr ⟨front,out,?_,undone⟩
      rw [List.filter_append,parts]
      simp [Ask.silent]
  simp only [sshRun,query,ensuresBind,ensuresAsk]
  intro _ _ connectable
  split
  · simp only [ensuresBind,ensuresAsk]
    exact fun _ _ _ => (((started.calm _ rfl).calm _ rfl).calm _ rfl).calm _ rfl
  · exact started.calm _ rfl

/- No report of an end and no stop for one was added. -/
abbrev Unmarked (past log : Log) : Prop := Adds Ask.plain past log

theorem sshRunPlain (cfg : Config) (spj : Text) : Asks Ask.plain (sshRun cfg spj) := by
  refine asksAskBind.mpr ⟨rfl,fun _ => asksAskBind.mpr ⟨rfl,fun _ => asksAskBind.mpr ⟨rfl,fun connectable => ?_⟩⟩⟩
  split
  · exact ⟨rfl,fun _ => ⟨rfl,fun _ => ⟨rfl,fun _ => asksPure⟩⟩⟩
  · exact asksPure

theorem sshRunStep (inv : Inv cfg order first past s) (vm : cfg.vm ≠ []) (named : Named cfg order false spj past)
    (may : s.again = true ∨ CheckedUndone cfg spj past) :
    Ensures past (sshRun cfg spj) (fun log _ => Inv cfg order first log { s with again := false } ∧
      Unmarked past log ∧ Named cfg order false spj log) := by
  refine ensuresMono (fun log _ both => ⟨both.1,both.2,?_⟩)
    (ensuresAnd.mpr ⟨sshRunInv inv vm named may,asksAdds (sshRunPlain cfg spj)⟩)
  obtain ⟨new,rfl,_⟩ := both.2
  exact named.append new

theorem guestLoopInv (count : Nat) (inv : Inv cfg order first past s) (vm : cfg.vm ≠ [])
    (named : Named cfg order false spj past) : Ensures past (guestLoop cfg spj count s.again)
      (fun log again => Inv cfg order first log { s with again := again } ∧ Unmarked past log) := by
  induction count generalizing past s with
  | zero => exact ⟨inv,addsRefl⟩
  | succ count ih =>
    simp only [guestLoop,query,ensuresBind,ensuresAsk]
    intro _ _ _ _
    have opened : Inv cfg order first (past ++ [⟨.vmStartWait cfg.vm,()⟩] ++ [⟨.sleep 5,()⟩] ++
        [⟨.echo (.onGuest spj cfg.vm),()⟩] ++ [⟨.rsync cfg.vm cfg.projbase,()⟩]) s :=
      (((inv.calm _ rfl).calm _ rfl).calm _ rfl).calm _ rfl
    have plain : Unmarked past (past ++ [⟨.vmStartWait cfg.vm,()⟩] ++ [⟨.sleep 5,()⟩] ++
        [⟨.echo (.onGuest spj cfg.vm),()⟩] ++ [⟨.rsync cfg.vm cfg.projbase,()⟩]) :=
      addsSnoc _ rfl (addsSnoc _ rfl (addsSnoc _ rfl (addsSnoc _ rfl addsRefl)))
    have there := (((named.append [⟨.vmStartWait cfg.vm,()⟩]).append [⟨.sleep 5,()⟩]).append
      [⟨.echo (.onGuest spj cfg.vm),()⟩]).append [⟨.rsync cfg.vm cfg.projbase,()⟩]
    have rest : ∀ again, ∀ log, Inv cfg order first log { s with again := again } ∧ Unmarked past log ∧
        Named cfg order false spj log → Ensures log (guestLoop cfg spj count again)
          (fun log again => Inv cfg order first log { s with again := again } ∧ Unmarked past log) := by
      rintro again log ⟨inv,plain,named⟩
      exact ensuresMono (fun _ _ both => ⟨both.1,addsTrans plain both.2⟩) (ih inv named)
    split
    · rename_i on
      refine ensuresBind.mpr (ensuresMono (fun log _ all => rest false log ?_) (sshRunStep opened vm there (.inl on)))
      exact ⟨all.1,addsTrans plain all.2.1,all.2.2⟩
    · rename_i on
      have off : s.again = false := Bool.eq_false_iff.mpr on
      simp only [ensuresBind,ensuresAsk]
      intro out _
      split
      · exact ⟨(opened.calm _ rfl).calm _ rfl,addsSnoc _ rfl (addsSnoc _ rfl plain)⟩
      · rename_i undone
        refine ensuresBind.mpr (ensuresMono (fun log _ all => ?_) (sshRunStep ((opened.calm _ rfl).calm _ rfl) vm
          ((there.append _).append _) (.inr ⟨past.filter (fun e => !e.1.silent) ++ [⟨.vmStartWait cfg.vm,()⟩] ++
            [⟨.sleep 5,()⟩],out,?_,undone⟩)))
        · rw [off]
          exact rest false log ⟨all.1,addsTrans (addsSnoc _ rfl (addsSnoc _ rfl plain)) all.2.1,all.2.2⟩
        · simp [Ask.silent]

theorem unmarkedParts {pre log : Log} {pj before : Text} (after : Text)
    (plain : Unmarked (pre ++ [⟨.checkFinished pj,before⟩]) log) : ∃ middle : Log, (∀ d ∈ middle, d.1.marks = false) ∧
      log ++ [⟨.checkFinished pj,after⟩] =
        pre ++ ⟨.checkFinished pj,before⟩::middle ++ [⟨.checkFinished pj,after⟩] := by
  obtain ⟨middle,rfl,quiet⟩ := plain
  exact ⟨middle,fun d mem => by simpa [Ask.plain] using quiet d mem,by simp⟩

theorem projectRunPlain (cfg : Config) (spj : Text) : Asks Ask.plain (projectRun cfg spj) :=
  ⟨rfl,fun _ => ⟨rfl,fun _ => asksPure⟩⟩

theorem runOnHostInv (inv : Inv cfg order first past s) (vm : cfg.vm ≠ []) (named : Named cfg order true spj past) :
    Ensures past (runOnHost cfg spj s) (Inv cfg order first) := by
  simp only [runOnHost,query,ensuresBind,ensuresAsk]
  intro before _
  have opened : Inv cfg order first (past ++ [⟨.checkFinished (cfg.pj spj),before⟩] ++ [⟨.echo (.onHost spj),()⟩]) s :=
    (inv.calm _ rfl).calm _ rfl
  refine ensuresMono (fun log _ both => ?_) (ensuresAnd.mpr
    ⟨projectRunInv opened ((named.append _).append _) (by simpa using vm),asksAdds (projectRunPlain cfg spj)⟩)
  intro after
  have plain : Unmarked (past ++ [⟨.checkFinished (cfg.pj spj),before⟩]) log :=
    addsTrans (addsSnoc _ rfl addsRefl) both.2
  obtain ⟨middle,quiet,parts⟩ := unmarkedParts after plain
  exact finishingInv (both.1.calm _ rfl) parts quiet

theorem runOnGuestInv (inv : Inv cfg order first past s) (vm : cfg.vm ≠ []) (named : Named cfg order false spj past) :
    Ensures past (runOnGuest cfg spj s) (Inv cfg order first) := by
  simp only [runOnGuest,query,ensuresBind,ensuresAsk]
  intro before
  refine ensuresMono (fun log again both => ?_) (guestLoopInv 3 (inv.calm _ rfl) vm (named.append _))
  intro _ after
  have plain : Unmarked (past ++ [⟨.checkFinished (cfg.pj spj),before⟩]) (log ++ [⟨.rsync cfg.vm cfg.projbase,()⟩]) :=
    addsSnoc _ rfl both.2
  obtain ⟨middle,quiet,parts⟩ := unmarkedParts after plain
  exact finishingInv ((both.1.calm _ rfl).calm _ rfl) parts quiet

theorem runSubprojectInv {l : Line} (inv : Inv cfg order first past s) (named : Named cfg order l.kvm l.spj past) :
    Ensures past (runSubproject cfg l s) (Inv cfg order first) := by
  obtain ⟨spj,kvm,finished⟩ := l
  simp only [runSubproject,query,ensuresBind,ensuresAsk]
  intro _ _
  refine ensuresMono (fun log _ adds => ?_) (asksAdds (validateCalm cfg spj))
  obtain ⟨new,rfl,quiet⟩ := adds
  have ready := ((inv.calm (q := .echo (.subproject spj kvm)) () rfl).calm (q := .echo (.validating (cfg.pj spj)))
    () rfl).adds ⟨new,rfl,quiet⟩
  have there := ((named.append [⟨.echo (.subproject spj kvm),()⟩]).append
    [⟨.echo (.validating (cfg.pj spj)),()⟩]).append new
  split
  · rename_i none
    split
    · exact fun _ => ready.calm _ rfl
    · rename_i guest
      exact ensuresBind.mpr (ensuresMono (fun log _ inv => inv) (projectRunInv ready there (by simp [none,guest])))
  · rename_i vm
    simp only [ensuresBind,ensuresAsk]
    intro _
    split
    · rename_i host
      subst host
      exact runOnHostInv (ready.calm _ rfl) vm (there.append _)
    · rename_i guest
      cases Bool.eq_false_iff.mpr guest
      exact runOnGuestInv (ready.calm _ rfl) vm (there.append _)

theorem runLineInv {line : Text} (mem : line ∈ words order) (inv : Inv cfg order first past s) :
    Ensures past (runLine cfg s line) (Inv cfg order first) := by
  rw [runLine,ensuresBind]
  have start : LineInv cfg order first s.again [] past ⟨[],false,s.finished⟩ := ⟨inv,by simp,.inl rfl⟩
  refine ensuresMono (fun log l here => ?_)
    (ensuresFold (fun passed log l => LineInv cfg order first s.again passed log l)
    (fun front tmp rest _ past l here => readTokenInv tmp here) start)
  split
  · exact here.inv
  · rename_i filled
    obtain ⟨token,dir⟩ := here.spj.resolve_left filled
    exact runSubprojectInv here.inv ⟨⟨line,mem,token,here.kvm⟩,dir⟩

theorem runLinesInv (inv : Inv cfg order first past s) : Ensures past (runLines cfg order s) (Inv cfg order first) := by
  refine ensuresFold (fun _ log s => Inv cfg order first log s) (fun front line rest parts past s inv => ?_) inv
  exact runLineInv (by rw [parts]; simp) inv

/-! ### How often the guest is run -/

/- Of the runs on the guest, only ones of the subproject, at most `n`. -/
structure Visiting (cfg : Config) (spj : Text) (n : Nat) (new : Log) : Prop where
  few : new.countP (fun e => e.1.startsGuest) ≤ n
  all : ∀ e ∈ new, e.1.startsGuest = true → e.1 = .sshRun cfg.vm (cfg.command spj)

def Visits (cfg : Config) (spj : Text) (n : Nat) (past log : Log) : Prop :=
  ∃ new, log = past ++ new ∧ Visiting cfg spj n new

def Ask.away (q : Ask) : Bool := !q.startsGuest

theorem visitingAppend {n m : Nat} {new more : Log} (one : Visiting cfg spj n new) (other : Visiting cfg spj m more) :
    Visiting cfg spj (n+m) (new ++ more) := by
  refine ⟨?_,fun e mem => (List.mem_append.mp mem).elim (one.all e) (other.all e)⟩
  have few := one.few
  have few' := other.few
  rw [List.countP_append]
  omega

theorem visitingAway (cfg : Config) (spj : Text) {new : Log} (none : ∀ e ∈ new, e.1.startsGuest = false) :
    Visiting cfg spj 0 new := by
  refine ⟨Nat.le_of_eq (List.countP_eq_zero.mpr (fun e mem => by simp [none e mem])),fun e mem start => ?_⟩
  rw [none e mem] at start
  contradiction

theorem awayNone {new : Log} (away : ∀ e ∈ new, e.1.away = true) : ∀ e ∈ new, e.1.startsGuest = false :=
  fun e mem => by simpa [Ask.away] using away e mem

theorem visitsTrans {n m : Nat} {later : Log} (one : Visits cfg spj n past log) (other : Visits cfg spj m log later) :
    Visits cfg spj (n+m) past later := by
  obtain ⟨new,rfl,visiting⟩ := one
  obtain ⟨more,rfl,visiting'⟩ := other
  exact ⟨new ++ more,by simp,visitingAppend visiting visiting'⟩

theorem visitsMono {n m : Nat} (le : n ≤ m) (here : Visits cfg spj n past log) : Visits cfg spj m past log := by
  obtain ⟨new,parts,visiting⟩ := here
  exact ⟨new,parts,Nat.le_trans visiting.few le,visiting.all⟩

theorem visitsAway (spj : Text) (adds : Adds Ask.away past log) : Visits cfg spj 0 past log := by
  obtain ⟨new,rfl,away⟩ := adds
  exact ⟨new,rfl,visitingAway cfg spj (awayNone away)⟩

theorem sshRunVisits : Ensures past (sshRun cfg spj) (fun log _ => Visits cfg spj 1 past log) := by
  have started : Visits cfg spj 1 past (past ++ [⟨.echo (.ssh cfg.vm (cfg.command spj)),()⟩] ++
      [⟨.sshRun cfg.vm (cfg.command spj),()⟩]) := by
    refine ⟨[⟨.echo (.ssh cfg.vm (cfg.command spj)),()⟩,⟨.sshRun cfg.vm (cfg.command spj),()⟩],by simp,
      Nat.le_refl 1,?_⟩
    intro e mem start
    simp only [List.mem_cons,List.not_mem_nil,or_false] at mem
    rcases mem with rfl | rfl
    · contradiction
    · rfl
  simp only [sshRun,query,ensuresBind,ensuresAsk]
  intro _ _ connectable
  split
  · simp only [ensuresBind,ensuresAsk]
    exact fun _ _ _ => visitsTrans started (visitsAway spj (addsSnoc _ rfl (addsSnoc _ rfl (addsSnoc _ rfl
      (addsSnoc _ rfl addsRefl)))))
  · exact visitsTrans started (visitsAway spj (addsSnoc _ rfl addsRefl))

theorem guestLoopVisits (count : Nat) (again : Bool) :
    Ensures past (guestLoop cfg spj count again) (fun log _ => Visits cfg spj count past log) := by
  induction count generalizing past again with
  | zero => exact visitsAway spj addsRefl
  | succ count ih =>
    simp only [guestLoop,query,ensuresBind,ensuresAsk]
    intro _ _ _ _
    have opened : Adds Ask.away past (past ++ [⟨.vmStartWait cfg.vm,()⟩] ++ [⟨.sleep 5,()⟩] ++
        [⟨.echo (.onGuest spj cfg.vm),()⟩] ++ [⟨.rsync cfg.vm cfg.projbase,()⟩]) :=
      addsSnoc _ rfl (addsSnoc _ rfl (addsSnoc _ rfl (addsSnoc _ rfl addsRefl)))
    have rest : ∀ again, ∀ log, Visits cfg spj 1 past log →
        Ensures log (guestLoop cfg spj count again) (fun log _ => Visits cfg spj (count+1) past log) := by
      intro again log here
      refine ensuresMono (fun _ _ more => ?_) (ih again)
      exact visitsMono (by omega) (visitsTrans here more)
    split
    · refine ensuresBind.mpr (ensuresMono (fun log _ here => rest false log ?_) sshRunVisits)
      exact visitsTrans (visitsAway spj opened) here
    · simp only [ensuresBind,ensuresAsk]
      intro out _
      have looked := addsSnoc (q := .echo (.reported out)) () rfl
        (addsSnoc (q := .checkFinished (cfg.pj spj)) out rfl opened)
      split
      · exact visitsMono (Nat.zero_le _) (visitsAway spj looked)
      · refine ensuresBind.mpr (ensuresMono (fun log _ here => rest again log ?_) sshRunVisits)
        exact visitsTrans (visitsAway spj looked) here

/- After each run on the guest its files are fetched once more, and the subproject is looked at. -/
def Fetched (cfg : Config) : Log → Prop
  | [] => True
  | e::log => (e.1.startsGuest = true → ∃ spj out front rest, e.1 = .sshRun cfg.vm (cfg.command spj) ∧
      log = front ++ [⟨.rsync cfg.vm cfg.projbase,()⟩,⟨.checkFinished (cfg.pj spj),out⟩] ++ rest) ∧ Fetched cfg log

theorem fetchedAppend {new more : Log} (one : Fetched cfg new) (other : Fetched cfg more) :
    Fetched cfg (new ++ more) := by
  induction new with
  | nil => exact other
  | cons e new ih =>
    refine ⟨fun start => ?_,ih one.2⟩
    obtain ⟨spj,out,front,rest,same,parts⟩ := one.1 start
    exact ⟨spj,out,front,rest ++ more,same,by simp [parts]⟩

theorem fetchedAway {new : Log} (away : ∀ e ∈ new, e.1.startsGuest = false) : Fetched cfg new := by
  induction new with
  | nil => trivial
  | cons e new ih =>
    refine ⟨fun start => ?_,ih (fun f mem => away f (List.mem_cons_of_mem e mem))⟩
    rw [away e List.mem_cons_self] at start
    contradiction

theorem fetchedVisit {new : Log} (out : Text)
    (all : ∀ e ∈ new, e.1.startsGuest = true → e.1 = .sshRun cfg.vm (cfg.command spj)) :
    Fetched cfg (new ++ [⟨.rsync cfg.vm cfg.projbase,()⟩,⟨.checkFinished (cfg.pj spj),out⟩]) := by
  induction new with
  | nil => exact fetchedAway (by simp [Ask.startsGuest])
  | cons e new ih =>
    refine ⟨fun start => ?_,ih (fun f mem => all f (List.mem_cons_of_mem e mem))⟩
    exact ⟨spj,out,new,[],all e List.mem_cons_self start,by simp⟩

/- What one line of the run order adds. -/
def Adding (cfg : Config) (n : Nat) (spj : Text) (past log : Log) : Prop :=
  ∃ new, log = past ++ new ∧ Visiting cfg spj n new ∧ Fetched cfg new

theorem addingAway (cfg : Config) (spj : Text) (adds : Adds Ask.away past log) : Adding cfg 0 spj past log := by
  obtain ⟨new,rfl,away⟩ := adds
  exact ⟨new,rfl,visitingAway cfg spj (awayNone away),fetchedAway (awayNone away)⟩

theorem addingTrans {n m : Nat} {later : Log} (one : Adding cfg n spj past log) (other : Adding cfg m spj log later) :
    Adding cfg (n+m) spj past later := by
  obtain ⟨new,rfl,visiting,fetched⟩ := one
  obtain ⟨more,rfl,visiting',fetched'⟩ := other
  exact ⟨new ++ more,by simp,visitingAppend visiting visiting',fetchedAppend fetched fetched'⟩

theorem readTokenAway (l : Line) (tmp : Text) :
    Ensures past (readToken cfg l tmp) (fun log l' =>
      Adds Ask.away past log ∧ (l'.spj = l.spj ∨ l'.spj = [] ∨ l'.spj = tmp)) := by
  unfold readToken
  split
  · split
    · rw [ensuresBind]
      exact fun _ _ _ => ⟨addsSnoc _ rfl (addsSnoc _ rfl (addsSnoc _ rfl addsRefl)),.inl rfl⟩
    · exact ⟨addsRefl,.inl rfl⟩
  · split
    · exact ⟨addsRefl,.inl rfl⟩
    · simp only [query,ensuresBind,ensuresAsk]
      intro dir
      split
      · exact ⟨addsSnoc _ rfl addsRefl,.inr (.inr rfl)⟩
      · simp only [ensuresBind,ensuresAsk]
        exact fun _ => ⟨addsSnoc _ rfl (addsSnoc _ rfl addsRefl),.inr (.inl rfl)⟩

theorem finishingAway (spj before after : Text) (s : Vars) : Asks Ask.away (finishing spj before after s) := by
  unfold finishing
  split
  · exact ⟨rfl,fun _ => asksPure⟩
  · exact asksPure

theorem projectRunAway (cfg : Config) (spj : Text) : Asks Ask.away (projectRun cfg spj) :=
  ⟨rfl,fun _ => ⟨rfl,fun _ => asksPure⟩⟩

theorem runOnHostAway (cfg : Config) (spj : Text) (s : Vars) : Asks Ask.away (runOnHost cfg spj s) := by
  refine asksAskBind.mpr ⟨rfl,fun before => asksAskBind.mpr ⟨rfl,fun _ => ?_⟩⟩
  exact asksBind (projectRunAway cfg spj) (fun _ => asksAskBind.mpr ⟨rfl,fun after => finishingAway spj before after s⟩)

theorem runOnGuestAdding : Ensures past (runOnGuest cfg spj s) (fun log _ => Adding cfg 3 spj past log) := by
  simp only [runOnGuest,query,ensuresBind,ensuresAsk]
  intro before
  refine ensuresMono (fun log again visits => ?_) (guestLoopVisits 3 s.again)
  intro _ after
  refine ensuresMono (fun log _ last => ?_) (asksAdds (finishingAway spj before after _))
  obtain ⟨new,rfl,visiting⟩ := visits
  have seen : Adding cfg 3 spj (past ++ [⟨.checkFinished (cfg.pj spj),before⟩])
      (past ++ [⟨.checkFinished (cfg.pj spj),before⟩] ++ new ++ [⟨.rsync cfg.vm cfg.projbase,()⟩] ++
        [⟨.checkFinished (cfg.pj spj),after⟩]) := by
    refine ⟨new ++ [⟨.rsync cfg.vm cfg.projbase,()⟩,⟨.checkFinished (cfg.pj spj),after⟩],by simp,?_,
      fetchedVisit after visiting.all⟩
    exact visitingAppend (m := 0) visiting (visitingAway cfg spj (by simp [Ask.startsGuest]))
  exact addingTrans (n := 0) (addingAway cfg spj (addsSnoc _ rfl addsRefl))
    (addingTrans (m := 0) seen (addingAway cfg spj last))

theorem runSubprojectAdding (l : Line) :
    Ensures past (runSubproject cfg l s) (fun log _ => Adding cfg 3 l.spj past log) := by
  simp only [runSubproject,query,ensuresBind,ensuresAsk]
  intro _ _
  refine ensuresMono (fun log _ valid => ?_) (asksAdds (validateCalm cfg l.spj))
  have away : Adds Ask.away past log := addsTrans (addsSnoc _ rfl (addsSnoc _ rfl addsRefl))
    (addsImp (fun q calm => by simp [Ask.away,calmStarts calm]) valid)
  have none {log : Log} (away : Adds Ask.away past log) : Adding cfg 3 l.spj past log :=
    addingTrans (n := 3) (m := 0) ⟨[],by simp,⟨by simp,by simp⟩,trivial⟩ (addingAway cfg l.spj away)
  split
  · split
    · exact fun _ => none (addsSnoc _ rfl away)
    · exact ensuresBind.mpr (ensuresMono (fun log _ ran => none (addsTrans away ran))
        (asksAdds (projectRunAway cfg l.spj)))
  · simp only [ensuresBind,ensuresAsk]
    intro _
    split
    · exact ensuresMono (fun log _ ran => none (addsTrans (addsSnoc _ rfl away) ran))
        (asksAdds (runOnHostAway cfg l.spj s))
    · refine ensuresMono (fun log _ ran => ?_) runOnGuestAdding
      exact addingTrans (n := 0) (addingAway cfg l.spj (addsSnoc _ rfl away)) ran

theorem tokensAdding (line : Text) (s : Vars) :
    Ensures past ((tokens line).foldlM (readToken cfg) ⟨[],false,s.finished⟩)
      (fun log l => Adds Ask.away past log ∧ (l.spj = [] ∨ l.spj ∈ tokens line)) := by
  refine ensuresFold (fun passed log (l : Line) => Adds Ask.away past log ∧ (l.spj = [] ∨ l.spj ∈ passed)) ?_
    ⟨addsRefl,.inl rfl⟩
  intro front tmp _ _ log l here
  refine ensuresMono (fun later l' both => ⟨addsTrans here.1 both.1,?_⟩) (readTokenAway l tmp)
  rcases both.2 with same | none | read
  · rw [same]
    exact here.2.imp id (List.mem_append_left _)
  · exact .inl none
  · exact .inr (by simp [read])

theorem runLineAdding (line : Text) : Ensures past (runLine cfg s line)
    (fun log _ => Adds Ask.away past log ∨ ∃ spj ∈ tokens line, Adding cfg 3 spj past log) := by
  rw [runLine,ensuresBind]
  refine ensuresMono (fun log l both => ?_) (tokensAdding line s)
  split
  · exact .inl both.1
  · rename_i filled
    have listed : l.spj ∈ tokens line := both.2.resolve_left filled
    refine ensuresMono (fun later _ ran => ?_) (runSubprojectAdding l)
    exact .inr ⟨l.spj,listed,addingTrans (n := 0) (addingAway cfg l.spj both.1) ran⟩

theorem commandInj {other : Text} (same : cfg.command spj = cfg.command other) : spj = other := by
  have pj : ' '::cfg.pj spj = ' '::cfg.pj other := List.append_cancel_left (List.append_cancel_left same)
  exact (List.cons.inj (List.append_cancel_left (List.cons.inj pj).2)).2

def Ask.runs (cfg : Config) (spj : Text) (q : Ask) : Bool := q = .sshRun cfg.vm (cfg.command spj)

theorem visitingRuns (spj : Text) {other : Text} {n : Nat} {new : Log} (visiting : Visiting cfg other n new) :
    new.countP (fun e => e.1.runs cfg spj) ≤ n ∧ (spj ≠ other → new.countP (fun e => e.1.runs cfg spj) = 0) := by
  constructor
  · refine Nat.le_trans (List.countP_mono_left fun e _ runs => ?_) visiting.few
    rw [of_decide_eq_true runs]
    rfl
  · refine fun differ => List.countP_eq_zero.mpr fun e mem runs => differ ?_
    have same := visiting.all e mem (by rw [of_decide_eq_true runs]; rfl)
    rw [of_decide_eq_true runs,Ask.sshRun.injEq] at same
    exact commandInj same.2

/- The runs on the guest that the lines passed so far have led to. -/
theorem runLinesAdding (cfg : Config) (order : Text) (s : Vars) (past : Log) : Ensures past (runLines cfg order s)
    (fun log _ => ∃ new, log = past ++ new ∧ Fetched cfg new ∧
      ∀ spj, new.countP (fun e => e.1.runs cfg spj) ≤ 3 * (words order).countP (fun line => spj ∈ tokens line)) := by
  refine ensuresFold (fun front log _ => ∃ new, log = past ++ new ∧ Fetched cfg new ∧
    ∀ spj, new.countP (fun e => e.1.runs cfg spj) ≤ 3 * front.countP (fun line => spj ∈ tokens line)) ?_
    ⟨[],by simp,trivial,by simp⟩
  rintro front line _ _ log s ⟨new,rfl,fetched,few⟩
  refine ensuresMono (fun later _ added => ?_) (runLineAdding line)
  have adding : ∃ other, Adding cfg (if other ∈ tokens line then 3 else 0) other (past ++ new) later := by
    rcases added with away | ⟨other,listed,adding⟩
    · refine ⟨[],?_⟩
      obtain ⟨more,rfl,away⟩ := away
      exact ⟨more,rfl,⟨Nat.le_trans (visitingAway cfg [] (awayNone away)).few (Nat.zero_le _),
        (visitingAway cfg [] (awayNone away)).all⟩,fetchedAway (awayNone away)⟩
    · exact ⟨other,by rwa [if_pos listed]⟩
  obtain ⟨other,more,rfl,visiting,fetched'⟩ := adding
  refine ⟨new ++ more,by simp,fetchedAppend fetched fetched',fun spj => ?_⟩
  have before := few spj
  rw [List.countP_append,List.countP_append,List.countP_singleton]
  by_cases same : spj = other
  · subst same
    have now := (visitingRuns spj visiting).1
    by_cases listed : spj ∈ tokens line
    · simp only [listed,if_true,decide_true] at now ⊢
      omega
    · simp only [listed,if_false] at now
      omega
  · have now := (visitingRuns spj visiting).2 same
    omega

end

/-! ### Whole runs -/

section
variable (env : Log → (q : Ask) → Answer q) (i : Invocation)

def configured : Config := (answered env [] (settings i)).2
def transcript : Log := (answered env [] (run i)).1

/- The value of `VM` is kept when it starts with a capital S, and read from the project's file otherwise. -/
def VmFrom (i : Invocation) (log : Log) (vm : Text) : Prop :=
  if startsWith "S".toList i.vm then vm = i.vm else ∃ file, ⟨.vmFile i.projbase,file⟩ ∈ log ∧ vm = file.getD []

structure Settled (i : Invocation) (log : Log) (cfg : Config) : Prop where
  calm : Adds Ask.calm [] log
  vm : VmFrom i log cfg.vm
  projbase : cfg.projbase = i.projbase
  options : cfg.options = i.options

theorem checkAndSetEnvVmFrom {past : Log} {i : Invocation} (calm : Adds Ask.calm [] past) :
    Ensures past (checkAndSetEnvVm i.projbase i.vm) (fun log vm => Adds Ask.calm [] log ∧ VmFrom i log vm) := by
  unfold checkAndSetEnvVm VmFrom
  split
  · exact ⟨calm,rfl⟩
  · simp only [query,ensuresBind,ensuresAsk,ensuresPure]
    exact fun file => ⟨addsSnoc _ rfl calm,file,by simp,rfl⟩

theorem settingsSettled : Ensures [] (settings i) (Settled i) := by
  have last : ∀ pmemdev log vm, Adds Ask.calm [] log ∧ VmFrom i log vm →
      Settled i log ⟨i.projbase,vm,i.options,i.stapDir,pmemdev⟩ := fun _ _ _ both => ⟨both.1,both.2,rfl,rfl⟩
  unfold settings
  split
  · simp only [ensuresBind,ensuresPure]
    exact ensuresMono (last i.pmemdev) (checkAndSetEnvVmFrom addsRefl)
  · simp only [query,ensuresBind,ensuresAsk,ensuresPure]
    intro _ pmemdev
    exact ensuresMono (last pmemdev) (checkAndSetEnvVmFrom (addsSnoc _ rfl (addsSnoc _ rfl addsRefl)))

theorem settled : Settled i (answered env [] (settings i)).1 (configured env i) := ensured env (settingsSettled i)

theorem transcriptParts : answered env [] (run i) = answered env (answered env [] (settings i)).1
    (runLines (configured env i) i.order ⟨false,i.again⟩) := answeredBind env (settings i) _

theorem startInv : Inv (configured env i) i.order i.again (answered env [] (settings i)).1 ⟨false,i.again⟩ := by
  have empty : Inv (configured env i) i.order i.again [] ⟨false,i.again⟩ :=
    ⟨eachNil,fun again => ⟨again,by simp⟩,by simp [newlyFinishedNil]⟩
  exact empty.adds (settled env i).calm

theorem transcriptInv : Inv (configured env i) i.order i.again (transcript env i) (answered env [] (run i)).2 := by
  rw [transcript,transcriptParts]
  exact ensured env (runLinesInv (startInv env i))

theorem transcriptPrefix : (answered env [] (settings i)).1 <+: transcript env i := by
  rw [transcript,transcriptParts]
  exact ensured env ensuresPrefix

theorem vmFromTranscript : VmFrom i (transcript env i) (configured env i).vm := by
  have from_ := (settled env i).vm
  unfold VmFrom at from_ ⊢
  split at from_
  · rename_i given
    rw [if_pos given]
    exact from_
  · rename_i given
    rw [if_neg given]
    obtain ⟨file,mem,same⟩ := from_
    exact ⟨file,(transcriptPrefix env i).subset mem,same⟩

/- Every run of a subproject stands where it belongs: on the host server when there is no guest, or when its
line says so, on the guest otherwise. -/
theorem runsPlaced : VmFrom i (transcript env i) (configured env i).vm ∧ Each (fun pre e =>
    (∀ vm command, e.1 = .sshRun vm command → vm = (configured env i).vm ∧ vm ≠ [] ∧
      ∃ spj, command = (configured env i).command spj ∧ Named (configured env i) i.order false spj pre) ∧
    (∀ options pj, e.1 = .projectRun options pj → options = i.options ∧ ∃ spj kvm, pj = (configured env i).pj spj ∧
      Named (configured env i) i.order kvm spj pre ∧ (kvm = true ↔ (configured env i).vm ≠ [])))
    (transcript env i) := by
  refine ⟨vmFromTranscript env i,eachImp (fun pre e allowed => ⟨?_,?_⟩) (transcriptInv env i).each⟩
  · intro vm command same
    unfold Allowed at allowed
    rw [same] at allowed
    obtain ⟨vm,some_,spj,command,named,_⟩ := allowed
    subst vm
    exact ⟨rfl,some_,spj,command,named⟩
  · intro options pj same
    unfold Allowed at allowed
    rw [same] at allowed
    obtain ⟨options,placed⟩ := allowed
    exact ⟨options.trans (settled env i).options,placed⟩

theorem transcriptAdding : Fetched (configured env i) (transcript env i) ∧ ∀ spj,
    (transcript env i).countP (fun e => e.1.runs (configured env i) spj) ≤
      3 * (words i.order).countP (fun line => spj ∈ tokens line) := by
  obtain ⟨front,parts,calm⟩ := (settled env i).calm
  have none : ∀ e ∈ front, e.1.startsGuest = false := fun e mem => calmStarts (calm e mem)
  have added := ensured env (runLinesAdding (configured env i) i.order ⟨false,i.again⟩ (answered env [] (settings i)).1)
  obtain ⟨new,same,fetched,few⟩ := added
  rw [← transcriptParts] at same
  rw [transcript,same,parts,List.nil_append]
  refine ⟨fetchedAppend (fetchedAway none) fetched,fun spj => ?_⟩
  have away : front.countP (fun e => e.1.runs (configured env i) spj) = 0 := by
    have visiting := visitingRuns spj (visitingAway (configured env i) spj none)
    exact Nat.le_zero.mp visiting.1
  rw [List.countP_append,away,Nat.zero_add]
  exact few spj

theorem guestRunsChecked : Each (fun pre e => ∀ vm command, e.1 = .sshRun vm command →
    ∃ spj, command = (configured env i).command spj ∧ (i.again = true ∧ (∀ d ∈ pre, d.1.startsGuest = false) ∨
      CheckedUndone (configured env i) spj pre)) (transcript env i) ∧
    Fetched (configured env i) (transcript env i) := by
  refine ⟨eachImp (fun pre e allowed vm command same => ?_) (transcriptInv env i).each,(transcriptAdding env i).1⟩
  unfold Allowed at allowed
  rw [same] at allowed
  obtain ⟨_,_,spj,command,_,may⟩ := allowed
  exact ⟨spj,command,may⟩

theorem guestRunsBounded (spj : Text) : (transcript env i).countP (fun e => e.1.runs (configured env i) spj) ≤
    3 * (words i.order).countP (fun line => spj ∈ tokens line) := (transcriptAdding env i).2 spj

theorem readReboot (cfg : Config) (log : Log) (l : Line) : answered env log (readToken cfg l "reboot".toList) =
    if l.finished && cfg.vm ≠ [] then
      (log ++ [⟨.echo (.stoppedAfter cfg.vm),()⟩,⟨.vmShutdownWait cfg.vm,()⟩,⟨.sleep 5,()⟩],
        { l with finished := false })
    else (log,l) := by
  rw [readToken,if_pos rfl]
  split
  · simp [query,answeredBind,answered,ask,pure]
  · rfl

theorem rebootLine (cfg : Config) (log : Log) (s : Vars) : (answered env log (runLine cfg s "reboot".toList)).1 =
    if s.finished && cfg.vm ≠ [] then
      log ++ [⟨.echo (.stoppedAfter cfg.vm),()⟩,⟨.vmShutdownWait cfg.vm,()⟩,⟨.sleep 5,()⟩]
    else log := by
  have one : tokens "reboot".toList = ["reboot".toList] := by decide
  rw [runLine,one,answeredBind,List.foldlM_cons,answeredBind,readReboot]
  split <;> rfl

theorem runLinesReboot (cfg : Config) (order : Text) (log : Log) (s : Vars) :
    (answered env log (runLines cfg (order ++ " reboot".toList) s)).1 = (answered env (answered env log
      (runLines cfg order s)).1 (runLine cfg (answered env log (runLines cfg order s)).2 "reboot".toList)).1 := by
  have more : words (order ++ " reboot".toList) = words order ++ ["reboot".toList] := wordsAppend order "reboot".toList
  rw [runLines,more,List.foldlM_append,answeredBind,List.foldlM_cons,answeredBind]
  rfl

/- At a `reboot` line the guest is stopped exactly when a subproject was finished after the last such stop. -/
theorem rebootStops (order : Text) :
    (NewlyFinished (transcript env { i with order := order }) ∧ (configured env i).vm ≠ [] →
      transcript env { i with order := order ++ " reboot".toList } = transcript env { i with order := order } ++
        [⟨.echo (.stoppedAfter (configured env i).vm),()⟩,⟨.vmShutdownWait (configured env i).vm,()⟩,⟨.sleep 5,()⟩]) ∧
    (¬(NewlyFinished (transcript env { i with order := order }) ∧ (configured env i).vm ≠ []) →
      transcript env { i with order := order ++ " reboot".toList } = transcript env { i with order := order }) := by
  have finished : (answered env [] (run { i with order := order })).2.finished = true ↔
      NewlyFinished (transcript env { i with order := order }) := (transcriptInv env { i with order := order }).finished
  have ended : transcript env { i with order := order ++ " reboot".toList } =
      if (answered env [] (run { i with order := order })).2.finished && (configured env i).vm ≠ [] then
        transcript env { i with order := order } ++ [⟨.echo (.stoppedAfter (configured env i).vm),()⟩,
          ⟨.vmShutdownWait (configured env i).vm,()⟩,⟨.sleep 5,()⟩]
      else transcript env { i with order := order } := by
    rw [← rebootLine env,transcript,transcript,transcriptParts,transcriptParts]
    exact runLinesReboot env (configured env i) order _ _
  rw [ended,← finished]
  simp only [Bool.and_eq_true,decide_eq_true_eq]
  exact ⟨fun both => if_pos both,fun not => if_neg not⟩

end

def firstRunFinishes (log : Log) : (q : Ask) → Answer q
  | .isDir _ => true
  | .recipelist _ => none
  | .vmFile _ => some "vm".toList
  | .pmemdev _ => []
  | .connectable _ => true
  | .checkFinished _ => if log.any (fun e => e.1.startsGuest) then done else notDone
  | .echo _ | .sleep _ | .writeRecipelist .. | .vmStartWait _ | .vmShutdownWait _ => ()
  | .rsync .. | .projectRun .. | .sshRun .. => ()

example : ((transcript firstRunFinishes ⟨"p".toList,"mce reboot".toList,[],[],[],[]⟩).filter
    (fun e => e.1.startsGuest || e.1.marks)).map Sigma.fst =
      [.sshRun "vm".toList (Config.command ⟨"p".toList,"vm".toList,[],[],[]⟩ "mce".toList),
        .echo (.finished "mce".toList),.echo (.stoppedAfter "vm".toList)] := by decide

end MmRegression.RunFull
