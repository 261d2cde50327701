import MmRegression.Fields
import MmRegression.ShellReader

/-! The config file of a test project in `run.sh`: `prepare_test_project` writes the settings as shell text
into a here-document and sources it, `overwrite_test_setting` sources it again and then puts back what the
caller has exported, which it keeps as the lines of `env` behind the word `export`. Only TEST_DESCRIPTION
stands in quotes, and only in the here-document. -/
namespace MmRegression

inductive Setting where
  | runMode | softRetry | hardRetry | testDescription | unpoison | failretry | priority
  | backwardKeyword | forwardKeyword | loglevel
  deriving DecidableEq, Repr

def Setting.name : Setting → Text
  | .runMode => "RUN_MODE".toList
  | .softRetry => "SOFT_RETRY".toList
  | .hardRetry => "HARD_RETRY".toList
  | .testDescription => "TEST_DESCRIPTION".toList
  | .unpoison => "UNPOISON".toList
  | .failretry => "FAILRETRY".toList
  | .priority => "PRIORITY".toList
  | .backwardKeyword => "BACKWARD_KEYWORD".toList
  | .forwardKeyword => "FORWARD_KEYWORD".toList
  | .loglevel => "LOGLEVEL".toList

/- What stands behind `:=`, nothing for the keywords. -/
def Setting.default : Setting → Text
  | .runMode => "normal,devel,stress".toList
  | .softRetry => "3".toList
  | .hardRetry => "1".toList
  | .testDescription => "MM regression test".toList
  | .unpoison => "true".toList
  | .failretry => "3".toList
  | .priority => "0-20".toList
  | .backwardKeyword => []
  | .forwardKeyword => []
  | .loglevel => "1".toList

def Setting.quoted (x : Setting) : Bool := x == .testDescription

def Setting.all : List Setting := [.runMode,.softRetry,.hardRetry,.testDescription,.unpoison,.failretry,.priority,
  .backwardKeyword,.forwardKeyword,.loglevel]

def runname : Text := "RUNNAME".toList

/- `${NAME:=default}` -/
def ShellVars.orDefault (s : ShellVars) (x : Setting) : Text :=
  match s.value x.name with
  | some v => if v.isEmpty then x.default else v
  | none => x.default

def ShellVars.set (s : ShellVars) (name v : Text) : ShellVars :=
  ⟨fun n => if n = name then some v else s.value n,s.exported⟩

def configExports (proj : Text) (s : ShellVars) : List Export :=
  ⟨runname,false,proj⟩ :: Setting.all.map (fun x => ⟨x.name,x.quoted,s.orDefault x⟩)

def debugSettings (s : ShellVars) : ShellVars :=
  ((s.set Setting.failretry.name "1".toList).set Setting.runMode.name "normal,devel,stress,wip".toList).set
    Setting.testDescription.name "debug".toList

/-- The config file, and the shell after it has been sourced. -/
def prepareTestProject (proj : Text) (s : ShellVars) : List Text × Option ShellVars :=
  let s := if startsWith "debug".toList proj then debugSettings s else s
  let config := (configExports proj s).map Export.line
  (config,source s config)

/-- A shell with what `env` prints in it, in the order of the environment. -/
structure Caller where
  shell : ShellVars
  environ : List (Text × Text)
  listed : ∀ name v, (name,v) ∈ environ ↔ shell.exported name = true ∧ shell.value name = some v
  once : (environ.map Prod.fst).Nodup
  named : ∀ e ∈ environ, '=' ∉ e.1 ∧ '\n' ∉ e.1

def Caller.env (c : Caller) : List Text := c.environ.flatMap (fun e => split '\n' (e.1 ++ '='::e.2))

def isSetting (line : Text) : Bool := Setting.all.any (fun x => startsWith (x.name ++ ['=']) line)

def overwriteTestSetting (config : List Text) (c : Caller) : Option ShellVars :=
  let tmpf := (c.env.filter isSetting).map (fun line => "export ".toList ++ line)
  (source c.shell config).bind (fun s => source s tmpf)

/-! ### What the claim says -/

/- A shell after the config file of `proj`: of the other variables none has changed. -/
def OthersKept (proj : Text) (before after : ShellVars) : Prop :=
  after.value runname = some proj ∧ ∀ name, name ≠ runname → (∀ x : Setting, name ≠ x.name) →
    after.value name = before.value name ∧ after.exported name = before.exported name

structure Survives (proj : Text) (prepared : ShellVars) (caller : Caller) : Prop where
  restored : ∀ s, ∃ after, source s (prepareTestProject proj prepared).1 = some after ∧
    (∀ (x : Setting) v, prepared.value x.name = some v → after.value x.name = some v) ∧ OthersKept proj s after
  precedence : ∃ configured final, source caller.shell (prepareTestProject proj prepared).1 = some configured ∧
    overwriteTestSetting (prepareTestProject proj prepared).1 caller = some final ∧
    (∀ x : Setting, final.value x.name =
      if caller.shell.exported x.name && (caller.shell.value x.name).isSome then caller.shell.value x.name
      else configured.value x.name) ∧
    OthersKept proj caller.shell final

/- No other variable of the caller holds a line that `grep` takes for a setting. -/
def Quiet (caller : Caller) : Prop :=
  ∀ e ∈ caller.environ, (∀ x : Setting, e.1 ≠ x.name) → ∀ line ∈ (split '\n' e.2).tail, isSetting line = false

/-- The texts read as themselves where they stand, and no default replaces one. -/
structure Readable (proj : Text) (prepared : ShellVars) (caller : Caller) : Prop where
  project : plain 0 none proj = true
  filled : ∀ x : Setting, x.default ≠ [] → prepared.value x.name ≠ some []
  written : ∀ (x : Setting) v, prepared.value x.name = some v →
    (if x.quoted then plainQuoted v else plain 0 none v) = true
  exported : ∀ (x : Setting) v, (x.name,v) ∈ caller.environ → plain 0 none v = true

theorem settingNames (x : Setting) : isName x.name = true ∧ x.name ≠ runname := by
  cases x <;> decide +kernel

theorem settingMem (x : Setting) : x ∈ Setting.all := by
  cases x <;> decide

theorem defaultReads (x : Setting) : (if x.quoted then plainQuoted x.default else plain 0 none x.default) = true := by
  cases x <;> decide +kernel

/-! ### The config file -/

section Config

variable {proj : Text} {s : ShellVars}

theorem configNodup : ((configExports proj s).map Export.name).Nodup := by
  have names : (configExports proj s).map Export.name = runname :: Setting.all.map Setting.name := rfl
  rw [names]
  decide +kernel

theorem configCases {e : Export} (mem : e ∈ configExports proj s) :
    e = ⟨runname,false,proj⟩ ∨ ∃ x : Setting, e = ⟨x.name,x.quoted,s.orDefault x⟩ := by
  rcases List.mem_cons.mp mem with rfl | later
  · exact .inl rfl
  · obtain ⟨x,-,rfl⟩ := List.mem_map.mp later
    exact .inr ⟨x,rfl⟩

theorem runnameName : isName runname = true := by decide +kernel

theorem configNamed : ∀ e ∈ configExports proj s, isName e.name = true := by
  intro e mem
  rcases configCases mem with rfl | ⟨x,rfl⟩
  · exact runnameName
  · exact (settingNames x).1

theorem configMem (x : Setting) : (⟨x.name,x.quoted,s.orDefault x⟩ : Export) ∈ configExports proj s :=
  List.mem_cons_of_mem _ (List.mem_map.mpr ⟨x,settingMem x,rfl⟩)

theorem configOther {n : Text} (name : n ≠ runname) (other : ∀ x : Setting, n ≠ x.name) :
    n ∉ (configExports proj s).map Export.name := by
  intro mem
  obtain ⟨e,inside,same⟩ := List.mem_map.mp mem
  rcases configCases inside with rfl | ⟨x,rfl⟩
  · exact name same.symm
  · exact other x same.symm

theorem orDefaultFilled {x : Setting} {v : Text} (value : s.value x.name = some v) (filled : x.default ≠ [] → v ≠ []) :
    s.orDefault x = v := by
  rw [ShellVars.orDefault,value]
  cases v with
  | nil => exact Classical.not_not.mp (fun other => filled other rfl)
  | cons c cs => rfl

theorem orDefaultEmpty {x : Setting} (empty : s.value x.name = none ∨ s.value x.name = some []) :
    s.orDefault x = x.default := by
  rcases empty with value | value <;> rw [ShellVars.orDefault,value]
  rfl

theorem configReads (project : plain 0 none proj = true) (written : ∀ (x : Setting) v, s.value x.name = some v →
    (if x.quoted then plainQuoted v else plain 0 none v) = true) :
    ∀ e ∈ configExports proj s, isName e.name = true ∧ e.reads = true := by
  intro e mem
  refine ⟨configNamed e mem,?_⟩
  rcases configCases mem with rfl | ⟨x,rfl⟩
  · exact project
  · rw [Export.reads]
    cases value : s.value x.name with
    | none =>
      rw [orDefaultEmpty (.inl value)]
      exact defaultReads x
    | some v =>
      cases v with
      | nil =>
        rw [orDefaultEmpty (.inr value)]
        exact defaultReads x
      | cons c cs =>
        rw [orDefaultFilled value (fun _ => List.cons_ne_nil c cs)]
        exact written x _ value

theorem configOthers (t : ShellVars) : OthersKept proj t (assignAll t (configExports proj s)) :=
  ⟨assignAllOwn configNodup (e := ⟨runname,false,proj⟩) (List.mem_cons_self ..) t,
    fun _ name other => assignAllOther (configOther name other) t⟩

end Config

theorem configValue (proj : Text) (s t : ShellVars) (x : Setting) :
    (assignAll t (configExports proj s)).value x.name = some (s.orDefault x) :=
  assignAllOwn configNodup (@configMem proj s x) t

theorem prepareLines {proj : Text} (nodebug : startsWith "debug".toList proj = false) (s : ShellVars) :
    (prepareTestProject proj s).1 = (configExports proj s).map Export.line := by
  rw [prepareTestProject,nodebug]
  rfl

/-! ### What the caller has exported -/

theorem assignmentStarts {a b : Text} (left : '=' ∉ a) (right : '=' ∉ b) (v : Text) :
    startsWith (a ++ ['=']) (b ++ '='::v) = true ↔ a = b := by
  rw [startsWith,List.isPrefixOf_iff_prefix]
  constructor
  · intro begins
    obtain ⟨rest,shape⟩ := begins
    rw [List.append_assoc,List.singleton_append] at shape
    have first := congrArg (cutFirst '=') shape
    rwa [cutFirstAppend left,cutFirstAppend right] at first
  · intro same
    subst same
    exact ⟨v,by simp⟩

def isSettingEntry (e : Text × Text) : Bool := Setting.all.any (fun x => x.name == e.1)

theorem settingEntry {e : Text × Text} : isSettingEntry e = true ↔ ∃ x : Setting, e.1 = x.name := by
  simp only [isSettingEntry,List.any_eq_true,beq_iff_eq]
  exact ⟨fun ⟨x,_,same⟩ => ⟨x,same.symm⟩,fun ⟨x,same⟩ => ⟨x,settingMem x,same.symm⟩⟩

theorem isSettingAssignment {name v : Text} (clean : '=' ∉ name) :
    isSetting (name ++ '='::v) = isSettingEntry (name,v) := by
  rw [isSetting,isSettingEntry]
  congr 1
  funext x
  rw [Bool.eq_iff_iff,assignmentStarts (nameClean (settingNames x).1) clean v,beq_iff_eq]

theorem entryLines {e : Text × Text} (clean : '=' ∉ e.1 ∧ '\n' ∉ e.1)
    (quiet : (∀ x : Setting, e.1 ≠ x.name) → ∀ line ∈ (split '\n' e.2).tail, isSetting line = false)
    (line : ∀ x : Setting, e.1 = x.name → '\n' ∉ e.2) :
    (split '\n' (e.1 ++ '='::e.2)).filter isSetting = if isSettingEntry e then [e.1 ++ '='::e.2] else [] := by
  cases entry : isSettingEntry e with
  | true =>
    obtain ⟨x,same⟩ := settingEntry.mp entry
    have whole : '\n' ∉ e.1 ++ '='::e.2 := by simp [clean.2,line x same]
    rw [splitClean whole,if_pos rfl,List.filter_cons_of_pos (by rw [isSettingAssignment clean.1]; exact entry)]
    rfl
  | false =>
    obtain ⟨v,post,parts⟩ := List.exists_cons_of_ne_nil (splitNonempty '\n' e.2)
    have right : split '\n' ('='::e.2) = ('='::v)::post := by simp [split,parts]
    have left : split '\n' e.1 = [] ++ [e.1] := splitClean clean.2
    rw [splitTouch left right,if_neg Bool.false_ne_true,List.filter_eq_nil_iff]
    intro l mem
    have none : ∀ x : Setting, e.1 ≠ x.name := by
      intro x same
      rw [settingEntry.mpr ⟨x,same⟩] at entry
      cases entry
    rcases List.mem_cons.mp mem with rfl | later
    · rw [isSettingAssignment clean.1]
      exact Bool.eq_false_iff.mp entry
    · have found := quiet none
      rw [parts] at found
      exact Bool.eq_false_iff.mp (found l later)

def overrides (environ : List (Text × Text)) : List Export :=
  (environ.filter isSettingEntry).map (fun e => ⟨e.1,false,e.2⟩)

theorem tmpfLines {environ : List (Text × Text)} (clean : ∀ e ∈ environ, '=' ∉ e.1 ∧ '\n' ∉ e.1)
    (quiet : ∀ e ∈ environ, (∀ x : Setting, e.1 ≠ x.name) → ∀ line ∈ (split '\n' e.2).tail, isSetting line = false)
    (lines : ∀ e ∈ environ, ∀ x : Setting, e.1 = x.name → '\n' ∉ e.2) :
    ((environ.flatMap (fun e => split '\n' (e.1 ++ '='::e.2))).filter isSetting).map (fun l => "export ".toList ++ l) =
      (overrides environ).map Export.line := by
  induction environ with
  | nil => rfl
  | cons e environ ih =>
    have rest := ih (fun f mem => clean f (by simp [mem])) (fun f mem => quiet f (by simp [mem]))
      (fun f mem => lines f (by simp [mem]))
    rw [List.flatMap_cons,List.filter_append,List.map_append,rest,
      entryLines (clean e (by simp)) (quiet e (by simp)) (lines e (by simp))]
    cases entry : isSettingEntry e with
    | true =>
      rw [overrides,overrides,List.filter_cons_of_pos entry]
      rfl
    | false =>
      rw [overrides,overrides,List.filter_cons_of_neg (by simp [entry])]
      rfl

theorem plainLine {braces : Nat} {last : Option Char} {t : Text} (reads : plain braces last t = true) : '\n' ∉ t := by
  induction t generalizing braces last with
  | nil => exact List.not_mem_nil
  | cons c cs ih =>
    simp only [plain,Bool.and_eq_true] at reads
    intro mem
    rcases List.mem_cons.mp mem with rfl | later
    · have here := reads.1.1
      have operator : '\n' ∈ operators := by decide
      simp [literalHere,operator] at here
    · exact ih reads.2 later

section Overwrite

variable (c : Caller)

theorem overridesNodup : ((overrides c.environ).map Export.name).Nodup := by
  rw [overrides,List.map_map]
  exact c.once.sublist (List.filter_sublist.map Prod.fst)

theorem overridesCases {e : Export} (mem : e ∈ overrides c.environ) :
    ∃ (x : Setting) (v : Text), e = ⟨x.name,false,v⟩ ∧ (x.name,v) ∈ c.environ := by
  obtain ⟨f,inside,rfl⟩ := List.mem_map.mp mem
  obtain ⟨found,entry⟩ := List.mem_filter.mp inside
  obtain ⟨x,same⟩ := settingEntry.mp entry
  exact ⟨x,f.2,by rw [same],by rw [← same]; exact found⟩

theorem overridesMem {x : Setting} {v : Text} (mem : (x.name,v) ∈ c.environ) :
    (⟨x.name,false,v⟩ : Export) ∈ overrides c.environ :=
  List.mem_map.mpr ⟨(x.name,v),List.mem_filter.mpr ⟨mem,settingEntry.mpr ⟨x,rfl⟩⟩,rfl⟩

theorem overwriteLines (quiet : Quiet c) (lines : ∀ (x : Setting) v, (x.name,v) ∈ c.environ → '\n' ∉ v)
    (config : List Text) : overwriteTestSetting config c =
      (source c.shell config).bind (fun s => source s ((overrides c.environ).map Export.line)) := by
  have own : ∀ e ∈ c.environ, ∀ x : Setting, e.1 = x.name → '\n' ∉ e.2 := by
    intro e mem x same
    exact lines x e.2 (by rw [← same]; exact mem)
  rw [overwriteTestSetting,Caller.env,tmpfLines c.named quiet own]

theorem overridesAbsent {x : Setting} (unset : ∀ v, (x.name,v) ∉ c.environ) :
    x.name ∉ (overrides c.environ).map Export.name := by
  intro mem
  obtain ⟨e,inside,same⟩ := List.mem_map.mp mem
  obtain ⟨y,v,rfl,found⟩ := overridesCases c inside
  rw [show y.name = x.name from same] at found
  exact unset v found

/- Over what the config file has set, each setting that the caller has exported. -/
theorem overridesValue (t : ShellVars) (x : Setting) : (assignAll t (overrides c.environ)).value x.name =
    if c.shell.exported x.name && (c.shell.value x.name).isSome then c.shell.value x.name else t.value x.name := by
  cases exported : c.shell.exported x.name with
  | false =>
    have unset : ∀ v, (x.name,v) ∉ c.environ := by
      intro v found
      rw [((c.listed x.name v).mp found).1] at exported
      cases exported
    exact (assignAllOther (overridesAbsent c unset) t).1
  | true =>
    cases value : c.shell.value x.name with
    | none =>
      have unset : ∀ v, (x.name,v) ∉ c.environ := by
        intro v found
        rw [((c.listed x.name v).mp found).2] at value
        cases value
      exact (assignAllOther (overridesAbsent c unset) t).1
    | some v =>
      have found := (c.listed x.name v).mpr ⟨exported,value⟩
      exact assignAllOwn (overridesNodup c) (overridesMem c found) t

theorem overridesOthers {proj : Text} {before t : ShellVars} (kept : OthersKept proj before t) :
    OthersKept proj before (assignAll t (overrides c.environ)) := by
  have absent {n : Text} (other : ∀ x : Setting, n ≠ x.name) : n ∉ (overrides c.environ).map Export.name := by
    intro mem
    obtain ⟨e,inside,same⟩ := List.mem_map.mp mem
    obtain ⟨x,v,rfl,-⟩ := overridesCases c inside
    exact other x same.symm
  have run := assignAllOther (absent (fun x same => (settingNames x).2 same.symm)) t
  refine ⟨run.1.trans kept.1,fun name own other => ?_⟩
  obtain ⟨value,exported⟩ := assignAllOther (absent other) t
  exact ⟨value.trans (kept.2 name own other).1,exported.trans (kept.2 name own other).2⟩

end Overwrite

/-! ### Both together -/

theorem survivesReadable {proj : Text} {prepared : ShellVars} {caller : Caller}
    (nodebug : startsWith "debug".toList proj = false) (quiet : Quiet caller)
    (readable : Readable proj prepared caller) :
    Survives proj prepared caller := by
  have reads := configReads readable.project readable.written
  have sourced (t : ShellVars) : source t (prepareTestProject proj prepared).1 =
      some (assignAll t (configExports proj prepared)) := by
    rw [prepareLines nodebug]
    exact sourceReads reads t
  have others : ∀ e ∈ overrides caller.environ, isName e.name = true ∧ e.reads = true := by
    intro e mem
    obtain ⟨x,v,rfl,found⟩ := overridesCases caller mem
    exact ⟨(settingNames x).1,readable.exported x v found⟩
  have overwritten : overwriteTestSetting (prepareTestProject proj prepared).1 caller =
      some (assignAll (assignAll caller.shell (configExports proj prepared)) (overrides caller.environ)) := by
    rw [overwriteLines caller quiet (fun x v found => plainLine (readable.exported x v found)),sourced]
    exact sourceReads others _
  constructor
  · intro t
    refine ⟨_,sourced t,fun x v value => ?_,configOthers t⟩
    rw [configValue,orDefaultFilled value (fun some empty => readable.filled x some (empty ▸ value))]
  · exact ⟨_,_,sourced caller.shell,overwritten,overridesValue caller _,
      overridesOthers caller (configOthers caller.shell)⟩

/- Values of which the shell expands nothing but quotes and operators. -/
def Unexpanded (v : Text) : Prop := ∀ c ∈ v, c ≠ '$' ∧ c ≠ '~' ∧ c ≠ '{' ∧ c ≠ '\n'

theorem survivesOnly {proj : Text} {prepared : ShellVars} {caller : Caller}
    (nodebug : startsWith "debug".toList proj = false) (quiet : Quiet caller) (project : Unexpanded proj)
    (before : ∀ (x : Setting) v, prepared.value x.name = some v → Unexpanded v)
    (after : ∀ (x : Setting) v, (x.name,v) ∈ caller.environ → Unexpanded v) (survives : Survives proj prepared caller) :
    Readable proj prepared caller := by
  have sign {v : Text} (clean : Unexpanded v) : '$' ∉ v := fun mem => (clean '$' mem).1 rfl
  obtain ⟨s,ran,restored,others⟩ := survives.restored prepared
  rw [prepareLines nodebug] at ran
  have reads : ∀ e ∈ configExports proj prepared, e.reads = true := by
    refine sourceExact configNodup configNamed ran (fun e mem => ?_)
    rcases configCases mem with rfl | ⟨x,rfl⟩
    · exact .inr ⟨sign project,others.1⟩
    · cases value : prepared.value x.name with
      | none =>
        rw [orDefaultEmpty (.inl value)]
        exact .inl (defaultReads x)
      | some v =>
        cases v with
        | nil =>
          rw [orDefaultEmpty (.inr value)]
          exact .inl (defaultReads x)
        | cons c cs =>
          rw [orDefaultFilled value (fun _ => List.cons_ne_nil c cs)]
          exact .inr ⟨sign (before x _ value),restored x _ value⟩
  rw [sourceReads (fun e mem => ⟨configNamed e mem,reads e mem⟩)] at ran
  cases Option.some.inj ran
  have filled : ∀ x : Setting, x.default ≠ [] → prepared.value x.name ≠ some [] := by
    intro x some empty
    have own := restored x [] empty
    rw [configValue,orDefaultEmpty (.inr empty),Option.some.injEq] at own
    exact some own
  refine ⟨reads _ (List.mem_cons_self ..),filled,fun x v value => ?_,fun x v found => ?_⟩
  · have line := reads _ (configMem x)
    rwa [Export.reads,orDefaultFilled value (fun some empty => filled x some (empty ▸ value))] at line
  · obtain ⟨configured,final,first,overwritten,precedence,-⟩ := survives.precedence
    rw [overwriteLines caller quiet (fun x v found mem => (after x v found '\n' mem).2.2.2 rfl),first] at overwritten
    refine sourceExact (overridesNodup caller) (fun e mem => ?_) overwritten (fun e mem => ?_) _
      (overridesMem caller found)
    · obtain ⟨y,w,rfl,-⟩ := overridesCases caller mem
      exact (settingNames y).1
    · obtain ⟨y,w,rfl,known⟩ := overridesCases caller mem
      obtain ⟨exported,value⟩ := (caller.listed y.name w).mp known
      refine .inr ⟨sign (after y w known),?_⟩
      rw [precedence y,exported,value]
      rfl

/- A reference may read as itself by what its variable holds, so no condition on the characters is needed
for every value. -/
example : readWords (fun n => if n = "RUN_MODE".toList then some "$RUN_MODE".toList else none) "$RUN_MODE".toList =
    some ["$RUN_MODE".toList] := by decide +kernel

/- The defect, and how far it goes. On values that the shell reads as themselves where they stand the
settings survive; on values without an expansion they do on no others. -/
theorem settingsSurvive {proj : Text} {prepared : ShellVars} {caller : Caller}
    (nodebug : startsWith "debug".toList proj = false) (quiet : Quiet caller) :
    (Readable proj prepared caller → Survives proj prepared caller) ∧
    (Unexpanded proj → (∀ (x : Setting) v, prepared.value x.name = some v → Unexpanded v) →
      (∀ (x : Setting) v, (x.name,v) ∈ caller.environ → Unexpanded v) →
      Survives proj prepared caller → Readable proj prepared caller) :=
  ⟨survivesReadable nodebug quiet,survivesOnly nodebug quiet⟩

/- A shell in which one setting is exported and nothing else is set. -/
def oneSetting (x : Setting) (v : Text) : Caller where
  shell := ⟨fun n => if n = x.name then some v else none,fun n => if n = x.name then true else false⟩
  environ := [(x.name,v)]
  listed := fun name w => by
    rw [List.mem_singleton,Prod.mk.injEq]
    by_cases same : name = x.name <;> simp [same,eq_comm]
  once := by simp
  named := fun e mem => by
    rw [List.mem_singleton.mp mem]
    exact ⟨nameClean (settingNames x).1,fun line => absurd (nameWord (settingNames x).1 '\n' line) (by decide)⟩

theorem oneQuiet (x : Setting) (v : Text) : Quiet (oneSetting x v) := by
  intro e mem other
  cases List.mem_singleton.mp mem
  exact absurd rfl (other x)

theorem oneExported (x : Setting) (v : Text) :
    (oneSetting x v).shell.exported x.name = true ∧ (oneSetting x v).shell.value x.name = some v :=
  ⟨if_pos rfl,if_pos rfl⟩

def unset : ShellVars := ⟨fun _ => none,fun _ => false⟩

theorem unsetValue (n v : Text) : unset.value n ≠ some v := fun found => nomatch (show none = some v from found)

theorem settingsSurvivePriority :
    Survives "mm".toList unset (oneSetting .priority "0-5".toList) ∧
    Readable "mm".toList unset (oneSetting .priority "0-5".toList) := by
  have readable : Readable "mm".toList unset (oneSetting .priority "0-5".toList) := by
    refine ⟨by decide +kernel,fun x _ => unsetValue x.name [],fun x v found => absurd found (unsetValue x.name v),
      fun x v mem => ?_⟩
    rw [(Prod.mk.inj (List.mem_singleton.mp mem)).2]
    decide +kernel
  have survives := (settingsSurvive (by decide) (oneQuiet .priority "0-5".toList)).1 readable
  have only := (settingsSurvive (by decide) (oneQuiet .priority "0-5".toList)).2
    (List.forall_iff_forall_mem.mp (by decide +kernel)) (fun x v found => absurd found (unsetValue x.name v))
    (fun x v mem => by
      rw [(Prod.mk.inj (List.mem_singleton.mp mem)).2]
      exact List.forall_iff_forall_mem.mp (by decide +kernel)) survives
  exact ⟨survives,only⟩

theorem descriptionLost : ¬ ∀ (proj : Text) (prepared : ShellVars) (caller : Caller),
    startsWith "debug".toList proj = false → '\n' ∉ proj → Quiet caller →
    (∀ (x : Setting) v, prepared.value x.name = some v → '\n' ∉ v) →
    (∀ (x : Setting) v, (x.name,v) ∈ caller.environ → '\n' ∉ v) → Survives proj prepared caller := by
  intro claim
  have clean : '\n' ∉ "MM regression test".toList := by decide
  obtain ⟨configured,final,-,ran,precedence,-⟩ :=
    (claim "mm".toList unset (oneSetting .testDescription "MM regression test".toList) (by decide) (by decide)
      (oneQuiet _ _) (fun x v found => absurd found (unsetValue x.name v))
      (fun x v mem => by rw [(Prod.mk.inj (List.mem_singleton.mp mem)).2]; exact clean)).precedence
  have value := precedence .testDescription
  obtain ⟨exported,held⟩ := oneExported .testDescription "MM regression test".toList
  rw [exported,held,Option.isSome_some,Bool.and_self,if_pos rfl] at value
  have lost : (overwriteTestSetting (prepareTestProject "mm".toList unset).1
      (oneSetting .testDescription "MM regression test".toList)).map
        (fun s => s.value Setting.testDescription.name) = some (some "MM".toList) := by decide +kernel
  rw [ran,Option.map_some,value,Option.some.injEq,Option.some.injEq] at lost
  revert lost
  decide

end MmRegression
