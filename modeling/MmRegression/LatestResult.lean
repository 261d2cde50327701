import Mathlib.Data.List.Infix
import MmRegression.Template
import MmRegression.Version

/-! The option `-l` of `test_summary.rb`: `parse_args` puts the directory that `find_latest_result_directory`
returns behind the arguments, and `check_args` leaves when both are given. The file system and
`Array#sort!` are parameters. -/
namespace MmRegression

structure ResultFiles where
  glob : Text → List Text
  mtime : Text → Nat
  isDirectory : Text → Bool
  exist : Text → Bool
  expandPath : Text → Text
  unpacked : Text → Text
  sort : (Text → Text → Int) → List Text → List Text

def recipelistOf (dir : Text) : Text := dir ++ "/recipelist".toList

def everyRecipelist (dir : Text) : Text := dir ++ "/**/recipelist".toList

def stringCompare (a b : Text) : Int :=
  match characters.lexicographic.cmp a b with
  | some .lt => -1
  | some .eq => 0
  | _ => 1

def mtimeCompare (f : ResultFiles) (a b : Text) : Int :=
  if f.mtime (recipelistOf a) < f.mtime (recipelistOf b) then -1
  else if f.mtime (recipelistOf a) = f.mtime (recipelistOf b) then 0
  else 1

def latestCompare (f : ResultFiles) (a b : Text) : Int :=
  if startsWith b a then -1 else if startsWith a b then 1 else mtimeCompare f a b

def resultDirs (f : ResultFiles) (workdir : Text) : List Text := (f.glob (everyRecipelist workdir)).map dirname

def findLatestResultDirectory (f : ResultFiles) (workdir : Text) : Option Text :=
  (f.sort (latestCompare f) (f.sort stringCompare (resultDirs f workdir))).getLast?

inductive ParsedArgs where
  | targets (dirs : List Text)
  | exited (message : Text)
  | raised
  deriving DecidableEq, Repr

def checkArgs (latest : Bool) (targets : List Text) : ParsedArgs :=
  if latest && targets.length > 0 then .exited "both of runname and -l option are given (not intended)".toList
  else .targets targets

def targetsOf (f : ResultFiles) (dat : Text) : List Text :=
  let dat := f.expandPath dat
  if f.isDirectory dat then (f.sort stringCompare (f.glob (everyRecipelist dat))).map dirname
  else if f.exist dat then [f.unpacked dat ++ "/work_log_testrun".toList]
  else []

/- `File.expand_path nil` raises an error, which is what no result directory comes to. -/
def parseArgs (f : ResultFiles) (workdir : Text) (latest : Bool) (args : List Text) : ParsedArgs :=
  let targets := args.map some ++ (if latest then [findLatestResultDirectory f workdir] else [])
  if targets.contains none then .raised
  else
    let found := ((targets.filterMap id).flatMap (targetsOf f)).filter (fun t => f.exist (t ++ "/environment".toList))
    checkArgs latest (f.sort (mtimeCompare f) found)

/-! ### What the claim says -/

/- On different directories. -/
structure StrictTotal (dirs : List Text) (before : Text → Text → Prop) : Prop where
  one : ∀ a ∈ dirs, ∀ b ∈ dirs, a ≠ b → (before a b ↔ ¬ before b a)
  trans : ∀ a ∈ dirs, ∀ b ∈ dirs, ∀ c ∈ dirs, a ≠ b → b ≠ c → before a b → before b c → before a c

def Sorted (f : ResultFiles) (a b : Text) : Prop := latestCompare f a b < 0

def PathPrefix (a b : Text) : Prop := a = b ∨ startsWith (a ++ ['/']) b = true

structure LatestSelected (f : ResultFiles) (workdir : Text) : Prop where
  reports : ∃ latest targets, findLatestResultDirectory f workdir = some latest ∧
    parseArgs f workdir true [] = .targets targets ∧ f.expandPath latest ∈ targets
  ordered : StrictTotal (resultDirs f workdir) (Sorted f)
  newest : ∀ latest, findLatestResultDirectory f workdir = some latest → ∀ dir ∈ resultDirs f workdir,
    ¬ PathPrefix dir latest → ¬ PathPrefix latest dir →
      f.mtime (recipelistOf dir) ≤ f.mtime (recipelistOf latest)

/-! ### `check_args` -/

theorem checkLatest {found targets : List Text} (left : checkArgs true found = .targets targets) : targets = [] := by
  rw [checkArgs,Bool.true_and] at left
  split at left
  · cases left
  · rename_i none
    cases left
    exact List.length_eq_zero_iff.mp (by simpa using none)

/- With `-l` the directory that is to be reported on makes `check_args` leave. -/
theorem latestTargets {f : ResultFiles} {workdir : Text} {args targets : List Text}
    (parsed : parseArgs f workdir true args = .targets targets) : targets = [] := by
  simp only [parseArgs,reduceIte] at parsed
  split at parsed
  · cases parsed
  · exact checkLatest parsed

theorem latestExits (f : ResultFiles) (workdir : Text) : ¬ LatestSelected f workdir := by
  intro selected
  obtain ⟨latest,targets,-,parsed,mem⟩ := selected.reports
  rw [latestTargets parsed] at mem
  exact List.not_mem_nil mem

/-! ### The comparison -/

/- Two directories and a third with no prefix in common that was written between them, while the older of
the two is a prefix of the newer. -/
def Straddled (f : ResultFiles) (dirs : List Text) : Prop :=
  ∃ parent ∈ dirs, ∃ child ∈ dirs, ∃ other ∈ dirs, parent ≠ child ∧ startsWith parent child = true ∧
    (startsWith parent other = false ∧ startsWith other parent = false) ∧
    (startsWith child other = false ∧ startsWith other child = false) ∧
    f.mtime (recipelistOf parent) < f.mtime (recipelistOf other) ∧
    f.mtime (recipelistOf other) < f.mtime (recipelistOf child)

section Comparison

variable {f : ResultFiles} {dirs : List Text}

theorem sortedCases (a b : Text) : Sorted f a b ↔ startsWith b a = true ∨
    startsWith b a = false ∧ startsWith a b = false ∧ f.mtime (recipelistOf a) < f.mtime (recipelistOf b) := by
  rw [Sorted,latestCompare]
  cases below : startsWith b a with
  | true => simp
  | false =>
    cases above : startsWith a b with
    | true => simp
    | false =>
      rw [mtimeCompare]
      by_cases earlier : f.mtime (recipelistOf a) < f.mtime (recipelistOf b)
      · simp [earlier]
      · simp only [earlier]
        by_cases same : f.mtime (recipelistOf a) = f.mtime (recipelistOf b) <;> simp [same]

theorem startsTrans {a b c : Text} (first : startsWith a b = true) (second : startsWith b c = true) :
    startsWith a c = true := by
  rw [startsWith,List.isPrefixOf_iff_prefix] at *
  exact first.trans second

theorem startsOne {a b : Text} (first : startsWith a b = true) (second : startsWith b a = true) : a = b := by
  rw [startsWith,List.isPrefixOf_iff_prefix] at *
  exact first.eq_of_length_le second.length_le

theorem sortedOne (distinct : ∀ a ∈ dirs, ∀ b ∈ dirs, f.mtime (recipelistOf a) = f.mtime (recipelistOf b) → a = b)
    {a b : Text} (inside : a ∈ dirs) (also : b ∈ dirs) (different : a ≠ b) : Sorted f a b ↔ ¬ Sorted f b a := by
  rw [sortedCases,sortedCases]
  cases below : startsWith b a with
  | true =>
    cases above : startsWith a b with
    | true => exact absurd (startsOne above below) different
    | false => simp
  | false =>
    cases above : startsWith a b with
    | true => simp
    | false =>
      have apart : f.mtime (recipelistOf a) ≠ f.mtime (recipelistOf b) :=
        fun same => different (distinct a inside b also same)
      simp only [Bool.false_eq_true,false_or,true_and]
      omega

/- A cycle of three has one step along a prefix: two would make it one, and without it the times go round. -/
theorem cycleStep {a b c : Text} (inside : a ∈ dirs ∧ b ∈ dirs ∧ c ∈ dirs) (different : a ≠ b ∧ a ≠ c)
    (below : startsWith b a = true) (second : Sorted f b c) (third : Sorted f c a) : Straddled f dirs := by
  rcases (sortedCases b c).mp second with deeper | ⟨low,high,later⟩
  · have whole := startsTrans deeper below
    rcases (sortedCases c a).mp third with back | ⟨-,none,-⟩
    · exact absurd (startsOne back whole) different.2
    · rw [whole] at none
      cases none
  · rcases (sortedCases c a).mp third with back | ⟨none,some,latest⟩
    · rw [startsTrans below back] at high
      cases high
    · exact ⟨b,inside.2.1,a,inside.1,c,inside.2.2,different.1.symm,below,⟨high,low⟩,⟨none,some⟩,later,latest⟩

theorem cycleStraddled {a b c : Text} (inside : a ∈ dirs ∧ b ∈ dirs ∧ c ∈ dirs)
    (different : a ≠ b ∧ b ≠ c ∧ a ≠ c) (first : Sorted f a b) (second : Sorted f b c) (third : Sorted f c a) :
    Straddled f dirs := by
  obtain ⟨ha,hb,hc⟩ := inside
  obtain ⟨ab,bc,ac⟩ := different
  rcases (sortedCases a b).mp first with below | ⟨-,-,one⟩
  · exact cycleStep ⟨ha,hb,hc⟩ ⟨ab,ac⟩ below second third
  · rcases (sortedCases b c).mp second with below | ⟨-,-,two⟩
    · exact cycleStep ⟨hb,hc,ha⟩ ⟨bc,ab.symm⟩ below third first
    · rcases (sortedCases c a).mp third with below | ⟨-,-,three⟩
      · exact cycleStep ⟨hc,ha,hb⟩ ⟨ac.symm,bc.symm⟩ below first second
      · omega

theorem straddledOrder (distinct : ∀ a ∈ dirs, ∀ b ∈ dirs, f.mtime (recipelistOf a) = f.mtime (recipelistOf b) →
    a = b) :
    StrictTotal dirs (Sorted f) ↔ ¬ Straddled f dirs := by
  constructor
  · intro order straddled
    obtain ⟨parent,hp,child,hc,other,ho,different,below,apart,away,early,late⟩ := straddled
    have first : Sorted f parent other := (sortedCases _ _).mpr (.inr ⟨apart.2,apart.1,early⟩)
    have second : Sorted f other child := (sortedCases _ _).mpr (.inr ⟨away.1,away.2,late⟩)
    have third : Sorted f child parent := (sortedCases _ _).mpr (.inl below)
    have left : parent ≠ other := fun same => by rw [same] at early; omega
    have right : other ≠ child := fun same => by rw [same] at late; omega
    have whole := order.trans parent hp other ho child hc left right first second
    exact (order.one parent hp child hc different).mp whole third
  · intro straddled
    refine ⟨fun a ha b hb different => sortedOne distinct ha hb different,?_⟩
    intro a ha b hb c hc ab bc first second
    have ac : a ≠ c := by
      intro same
      subst same
      exact (sortedOne distinct ha hb ab).mp first second
    refine Classical.by_contradiction (fun wrong => ?_)
    have third : Sorted f c a := (sortedOne distinct hc ha ac.symm).mpr wrong
    exact straddled (cycleStraddled ⟨ha,hb,hc⟩ ⟨ab,bc,ac⟩ first second third)

end Comparison

/- What Ruby says of `sort!`: the members stay, and they are in order where the block is one. -/
def Sorts (f : ResultFiles) : Prop := ∀ (compare : Text → Text → Int) (l : List Text), (f.sort compare l).Perm l ∧
  (StrictTotal l (fun a b => compare a b < 0) → l.Nodup → (f.sort compare l).Pairwise (fun a b => compare a b < 0))

/- Where the block is an order, nothing without a prefix in common with the last directory is newer. -/
theorem latestNewest {f : ResultFiles} {workdir latest : Text} (sorts : Sorts f)
    (once : (resultDirs f workdir).Nodup) (order : StrictTotal (resultDirs f workdir) (Sorted f))
    (found : findLatestResultDirectory f workdir = some latest) {dir : Text} (mem : dir ∈ resultDirs f workdir)
    (apart : startsWith dir latest = false) (other : startsWith latest dir = false) :
    f.mtime (recipelistOf dir) < f.mtime (recipelistOf latest) := by
  obtain ⟨first,-⟩ := sorts stringCompare (resultDirs f workdir)
  obtain ⟨second,ordered⟩ := sorts (latestCompare f) (f.sort stringCompare (resultDirs f workdir))
  have strict : StrictTotal (f.sort stringCompare (resultDirs f workdir)) (Sorted f) :=
    ⟨fun a ha b hb => order.one a (first.mem_iff.mp ha) b (first.mem_iff.mp hb),
      fun a ha b hb c hc => order.trans a (first.mem_iff.mp ha) b (first.mem_iff.mp hb) c (first.mem_iff.mp hc)⟩
  have sorted := ordered strict (first.nodup_iff.mpr once)
  obtain ⟨front,shape⟩ := List.getLast?_eq_some_iff.mp found
  rw [shape] at second sorted
  have different : dir ≠ latest := by
    intro same
    subst same
    rw [startsWith,Bool.eq_false_iff] at apart
    exact apart (List.isPrefixOf_iff_prefix.mpr (List.prefix_refl dir))
  have early : dir ∈ front := by
    have inside := second.mem_iff.mpr (first.mem_iff.mpr mem)
    exact (List.mem_append.mp inside).resolve_right (fun last => different (List.mem_singleton.mp last))
  have before : Sorted f dir latest := (List.pairwise_append.mp sorted).2.2 dir early latest (by simp)
  rcases (sortedCases dir latest).mp before with below | ⟨-,-,older⟩
  · rw [other] at below
    cases below
  · exact older

/- One result directory, which any sort leaves where it is. -/
def oneResult : ResultFiles where
  glob := fun _ => ["work/mm/recipelist".toList]
  mtime := fun _ => 1
  isDirectory := fun p => p == "work/mm".toList
  exist := fun p => p == "work/mm/environment".toList
  expandPath := fun p => p
  unpacked := fun p => p
  sort := fun _ l => l

theorem oneResultExits : resultDirs oneResult "work".toList = ["work/mm".toList] ∧
    findLatestResultDirectory oneResult "work".toList = some "work/mm".toList ∧
    parseArgs oneResult "work".toList true [] =
      .exited "both of runname and -l option are given (not intended)".toList ∧
    ¬ LatestSelected oneResult "work".toList := by
  have exited : parseArgs oneResult "work".toList true [] =
      .exited "both of runname and -l option are given (not intended)".toList := by decide +kernel
  refine ⟨by decide +kernel,by decide +kernel,exited,fun selected => ?_⟩
  obtain ⟨latest,targets,-,parsed,-⟩ := selected.reports
  rw [exited] at parsed
  cases parsed

end MmRegression
