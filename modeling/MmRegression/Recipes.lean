import Mathlib.Data.List.Infix
import Mathlib.Data.List.Sort
import MmRegression.Shell

/-! The files below `cases/`, what `recipe.rb list` prints of them, and the checks
`run_recipe` makes before it starts a testcase: `check_remove_suffix`,
`check_test_flag` and `check_skip_priority`. -/
namespace MmRegression

structure CaseFile where
  path : Text
  contents : Text
  deriving DecidableEq, Repr

/-- The regular files below `cases/` that `Dir.glob` finds, with their paths relative to it. -/
abbrev Cases := List CaseFile

/- The kernel takes a repeated slash for one. -/
def squeeze : Text → Text
  | [] => []
  | [c] => [c]
  | a::b::t => if a = '/' ∧ b = '/' then squeeze (b::t) else a :: squeeze (b::t)

def fileKey (id : Text) : Text := (squeeze ('/'::id)).tail

def Cases.find (cases : Cases) (path : Text) : Option CaseFile := cases.find? (fun f => f.path == path)
def Cases.isFile (cases : Cases) (path : Text) : Bool := (cases.find path).isSome
def Cases.isDir (cases : Cases) (path : Text) : Bool :=
  cases.any (fun f => startsWith (path ++ ['/']) f.path)

def Cases.nonEmpty (cases : Cases) (id : Text) : Bool :=
  match cases.find (fileKey id) with
  | some f => !f.contents.isEmpty
  | none => cases.isDir (fileKey id)

def gsubAway (pat : Text) : Nat → Text → Text
  | _, [] => []
  | n+1, _::cs => gsubAway pat n cs
  | 0, c::cs => if startsWith pat (c::cs) then gsubAway pat (pat.length - 1) cs
      else c :: gsubAway pat 0 cs

def scanKey (key : Text) (ok : Char → Bool) : Text → Option Text
  | [] => none
  | c::cs =>
      if startsWith key (c::cs) then
        match ((c::cs).drop key.length).takeWhile ok with
        | [] => scanKey key ok cs
        | w => some w
      else scanKey key ok cs

def number (t : Text) : Nat := Nat.ofDigitChars 10 t 0

def splitFields (sep : Char) (t : Text) : List Text :=
  ((split sep t).reverse.dropWhile (fun w => w.isEmpty)).reverse

def CaseFile.lines (f : CaseFile) : List Text := split '\n' f.contents

def CaseFile.id (f : CaseFile) : Text :=
  gsubAway "cases/".toList 0 ("cases/".toList ++ f.path)

def CaseFile.priority (f : CaseFile) : Nat :=
  f.lines.foldl (fun p line =>
    match scanKey "TEST_PRIORITY=".toList Char.isDigit line with
    | some w => number w
    | none => p) 10

def CaseFile.type (f : CaseFile) : List Text :=
  f.lines.foldl (fun ty line =>
    match scanKey "TEST_TYPE=".toList (fun c => isWord c || c == ',') line with
    | some w => splitFields ',' w
    | none => ty) ["normal".toList]

def scanRange : Text → Option (Nat × Nat)
  | [] => none
  | c::cs =>
      match (c::cs).takeWhile Char.isDigit, (c::cs).dropWhile Char.isDigit with
      | [], _ => scanRange cs
      | a, '-'::rest =>
          match rest.takeWhile Char.isDigit with
          | [] => scanRange cs
          | b => some (number a,number b)
      | _, _ => scanRange cs

def toI (t : Text) : Int :=
  match t.dropWhile (fun c => c == ' ' || c == '\t') with
  | '-'::ds => - (number (ds.takeWhile Char.isDigit) : Int)
  | '+'::ds => (number (ds.takeWhile Char.isDigit) : Int)
  | ds => (number (ds.takeWhile Char.isDigit) : Int)

def priorityOption (priority : Text) : List Int :=
  (splitFields ',' priority).flatMap (fun pr =>
    match scanRange pr with
    | some (a,b) => (List.range' a (b + 1 - a)).map Int.ofNat
    | none => [toI pr])

structure ListOptions where
  type : Option (List Text)
  priority : Option (List Int)
  recipelist : Option (List Text)
  deriving DecidableEq, Repr

def CaseFile.accepted (type : Option (List Text)) (priority : Option (List Int)) (f : CaseFile) : Bool :=
  !(endsWith "set2".toList f.path || endsWith "set3".toList f.path) &&
  (match type with
    | some types => f.type.all (fun t => types.contains t)
    | none => true) &&
  (match priority with
    | some range => range.contains (Int.ofNat f.priority)
    | none => true)

def CaseFile.listed (recipelist : Option (List Text)) (f : CaseFile) : Bool :=
  match recipelist with
  | some list => list.contains f.id
  | none => true

structure Entry where
  id : Text
  priority : Nat
  deriving DecidableEq, Repr

def CaseFile.entry (f : CaseFile) : Entry := ⟨f.id,f.priority⟩

def Entry.RunsBefore (a b : Entry) : Prop :=
  a.priority < b.priority ∨ (a.priority = b.priority ∧ List.le a.id b.id)

instance : DecidableRel Entry.RunsBefore := fun a b =>
  have : Decidable (List.le a.id b.id) := List.decidableLE a.id b.id
  inferInstanceAs (Decidable (_ ∨ _))

instance : Std.Total Entry.RunsBefore where
  total a b := by
    rcases Nat.lt_trichotomy a.priority b.priority with lt | eq | gt
    · exact .inl (.inl lt)
    · rcases List.le_total a.id b.id with le | le
      · exact .inl (.inr ⟨eq,le⟩)
      · exact .inr (.inr ⟨eq.symm,le⟩)
    · exact .inr (.inl gt)

instance : IsTrans Entry Entry.RunsBefore where
  trans a b c := by
    rintro (ab | ⟨ab,ab'⟩) (bc | ⟨bc,bc'⟩)
    · exact .inl (by omega)
    · exact .inl (by omega)
    · exact .inl (by omega)
    · exact .inr ⟨by omega,List.le_trans ab' bc'⟩

theorem Entry.RunsBefore.antisymm {a b : Entry} (ab : a.RunsBefore b) (ba : b.RunsBefore a) :
    a.id = b.id := by
  rcases ab with lt | ⟨eq,le⟩ <;> rcases ba with lt' | ⟨eq',le'⟩
  · omega
  · omega
  · omega
  · exact List.le_antisymm le le'

def generateList (cases : Cases) (o : ListOptions) : List Entry :=
  ((cases.filter (fun f => f.accepted o.type o.priority && f.listed o.recipelist)).map
    CaseFile.entry).insertionSort Entry.RunsBefore

/-- The `next if` lines of `show_list`; `--all` does not reach its test of `ARGV[1]`. -/
def shown (id : Text) : Bool :=
  !(endsWith "/config".toList id) && !(endsWith ".tmp".toList id && id.contains '/')

def showList (cases : Cases) (o : ListOptions) : List Entry :=
  (generateList cases o).filter (fun e => shown e.id)

def allrecipes (cases : Cases) : List Text :=
  (showList cases ⟨none,none,none⟩).map (fun e => (words e.id).headD [])

def typeOption (runMode : Text) : Option (List Text) :=
  if runMode = [] ∨ runMode = "all".toList then none else some (splitFields ',' runMode)

def filterRecipeList (cases : Cases) (env : Env) (recipelist : List Text) : List Text :=
  (showList cases ⟨typeOption env.runMode,some (priorityOption env.priority),some recipelist⟩).map
    (fun e => cutFirst '\t' e.id)

theorem generatedSorted (cases : Cases) (o : ListOptions) :
    (generateList cases o).Pairwise Entry.RunsBefore :=
  List.pairwise_insertionSort Entry.RunsBefore _

theorem memGenerateList {cases : Cases} {o : ListOptions} {e : Entry} :
    e ∈ generateList cases o ↔
      ∃ f ∈ cases, f.accepted o.type o.priority = true ∧ f.listed o.recipelist = true ∧ e = f.entry := by
  rw [generateList,(List.perm_insertionSort Entry.RunsBefore _).mem_iff,List.mem_map]
  constructor
  · rintro ⟨f,mem,rfl⟩
    obtain ⟨member,kept⟩ := List.mem_filter.mp mem
    rw [Bool.and_eq_true] at kept
    exact ⟨f,member,kept.1,kept.2,rfl⟩
  · rintro ⟨f,member,accepted,listed,rfl⟩
    exact ⟨f,List.mem_filter.mpr ⟨member,by simp [accepted,listed]⟩,rfl⟩

/-! ### The checks of `run_recipe` -/

def removedSuffixes : List Text :=
  ["/config".toList,".set".toList,".set2".toList,".set3".toList,".tmp".toList,".old".toList,".sh".toList]

def checkRemoveSuffix (cases : Cases) (develMode : Bool) (id : Text) : Bool :=
  let recipe := "cases/".toList ++ id
  !cases.isDir (fileKey id) &&
  !(removedSuffixes.any (fun suf => endsWith suf recipe)) &&
  !(endsWith ".auto".toList recipe && cases.isFile (fileKey (id.take (id.length - 5)))) &&
  !(endsWith ".devel".toList recipe && !develMode)

def blanksForCommas (t : Text) : Text := t.map (fun c => if c = ',' then ' ' else c)

def checkTestFlag (runMode testType : Text) : Bool :=
  let type := if testType = [] then "normal".toList else testType
  if runMode = "all".toList then false
  else !((words (blanksForCommas type)).all
    (fun a => (words (blanksForCommas runMode)).contains a))

def seqWords (a b : Text) : List Nat :=
  if a ≠ [] ∧ b ≠ [] ∧ a.all Char.isDigit ∧ b.all Char.isDigit then
    List.range' (number a) (number b + 1 - number a)
  else []

def hasRange : Text → Bool
  | a :: '-' :: b :: t => (a.isDigit && b.isDigit) || hasRange ('-'::b::t)
  | _::t => hasRange t
  | [] => false

def sedCommas : Text → Text
  | ',' :: ',' :: t => ',' :: sedCommas t
  | c::t => c :: sedCommas t
  | [] => []

def normalizePriority (priority : Text) : Text :=
  let out := (words (blanksForCommas priority)).foldl (fun out elm =>
    if hasRange elm then
      out ++ (',' :: (seqWords (cutFirst '-' elm) (cutFirst '-' (cutRest '-' elm))).flatMap
        (fun n => digits n ++ [',']))
    else out ++ (',' :: elm)) []
  sedCommas (out ++ [','])

def contains (sub t : Text) : Bool := t.tails.any (startsWith sub)

def checkSkipPriority (priority testPriority : Text) : Bool :=
  contains ((',' :: testPriority) ++ [',']) (normalizePriority priority)

example : normalizePriority "0-3,7".toList = ",0,1,2,3,7,".toList := by decide

theorem containsCons (sub : Text) (c : Char) (cs : Text) :
    contains sub (c::cs) = (startsWith sub (c::cs) || contains sub cs) := by
  simp [contains]

theorem containsIff {sub t : Text} : contains sub t = true ↔ ∃ a b, t = a ++ (sub ++ b) := by
  constructor
  · intro found
    obtain ⟨tail,mem,begins⟩ := List.any_eq_true.mp found
    obtain ⟨a,rfl⟩ := (List.mem_tails _ _).mp mem
    obtain ⟨b,rfl⟩ := List.isPrefixOf_iff_prefix.mp begins
    exact ⟨a,b,rfl⟩
  · rintro ⟨a,b,rfl⟩
    refine List.any_eq_true.mpr ⟨sub ++ b,(List.mem_tails _ _).mpr (List.suffix_append a _),?_⟩
    exact List.isPrefixOf_iff_prefix.mpr (List.prefix_append sub b)

def twoCases : Cases := [⟨"d/a".toList,"TEST_PRIORITY=5".toList⟩,⟨"d/b".toList,"TEST_PRIORITY=5".toList⟩]

end MmRegression
