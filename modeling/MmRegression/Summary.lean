import Mathlib.Data.List.Induction
import Mathlib.Data.List.Sort
import MmRegression.Hash
import MmRegression.RoundLoop

/-! `test_summary.rb` on several result directories. The results come from a hash that each
directory overwrites, the list of ids from the lists of all of them, and the totals are
taken once over each. -/
namespace MmRegression

/- A result directory, with the mtime of its `recipelist`. -/
structure Target where
  mtime : Nat
  dir : RoundDir

structure TestCaseSummary where
  testcaseid : Text
  dir : TestcaseDir

def TestCaseSummary.testcaseResult (tc : TestCaseSummary) : Text := MmRegression.testcaseResult tc.dir

/- `File.read(rlist).split("\n")` -/
def fileLines (lines : List Text) : List Text := (lines.reverse.dropWhile (fun l => l.isEmpty)).reverse

def Target.rlist (t : Target) : List Text :=
  fileLines (match t.dir.recipelist with
    | some list => list
    | none => t.dir.fullRecipeList.getD [])

def Target.recipelist (t : Target) : List Text := t.rlist.filter (fun rc => basename rc != "config".toList)

def Target.summary (t : Target) (tc : Text) : TestCaseSummary := ⟨tc,t.dir.tc (fileKey tc)⟩

def Target.tcHash (t : Target) : Hash Text TestCaseSummary :=
  Hash.empty.setAll (t.recipelist.map (fun tc => (tc,t.summary tc)))

def sortTargets (targets : List Target) : List Target :=
  (targets.filter (fun t => t.dir.environment.isSome)).insertionSort (fun a b => a.mtime ≤ b.mtime)

structure TestSummary where
  fullRecipeList : List Text
  testSummaryHash : Hash Text TestCaseSummary

def TestSummary.add (s : TestSummary) (t : Target) : TestSummary :=
  ⟨s.fullRecipeList ++ t.recipelist,s.testSummaryHash.merge t.tcHash⟩

def parseTargets (targets : List Target) : TestSummary :=
  let s := (sortTargets targets).foldl TestSummary.add ⟨[],.empty⟩
  { s with fullRecipeList := s.fullRecipeList.eraseDups }

/- The counts of `calc_progress_percentile`. -/
structure Percentile where
  done : Nat
  undone : Nat
  deriving DecidableEq, Repr

def Percentile.count (p : Percentile) (result : Text) : Percentile :=
  if (["PASS","FAIL","SKIP","WARN"].map String.toList).contains result then { p with done := p.done + 1 }
  else if (["RUNN","NONE"].map String.toList).contains result then { p with undone := p.undone + 1 }
  else p

def Percentile.line (p : Percentile) : Text :=
  let progress := if p.done + p.undone = 0 then 0 else 100 * p.done / (p.done + p.undone)
  "Progress: ".toList ++ (digits p.done ++ (" / ".toList ++ (digits (p.done + p.undone) ++
    (" (".toList ++ (digits progress ++ "%)".toList)))))

/- An id without an entry is a nil that has no result. -/
def TestSummary.calcProgressPercentile (s : TestSummary) : Option Percentile :=
  s.fullRecipeList.foldlM (fun p recipe => (s.testSummaryHash.get recipe).map (fun tc => p.count tc.testcaseResult)) ⟨0,0⟩

structure Sum where
  pass : Nat
  fail : Nat
  none : Nat
  skip : Nat
  warn : Nat
  deriving DecidableEq, Repr

/- `sum[tc.testcase_result] += 1`, with a nil for every other word. -/
def Sum.count (s : Sum) (result : Text) : Option Sum :=
  if result = "PASS".toList then some { s with pass := s.pass + 1 }
  else if result = "FAIL".toList then some { s with fail := s.fail + 1 }
  else if result = "NONE".toList then some { s with none := s.none + 1 }
  else if result = "SKIP".toList then some { s with skip := s.skip + 1 }
  else if result = "WARN".toList then some { s with warn := s.warn + 1 }
  else .none

def Sum.total (s : Sum) : Nat := s.pass + s.fail + s.warn + s.skip + s.none

def Sum.line (s : Sum) : Text :=
  "PASS ".toList ++ (digits s.pass ++ (", FAIL ".toList ++ (digits s.fail ++ (", WARN ".toList ++ (digits s.warn ++
    (", SKIP ".toList ++ (digits s.skip ++ (", NONE ".toList ++ digits s.none))))))))

def TestSummary.sum (s : TestSummary) : Option Sum :=
  s.testSummaryHash.entries.foldlM (fun sum e => sum.count e.2.testcaseResult) ⟨0,0,0,0,0⟩

def TestSummary.showDefaultSum (s : TestSummary) : Option (List Text) := do
  let sum ← s.sum
  let progress ← s.calcProgressPercentile
  some [progress.line,sum.line]

structure Newest (targets : List Target) (id : Text) (t : Target) : Prop where
  mem : t ∈ targets
  environment : t.dir.environment.isSome = true
  listed : id ∈ t.recipelist
  latest : ∀ u ∈ targets, u.dir.environment.isSome = true → id ∈ u.recipelist → u.mtime ≤ t.mtime

structure Merged (targets : List Target) : Prop where
  newest : ∀ id t, Newest targets id t →
    ∃ tc, (parseTargets targets).testSummaryHash.get id = some tc ∧ tc.testcaseResult = t.dir.reported id
  once : (parseTargets targets).fullRecipeList.Nodup ∧
    ∀ id, id ∈ (parseTargets targets).fullRecipeList ↔ basename id ≠ "config".toList ∧
      ∃ t ∈ targets, t.dir.environment.isSome = true ∧ id ∈ t.rlist
  totals : ∃ sum progress, (parseTargets targets).showDefaultSum = some [progress.line,sum.line] ∧
    (parseTargets targets).sum = some sum ∧ (parseTargets targets).calcProgressPercentile = some progress ∧
    sum.total = progress.done + progress.undone ∧
    progress.done + progress.undone = (parseTargets targets).fullRecipeList.length ∧
    sum.none = progress.undone

/-! ### One directory after the other -/

theorem memTcHash (t : Target) (id : Text) : id ∈ t.tcHash.keys ↔ id ∈ t.recipelist := by
  rw [Target.tcHash,Hash.memKeysSetAll]
  simp [Hash.keys,Hash.empty]

theorem tcHashEntry (t : Target) : ∀ e ∈ t.tcHash.entries, e.2 = t.summary e.1 := by
  intro e mem
  have held := t.tcHash.getEntry mem
  have values : ∀ e ∈ t.recipelist.map (fun tc => (tc,t.summary tc)), e.2 = t.summary e.1 := by simp
  rw [Target.tcHash,Hash.getSetAll values] at held
  split at held
  · exact (Option.some.inj held).symm
  · simp [Hash.get,Hash.empty] at held

theorem addGet (s : TestSummary) (t : Target) (id : Text) : (s.add t).testSummaryHash.get id =
    if id ∈ t.recipelist then some (t.summary id) else s.testSummaryHash.get id := by
  have keys := memTcHash t id
  rw [Hash.keys] at keys
  rw [TestSummary.add,Hash.merge,Hash.getSetAll (tcHashEntry t)]
  simp only [keys]

theorem addKeys (s : TestSummary) (t : Target) (id : Text) :
    id ∈ (s.add t).testSummaryHash.keys ↔ id ∈ t.recipelist ∨ id ∈ s.testSummaryHash.keys := by
  rw [TestSummary.add,Hash.merge,Hash.memKeysSetAll,← memTcHash]
  rfl

theorem memKeysFold (ts : List Target) (s : TestSummary) (same : ∀ id, id ∈ s.testSummaryHash.keys ↔ id ∈ s.fullRecipeList)
    (id : Text) : id ∈ (ts.foldl TestSummary.add s).testSummaryHash.keys ↔ id ∈ (ts.foldl TestSummary.add s).fullRecipeList := by
  induction ts generalizing s with
  | nil => exact same id
  | cons t ts ih =>
    refine ih (s.add t) (fun id => ?_)
    rw [addKeys,same,TestSummary.add,List.mem_append,or_comm]

theorem fullRecipeListFold (ts : List Target) (s : TestSummary) :
    (ts.foldl TestSummary.add s).fullRecipeList = s.fullRecipeList ++ ts.flatMap Target.recipelist := by
  induction ts generalizing s with
  | nil => simp
  | cons t ts ih => rw [List.foldl_cons,ih,TestSummary.add,List.flatMap_cons,List.append_assoc]

/- The last directory that lists an id is the newest one. -/
theorem foldNewest {ts : List Target} (sorted : ts.Pairwise (fun a b => a.mtime < b.mtime)) {id : Text}
    (listed : ∃ t ∈ ts, id ∈ t.recipelist) (s : TestSummary) : ∃ t ∈ ts, id ∈ t.recipelist ∧
      (∀ u ∈ ts, id ∈ u.recipelist → u.mtime ≤ t.mtime) ∧
      (ts.foldl TestSummary.add s).testSummaryHash.get id = some (t.summary id) := by
  induction ts using List.reverseRecOn with
  | nil => simp at listed
  | append_singleton ts last ih =>
    obtain ⟨front,_,before⟩ := List.pairwise_append.mp sorted
    rw [List.foldl_append,List.foldl_cons,List.foldl_nil,addGet]
    by_cases here : id ∈ last.recipelist
    · refine ⟨last,by simp,here,fun u mem _ => ?_,if_pos here⟩
      rcases List.mem_append.mp mem with early | same
      · exact (before u early last (by simp)).le
      · rw [List.mem_singleton.mp same]
    · obtain ⟨t,mem,lists⟩ := listed
      have early : t ∈ ts := by
        rcases List.mem_append.mp mem with early | same
        · exact early
        · rw [List.mem_singleton.mp same] at lists
          exact absurd lists here
      obtain ⟨t,mem,lists,latest,held⟩ := ih front ⟨t,early,lists⟩
      refine ⟨t,by simp [mem],lists,fun u member listing => ?_,(if_neg here).trans held⟩
      rcases List.mem_append.mp member with early | same
      · exact latest u early listing
      · rw [List.mem_singleton.mp same] at listing
        exact absurd listing here

section Targets
variable {targets : List Target}

theorem memSortTargets {t : Target} : t ∈ sortTargets targets ↔ t ∈ targets ∧ t.dir.environment.isSome = true := by
  rw [sortTargets,(List.perm_insertionSort _ _).mem_iff,List.mem_filter]

theorem sortedTargets (distinct : (targets.map Target.mtime).Nodup) :
    (sortTargets targets).Pairwise (fun a b => a.mtime < b.mtime) := by
  have total : Std.Total (fun a b : Target => a.mtime ≤ b.mtime) := ⟨fun a b => Nat.le_total a.mtime b.mtime⟩
  have trans : IsTrans Target (fun a b => a.mtime ≤ b.mtime) := ⟨fun a b c => Nat.le_trans⟩
  have ordered := List.pairwise_insertionSort (fun a b : Target => a.mtime ≤ b.mtime)
    (targets.filter (fun t => t.dir.environment.isSome))
  have apart : ((sortTargets targets).map Target.mtime).Nodup := by
    have kept : ((targets.filter (fun t => t.dir.environment.isSome)).map Target.mtime).Nodup :=
      distinct.sublist (List.filter_sublist.map Target.mtime)
    exact ((List.perm_insertionSort _ _).map Target.mtime).nodup_iff.mpr kept
  exact (ordered.and (List.pairwise_map.mp apart)).imp (fun both => lt_of_le_of_ne both.1 both.2)

theorem memFullRecipeList {id : Text} : id ∈ (parseTargets targets).fullRecipeList ↔
    ∃ t ∈ targets, t.dir.environment.isSome = true ∧ id ∈ t.recipelist := by
  rw [parseTargets,List.mem_eraseDups,fullRecipeListFold,List.nil_append,List.mem_flatMap]
  simp only [memSortTargets,and_assoc]

theorem getNewest (distinct : (targets.map Target.mtime).Nodup) {id : Text}
    (mem : id ∈ (parseTargets targets).fullRecipeList) :
    ∃ t, Newest targets id t ∧ (parseTargets targets).testSummaryHash.get id = some (t.summary id) := by
  obtain ⟨t,member,environment,listed⟩ := memFullRecipeList.mp mem
  obtain ⟨t,inside,lists,latest,held⟩ := foldNewest (sortedTargets distinct)
    ⟨t,memSortTargets.mpr ⟨member,environment⟩,listed⟩ ⟨[],.empty⟩
  obtain ⟨member,environment⟩ := memSortTargets.mp inside
  exact ⟨t,⟨member,environment,lists,fun u mem env => latest u (memSortTargets.mpr ⟨mem,env⟩)⟩,held⟩

theorem Newest.same (distinct : (targets.map Target.mtime).Nodup) {id : Text} {t u : Target} (nt : Newest targets id t)
    (nu : Newest targets id u) : t = u :=
  List.inj_on_of_nodup_map distinct nt.mem nu.mem (Nat.le_antisymm (nu.latest t nt.mem nt.environment nt.listed)
    (nt.latest u nu.mem nu.environment nu.listed))

/- The keys of the hash are the ids of the list, each once. -/
theorem keysPerm : (parseTargets targets).testSummaryHash.keys.Perm (parseTargets targets).fullRecipeList := by
  refine (List.perm_ext_iff_of_nodup (Hash.distinct _) (nodupEraseDups _)).mpr (fun id => ?_)
  have same := memKeysFold (sortTargets targets) ⟨[],.empty⟩ (by simp [Hash.keys,Hash.empty]) id
  rw [List.mem_eraseDups]
  exact same

end Targets

/-! ### The two totals -/

theorem countKnown {ws : List Text} (known : ∀ w ∈ ws, w ∈ results) (s : Sum) : ∃ s', ws.foldlM Sum.count s = some s' ∧
    s'.total = s.total + ws.length ∧ s'.none = s.none + ws.count "NONE".toList := by
  induction ws generalizing s with
  | nil => exact ⟨s,rfl,rfl,rfl⟩
  | cons w ws ih =>
    have first : ∃ n, s.count w = some n ∧ n.total = s.total + 1 ∧
        n.none = s.none + if w == "NONE".toList then 1 else 0 := by
      have word := known w (by simp)
      simp only [results,List.map_cons,List.map_nil,List.mem_cons,List.not_mem_nil,or_false] at word
      rcases word with rfl | rfl | rfl | rfl | rfl
      all_goals exact ⟨_,rfl,by simp only [Sum.total]; omega,rfl⟩
    obtain ⟨n,counted,total,none⟩ := first
    obtain ⟨s',rest,total',none'⟩ := ih (fun w mem => known w (by simp [mem])) n
    refine ⟨s',?_,?_,?_⟩
    · rw [List.foldlM_cons,counted]
      exact rest
    · rw [total',total,List.length_cons]
      omega
    · rw [none',none,List.count_cons]
      omega

theorem countedKnown {ws : List Text} {s s' : Sum} (counted : ws.foldlM Sum.count s = some s') : ∀ w ∈ ws, w ∈ results := by
  induction ws generalizing s with
  | nil => simp
  | cons w ws ih =>
    rw [List.foldlM_cons] at counted
    obtain ⟨n,first,rest⟩ := Option.bind_eq_some_iff.mp counted
    have word : w ∈ results := by
      by_contra other
      simp only [results,List.map_cons,List.map_nil,List.mem_cons,List.not_mem_nil,or_false,not_or] at other
      simp only [Sum.count,other,if_false] at first
      contradiction
    intro v mem
    rcases List.mem_cons.mp mem with rfl | later
    · exact word
    · exact ih rest v later

theorem percentileKnown {w : Text} (known : w ∈ results) (p : Percentile) :
    (p.count w).done + (p.count w).undone = p.done + p.undone + 1 ∧
      (p.count w).undone = p.undone + if w == "NONE".toList then 1 else 0 := by
  simp only [results,List.map_cons,List.map_nil,List.mem_cons,List.not_mem_nil,or_false] at known
  rcases known with rfl | rfl | rfl | rfl | rfl
  · exact ⟨(Nat.add_assoc _ _ _).symm,rfl⟩
  all_goals exact ⟨Nat.add_right_comm _ _ _,rfl⟩

def TestSummary.word (s : TestSummary) (id : Text) : Text :=
  ((s.testSummaryHash.get id).map TestCaseSummary.testcaseResult).getD []

theorem progressKnown (s : TestSummary) {ids : List Text}
    (known : ∀ id ∈ ids, ∃ tc, s.testSummaryHash.get id = some tc ∧ tc.testcaseResult ∈ results) (p : Percentile) :
    ∃ q, ids.foldlM (fun p recipe => (s.testSummaryHash.get recipe).map (fun tc => p.count tc.testcaseResult)) p = some q ∧
      q.done + q.undone = p.done + p.undone + ids.length ∧
      q.undone = p.undone + (ids.map s.word).count "NONE".toList := by
  induction ids generalizing p with
  | nil => exact ⟨p,rfl,rfl,rfl⟩
  | cons id ids ih =>
    obtain ⟨tc,held,word⟩ := known id (by simp)
    obtain ⟨total,undone⟩ := percentileKnown word p
    obtain ⟨q,rest,total',undone'⟩ := ih (fun x mem => known x (by simp [mem])) (p.count tc.testcaseResult)
    have same : s.word id = tc.testcaseResult := by simp [TestSummary.word,held]
    refine ⟨q,?_,?_,?_⟩
    · rw [List.foldlM_cons,held]
      exact rest
    · rw [total',total,List.length_cons]
      omega
    · rw [undone',undone,List.map_cons,List.count_cons,same]
      omega

theorem sumWords (s : TestSummary) : s.sum = (s.testSummaryHash.keys.map s.word).foldlM Sum.count ⟨0,0,0,0,0⟩ := by
  have words : s.testSummaryHash.entries.map (fun e => e.2.testcaseResult) = s.testSummaryHash.keys.map s.word := by
    rw [Hash.keys,List.map_map]
    refine List.map_congr_left (fun e mem => ?_)
    simp [TestSummary.word,Hash.getEntry _ mem]
  rw [TestSummary.sum,← words,List.foldlM_map]

theorem totalsKnown (s : TestSummary) (perm : s.testSummaryHash.keys.Perm s.fullRecipeList)
    (words : ∀ id ∈ s.fullRecipeList, ∃ tc, s.testSummaryHash.get id = some tc ∧ tc.testcaseResult ∈ results) :
    ∃ sum progress, s.showDefaultSum = some [progress.line,sum.line] ∧ s.sum = some sum ∧
      s.calcProgressPercentile = some progress ∧ sum.total = progress.done + progress.undone ∧
      progress.done + progress.undone = s.fullRecipeList.length ∧ sum.none = progress.undone := by
  have all : ∀ w ∈ s.testSummaryHash.keys.map s.word, w ∈ results := by
    intro w mem
    obtain ⟨id,key,rfl⟩ := List.mem_map.mp mem
    obtain ⟨tc,held,word⟩ := words id (perm.mem_iff.mp key)
    simpa [TestSummary.word,held] using word
  obtain ⟨sum,counted,total,none⟩ := countKnown all ⟨0,0,0,0,0⟩
  obtain ⟨progress,percent,whole,undone⟩ := progressKnown s words ⟨0,0⟩
  have counts := (perm.map s.word).count_eq "NONE".toList
  have lengths := (perm.map s.word).length_eq
  refine ⟨sum,progress,?_,?_,percent,?_,?_,?_⟩
  · rw [TestSummary.showDefaultSum,sumWords,counted,TestSummary.calcProgressPercentile,percent]
    rfl
  · rw [sumWords,counted]
  · simp only [Sum.total,List.length_map] at total lengths whole ⊢
    omega
  · simpa using whole
  · simp only at none undone
    omega

/-- The totals agree as long as the newest results are words that both tables know. -/
theorem mergedIff {targets : List Target} (distinct : (targets.map Target.mtime).Nodup) :
    Merged targets ↔ ∀ id t, Newest targets id t → t.dir.reported id ∈ results := by
  have perm := @keysPerm targets
  have newest : ∀ id t, Newest targets id t → (parseTargets targets).testSummaryHash.get id = some (t.summary id) := by
    intro id t new
    obtain ⟨u,other,held⟩ := getNewest distinct (memFullRecipeList.mpr ⟨t,new.mem,new.environment,new.listed⟩)
    rwa [new.same distinct other]
  constructor
  · intro merged id t new
    obtain ⟨sum,_,_,counted,_⟩ := merged.totals
    have listed := memFullRecipeList.mpr ⟨t,new.mem,new.environment,new.listed⟩
    rw [sumWords] at counted
    have word := countedKnown counted _ (List.mem_map_of_mem (perm.mem_iff.mpr listed))
    rwa [TestSummary.word,newest id t new] at word
  · intro known
    refine ⟨fun id t new => ⟨t.summary id,newest id t new,rfl⟩,⟨nodupEraseDups _,fun id => ?_⟩,totalsKnown _ perm ?_⟩
    · rw [memFullRecipeList]
      simp only [Target.recipelist,List.mem_filter,bne_iff_ne]
      tauto
    · intro id mem
      obtain ⟨t,new,held⟩ := getNewest distinct mem
      exact ⟨t.summary id,held,known id t new⟩

/- Two rounds: the second one has run the testcase that failed in the first one again. -/
def roundDir (list : List Text) (words : List (Text × Text)) : RoundDir :=
  { RoundDir.fresh with
    recipelist := some list
    environment := some "localhost".toList
    tc := fun k => match words.lookup k with
      | some word => { TestcaseDir.empty with
          runStatus := some .finished
          result := some [resultMark ++ (k ++ (": ".toList ++ word))] }
      | none => .empty }

def twoRounds (second : Text) : List Target :=
  [⟨2,roundDir ["d/b".toList] [("d/b".toList,second)]⟩,
    ⟨1,roundDir ["d/a".toList,"d/b".toList,"d/config".toList] [("d/a".toList,"PASS".toList),("d/b".toList,"FAIL".toList)]⟩]

theorem twoRoundsMerged : Merged (twoRounds "PASS".toList) := by
  have all : ∀ t ∈ twoRounds "PASS".toList, ∀ id ∈ t.recipelist, t.dir.reported id ∈ results := by decide
  exact (mergedIff (by decide)).mpr (fun id t new => all t new.mem id new.listed)

theorem otherWordNotCounted : ¬ Merged (twoRounds "UNKNOWN".toList) ∧
    (parseTargets (twoRounds "UNKNOWN".toList)).showDefaultSum = none := by
  have stops : (parseTargets (twoRounds "UNKNOWN".toList)).showDefaultSum = none := by decide
  refine ⟨fun merged => ?_,stops⟩
  obtain ⟨_,_,shown,_⟩ := merged.totals
  rw [stops] at shown
  contradiction

end MmRegression
