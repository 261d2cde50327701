import Mathlib.Data.List.Sort

/-! What a script relies on in `diff -u` when the lines that two files share stand in the same order
in both. Nothing here names the harness. -/
namespace MmRegression.Diff

abbrev Line := List Char

def missing (before after : List Line) : List Line := before.filter (fun l => !after.contains l)

def common (before after : List Line) : List Line := before.filter (fun l => after.contains l)

structure Ordered (before after : List Line) : Prop where
  onceBefore : before.Nodup
  onceAfter : after.Nodup
  together : common before after = common after before

def marked (mark : Char) (rows : List Line) : List Line :=
  (rows.filter (fun row => row.head? == some mark)).map List.tail

/-- Nothing for equal files, else the two file headers and the hunks. `diff` looks for lines to
keep, and where the shared lines are in one order it keeps them all. How much context a hunk has
is left open. -/
structure Unified (diff : List Line → List Line → List Line) : Prop where
  same (before : List Line) : diff before before = []
  rows {before after : List Line} (other : before ≠ after) : ∃ name name' hunks,
    diff before after = ("--- ".toList ++ name) :: ("+++ ".toList ++ name') :: hunks ∧
    (Ordered before after → marked '-' hunks = missing before after ∧ marked '+' hunks = missing after before)

theorem memMissing {before after : List Line} {l : Line} : l ∈ missing before after ↔ l ∈ before ∧ l ∉ after := by
  simp [missing]

/- Lists sorted by one strict order share their lines in that order. -/
theorem orderedBy {lt : Line → Line → Prop} (irrefl : ∀ l, ¬ lt l l) (asymm : ∀ l m, lt l m → ¬ lt m l)
    {before after : List Line} (sorted : before.Pairwise lt) (sorted' : after.Pairwise lt) : Ordered before after := by
  have apart : ∀ {l m : Line}, lt l m → l ≠ m := by
    intro l m less same
    exact irrefl m (same ▸ less)
  have distinct : ∀ {ls : List Line}, ls.Pairwise lt → ls.Nodup := fun h => h.imp apart
  refine ⟨distinct sorted,distinct sorted',?_⟩
  have : Std.Irrefl lt := ⟨irrefl⟩
  have : Std.Antisymm lt := ⟨fun l m less more => absurd more (asymm l m less)⟩
  apply List.Pairwise.eq_of_mem_iff (sorted.filter _) (sorted'.filter _)
  intro l
  simp [and_comm]

/- A diff that keeps the next line of the first file as soon as the rest of the second has it. -/
def hunk : List Line → List Line → List Line
  | [], bs => bs.map ('+' :: ·)
  | a::as, bs =>
      if bs.contains a then
        (bs.takeWhile (· != a)).map ('+' :: ·) ++ (' '::a) :: hunk as (bs.dropWhile (· != a)).tail
      else ('-'::a) :: hunk as bs

def hunkRange (n : Nat) : Line :=
  if n = 0 then "0,0".toList else if n = 1 then "1".toList else "1,".toList ++ Nat.toDigits 10 n

def hunkHead (before after : List Line) : Line :=
  "@@ -".toList ++ (hunkRange before.length ++ (" +".toList ++ (hunkRange after.length ++ " @@".toList)))

def unifiedDiff (before after : List Line) : List Line :=
  if before = after then []
  else "--- before".toList :: "+++ after".toList :: hunkHead before after :: hunk before after

theorem markedMap (mark sign : Char) (ls : List Line) :
    marked mark (ls.map (sign :: ·)) = if sign = mark then ls else [] := by
  induction ls with
  | nil => simp [marked]
  | cons l ls ih =>
    simp only [marked,List.map_cons,List.filter_cons,List.head?_cons] at ih ⊢
    by_cases same : sign = mark
    · simpa [same] using ih
    · simp [same]

theorem markedAppend (mark : Char) (xs ys : List Line) : marked mark (xs ++ ys) = marked mark xs ++ marked mark ys := by
  simp [marked]

theorem markedCons (mark sign : Char) (l : Line) (rows : List Line) :
    marked mark ((sign::l)::rows) = (if sign = mark then [l] else []) ++ marked mark rows :=
  (markedAppend mark [sign::l] rows).trans (congrArg (· ++ marked mark rows) (markedMap mark sign [l]))

theorem commonCongr {ls ms ms' : List Line} (same : ∀ l ∈ ls, l ∈ ms ↔ l ∈ ms') : common ls ms = common ls ms' :=
  List.filter_congr (fun l mem => by simp [same l mem])

theorem missingCongr {ls ms ms' : List Line} (same : ∀ l ∈ ls, l ∈ ms ↔ l ∈ ms') : missing ls ms = missing ls ms' :=
  List.filter_congr (fun l mem => by simp [same l mem])

theorem missingAll {ls ms : List Line} (none : ∀ l ∈ ls, l ∉ ms) : missing ls ms = ls :=
  List.filter_eq_self.mpr (fun l mem => by simp [none l mem])

theorem firstOf {a : Line} {bs : List Line} (mem : a ∈ bs) : ∃ pre post, bs = pre ++ a::post ∧ a ∉ pre ∧
    bs.takeWhile (· != a) = pre ∧ (bs.dropWhile (· != a)).tail = post := by
  induction bs with
  | nil => contradiction
  | cons b bs ih =>
    by_cases same : b = a
    · exact ⟨[],bs,by simp [same],by simp,by simp [same],by simp [same]⟩
    · have later : a ∈ bs := (List.mem_cons.mp mem).resolve_left (Ne.symm same)
      obtain ⟨pre,post,rfl,before,taken,dropped⟩ := ih later
      exact ⟨b::pre,post,rfl,by simp [before,Ne.symm same],by simp [same,taken],by simp [same,dropped]⟩

/- Nothing before the shared line is shared, and the rest is in order again. -/
theorem orderedKept {a : Line} {as pre post : List Line} (order : Ordered (a::as) (pre ++ a::post)) (first : a ∉ pre) :
    (∀ l ∈ pre, l ∉ a::as) ∧ a ∉ as ∧ a ∉ post ∧ Ordered as post := by
  obtain ⟨notAs,onceAs⟩ := List.nodup_cons.mp order.onceBefore
  obtain ⟨_,oncePost,_⟩ := List.nodup_append.mp order.onceAfter
  obtain ⟨notPost,oncePost⟩ := List.nodup_cons.mp oncePost
  have together : a :: common as (pre ++ a::post) = common pre (a::as) ++ a :: common post (a::as) := by
    have whole := order.together
    simpa [common,List.filter_cons] using whole
  have alone : common pre (a::as) = [] := by
    cases shared : common pre (a::as) with
    | nil => rfl
    | cons l rest =>
      rw [shared] at together
      have inside : l ∈ common pre (a::as) := by simp [shared]
      rw [← (List.cons.inj together).1] at inside
      exact absurd (List.mem_filter.mp inside).1 first
  have apart : ∀ l ∈ pre, l ∉ a::as := fun l mem found => by
    have : l ∈ common pre (a::as) := List.mem_filter.mpr ⟨mem,by simpa using found⟩
    simp [alone] at this
  refine ⟨apart,notAs,notPost,onceAs,oncePost,?_⟩
  rw [alone] at together
  calc common as post = common as (pre ++ a::post) := commonCongr (fun l mem => by
          have other : l ≠ a := fun same => notAs (same ▸ mem)
          have before : l ∉ pre := fun found => apart l found (List.mem_cons_of_mem a mem)
          simp [other,before])
    _ = common post (a::as) := (List.cons.inj together).2
    _ = common post as := commonCongr (fun l mem => by
          have other : l ≠ a := fun same => notPost (same ▸ mem)
          simp [other])

theorem markedHunk {as bs : List Line} (order : Ordered as bs) :
    marked '-' (hunk as bs) = missing as bs ∧ marked '+' (hunk as bs) = missing bs as := by
  induction as generalizing bs with
  | nil =>
    refine ⟨markedMap '-' '+' bs,?_⟩
    rw [hunk,markedMap,if_pos rfl,missingAll (by simp)]
  | cons a as ih =>
    rw [hunk]
    split
    · rename_i shared
      obtain ⟨pre,post,rfl,first,taken,dropped⟩ := firstOf (List.contains_iff_mem.mp shared)
      obtain ⟨apart,notAs,notPost,rest⟩ := orderedKept order first
      obtain ⟨removed,added⟩ := ih rest
      rw [taken,dropped,markedAppend,markedAppend,markedMap,markedMap,markedCons,markedCons,removed,added]
      constructor
      · have kept : missing as post = missing as (pre ++ a::post) := missingCongr (fun l mem => by
          have other : l ≠ a := fun same => notAs (same ▸ mem)
          have before : l ∉ pre := fun found => apart l found (List.mem_cons_of_mem a mem)
          simp [other,before])
        rw [kept]
        simp [missing]
      · have kept : missing post as = missing post (a::as) := missingCongr (fun l mem => by
          have other : l ≠ a := fun same => notPost (same ▸ mem)
          simp [other])
        have front : missing pre (a::as) = pre := missingAll apart
        have whole : missing (pre ++ a::post) (a::as) = missing pre (a::as) ++ missing post (a::as) := by
          simp [missing]
        rw [kept,whole,front]
        simp
    · rename_i lost
      have lost : a ∉ bs := fun mem => lost (List.contains_iff_mem.mpr mem)
      have other : ∀ l ∈ bs, l ∈ as ↔ l ∈ a::as := fun l mem => by
        have : l ≠ a := fun same => lost (same ▸ mem)
        simp [this]
      have rest : Ordered as bs := by
        refine ⟨(List.nodup_cons.mp order.onceBefore).2,order.onceAfter,?_⟩
        have together := order.together
        rw [commonCongr other,← together]
        simp [common,lost]
      obtain ⟨removed,added⟩ := ih rest
      rw [markedCons,markedCons,removed,added,missingCongr other]
      simp [missing,lost]

theorem unifiedDiffUnified : Unified unifiedDiff where
  same before := if_pos rfl
  rows {before after} other := by
    refine ⟨"before".toList,"after".toList,hunkHead before after :: hunk before after,if_neg other,fun order => ?_⟩
    have head : ∀ mark : Char, mark ≠ '@' →
        marked mark (hunkHead before after :: hunk before after) = marked mark (hunk before after) := by
      intro mark no
      have first : (hunkHead before after).head? = some '@' := rfl
      simp [marked,first,Ne.symm no]
    rw [head '-' (by decide),head '+' (by decide)]
    exact markedHunk order

end MmRegression.Diff
