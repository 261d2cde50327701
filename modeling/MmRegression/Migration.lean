import MmRegression.Diff
import MmRegression.PageTypes

/-! `check_migration_done` of `setup_page_migration.sh`, with `diff` as a parameter. -/
namespace MmRegression

open Diff

structure MappingFile where
  name : Text
  lines : List Text
  deriving DecidableEq, Repr

/- The lines of `.mig.diff` by their marks. -/
structure DiffCounts where
  removed : List Text
  added : List Text
  unchange : Nat
  deriving DecidableEq, Repr

/- `grep -v -e '---' -e '+++'` -/
def notHeader (row : Text) : Bool := !(contains "---".toList row || contains "+++".toList row)

section Check

variable (diff : List Text → List Text → List Text)

def diffCounts (before after : List Text) : DiffCounts :=
  let migDiff := (diff before after).filter notHeader
  ⟨migDiff.filter (startsWith ['-']),migDiff.filter (startsWith ['+']),(migDiff.filter (startsWith [' '])).length⟩

def DiffCounts.shown (c : DiffCounts) : List Event :=
  .echo "--- before migration".toList :: ((c.removed.take 10).map Event.echo ++
    (.echo "--- after migration".toList :: (c.added.take 10).map Event.echo))

def DiffCounts.changed (c : DiffCounts) : Bool := decide (0 < c.removed.length) && decide (0 < c.added.length)

/- `kind` is "pages" or "hugepages". -/
def DiffCounts.migratedText (c : DiffCounts) (kind : Text) : Text :=
  if c.unchange ≠ 0 then
    "some ".toList ++ (kind ++ (" migrated (".toList ++ (digits c.unchange ++ (' '::(kind ++ " failed)".toList)))))
  else "all ".toList ++ (kind ++ " migrated".toList)

def checkMigrationPagemap (before after : List Text) : List Event × Nat :=
  let c := diffCounts diff before after
  let shown := c.shown ++ [.log "check pagemap".toList]
  if c.changed then (shown ++ [.log (c.migratedText "pages".toList)],0)
  else (shown ++ [.log "no page migrated".toList],1)

def hugeMapping (lines : List Text) : List Text :=
  (lines.filter (fun line => contains "H_".toList line || contains "_T".toList line)).map cutFields12

def checkMigrationHugeness (before after : List Text) : List Event × Nat :=
  let huge1 := hugeMapping before
  let huge2 := hugeMapping after
  let c := diffCounts diff huge1 huge2
  let shown := c.shown ++ [.log "check hugepage migration".toList]
  if huge1.isEmpty then (shown ++ [.log "no hugepage".toList],3)
  else if huge2.isEmpty then (shown ++ [.log "hugepage disappeared (maybe split?)".toList],2)
  else if c.changed then (shown ++ [.log (c.migratedText "hugepages".toList)],0)
  else (shown ++ [.log "no hugepage migrated".toList],1)

def hugenessCode : Nat → Option MigrationCode
  | 0 => some .hugepageMigrated
  | 1 => some .hugepageNotMigrated
  | 2 => some .hugepageDisappeared
  | 3 => some .hugepageNotExist
  | _ => none

/- What is printed, and `_return_code_seq` afterwards. -/
def checkMigrationDone (before after : MappingFile) (seq : List Text) : List Event × List Text :=
  let pagemap := checkMigrationPagemap diff before.lines after.lines
  let seq := recordCode seq (if pagemap.2 = 0 then .migrationPassed else .migrationFailed)
  let hugeness := checkMigrationHugeness diff before.lines after.lines
  let note := "check_migration_hugeness ".toList ++ (before.name ++ (' '::after.name))
  (pagemap.1 ++ (.echo note :: hugeness.1),
    match hugenessCode hugeness.2 with
    | some code => recordCode seq code
    | none => seq)

end Check

/- The mapping file of a listing, as `get_pagetypes` writes it. -/
def Listing.file (l : Listing) (name : Text) (summary : Option (List Text)) : MappingFile :=
  ⟨name,(getPagetypes (l.printed summary)).1⟩

def PageMoved (before after : Listing) : Prop :=
  ∃ page frame frame', before.Maps page frame ∧ after.Maps page frame' ∧ frame ≠ frame'

/-- The verdict is recorded, and one code about huge pages after it. -/
def VerdictRecorded (seq recorded : List Text) (verdict : MigrationCode) : Prop :=
  ∃ huge ∈ [MigrationCode.hugepageMigrated,.hugepageNotMigrated,.hugepageDisappeared,.hugepageNotExist],
    recorded = recordCode (recordCode seq verdict) huge

def MigrationExact (diff : List Text → List Text → List Text) (before after : Listing) (names : Text × Text)
    (summaries : Option (List Text) × Option (List Text)) (seq : List Text) : Prop :=
  let recorded := (checkMigrationDone diff (before.file names.1 summaries.1) (after.file names.2 summaries.2) seq).2
  (PageMoved before after → VerdictRecorded seq recorded .migrationPassed) ∧
    (¬ PageMoved before after → VerdictRecorded seq recorded .migrationFailed)

theorem pairwiseEither {α : Type} {R : α → α → Prop} {l : List α} {a b : α} (sorted : l.Pairwise R) (first : a ∈ l)
    (second : b ∈ l) : a = b ∨ R a b ∨ R b a := by
  induction sorted with
  | nil => contradiction
  | cons ahead _ ih =>
    rcases List.mem_cons.mp first with rfl | later <;> rcases List.mem_cons.mp second with rfl | later'
    · exact .inl rfl
    · exact .inr (.inl (ahead b later'))
    · exact .inr (.inr (ahead a later))
    · exact ih later later'

theorem mapsUnique {l : Listing} {page frame frame' : Nat} (here : l.Maps page frame) (there : l.Maps page frame') :
    frame = frame' := by
  obtain ⟨r,mem,low,high,rfl⟩ := here
  obtain ⟨s,mem',low',high',rfl⟩ := there
  rcases pairwiseEither l.sorted mem mem' with rfl | before | after
  · rfl
  · omega
  · omega

/- A moved page takes its line out of either listing. -/
theorem movedMissing {before after : Listing} (moved : PageMoved before after) :
    (∃ r ∈ before.ranges, r ∉ after.ranges) ∧ ∃ r ∈ after.ranges, r ∉ before.ranges := by
  obtain ⟨page,frame,frame',⟨r,mem,here⟩,⟨s,mem',there⟩,other⟩ := moved
  constructor
  · exact ⟨r,mem,fun found => other (mapsUnique ⟨r,found,here⟩ ⟨s,mem',there⟩)⟩
  · exact ⟨s,mem',fun found => other (mapsUnique ⟨r,mem,here⟩ ⟨s,found,there⟩)⟩

def LineBefore (l m : Text) : Prop := ∃ r s : PageRange, l = r.line ∧ m = s.line ∧ r.vpn < s.vpn

theorem linesSorted (l : Listing) : l.lines.Pairwise LineBefore := by
  refine List.pairwise_map.mpr (l.sorted.imp (fun {r s} order => ⟨r,s,rfl,rfl,?_⟩))
  have := r.filled
  omega

theorem linesOrdered (before after : Listing) : Ordered before.lines after.lines := by
  refine orderedBy ?_ ?_ (linesSorted before) (linesSorted after)
  · intro l ⟨r,s,same,same',less⟩
    cases lineInjective (same.symm.trans same')
    omega
  · intro l m ⟨r,s,first,second,less⟩ ⟨r',s',first',second',more⟩
    cases lineInjective (first.symm.trans second')
    cases lineInjective (second.symm.trans first')
    omega

theorem lineAbsent (l : Listing) {c : Char} (noHex : c ∉ hexDigits) (noFlag : c ∉ flagLetters) (noTab : c ≠ '\t') :
    ∀ line ∈ l.lines, c ∉ line := by
  intro line mem
  obtain ⟨r,_,rfl⟩ := List.mem_map.mp mem
  have hexes : ∀ n, c ∉ hex n := fun n found => noHex (hexChars n c found)
  simp only [PageRange.line,List.mem_append,List.mem_cons,not_or]
  exact ⟨hexes _,noTab,hexes _,noTab,hexes _,noTab,fun found => noFlag (r.letters c found)⟩

theorem signedClean {c sign : Char} {line : Text} (absent : c ∉ line) : contains [c,c,c] (sign::line) = false := by
  cases found : contains [c,c,c] (sign::line) with
  | false => rfl
  | true =>
    obtain ⟨a,b,whole⟩ := containsIff.mp found
    cases a with
    | nil => exact absurd (by simp [(List.cons.inj whole).2]) absent
    | cons d a => exact absurd (by simp [(List.cons.inj whole).2]) absent

theorem notHeaderSigned {sign : Char} {line : Text} (plain : '-' ∉ line ∧ '+' ∉ line) : notHeader (sign::line) = true := by
  have minus : contains "---".toList (sign::line) = false := signedClean plain.1
  have plus : contains "+++".toList (sign::line) = false := signedClean plain.2
  rw [notHeader,minus,plus]
  rfl

theorem memMarked {mark : Char} {rows : List Text} {line : Text} : line ∈ marked mark rows ↔ (mark::line) ∈ rows := by
  simp only [marked,List.mem_map,List.mem_filter,beq_iff_eq]
  constructor
  · intro found
    obtain ⟨row,⟨mem,head⟩,tail⟩ := found
    cases row with
    | nil => contradiction
    | cons c t =>
      cases Option.some.inj head
      exact tail ▸ mem
  · intro mem
    exact ⟨mark::line,⟨mem,rfl⟩,rfl⟩

theorem signedRows {sign : Char} {name name' : Text} {hunks ls ms : List Text} (counted : marked sign hunks = missing ls ms)
    (plain : ∀ line ∈ ls, '-' ∉ line ∧ '+' ∉ line) :
    0 < (((("--- ".toList ++ name) :: ("+++ ".toList ++ name') :: hunks).filter notHeader).filter (startsWith [sign])).length ↔
      ∃ l ∈ ls, l ∉ ms := by
  have minus : contains "---".toList ("--- ".toList ++ name) = true := containsIff.mpr ⟨[],' '::name,rfl⟩
  have plus : contains "+++".toList ("+++ ".toList ++ name') = true := containsIff.mpr ⟨[],' '::name',rfl⟩
  have first : notHeader ("--- ".toList ++ name) = false := by rw [notHeader,minus]; rfl
  have second : notHeader ("+++ ".toList ++ name') = false := by rw [notHeader,plus,Bool.or_true]; rfl
  rw [List.filter_cons_of_neg (Bool.eq_false_iff.mp first),List.filter_cons_of_neg (Bool.eq_false_iff.mp second),
    List.length_pos_iff_exists_mem]
  simp only [List.mem_filter]
  constructor
  · intro ⟨row,⟨mem,_⟩,signed⟩
    obtain ⟨line,rfl⟩ := List.isPrefixOf_iff_prefix.mp signed
    have inside : line ∈ missing ls ms := counted ▸ memMarked.mpr mem
    exact ⟨line,memMissing.mp inside⟩
  · intro ⟨line,mem,lost⟩
    have inside : line ∈ marked sign hunks := counted ▸ memMissing.mpr ⟨mem,lost⟩
    exact ⟨sign::line,⟨memMarked.mp inside,notHeaderSigned (plain line mem)⟩,by simp [startsWith]⟩

section Verdict

variable {diff : List Text → List Text → List Text}

/- The counted lines are the lines that the other file lacks. -/
theorem diffCountsMissing (unified : Unified diff) {before after : List Text} (order : Ordered before after)
    (plain : ∀ line, line ∈ before ∨ line ∈ after → '-' ∉ line ∧ '+' ∉ line) :
    (diffCounts diff before after).changed = true ↔ (∃ l ∈ before, l ∉ after) ∧ ∃ l ∈ after, l ∉ before := by
  by_cases same : before = after
  · simp [same,diffCounts,unified.same,DiffCounts.changed]
  obtain ⟨name,name',hunks,output,counted⟩ := unified.rows same
  obtain ⟨removed,added⟩ := counted order
  rw [DiffCounts.changed,Bool.and_eq_true,decide_eq_true_eq,decide_eq_true_eq,diffCounts,output]
  exact and_congr (signedRows removed (fun line mem => plain line (.inl mem)))
    (signedRows added (fun line mem => plain line (.inr mem)))

theorem linesMissing (before after : Listing) :
    (∃ l ∈ before.lines, l ∉ after.lines) ↔ ∃ r ∈ before.ranges, r ∉ after.ranges := by
  have line : ∀ {l : Listing} {r : PageRange}, r.line ∈ l.lines ↔ r ∈ l.ranges := fun {l r} => by
    constructor
    · intro mem
      obtain ⟨s,inside,same⟩ := List.mem_map.mp mem
      exact lineInjective same ▸ inside
    · exact List.mem_map_of_mem
  constructor
  · intro ⟨l,mem,lost⟩
    obtain ⟨r,inside,rfl⟩ := List.mem_map.mp mem
    exact ⟨r,inside,fun found => lost (line.mpr found)⟩
  · intro ⟨r,mem,lost⟩
    exact ⟨r.line,line.mpr mem,fun found => lost (line.mp found)⟩

theorem pagemapChanged (unified : Unified diff) (before after : Listing) :
    (checkMigrationPagemap diff before.lines after.lines).2 = 0 ↔
      (∃ r ∈ before.ranges, r ∉ after.ranges) ∧ ∃ r ∈ after.ranges, r ∉ before.ranges := by
  have plain : ∀ l : Listing, ∀ line ∈ l.lines, '-' ∉ line ∧ '+' ∉ line := fun l line mem =>
    ⟨lineAbsent l (by decide) (by decide) (by decide) line mem,lineAbsent l (by decide) (by decide) (by decide) line mem⟩
  have either : ∀ line, line ∈ before.lines ∨ line ∈ after.lines → '-' ∉ line ∧ '+' ∉ line := fun line mem =>
    mem.elim (plain before line) (plain after line)
  rw [← linesMissing,← linesMissing,← diffCountsMissing unified (linesOrdered before after) either,checkMigrationPagemap]
  split
  · rename_i changed
    simp [changed]
  · rename_i still
    simp [still]

theorem hugenessRecorded (before after : List Text) :
    ∃ code, hugenessCode (checkMigrationHugeness diff before after).2 = some code ∧
      code ∈ [MigrationCode.hugepageMigrated,.hugepageNotMigrated,.hugepageDisappeared,.hugepageNotExist] := by
  simp only [checkMigrationHugeness]
  split
  · exact ⟨_,rfl,by decide⟩
  split
  · exact ⟨_,rfl,by decide⟩
  split
  · exact ⟨_,rfl,by decide⟩
  · exact ⟨_,rfl,by decide⟩

theorem verdictRecorded (before after : Listing) (names : Text × Text)
    (summaries : Option (List Text) × Option (List Text)) (seq : List Text) (verdict : MigrationCode) :
    VerdictRecorded seq (checkMigrationDone diff (before.file names.1 summaries.1) (after.file names.2 summaries.2) seq).2
        verdict ↔
      (if (checkMigrationPagemap diff before.lines after.lines).2 = 0 then .migrationPassed else .migrationFailed) =
        verdict := by
  obtain ⟨code,known,listed⟩ := @hugenessRecorded diff before.lines after.lines
  simp only [checkMigrationDone,Listing.file,getPagetypesPrinted,known,VerdictRecorded]
  constructor
  · intro ⟨huge,_,same⟩
    have front := (List.append_inj' same rfl).1
    exact recordCodeInjective front
  · intro same
    exact ⟨code,listed,by rw [same]⟩

theorem migrationExact (unified : Unified diff) (before after : Listing) (names : Text × Text)
    (summaries : Option (List Text) × Option (List Text)) (seq : List Text) :
    MigrationExact diff before after names summaries seq ↔
      PageMoved before after ∨ (∀ r ∈ before.ranges, r ∈ after.ranges) ∨ ∀ r ∈ after.ranges, r ∈ before.ranges := by
  have changed := pagemapChanged unified before after
  simp only [MigrationExact,verdictRecorded]
  by_cases moved : PageMoved before after
  · simp [moved,changed.mpr (movedMissing moved)]
  · have still : (∀ r ∈ before.ranges, r ∈ after.ranges) ∨ (∀ r ∈ after.ranges, r ∈ before.ranges) ↔
        ¬ ((∃ r ∈ before.ranges, r ∉ after.ranges) ∧ ∃ r ∈ after.ranges, r ∉ before.ranges) := by
      simp only [not_and_or,not_exists,not_not,imp_iff_not_or]
    rw [still,← changed]
    simp [moved]

end Verdict

theorem movedHeadPassed : MigrationExact unifiedDiff mappedHuge movedHead ("pagetypes.1".toList,"pagetypes.2".toList)
    (some [],some []) initReturnCode :=
  (migrationExact unifiedDiffUnified mappedHuge movedHead _ _ _).mpr
    (.inl ⟨0x700000000,0x71e00,0x73fd2,⟨_,List.mem_cons_self,by decide⟩,⟨_,List.mem_cons_self,by decide⟩,by decide⟩)

/- Listings that differ in flags alone map every page alike. -/
theorem sameFrames {before after : Listing}
    (same : before.ranges.map (fun r => (r.vpn,r.pfn,r.len)) = after.ranges.map (fun r => (r.vpn,r.pfn,r.len))) :
    ¬ PageMoved before after := by
  intro ⟨page,frame,frame',⟨r,mem,here⟩,there,other⟩
  obtain ⟨s,mem',fields⟩ := List.mem_map.mp (same ▸ List.mem_map_of_mem mem)
  obtain ⟨vpn,pfn,len⟩ : s.vpn = r.vpn ∧ s.pfn = r.pfn ∧ s.len = r.len := by simpa using fields
  exact other (mapsUnique ⟨s,mem',by rw [vpn,pfn,len]; exact here⟩ there)

theorem splitPassed : ¬ PageMoved mappedHuge splitInPlace ∧
    (checkMigrationDone unifiedDiff (mappedHuge.file "pagetypes.1".toList (some []))
      (splitInPlace.file "pagetypes.2".toList (some [])) initReturnCode).2 =
        ["MIGRATION_PASSED".toList,"HUGEPAGE_DISAPPEARED".toList] ∧
    ¬ MigrationExact unifiedDiff mappedHuge splitInPlace ("pagetypes.1".toList,"pagetypes.2".toList) (some [],some [])
      initReturnCode := by
  have still : ¬ PageMoved mappedHuge splitInPlace := sameFrames (by decide +kernel)
  refine ⟨still,by decide +kernel,?_⟩
  intro exactly
  have failed := (verdictRecorded _ _ _ _ _ _).mp (exactly.2 still)
  revert failed
  decide +kernel

end MmRegression
