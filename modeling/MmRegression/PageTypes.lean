import Mathlib.Data.List.TakeWhile
import MmRegression.ReturnCode

/-! The listings of `page-types -p PID -l`, the files that the scripts make of them, and
`check_thp_migration`. -/
namespace MmRegression

def hex (n : Nat) : Text := Nat.toDigits 16 n

/- The letters that `page-types` prints for flags, with `_` for a flag that is not set. -/
def flagLetters : Text := "_LERUDlASWIBMasbHTGuXnxtozigrmdPpOhcfFw1".toList

/-- A line of a listing. `t` stands for the THP flag alone, between the columns of KSM and of offline
pages, which a huge page is not. -/
structure PageRange where
  vpn : Nat
  pfn : Nat
  len : Nat
  flags : Text
  filled : 0 < len
  letters : ∀ c ∈ flags, c ∈ flagLetters
  thpApart : 't' ∈ flags → contains "_t_".toList flags = true

def PageRange.line (r : PageRange) : Text :=
  hex r.vpn ++ '\t'::(hex r.pfn ++ '\t'::(hex r.len ++ '\t'::r.flags))

def pageRange (vpn pfn len : Nat) (flags : Text) (shown : 0 < len ∧ flags.all (fun c => flagLetters.contains c) = true ∧
    (!flags.contains 't' || contains "_t_".toList flags) = true) : PageRange where
  vpn := vpn
  pfn := pfn
  len := len
  flags := flags
  filled := shown.1
  letters c mem := List.contains_iff_mem.mp (List.all_eq_true.mp shown.2.1 c mem)
  thpApart mem := by
    have both := shown.2.2
    rw [List.contains_iff_mem.mpr mem] at both
    exact both

/- A listing of a process: ascending ranges that do not overlap. -/
structure Listing where
  ranges : List PageRange
  sorted : ranges.Pairwise (fun r s => r.vpn + r.len ≤ s.vpn)

def Listing.lines (l : Listing) : List Text := l.ranges.map PageRange.line

def Listing.Maps (l : Listing) (page frame : Nat) : Prop :=
  ∃ r ∈ l.ranges, r.vpn ≤ page ∧ page < r.vpn + r.len ∧ frame = r.pfn + (page - r.vpn)

/- What `page-types` prints, with the summary that `-N` leaves out. -/
def Listing.printed (l : Listing) (summary : Option (List Text)) : List Text :=
  "voffset\toffset\tlen\tflags".toList :: (l.lines ++
    match summary with
    | none => []
    | some rest => []::rest)

def grepOffset (output : List Text) : List Text := output.filter (fun line => !contains "offset".toList line)

/- The listing part and the statistics part. -/
def getPagetypes (output : List Text) : List Text × List Text :=
  let file := grepOffset output
  (file.takeWhile (fun line => !line.isEmpty),
    (file.dropWhile (fun line => !line.isEmpty)).filter (fun line => !line.isEmpty))

def cutFields12 (line : Text) : Text :=
  match split '\t' line with
  | first::second::_ => first ++ '\t'::second
  | _ => line

/- `diff -q`: whether two files differ. -/
def diffQ (before after : List Text) : Bool := before != after

inductive MigrationCode where
  | migrationPassed | migrationFailed
  | hugepageMigrated | hugepageNotMigrated | hugepageDisappeared | hugepageNotExist
  | hugepageSplit | hugepageCreated | pageNotMigrated | pageMigrated
  deriving DecidableEq, Repr

def MigrationCode.text : MigrationCode → Text
  | .migrationPassed => "MIGRATION_PASSED".toList
  | .migrationFailed => "MIGRATION_FAILED".toList
  | .hugepageMigrated => "HUGEPAGE_MIGRATED".toList
  | .hugepageNotMigrated => "HUGEPAGE_NOT_MIGRATED".toList
  | .hugepageDisappeared => "HUGEPAGE_DISAPPEARED".toList
  | .hugepageNotExist => "HUGEPAGE_NOT_EXIST".toList
  | .hugepageSplit => "HUGEPAGE_SPLIT".toList
  | .hugepageCreated => "HUGEPAGE_CREATED".toList
  | .pageNotMigrated => "PAGE_NOT_MIGRATED".toList
  | .pageMigrated => "PAGE_MIGRATED".toList

def recordCode (seq : List Text) (code : MigrationCode) : List Text := setReturnCode seq [code.text]

def checkThpMigration (before after : List Text) (seq : List Text) : List Text :=
  let hugeBefore := (before.filter (contains "_t_".toList)).map cutFields12
  let hugeAfter := (after.filter (contains "_t_".toList)).map cutFields12
  if !hugeAfter.isEmpty then
    if !diffQ hugeBefore hugeAfter then recordCode seq .hugepageNotMigrated
    else if !hugeAfter.isEmpty then recordCode seq .hugepageMigrated
    else recordCode seq .hugepageSplit
  else if !diffQ (before.map cutFields12) (after.map cutFields12) then recordCode seq .pageNotMigrated
  else if !hugeAfter.isEmpty then recordCode seq .hugepageCreated
  else recordCode seq .pageMigrated

def hexDigits : Text := "0123456789abcdef".toList

theorem hexDigit (n : Nat) : (n % 16).digitChar ∈ hexDigits := by
  have all : ∀ i : Fin 16, (i.val).digitChar ∈ hexDigits := by decide
  exact all ⟨n % 16,Nat.mod_lt n (by decide)⟩

theorem hexChars (n : Nat) : ∀ c ∈ hex n, c ∈ hexDigits := by
  induction n using Nat.strongRecOn with
  | ind n ih =>
    intro c mem
    by_cases small : n < 16
    · rw [hex,Nat.toDigits_of_lt_base small] at mem
      cases List.mem_singleton.mp mem
      exact Nat.mod_eq_of_lt small ▸ hexDigit n
    · rw [hex,Nat.toDigits_of_base_le (by decide) (by omega)] at mem
      rcases List.mem_append.mp mem with front | last
      · exact ih (n/16) (by omega) c front
      · cases List.mem_singleton.mp last
        exact hexDigit n

theorem digitCharInjective {n m : Nat} (low : n < 16) (low' : m < 16) (same : n.digitChar = m.digitChar) : n = m := by
  have place : ∀ i : Fin 16, hexDigits.idxOf i.val.digitChar = i.val := by decide
  calc n = hexDigits.idxOf n.digitChar := (place ⟨n,low⟩).symm
    _ = hexDigits.idxOf m.digitChar := by rw [same]
    _ = m := place ⟨m,low'⟩

theorem hexInjective {n m : Nat} (same : hex n = hex m) : n = m := by
  induction n using Nat.strongRecOn generalizing m with
  | ind n ih =>
    by_cases small : n < 16 <;> by_cases small' : m < 16
    · rw [hex,hex,Nat.toDigits_of_lt_base small,Nat.toDigits_of_lt_base small'] at same
      exact digitCharInjective small small' (List.singleton_inj.mp same)
    · rw [hex,hex,Nat.toDigits_of_lt_base small,Nat.toDigits_of_base_le (by decide) (by omega)] at same
      exact absurd (List.append_inj' (show [] ++ [n.digitChar] = _ from same) rfl).1.symm Nat.toDigits_ne_nil
    · rw [hex,hex,Nat.toDigits_of_lt_base small',Nat.toDigits_of_base_le (by decide) (by omega)] at same
      exact absurd (List.append_inj' (show _ = [] ++ [m.digitChar] from same) rfl).1 Nat.toDigits_ne_nil
    · rw [hex,hex,Nat.toDigits_of_base_le (by decide) (show 16 ≤ n by omega),
        Nat.toDigits_of_base_le (by decide) (show 16 ≤ m by omega)] at same
      obtain ⟨front,last⟩ := List.append_inj' same rfl
      have high := ih (n/16) (by omega) front
      have low := digitCharInjective (Nat.mod_lt n (by decide)) (Nat.mod_lt m (by decide)) (List.singleton_inj.mp last)
      omega

theorem hexClean (n : Nat) : '\t' ∉ hex n := fun mem => absurd (hexChars n '\t' mem) (by decide)

theorem flagsClean (r : PageRange) : '\t' ∉ r.flags := fun mem => absurd (r.letters '\t' mem) (by decide)

theorem lineFields (r : PageRange) : split '\t' r.line = [hex r.vpn,hex r.pfn,hex r.len,r.flags] := by
  rw [PageRange.line,splitCons (hexClean r.vpn),splitCons (hexClean r.pfn),splitCons (hexClean r.len),
    splitClean (flagsClean r)]

theorem lineInjective {r s : PageRange} (same : r.line = s.line) : r = s := by
  have fields := congrArg (split '\t') same
  rw [lineFields,lineFields] at fields
  simp only [List.cons.injEq,and_true] at fields
  obtain ⟨vpn,pfn,len,flags⟩ := fields
  cases r
  cases s
  cases hexInjective vpn
  cases hexInjective pfn
  cases hexInjective len
  cases flags
  rfl

theorem cutLine (r : PageRange) : cutFields12 r.line = hex r.vpn ++ '\t'::hex r.pfn := by
  simp only [cutFields12,lineFields]

theorem containsCut {sub : Text} {sep : Char} (clean : sep ∉ sub) (a b : Text) :
    contains sub (a ++ sep::b) = (contains sub a || contains sub b) := by
  induction a with
  | nil =>
    have none : startsWith sub (sep::b) = startsWith sub [] := startsWithField (a := []) clean
    rw [List.nil_append,containsCons,none]
    simp [contains]
  | cons c a ih =>
    have here : startsWith sub (c::(a ++ sep::b)) = startsWith sub (c::a) := startsWithField (a := c::a) clean
    rw [List.cons_append,containsCons,containsCons,ih,here,Bool.or_assoc]

theorem containsNone {sub t : Text} {c : Char} (mem : c ∈ sub) (absent : c ∉ t) : contains sub t = false := by
  cases found : contains sub t with
  | false => rfl
  | true =>
    obtain ⟨a,b,rfl⟩ := containsIff.mp found
    exact absurd (by simp [mem]) absent

/- What is not made of hexadecimal digits is found in the flags or nowhere. -/
theorem containsLine {sub : Text} {c : Char} (mem : c ∈ sub) (other : c ∉ hexDigits) (clean : '\t' ∉ sub) (r : PageRange) :
    contains sub r.line = contains sub r.flags := by
  have none : ∀ n, contains sub (hex n) = false := fun n => containsNone mem (fun found => other (hexChars n c found))
  rw [PageRange.line,containsCut clean,containsCut clean,containsCut clean,none,none,none]
  rfl

theorem thpLine (r : PageRange) : contains "_t_".toList r.line = r.flags.contains 't' := by
  rw [containsLine (show '_' ∈ "_t_".toList by decide) (by decide) (by decide)]
  cases thp : r.flags.contains 't' with
  | true => exact r.thpApart (List.contains_iff_mem.mp thp)
  | false => exact containsNone (show 't' ∈ "_t_".toList by decide) (fun mem => by simp [mem] at thp)

theorem lineFilled (r : PageRange) : r.line.isEmpty = false := by
  cases shape : r.line with
  | nil =>
    have fields := congrArg List.length (lineFields r)
    rw [shape] at fields
    exact absurd fields (by simp [split])
  | cons c t => rfl

theorem lineQuiet (r : PageRange) : contains "offset".toList r.line = false := by
  rw [containsLine (show 'o' ∈ "offset".toList by decide) (by decide) (by decide)]
  exact containsNone (show 'e' ∈ "offset".toList by decide) (fun mem => absurd (r.letters 'e' mem) (by decide))

theorem grepOffsetLines (l : Listing) (rest : List Text) : grepOffset (l.lines ++ rest) = l.lines ++ grepOffset rest := by
  have kept : grepOffset l.lines = l.lines := List.filter_eq_self.mpr (fun line mem => by
    obtain ⟨r,_,rfl⟩ := List.mem_map.mp mem
    rw [lineQuiet]
    rfl)
  rw [grepOffset,List.filter_append]
  exact congrArg (· ++ grepOffset rest) kept

theorem grepOffsetPrinted (l : Listing) : grepOffset (l.printed none) = l.lines := by
  have headless : grepOffset (l.printed none) = grepOffset (l.lines ++ []) := List.filter_cons_of_neg (by decide)
  rw [headless,grepOffsetLines]
  exact List.append_nil l.lines

/- The statistics do not get into the listing file. -/
theorem getPagetypesPrinted (l : Listing) (summary : Option (List Text)) :
    (getPagetypes (l.printed summary)).1 = l.lines := by
  have whole : ∀ line ∈ l.lines, (!line.isEmpty) = true := by
    intro line mem
    obtain ⟨r,_,rfl⟩ := List.mem_map.mp mem
    simp [lineFilled]
  cases summary with
  | none =>
    rw [getPagetypes,grepOffsetPrinted]
    exact List.takeWhile_eq_self_iff.mpr whole
  | some rest =>
    have headless : grepOffset (l.printed (some rest)) = grepOffset (l.lines ++ []::rest) :=
      List.filter_cons_of_neg (by decide)
    have blank : grepOffset ([]::rest) = []::grepOffset rest := List.filter_cons_of_pos (by decide)
    simp only [getPagetypes,headless,grepOffsetLines,blank]
    rw [List.takeWhile_append_of_pos whole]
    simp

def pair (r : PageRange) : Nat × Nat := (r.vpn,r.pfn)

def Listing.mapping (l : Listing) : List (Nat × Nat) := l.ranges.map pair

def Listing.thp (l : Listing) : List (Nat × Nat) := (l.ranges.filter (fun r => r.flags.contains 't')).map pair

/- The class of a migration, by the huge pages before it. -/
def thpMigration (before after : Listing) : MigrationCode :=
  if before.thp ≠ [] then
    if after.thp = before.thp then .hugepageNotMigrated
    else if after.thp ≠ [] then .hugepageMigrated
    else .hugepageSplit
  else if after.mapping = before.mapping then .pageNotMigrated
  else if after.thp ≠ [] then .hugepageCreated
  else .pageMigrated

def pairLine (p : Nat × Nat) : Text := hex p.1 ++ '\t'::hex p.2

theorem pairLineInjective : Function.Injective pairLine := by
  intro p q same
  have fields := congrArg (split '\t') same
  rw [pairLine,pairLine,splitCons (hexClean p.1),splitClean (hexClean p.2),splitCons (hexClean q.1),
    splitClean (hexClean q.2)] at fields
  simp only [List.cons.injEq,and_true] at fields
  exact Prod.ext (hexInjective fields.1) (hexInjective fields.2)

theorem cutLines (rs : List PageRange) : (rs.map PageRange.line).map cutFields12 = (rs.map pair).map pairLine := by
  rw [List.map_map,List.map_map]
  exact List.map_congr_left (fun r _ => cutLine r)

theorem hugeLines (l : Listing) : (l.lines.filter (contains "_t_".toList)).map cutFields12 = l.thp.map pairLine := by
  have same : contains "_t_".toList ∘ PageRange.line = fun r => r.flags.contains 't' := funext thpLine
  rw [Listing.lines,List.filter_map,same,cutLines]
  rfl

theorem diffQLines (ps qs : List (Nat × Nat)) : diffQ (ps.map pairLine) (qs.map pairLine) = !decide (ps = qs) := by
  have same : ps.map pairLine = qs.map pairLine ↔ ps = qs := (List.map_injective_iff.mpr pairLineInjective).eq_iff
  rw [diffQ,bne,beq_eq_decide,decide_eq_decide.mpr same]

/- The first test reads the file of the listing after the migration. -/
def thpMigrationFound (before after : Listing) : MigrationCode :=
  if after.thp ≠ [] then
    if before.thp = after.thp then .hugepageNotMigrated else .hugepageMigrated
  else if before.mapping = after.mapping then .pageNotMigrated else .pageMigrated

theorem checkThpMigrationLines (before after : Listing) (seq : List Text) :
    checkThpMigration before.lines after.lines seq = recordCode seq (thpMigrationFound before after) := by
  have mapping : ∀ l : Listing, l.lines.map cutFields12 = l.mapping.map pairLine := fun l => cutLines l.ranges
  simp only [checkThpMigration,hugeLines,mapping,diffQLines,thpMigrationFound]
  by_cases huge : after.thp = []
  · by_cases same : before.mapping = after.mapping <;> simp [huge,same]
  · by_cases same : before.thp = after.thp <;> simp [huge,same]

def migrationCodes : List MigrationCode :=
  [.migrationPassed,.migrationFailed,.hugepageMigrated,.hugepageNotMigrated,.hugepageDisappeared,.hugepageNotExist,
    .hugepageSplit,.hugepageCreated,.pageNotMigrated,.pageMigrated]

theorem codesApart : (migrationCodes.map (fun c => echo [c.text])).Nodup := by decide +kernel

theorem memMigrationCodes (a : MigrationCode) : a ∈ migrationCodes := by
  cases a <;> simp [migrationCodes]

theorem recordCodeInjective {seq : List Text} {a b : MigrationCode} (same : recordCode seq a = recordCode seq b) : a = b :=
  List.inj_on_of_nodup_map codesApart (memMigrationCodes a) (memMigrationCodes b)
    (List.singleton_inj.mp (List.append_cancel_left same))

theorem thpMigrationExact (before after : Listing) (seq : List Text) :
    checkThpMigration (grepOffset (before.printed none)) (grepOffset (after.printed none)) seq =
        recordCode seq (thpMigration before after) ↔
      (before.thp = [] ↔ after.thp = []) := by
  rw [grepOffsetPrinted,grepOffsetPrinted,checkThpMigrationLines]
  have codes : recordCode seq (thpMigrationFound before after) = recordCode seq (thpMigration before after) ↔
      thpMigrationFound before after = thpMigration before after := ⟨recordCodeInjective,congrArg (recordCode seq)⟩
  rw [codes,thpMigrationFound,thpMigration]
  by_cases first : before.thp = [] <;> by_cases last : after.thp = []
  · simp [first,last,eq_comm]
  · by_cases same : after.mapping = before.mapping <;> simp [first,last,same,Ne.symm last]
  · by_cases same : before.mapping = after.mapping <;> simp [first,last,same,Ne.symm first]
  · simp [first,last,eq_comm]

def mappedHuge : Listing where
  ranges := [pageRange 0x700000000 0x71e00 1 "___U_lA____Ma_bH______t___________f_____1".toList (by decide +kernel),
    pageRange 0x700000001 0x71e01 0x1ff "___________Ma___T_____t___________f_____1".toList (by decide +kernel)]
  sorted := by decide

def splitInPlace : Listing where
  ranges := [pageRange 0x700000000 0x71e00 1 "___U_lA____Ma_b___________________f_____1".toList (by decide +kernel),
    pageRange 0x700000001 0x71e01 0x1ff "__RUDlA____Ma_b___________________f_____1".toList (by decide +kernel)]
  sorted := by decide

def movedHead : Listing where
  ranges := [pageRange 0x700000000 0x73fd2 1 "__RUDlA____Ma_b___________________f_____1".toList (by decide +kernel),
    pageRange 0x700000001 0x71e01 0x1ff "__RUDlA____Ma_b___________________f_____1".toList (by decide +kernel)]
  sorted := by decide

theorem splitUnnoticed :
    checkThpMigration (grepOffset (mappedHuge.printed none)) (grepOffset (splitInPlace.printed none)) initReturnCode =
        recordCode initReturnCode .pageNotMigrated ∧
      thpMigration mappedHuge splitInPlace = .hugepageSplit ∧
      ¬ checkThpMigration (grepOffset (mappedHuge.printed none)) (grepOffset (splitInPlace.printed none)) initReturnCode =
        recordCode initReturnCode (thpMigration mappedHuge splitInPlace) := by
  decide +kernel

end MmRegression
