import Mathlib.Data.List.Basic
import Mathlib.Data.List.Nodup
import Mathlib.Data.List.Perm.Basic
import MmRegression.Fields
import MmRegression.Recipes

/-! The subprojects of `run_full.sh`. Its `prepare` runs through a table of names and keywords, and for
each row `filter_file` moves the recipes that match a keyword out of the list that the rows share.
`grep` is not of the repository: `bre` gives the lines that a basic regular expression matches, none
when it is not one. `glob` gives the files of the working directory that a word names. -/
namespace MmRegression

/-- A row of the table as `read spj keywords` leaves it. -/
structure Subproject where
  spj : Text
  keywords : Text
  named : words spj = [spj]

def expand (glob : Text → List Text) (word : Text) : List Text :=
  if word.any (fun c => "*?[".toList.contains c) && !(glob word).isEmpty then glob word else [word]

/- `$value` without its quotes. -/
def unquoted (glob : Text → List Text) (value : Text) : List Text := (words value).flatMap (expand glob)

/- `for k in $keywords ; do tmp="$tmp -e $k" ; done` -/
def expressions (glob : Text → List Text) (keywords : Text) : Text :=
  (unquoted glob keywords).foldl (fun tmp k => tmp ++ " -e ".toList ++ k) []

/- The patterns of `grep $tmp $input`. Words that come in another way are files or options of their
own. -/
def patterns : List Text → Option (List Text)
  | [] => some []
  | ['-','e']::k::rest => (patterns rest).map (fun ks => k::ks)
  | _ => none

def grep (bre : Text → Option (Text → Bool)) (inverted : Bool) (args : List Text) (lines : List Text) : List Text :=
  match (patterns args).bind (fun ks => ks.mapM bre) with
  | none => []
  | some tests => lines.filter (fun line => tests.any (fun test => test line) != inverted)

/-- The file that the rows share, and what stands in `work/${projbase}/${flavor}/recipelist`. -/
structure RecipeFiles where
  input : Option (List Text)
  recipelist : Text → Option (List Text)

def RecipeFiles.write (s : RecipeFiles) (flavor : Text) (lines : List Text) : Text → Option (List Text) :=
  fun name => if name = flavor then some lines else s.recipelist name

def filterFile (bre : Text → Option (Text → Bool)) (glob : Text → List Text) (s : RecipeFiles) (flavor : Text)
    (args : List Text) : RecipeFiles :=
  let tmp := expressions glob (List.intercalate [' '] args)
  if tmp.isEmpty then
    match s.input with
    | some lines => ⟨none,s.write flavor lines⟩
    | none => s
  else
    let lines := s.input.getD []
    ⟨some (grep bre true (unquoted glob tmp) lines),s.write flavor (grep bre false (unquoted glob tmp) lines)⟩

/- `filter_file /tmp/recipe ${projbase} $spj $keywords` -/
def prepareRow (bre : Text → Option (Text → Bool)) (glob : Text → List Text) (s : RecipeFiles) (row : Subproject) :
    RecipeFiles :=
  match unquoted glob row.spj ++ unquoted glob row.keywords with
  | [] => s
  | flavor::args => filterFile bre glob s flavor args

def prepareLoop (bre : Text → Option (Text → Bool)) (glob : Text → List Text) (rows : List Subproject)
    (recipes : List Text) : RecipeFiles :=
  rows.foldl (prepareRow bre glob) ⟨some recipes,fun _ => none⟩

/-! ### What a row asks for -/

def matchesLine (bre : Text → Option (Text → Bool)) (line k : Text) : Bool :=
  match bre k with
  | some test => test line
  | none => false

def Subproject.asks (bre : Text → Option (Text → Bool)) (row : Subproject) (line : Text) : Bool :=
  (words row.keywords).any (matchesLine bre line)

/-- The first row one of whose keywords matches the line, or the last row. -/
def owner (bre : Text → Option (Text → Bool)) (rows : List Subproject) (last : Subproject) (line : Text) : Subproject :=
  (rows.find? (fun row => row.asks bre line)).getD last

/- The table's conditions: every row but the last has a keyword, the names differ, and pathname expansion
leaves every word alone, as it does when the word matches no file name. -/
structure Table (bre : Text → Option (Text → Bool)) (glob : Text → List Text) (rows : List Subproject)
    (last : Subproject) : Prop where
  keyed : ∀ row ∈ rows, words row.keywords ≠ []
  bare : words last.keywords = []
  distinct : ((rows ++ [last]).map Subproject.spj).Nodup
  plain : ∀ row ∈ rows ++ [last], ∀ word ∈ row.spj :: words row.keywords, expand glob word = [word]
  valid : ∀ row ∈ rows, ∀ k ∈ words row.keywords, (bre k).isSome

theorem expandPlain {glob : Text → List Text} {word : Text} (unmatched : glob word = []) :
    expand glob word = [word] := by
  simp [expand,unmatched]

theorem unquotedPlain {glob : Text → List Text} {value : Text} (plain : ∀ w ∈ words value, expand glob w = [w]) :
    unquoted glob value = words value := by
  rw [unquoted]
  generalize words value = ws at plain
  induction ws with
  | nil => rfl
  | cons w ws ih =>
    rw [List.flatMap_cons,plain w (by simp),ih (fun x mem => plain x (by simp [mem])),List.singleton_append]

/-! ### The words that reach `grep` -/

theorem expressionsFlat (glob : Text → List Text) (keywords : Text) :
    expressions glob keywords = (unquoted glob keywords).flatMap (fun k => " -e ".toList ++ k) := by
  have joined : ∀ (ks : List Text) (tmp : Text),
      ks.foldl (fun tmp k => tmp ++ " -e ".toList ++ k) tmp = tmp ++ ks.flatMap (fun k => " -e ".toList ++ k) := by
    intro ks
    induction ks with
    | nil => simp
    | cons k ks ih =>
      intro tmp
      rw [List.foldl_cons,ih,List.flatMap_cons,List.append_assoc,List.append_assoc,List.append_assoc]
  exact joined _ []

theorem wordsExpressions {ks : List Text} (tokens : ∀ k ∈ ks, Token k) :
    words (ks.flatMap (fun k => " -e ".toList ++ k)) = ks.flatMap (fun k => [['-','e'],k]) := by
  have dash : Token ['-','e'] := ⟨by decide,by simp⟩
  induction ks with
  | nil => rfl
  | cons k ks ih =>
    have token := tokens k (by simp)
    have rest := ih (fun x mem => tokens x (by simp [mem]))
    have opened (tail : Text) : words (" -e ".toList ++ tail) = ['-','e']::words tail := by
      rw [show " -e ".toList ++ tail = ' '::(['-','e'] ++ ' '::tail) by rfl,wordsBlank,wordsCons dash]
    rw [List.flatMap_cons,List.append_assoc,opened]
    cases ks with
    | nil =>
      simp only [List.flatMap_nil,List.append_nil]
      rw [wordsOne token]
      rfl
    | cons l ks =>
      rw [List.flatMap_cons] at rest ⊢
      have blank : " -e ".toList ++ l = ' '::("-e ".toList ++ l) := rfl
      rw [blank,List.cons_append] at rest ⊢
      rw [wordsBlank] at rest
      rw [wordsCons token,rest]
      rfl

theorem patternsPairs (ks : List Text) : patterns (ks.flatMap (fun k => [['-','e'],k])) = some ks := by
  induction ks with
  | nil => rfl
  | cons k ks ih =>
    rw [List.flatMap_cons]
    simp [patterns,ih]

/- The list that reaches `grep` is the keywords again, each after its `-e`. -/
theorem expressionsPatterns {glob : Text → List Text} {ks : List Text} (tokens : ∀ k ∈ ks, Token k)
    (plain : ∀ k ∈ ks, expand glob k = [k]) :
    patterns (unquoted glob (expressions glob (List.intercalate [' '] ks))) = some ks ∧
      ((expressions glob (List.intercalate [' '] ks)).isEmpty = true ↔ ks = []) := by
  have inner : unquoted glob (List.intercalate [' '] ks) = ks := by
    rw [unquotedPlain (by rwa [wordsJoin tokens]),wordsJoin tokens]
  have listed := wordsExpressions tokens
  rw [← inner,← expressionsFlat,inner] at listed
  have outer : ∀ w ∈ words (expressions glob (List.intercalate [' '] ks)), expand glob w = [w] := by
    intro w mem
    rw [listed] at mem
    obtain ⟨k,inside,either⟩ := List.mem_flatMap.mp mem
    simp only [List.mem_cons,List.not_mem_nil,or_false] at either
    rcases either with rfl | rfl
    · rfl
    · exact plain w inside
  refine ⟨by rw [unquotedPlain outer,listed,patternsPairs],?_⟩
  rw [expressionsFlat,inner]
  cases ks <;> simp

theorem testsAny {bre : Text → Option (Text → Bool)} {ks : List Text} (valid : ∀ k ∈ ks, (bre k).isSome) :
    ∃ tests, ks.mapM bre = some tests ∧
      ∀ line, tests.any (fun test => test line) = ks.any (matchesLine bre line) := by
  induction ks with
  | nil => exact ⟨[],rfl,fun _ => rfl⟩
  | cons k ks ih =>
    obtain ⟨test,read⟩ := Option.isSome_iff_exists.mp (valid k (by simp))
    obtain ⟨tests,rest,same⟩ := ih (fun x mem => valid x (by simp [mem]))
    refine ⟨test::tests,by simp [read,rest],fun line => ?_⟩
    simp [same line,matchesLine,read]

theorem grepValid {bre : Text → Option (Text → Bool)} {args ks : List Text} (read : patterns args = some ks)
    (valid : ∀ k ∈ ks, (bre k).isSome) (inverted : Bool) (lines : List Text) :
    grep bre inverted args lines = lines.filter (fun line => ks.any (matchesLine bre line) != inverted) := by
  obtain ⟨tests,found,same⟩ := testsAny valid
  simp only [grep,read,Option.bind_some,found,same]

/-! ### One row, and the rows in turn -/

section Rows

variable {bre : Text → Option (Text → Bool)} {glob : Text → List Text}

theorem rowArguments {row : Subproject} (plain : ∀ w ∈ row.spj::words row.keywords, expand glob w = [w])
    (s : RecipeFiles) : prepareRow bre glob s row = filterFile bre glob s row.spj (words row.keywords) := by
  have name : unquoted glob row.spj = [row.spj] := by
    rw [unquotedPlain (by rw [row.named]; exact fun w mem => plain w (by simp_all)),row.named]
  have rest := unquotedPlain (fun w mem => plain w (List.mem_cons_of_mem _ mem))
  rw [prepareRow,name,rest]
  rfl

theorem keyedRow {row : Subproject} (plain : ∀ w ∈ row.spj::words row.keywords, expand glob w = [w])
    (keyed : words row.keywords ≠ []) (valid : ∀ k ∈ words row.keywords, (bre k).isSome) (lines : List Text)
    (lists : Text → Option (List Text)) :
    prepareRow bre glob ⟨some lines,lists⟩ row = ⟨some (lines.filter (fun line => !row.asks bre line)),
      fun name => if name = row.spj then some (lines.filter (row.asks bre)) else lists name⟩ := by
  obtain ⟨read,empty⟩ := expressionsPatterns wordsToken (fun w mem => plain w (List.mem_cons_of_mem _ mem))
  have filled := mt empty.mp keyed
  have kept (line : Text) : ((words row.keywords).any (matchesLine bre line) != true) = !row.asks bre line := by
    rw [Subproject.asks,Bool.bne_true]
  have moved (line : Text) : ((words row.keywords).any (matchesLine bre line) != false) = row.asks bre line := by
    rw [Subproject.asks,Bool.bne_false]
  rw [rowArguments plain,filterFile,if_neg filled]
  simp only [Option.getD_some,grepValid read valid,kept,moved]
  rfl

theorem bareRow {row : Subproject} (plain : ∀ w ∈ row.spj::words row.keywords, expand glob w = [w])
    (bare : words row.keywords = []) (lines : List Text) (lists : Text → Option (List Text)) :
    prepareRow bre glob ⟨some lines,lists⟩ row =
      ⟨none,fun name => if name = row.spj then some lines else lists name⟩ := by
  rw [rowArguments plain,bare]
  rfl

theorem ownerMem (rows : List Subproject) (last : Subproject) (line : Text) :
    owner bre rows last line ∈ rows ++ [last] := by
  cases found : rows.find? (fun row => row.asks bre line) with
  | none => simp [owner,found]
  | some row => simpa [owner,found] using Or.inl (List.mem_of_find?_eq_some found)

theorem ownerOther {row : Subproject} {line : Text} (other : row.asks bre line = false) (rows : List Subproject)
    (last : Subproject) : owner bre (row::rows) last line = owner bre rows last line := by
  rw [owner,List.find?_cons_of_neg (by simp [other])]
  rfl

theorem ownerHead {row : Subproject} {line : Text} (asked : row.asks bre line = true) (rows : List Subproject)
    (last : Subproject) : owner bre (row::rows) last line = row := by
  rw [owner,List.find?_cons_of_pos (by exact asked)]
  rfl

theorem Table.tail {row last : Subproject} {rows : List Subproject} (table : Table bre glob (row::rows) last) :
    Table bre glob rows last where
  keyed := fun r mem => table.keyed r (List.mem_cons_of_mem row mem)
  bare := table.bare
  distinct := (List.nodup_cons.mp table.distinct).2
  plain := fun r mem => table.plain r (List.mem_cons_of_mem row mem)
  valid := fun r mem => table.valid r (List.mem_cons_of_mem row mem)

/- Each row takes its lines out of what the rows before it have left; what a row has written stays, since
no later one has its name. -/
theorem rowsRun {rows : List Subproject} {last : Subproject} (table : Table bre glob rows last) (lines : List Text)
    (lists : Text → Option (List Text)) :
    let s := (rows ++ [last]).foldl (prepareRow bre glob) ⟨some lines,lists⟩
    s.input = none ∧
    (∀ row ∈ rows ++ [last], s.recipelist row.spj =
      some (lines.filter (fun line => (owner bre rows last line).spj = row.spj))) ∧
    ∀ name ∉ (rows ++ [last]).map Subproject.spj, s.recipelist name = lists name := by
  intro s
  induction rows generalizing lines lists with
  | nil =>
    have plain := table.plain last (by simp)
    have run : s = ⟨none,fun name => if name = last.spj then some lines else lists name⟩ :=
      bareRow plain table.bare lines lists
    have all : lines.filter (fun line => (owner bre [] last line).spj = last.spj) = lines :=
      List.filter_eq_self.mpr (fun line _ => by simp [owner])
    rw [run]
    refine ⟨rfl,fun row mem => ?_,fun name other => ?_⟩
    · cases List.mem_singleton.mp mem
      rw [all]
      exact if_pos rfl
    · exact if_neg (fun same => other (by simp [same]))
  | cons row rows ih =>
    have first := keyedRow (table.plain row (by simp)) (table.keyed row (by simp))
      (table.valid row (by simp)) lines lists
    have fresh : row.spj ∉ (rows ++ [last]).map Subproject.spj := (List.nodup_cons.mp table.distinct).1
    obtain ⟨empty,written,kept⟩ := ih table.tail (lines.filter (fun line => !row.asks bre line))
      (fun name => if name = row.spj then some (lines.filter (row.asks bre)) else lists name)
    rw [← first] at empty written kept
    refine ⟨empty,fun r mem => ?_,fun name other => ?_⟩
    · rcases List.mem_cons.mp mem with rfl | later
      · have own : ∀ line ∈ lines, r.asks bre line = decide ((owner bre (r::rows) last line).spj = r.spj) := by
          intro line _
          cases asked : r.asks bre line with
          | true => simp [ownerHead asked]
          | false =>
            rw [ownerOther asked]
            have mem := List.mem_map_of_mem (f := Subproject.spj) (@ownerMem bre rows last line)
            have other : (owner bre rows last line).spj ≠ r.spj := fun same => fresh (by rwa [← same])
            exact (decide_eq_false other).symm
        rw [← List.filter_congr own]
        exact (kept r.spj fresh).trans (if_pos rfl)
      · have different : row.spj ≠ r.spj := fun same => fresh (same ▸ List.mem_map_of_mem later)
        refine (written r later).trans (congrArg some ?_)
        rw [List.filter_filter]
        refine List.filter_congr (fun line _ => ?_)
        cases asked : row.asks bre line with
        | true => simp [ownerHead asked,different]
        | false => simp [ownerOther asked]
    · rw [List.cons_append,List.map_cons,List.mem_cons,not_or] at other
      exact (kept name other.2).trans (if_neg other.1)

end Rows

/- The parts of a list by a key, put one after the other. -/
theorem partsPerm {α β : Type} [DecidableEq β] (key : α → β) {names : List β} (distinct : names.Nodup) {l : List α}
    (covered : ∀ a ∈ l, key a ∈ names) :
    (names.flatMap (fun n => l.filter (fun a => key a = n))).Perm l := by
  induction names generalizing l with
  | nil =>
    have empty : l = [] := List.eq_nil_iff_forall_not_mem.mpr (fun a mem => absurd (covered a mem) List.not_mem_nil)
    rw [empty]
    exact .nil
  | cons n names ih =>
    obtain ⟨fresh,distinct⟩ := List.nodup_cons.mp distinct
    have rest : ∀ a ∈ l.filter (fun a => !decide (key a = n)), key a ∈ names := by
      intro a mem
      obtain ⟨inside,other⟩ := List.mem_filter.mp mem
      exact (List.mem_cons.mp (covered a inside)).resolve_left (by simpa using other)
    have apart : ∀ m ∈ names, (l.filter (fun a => !decide (key a = n))).filter (fun a => key a = m) =
        l.filter (fun a => key a = m) := by
      intro m mem
      rw [List.filter_filter]
      refine List.filter_congr (fun a _ => ?_)
      by_cases here : key a = m
      · have other : m ≠ n := fun same => fresh (by rwa [← same])
        simp [here,other]
      · simp [here]
    have parts := ih distinct rest
    rw [List.flatMap_congr apart] at parts
    rw [List.flatMap_cons]
    exact (parts.append_left _).trans (List.filter_append_perm _ l)

/- Three rows of the script; a keyword without a special character is found where it stands. -/
def mceEinj : Subproject := ⟨"mce_einj".toList,"mce/einj".toList,by decide +kernel⟩
def mceRest : Subproject := ⟨"mce".toList,"mce/uc/sr mce/e".toList,by decide +kernel⟩
def normalRow : Subproject := ⟨"normal".toList,[],by decide +kernel⟩

def literalBre (k : Text) : Option (Text → Bool) := some (contains k)

theorem mceTable : Table literalBre (fun _ => []) [mceEinj,mceRest] normalRow where
  keyed := by decide +kernel
  bare := by decide +kernel
  distinct := by decide +kernel
  plain := fun _ _ _ _ => expandPlain rfl
  valid := fun _ _ _ _ => rfl

example : owner literalBre [mceEinj,mceRest] normalRow "mce/einj/uc".toList = mceEinj := by rfl

end MmRegression
