import MmRegression.Shell

/-! The table of results. `show_progress_verbose` of `test_summary.rb` prints one line for each
testcase, and `summary_table.rb` reads such lines back with
`/(\w*) \S+ \S+ \((\w+)\) (\S+)/`. -/
namespace MmRegression

/- What `strftime("%m%d/%H%M%S")` shows of the time of a testcase directory. -/
structure Stamp where
  month : Fin 100
  day : Fin 100
  hour : Fin 100
  minute : Fin 100
  second : Fin 100
  deriving DecidableEq, Repr

def twoDigits (n : Fin 100) : Text := [Nat.digitChar (n.val / 10),Nat.digitChar (n.val % 10)]

def Stamp.date (s : Stamp) : Text := twoDigits s.month ++ twoDigits s.day
def Stamp.time (s : Stamp) : Text := twoDigits s.hour ++ (twoDigits s.minute ++ twoDigits s.second)

/- A testcase as it is printed. `started` is there when the run status is FINISHED or RUNNING, with
the difference of `end_time` and `start_time` when there is an `end_time`. -/
structure Row where
  id : Text
  result : Text
  testType : Text
  priority : Nat
  started : Option (Stamp × Option Int)
  deriving DecidableEq, Repr

def decimal : Int → Text
  | .ofNat n => digits n
  | .negSucc n => '-' :: digits (n+1)

def padLeft (c : Char) (width : Nat) (t : Text) : Text := List.replicate (width - t.length) c ++ t

/- The id stands in the format string itself. All arguments are taken by then, so that a directive
in it other than `%%` raises an error. -/
def formatRest : Text → Option Text
  | [] => some []
  | '%' :: '%' :: cs => (formatRest cs).map (fun t => '%' :: t)
  | '%'::_ => none
  | c::cs => (formatRest cs).map (fun t => c::t)

def Row.columns (r : Row) : Text :=
  match r.started with
  | none => "----/------ ------".toList
  | some (stamp,none) => stamp.date ++ '/'::(stamp.time ++ " xxxxxx".toList)
  | some (stamp,some ms) => stamp.date ++ '/'::(stamp.time ++ ' '::padLeft ' ' 6 (decimal ms))

def Row.line (r : Row) : Option Text :=
  (formatRest r.id).map (fun id => r.result ++ ' '::(r.columns ++ " [".toList ++ (padLeft '0' 2 (digits r.priority) ++
    ("] (".toList ++ (r.testType ++ (") ".toList ++ id))))))

/- The lines of the testcases; the progress and the targets are printed after them. -/
def showProgressVerbose (rows : List Row) : Option (List Text) := rows.mapM Row.line

structure TableEntry where
  result : Text
  testType : Text
  id : Text
  deriving DecidableEq, Repr

def nonBlank (c : Char) : Bool := !(" \t\r\n\x0b\x0c".toList.contains c)

def skipColumn (t : Text) : Option Text :=
  match t.takeWhile nonBlank, t.dropWhile nonBlank with
  | [], _ => none
  | _, ' '::rest => some rest
  | _, _ => none

/- From `\((\w+)\) (\S+)` on, with `$2` and `$3`. -/
def readBracket : Text → Option (Text × Text)
  | '('::rest =>
      match rest.takeWhile isWord, rest.dropWhile isWord with
      | [], _ => none
      | type, ')' :: ' ' :: last =>
          if last.takeWhile nonBlank = [] then none else some (type,last.takeWhile nonBlank)
      | _, _ => none
  | _ => none

/- The expression at the beginning of `t`. Each of its parts ends where a character that it cannot
take stands, so that there is one way to match it. -/
def readHere (t : Text) : Option TableEntry :=
  match t.dropWhile isWord with
  | ' '::columns =>
      (((skipColumn columns).bind skipColumn).bind readBracket).map (fun m => ⟨t.takeWhile isWord,m.1,m.2⟩)
  | _ => none

def readLine : Text → Option TableEntry
  | [] => readHere []
  | c::cs =>
      match readHere (c::cs) with
      | some e => some e
      | none => readLine cs

def cell (lines : List Text) (result testType : Text) : Nat :=
  (lines.filterMap readLine).countP (fun e => e.result == result && e.testType == testType)

def Row.entry (r : Row) : TableEntry := ⟨r.result,r.testType,r.id⟩

/-! ### Reading -/

def afterBlank (t : Text) : Text := (t.dropWhile (· != ' ')).tail

theorem afterBlankFirst {a : Text} (clean : ' ' ∉ a) (rest : Text) : afterBlank (a ++ ' '::rest) = rest := by
  simp [afterBlank,List.dropWhile_append_of_pos (otherChars clean)]

theorem afterBlankKeep {q : Text} (blank : ' ' ∈ q) :
    (∀ rest, afterBlank (q ++ rest) = afterBlank q ++ rest) ∧ (afterBlank q).count ' ' + 1 = q.count ' ' ∧
      ∀ c ∈ afterBlank q, c ∈ q := by
  obtain ⟨a,b,rfl,clean⟩ := List.eq_append_cons_of_mem blank
  rw [afterBlankFirst clean]
  refine ⟨fun rest => ?_,?_,fun c mem => by simp [mem]⟩
  · rw [List.append_assoc,List.cons_append,afterBlankFirst clean]
  · simp [List.count_eq_zero.mpr clean]

theorem takeDropBlank (t : Text) {rest : Text} (dropped : t.dropWhile nonBlank = ' '::rest) :
    t = t.takeWhile nonBlank ++ ' '::rest ∧ ' ' ∉ t.takeWhile nonBlank := by
  refine ⟨by rw [← dropped,List.takeWhile_append_dropWhile],fun mem => ?_⟩
  have nonblank := List.all_eq_true.mp List.all_takeWhile ' ' mem
  exact absurd nonblank (by decide)

theorem skipColumnShape {t rest : Text} (skipped : skipColumn t = some rest) :
    ∃ a, t = a ++ ' '::rest ∧ ' ' ∉ a := by
  unfold skipColumn at skipped
  split at skipped
  · contradiction
  · rename_i dropped _
    cases Option.some.inj skipped
    exact ⟨_,takeDropBlank t dropped⟩
  · contradiction

theorem readBracketShape {t type id : Text} (read : readBracket t = some (type,id)) :
    ∃ rest, t = '(' :: (type ++ ')' :: ' ' :: (id ++ rest)) ∧ type ≠ [] ∧ (∀ c ∈ type, isWord c = true) ∧
      id ≠ [] ∧ ∀ c ∈ id, nonBlank c = true := by
  unfold readBracket at read
  split at read
  · rename_i rest
    split at read
    · contradiction
    · rename_i last closed some
      split at read
      · contradiction
      · rename_i named
        cases Option.some.inj read
        have typed : rest = rest.takeWhile isWord ++ ')' :: ' ' :: last := by
          rw [← closed,List.takeWhile_append_dropWhile]
        refine ⟨last.dropWhile nonBlank,?_,some,List.all_eq_true.mp List.all_takeWhile,named,
          List.all_eq_true.mp List.all_takeWhile⟩
        rw [List.takeWhile_append_dropWhile,← typed]
    · contradiction
  · contradiction

theorem readHereShape {t : Text} {e : TableEntry} (read : readHere t = some e) :
    ∃ a b rest, t = e.result ++ ' ' :: (a ++ ' ' :: (b ++ ' ' :: '(' :: (e.testType ++ ')' :: ' ' :: (e.id ++ rest)))) ∧
      (∀ c ∈ e.result, isWord c = true) ∧ ' ' ∉ a ∧ ' ' ∉ b ∧ e.testType ≠ [] ∧ (∀ c ∈ e.testType, isWord c = true) ∧
      e.id ≠ [] ∧ ∀ c ∈ e.id, nonBlank c = true := by
  unfold readHere at read
  split at read
  · rename_i columns dropped
    obtain ⟨⟨type,id⟩,found,rfl⟩ := Option.map_eq_some_iff.mp read
    obtain ⟨bracket,skipped,inside⟩ := Option.bind_eq_some_iff.mp found
    obtain ⟨middle,first,second⟩ := Option.bind_eq_some_iff.mp skipped
    obtain ⟨a,columns,cleanA⟩ := skipColumnShape first
    obtain ⟨b,brackets,cleanB⟩ := skipColumnShape second
    obtain ⟨rest,shape,words⟩ := readBracketShape inside
    refine ⟨a,b,rest,?_,List.all_eq_true.mp List.all_takeWhile,cleanA,cleanB,words⟩
    rw [← shape,← brackets,← columns,← dropped,List.takeWhile_append_dropWhile]
  · contradiction

theorem wordNoBlank {w : Text} (word : ∀ c ∈ w, isWord c = true) : ' ' ∉ w :=
  fun mem => absurd (word ' ' mem) (by decide)

/- The bracket stands behind the third blank. -/
theorem readHereBracket {t : Text} {e : TableEntry} (read : readHere t = some e) :
    ∃ rest, afterBlank (afterBlank (afterBlank t)) = '(' :: (e.testType ++ ')' :: ' ' :: (e.id ++ rest)) := by
  obtain ⟨a,b,rest,rfl,word,cleanA,cleanB,_⟩ := readHereShape read
  exact ⟨rest,by rw [afterBlankFirst (wordNoBlank word),afterBlankFirst cleanA,afterBlankFirst cleanB]⟩

theorem readHereBlanks {t : Text} {e : TableEntry} (read : readHere t = some e) : 4 ≤ t.count ' ' := by
  obtain ⟨a,b,rest,rfl,_⟩ := readHereShape read
  simp only [List.count_append,List.count_cons_self,List.count_cons]
  omega

theorem readHereFar {q : Text} (blanks : 3 ≤ q.count ' ') (unopened : '(' ∉ q) (rest : Text) :
    readHere (q ++ ' '::rest) = none := by
  have blank : ∀ {x : Text}, 1 ≤ x.count ' ' → ' ' ∈ x := fun some => List.count_pos_iff.mp some
  obtain ⟨first,count1,part1⟩ := afterBlankKeep (blank (by omega : 1 ≤ q.count ' '))
  obtain ⟨second,count2,part2⟩ := afterBlankKeep (blank (by omega : 1 ≤ (afterBlank q).count ' '))
  obtain ⟨third,_,part3⟩ := afterBlankKeep (blank (by omega : 1 ≤ (afterBlank (afterBlank q)).count ' '))
  cases read : readHere (q ++ ' '::rest) with
  | none => rfl
  | some e =>
    obtain ⟨more,bracket⟩ := readHereBracket read
    rw [first,second,third] at bracket
    cases inner : afterBlank (afterBlank (afterBlank q)) with
    | nil => rw [inner] at bracket; simp at bracket
    | cons c cs =>
      rw [inner,List.cons_append,List.cons.injEq] at bracket
      have opened : c ∈ q := part1 c (part2 c (part3 c (by rw [inner]; exact List.mem_cons_self)))
      exact absurd (bracket.1 ▸ opened) unopened

/- The word at the beginning is not followed by a blank. -/
theorem readHereApart {s : Text} {c : Char} (clean : ' ' ∉ s) (other : isWord c = false) (solid : c ≠ ' ') (rest : Text) :
    readHere (s ++ c::rest) = none := by
  cases read : readHere (s ++ c::rest) with
  | none => rfl
  | some e =>
    obtain ⟨a,b,more,shape,word,_⟩ := readHereShape read
    have first := congrArg (cutFirst ' ') shape
    rw [cutFirstAppend (wordNoBlank word)] at first
    have inside : c ∈ e.result := by
      rw [← first,cutFirst,List.takeWhile_append_of_pos (otherChars clean),List.takeWhile_cons_of_pos (by simpa using solid)]
      simp
    rw [word c inside] at other
    contradiction

theorem readLineSkip {u t : Text} (fails : ∀ s, s ≠ [] → s <:+ u → readHere (s ++ t) = none) :
    readLine (u ++ t) = readLine t := by
  induction u with
  | nil => rfl
  | cons c u ih =>
    rw [List.cons_append,readLine,← List.cons_append,fails (c::u) (by simp) (List.suffix_refl _)]
    exact ih (fun s some part => fails s some (part.trans (List.suffix_cons c u)))

theorem readLineNone {t : Text} (few : t.count ' ' < 4) : readLine t = none := by
  have fails : ∀ s, s <:+ t → readHere s = none := by
    intro s part
    cases read : readHere s with
    | none => rfl
    | some e =>
      have enough := readHereBlanks read
      have fewer := part.sublist.count_le ' '
      omega
  induction t with
  | nil => rfl
  | cons c cs ih =>
    rw [readLine,fails _ (List.suffix_refl _)]
    refine ih ?_ (fun s part => fails s (part.trans (List.suffix_cons c cs)))
    exact Nat.lt_of_le_of_lt ((List.sublist_cons_self c cs).count_le ' ') few

theorem readHereWord {w : Text} (word : ∀ c ∈ w, isWord c = true) (columns : Text) :
    readHere (w ++ ' '::columns) =
      (((skipColumn columns).bind skipColumn).bind readBracket).map (fun m => ⟨w,m.1,m.2⟩) := by
  obtain ⟨taken,dropped⟩ := takeDropWord word columns
  simp only [readHere,taken,dropped]

theorem readLineHere {t : Text} {e : TableEntry} (read : readHere t = some e) : readLine t = some e := by
  cases t with
  | nil => exact read
  | cons c cs => simp [readLine,read]

/- The word before the last two columns of a line is what the expression takes for the result. -/
theorem readLineWord {w : Text} (word : ∀ c ∈ w, isWord c = true) {columns : Text} (blanks : columns.count ' ' = 3) :
    readLine (w ++ ' '::columns) =
      (((skipColumn columns).bind skipColumn).bind readBracket).map (fun m => ⟨w,m.1,m.2⟩) := by
  have here : ∀ v, v <:+ w → readHere (v ++ ' '::columns) =
      (((skipColumn columns).bind skipColumn).bind readBracket).map (fun m => ⟨v,m.1,m.2⟩) :=
    fun v part => readHereWord (fun c mem => word c (part.mem mem)) columns
  cases found : ((skipColumn columns).bind skipColumn).bind readBracket with
  | none =>
    rw [found] at here
    rw [readLineSkip (fun s _ part => here s part)]
    rw [readLine,show readHere (' '::columns) = none from here [] (List.nil_suffix)]
    exact readLineNone (by omega)
  | some m =>
    rw [found] at here
    exact readLineHere (here w (List.suffix_refl w))

theorem skipColumnSolid {a : Text} (some : a ≠ []) (solid : ∀ c ∈ a, nonBlank c = true) (rest : Text) :
    skipColumn (a ++ ' '::rest) = .some rest := by
  have blank : nonBlank ' ' = false := by decide
  have taken : (a ++ ' '::rest).takeWhile nonBlank = a := by
    rw [List.takeWhile_append_of_pos solid,List.takeWhile_cons_of_neg (by simp [blank]),List.append_nil]
  have dropped : (a ++ ' '::rest).dropWhile nonBlank = ' '::rest := by
    rw [List.dropWhile_append_of_pos solid,List.dropWhile_cons_of_neg (by simp [blank])]
  unfold skipColumn
  rw [taken,dropped]
  split
  · contradiction
  · rename_i same
    rw [(List.cons.inj same).2]
  · rename_i other
    exact absurd rfl (other rest)

/- A column of a line that the expression steps over. -/
structure Column (a : Text) : Prop where
  some : a ≠ []
  solid : ∀ c ∈ a, nonBlank c = true
  unopened : '(' ∉ a

theorem Column.noBlank {a : Text} (column : Column a) : ' ' ∉ a :=
  fun mem => absurd (column.solid ' ' mem) (by decide)

theorem readLineColumns {u w dur br bracket : Text} (unopened : '(' ∉ u) (apart : ∀ c ∈ u.getLast?, isWord c = false)
    (word : ∀ c ∈ w, isWord c = true) (first : Column dur) (second : Column br) (blanks : bracket.count ' ' = 1) :
    readLine (u ++ (w ++ ' '::(dur ++ ' '::(br ++ ' '::bracket)))) =
      (readBracket bracket).map (fun m => ⟨w,m.1,m.2⟩) := by
  have skipped : readLine (w ++ ' '::(dur ++ ' '::(br ++ ' '::bracket))) =
      (readBracket bracket).map (fun m => ⟨w,m.1,m.2⟩) := by
    rw [readLineWord word,skipColumnSolid first.some first.solid,Option.bind_some,skipColumnSolid second.some second.solid,
      Option.bind_some]
    simp [List.count_append,List.count_eq_zero.mpr first.noBlank,List.count_eq_zero.mpr second.noBlank,blanks]
  rw [← skipped]
  refine readLineSkip (fun s some part => ?_)
  obtain ⟨s,c,rfl⟩ := List.eq_nil_or_concat s |>.resolve_left some
  have last : isWord c = false := by
    obtain ⟨more,rfl⟩ := part
    exact apart c (by simp)
  by_cases blank : ' ' ∈ s ++ [c]
  · have bracketed : '(' ∉ w := fun mem => absurd (word '(' mem) (by decide)
    have far := readHereFar (q := (s ++ [c]) ++ (w ++ ' '::(dur ++ ' '::br))) ?_ ?_ bracket
    · simpa using far
    · have some := List.count_pos_iff.mpr blank
      simp only [List.count_append,List.count_cons_self] at some ⊢
      omega
    · simp only [List.mem_append,List.mem_cons,not_or]
      exact ⟨by simpa using fun mem => unopened (part.mem mem),bracketed,by decide,first.unopened,by decide,second.unopened⟩
  · simp only [List.mem_append,List.mem_singleton,not_or] at blank
    rw [List.concat_eq_append,List.append_assoc,List.singleton_append]
    exact readHereApart blank.1 last (Ne.symm blank.2) _

/-! ### What is printed -/

theorem wordSolid {c : Char} (word : isWord c = true) : nonBlank c = true ∧ c ≠ '(' := by
  refine ⟨?_,fun same => absurd (same ▸ word) (by decide)⟩
  have blanks : ∀ b ∈ " \t\r\n\x0b\x0c".toList, isWord b = false :=
    List.forall_iff_forall_mem.mp (by decide)
  cases solid : nonBlank c with
  | true => rfl
  | false =>
    have mem : c ∈ " \t\r\n\x0b\x0c".toList :=
      List.contains_iff_mem.mp (by simpa only [nonBlank,Bool.not_eq_false'] using solid)
    rw [blanks c mem] at word
    contradiction

theorem Column.ofWord {w : Text} (some : w ≠ []) (word : ∀ c ∈ w, isWord c = true) : Column w :=
  ⟨some,fun c mem => (wordSolid (word c mem)).1,fun mem => (wordSolid (word _ mem)).2 rfl⟩

theorem digitsWord (n : Nat) : ∀ c ∈ digits n, isWord c = true := by
  intro c mem
  have digit := digitsDigit c mem
  simp [isWord,Char.isAlphanum,digit]

theorem decimalColumn (n : Int) : Column (decimal n) := by
  cases n with
  | ofNat n => exact .ofWord Nat.toDigits_ne_nil (digitsWord n)
  | negSucc n =>
    have column := Column.ofWord Nat.toDigits_ne_nil (digitsWord (n+1))
    refine ⟨by simp [decimal],fun c mem => ?_,fun mem => ?_⟩
    · rcases List.mem_cons.mp mem with rfl | mem
      · decide
      · exact column.solid c mem
    · rcases List.mem_cons.mp mem with same | mem
      · exact absurd same (by decide)
      · exact column.unopened mem

theorem twoDigitsWord (n : Fin 100) : ∀ c ∈ twoDigits n, isWord c = true := by
  have all : ∀ n : Fin 100, (twoDigits n).all isWord = true := by decide
  exact List.all_eq_true.mp (all n)

theorem Stamp.timeWord (s : Stamp) : ∀ c ∈ s.time, isWord c = true := by
  simp only [Stamp.time,List.mem_append]
  rintro c (mem | mem | mem)
  · exact twoDigitsWord s.hour c mem
  · exact twoDigitsWord s.minute c mem
  · exact twoDigitsWord s.second c mem

theorem Stamp.dateWord (s : Stamp) : ∀ c ∈ s.date, isWord c = true := by
  simp only [Stamp.date,List.mem_append]
  rintro c (mem | mem)
  · exact twoDigitsWord s.month c mem
  · exact twoDigitsWord s.day c mem

/- The word that stands before the last two columns. -/
def Row.taken (r : Row) : Text :=
  match r.started with
  | none => []
  | some (stamp,none) => stamp.time
  | some (stamp,some ms) => if 6 ≤ (decimal ms).length then stamp.time else []

theorem Row.takenWord (r : Row) : ∀ c ∈ r.taken, isWord c = true := by
  unfold Row.taken
  split
  · simp
  · exact Stamp.timeWord _
  · split
    · exact Stamp.timeWord _
    · simp

theorem columnsShape (r : Row) : ∃ v dur, r.columns = v ++ (r.taken ++ ' '::dur) ∧ '(' ∉ v ∧
    (∃ c, v.getLast? = some c ∧ isWord c = false) ∧ Column dur := by
  have unopened : ∀ s : Stamp, '(' ∉ s.date ++ ['/'] := by
    intro s mem
    rcases List.mem_append.mp mem with date | slash
    · exact absurd (s.dateWord _ date) (by decide)
    · exact absurd slash (by decide)
  cases started : r.started with
  | none =>
    refine ⟨"----/------".toList,"------".toList,by simp [Row.columns,Row.taken,started],by decide,⟨'-',by decide,by decide⟩,
      by decide,?_,by decide⟩
    exact List.all_eq_true.mp (by decide)
  | some s =>
    obtain ⟨stamp,ended⟩ := s
    cases ended with
    | none =>
      refine ⟨stamp.date ++ ['/'],"xxxxxx".toList,by simp [Row.columns,Row.taken,started],unopened stamp,
        ⟨'/',by simp,by decide⟩,by decide,?_,by decide⟩
      exact List.all_eq_true.mp (by decide)
    | some ms =>
      by_cases wide : 6 ≤ (decimal ms).length
      · refine ⟨stamp.date ++ ['/'],decimal ms,?_,unopened stamp,⟨'/',by simp,by decide⟩,decimalColumn ms⟩
        simp [Row.columns,Row.taken,started,wide,padLeft,Nat.sub_eq_zero_of_le wide]
      · obtain ⟨k,padding⟩ : ∃ k, 6 - (decimal ms).length = k+1 := ⟨5 - (decimal ms).length,by omega⟩
        refine ⟨stamp.date ++ '/'::(stamp.time ++ List.replicate (k+1) ' '),decimal ms,?_,?_,?_,decimalColumn ms⟩
        · have shifted : ' '::(List.replicate (k+1) ' ' ++ decimal ms) = List.replicate (k+1) ' ' ++ ' '::decimal ms := by
            rw [← List.cons_append,← List.replicate_succ,List.replicate_succ',List.append_assoc]
            rfl
          simp only [Row.columns,Row.taken,started,if_neg wide,padLeft,padding,shifted]
          simp
        · simp only [List.mem_append,List.mem_cons,List.mem_replicate,not_or]
          have date : '(' ∉ stamp.date := fun mem => absurd (stamp.dateWord _ mem) (by decide)
          have time : '(' ∉ stamp.time := fun mem => absurd (stamp.timeWord _ mem) (by decide)
          exact ⟨date,by decide,time,by simp⟩
        · refine ⟨' ',?_,by decide⟩
          rw [List.replicate_succ',← List.append_assoc,← List.cons_append,← List.append_assoc,List.getLast?_concat]

theorem rowRead (r : Row) (result : ∀ c ∈ r.result, isWord c = true) (type : ' ' ∉ r.testType) (indent : Nat) {id : Text}
    (solid : ' ' ∉ id) : readLine (List.replicate indent ' ' ++ (r.result ++ ' '::(r.columns ++ " [".toList ++
      (padLeft '0' 2 (digits r.priority) ++ ("] (".toList ++ (r.testType ++ (") ".toList ++ id))))))) =
      (readBracket ('(' :: (r.testType ++ ')' :: ' ' :: id))).map (fun m => ⟨r.taken,m.1,m.2⟩) := by
  obtain ⟨v,dur,shape,unopened,⟨c,last,other⟩,column⟩ := columnsShape r
  have number : ∀ c ∈ padLeft '0' 2 (digits r.priority), isWord c = true := by
    intro c mem
    rcases List.mem_append.mp mem with zero | digit
    · rw [List.eq_of_mem_replicate zero]
      decide
    · exact digitsWord r.priority c digit
  have priority : Column ('['::(padLeft '0' 2 (digits r.priority) ++ [']'])) := by
    refine ⟨by simp,fun c mem => ?_,fun mem => ?_⟩
    · simp only [List.mem_cons,List.mem_append,List.not_mem_nil,or_false] at mem
      rcases mem with rfl | digit | rfl
      · decide
      · exact (wordSolid (number c digit)).1
      · decide
    · simp only [List.mem_cons,List.mem_append,List.not_mem_nil,or_false] at mem
      rcases mem with same | digit | same
      · exact absurd same (by decide)
      · exact (wordSolid (number _ digit)).2 rfl
      · exact absurd same (by decide)
  have before : '(' ∉ List.replicate indent ' ' ++ (r.result ++ ' '::v) := by
    simp only [List.mem_append,List.mem_cons,List.mem_replicate,not_or]
    exact ⟨by simp,fun mem => absurd (result _ mem) (by decide),by decide,unopened⟩
  have apart : ∀ c ∈ (List.replicate indent ' ' ++ (r.result ++ ' '::v)).getLast?, isWord c = false := by
    intro d mem
    rw [← List.append_assoc,List.append_cons,List.getLast?_append,last] at mem
    cases Option.mem_some_iff.mp mem
    exact other
  have blanks : ('(' :: (r.testType ++ ')' :: ' ' :: id)).count ' ' = 1 := by
    simp [List.count_eq_zero.mpr type,List.count_eq_zero.mpr solid]
  rw [← readLineColumns before apart r.takenWord column priority blanks]
  simp [shape]

theorem formatRestPlain {id : Text} (plain : '%' ∉ id) : formatRest id = some id := by
  fun_induction formatRest id with
  | case1 => rfl
  | case2 => simp at plain
  | case3 => simp at plain
  | case4 c cs _ _ ih => rw [ih (fun mem => plain (by simp [mem]))]; rfl

/- Each `%%` is printed as one character. -/
theorem formatRestLength {id printed : Text} (formatted : formatRest id = some printed) :
    2 * printed.length + id.count '%' = 2 * id.length ∧ ∀ c ∈ printed, c ∈ id := by
  fun_induction formatRest id generalizing printed with
  | case1 =>
    cases Option.some.inj formatted
    simp
  | case2 cs ih =>
    obtain ⟨t,rest,rfl⟩ := Option.map_eq_some_iff.mp formatted
    obtain ⟨length,part⟩ := ih rest
    refine ⟨?_,fun c mem => ?_⟩
    · simp only [List.length_cons,List.count_cons_self]
      omega
    · rcases List.mem_cons.mp mem with rfl | mem
      · simp
      · simp [part c mem]
  | case3 => contradiction
  | case4 c cs _ other ih =>
    obtain ⟨t,rest,rfl⟩ := Option.map_eq_some_iff.mp formatted
    obtain ⟨length,part⟩ := ih rest
    have plain : c ≠ '%' := other
    refine ⟨?_,fun d mem => ?_⟩
    · rw [List.length_cons,List.length_cons,List.count_cons_of_ne plain]
      omega
    · rcases List.mem_cons.mp mem with rfl | mem
      · simp
      · simp [part d mem]

/-! ### The table -/

/- The testcases as `test_summary.rb` knows them. -/
structure Row.Valid (r : Row) : Prop where
  id : ' ' ∉ r.id
  result : r.result ≠ [] ∧ ∀ c ∈ r.result, isWord c = true
  testType : ∀ c ∈ r.testType, isWord c = true ∨ c = ','

/-- The table gives each line back as it was printed, and counts the testcases. -/
def TableDecodes (indent : Nat) (rows : List Row) : Prop :=
  ∃ lines, (showProgressVerbose rows).map (List.map (List.replicate indent ' ' ++ ·)) = some lines ∧
    lines.map readLine = rows.map (fun r => some r.entry) ∧
    ∀ result testType, cell lines result testType =
      rows.countP (fun r => r.result == result && r.testType == testType)

/- The type is one word, nothing in the id is changed or cut off, and the six digits of the time,
without a blank between them and the duration, are the result. -/
structure Row.Decodable (r : Row) : Prop where
  type : r.testType ≠ [] ∧ ',' ∉ r.testType
  id : r.id ≠ [] ∧ '%' ∉ r.id ∧ ∀ c ∈ r.id, nonBlank c = true
  result : ∃ stamp ended, r.started = some (stamp,ended) ∧ (∀ ms ∈ ended, 6 ≤ (decimal ms).length) ∧ r.result = stamp.time

theorem readBracketWord {type id : Text} (some : type ≠ []) (word : ∀ c ∈ type, isWord c = true) (named : id ≠ [])
    (solid : ∀ c ∈ id, nonBlank c = true) : readBracket ('(' :: (type ++ ')' :: ' ' :: id)) = .some (type,id) := by
  have taken : (type ++ ')' :: ' ' :: id).takeWhile isWord = type := by
    rw [List.takeWhile_append_of_pos word,List.takeWhile_cons_of_neg (by decide),List.append_nil]
  have dropped : (type ++ ')' :: ' ' :: id).dropWhile isWord = ')' :: ' ' :: id := by
    rw [List.dropWhile_append_of_pos word,List.dropWhile_cons_of_neg (by decide)]
  have whole : (id ++ []).takeWhile nonBlank = id ++ [].takeWhile nonBlank := List.takeWhile_append_of_pos solid
  rw [List.takeWhile_nil,List.append_nil] at whole
  rw [readBracket,taken,dropped]
  split
  · contradiction
  · rename_i same
    rw [← (List.cons.inj (List.cons.inj same).2).2,whole,if_neg named]
  · rename_i other
    exact absurd rfl (other id)

theorem takenResult {r : Row} (some : r.result ≠ []) : r.taken = r.result ↔
    ∃ stamp ended, r.started = .some (stamp,ended) ∧ (∀ ms ∈ ended, 6 ≤ (decimal ms).length) ∧ r.result = stamp.time := by
  constructor
  · intro taken
    unfold Row.taken at taken
    split at taken
    · exact absurd taken.symm some
    · rename_i stamp started
      exact ⟨stamp,none,started,by simp,taken.symm⟩
    · rename_i stamp ms started
      split at taken
      · rename_i wide
        exact ⟨stamp,.some ms,started,by simpa using wide,taken.symm⟩
      · exact absurd taken.symm some
  · rintro ⟨stamp,ended,started,wide,result⟩
    rw [Row.taken,started,result]
    cases ended with
    | none => rfl
    | some ms => exact if_pos (wide ms rfl)

theorem rowDecodes (indent : Nat) {r : Row} (valid : r.Valid) :
    (∃ line, r.line = some line ∧ readLine (List.replicate indent ' ' ++ line) = some r.entry) ↔ r.Decodable := by
  have type : ' ' ∉ r.testType := fun mem => (valid.testType ' ' mem).elim (fun word => absurd word (by decide)) (by decide)
  constructor
  · rintro ⟨line,printed,read⟩
    obtain ⟨id,formatted,rfl⟩ := Option.map_eq_some_iff.mp printed
    obtain ⟨length,part⟩ := formatRestLength formatted
    rw [rowRead r valid.result.2 type indent (fun mem => valid.id (part ' ' mem))] at read
    obtain ⟨⟨t,i⟩,bracket,same⟩ := Option.map_eq_some_iff.mp read
    rw [Row.entry,TableEntry.mk.injEq] at same
    obtain ⟨taken,rfl,rfl⟩ := same
    obtain ⟨rest,shape,some,word,named,solid⟩ := readBracketShape bracket
    have whole : id = r.id ++ rest := by simpa using shape
    have percents : r.id.count '%' = 0 := by
      rw [whole,List.length_append] at length
      omega
    exact ⟨⟨some,fun mem => absurd (word ',' mem) (by decide)⟩,⟨named,List.count_eq_zero.mp percents,solid⟩,
      (takenResult valid.result.1).mp taken⟩
  · rintro ⟨⟨some,comma⟩,⟨named,plain,solid⟩,timed⟩
    have word : ∀ c ∈ r.testType, isWord c = true := fun c mem =>
      (valid.testType c mem).resolve_right (fun same => comma (same ▸ mem))
    refine ⟨_,by rw [Row.line,formatRestPlain plain]; rfl,?_⟩
    rw [rowRead r valid.result.2 type indent valid.id,readBracketWord some word named solid]
    rw [Option.map_some,(takenResult valid.result.1).mpr timed]
    rfl

theorem cellCount {lines : List Text} {rows : List Row} (read : lines.map readLine = rows.map (fun r => some r.entry))
    (result testType : Text) : cell lines result testType =
      rows.countP (fun r => r.result == result && r.testType == testType) := by
  have entries : lines.filterMap readLine = rows.map Row.entry := by
    have flat := congrArg (List.filterMap id) read
    rw [List.filterMap_map,List.filterMap_map] at flat
    rw [show lines.filterMap readLine = _ from flat,← List.filterMap_eq_map]
    rfl
  rw [cell,entries,List.countP_map]
  rfl

theorem linesRead (read : Text → Option TableEntry) (rows : List Row) :
    (∃ lines, showProgressVerbose rows = some lines ∧ lines.map read = rows.map (fun r => some r.entry)) ↔
      ∀ r ∈ rows, ∃ line, r.line = some line ∧ read line = some r.entry := by
  unfold showProgressVerbose
  induction rows with
  | nil => simp
  | cons r rows ih =>
    rw [List.forall_mem_cons,← ih,List.mapM_cons]
    constructor
    · rintro ⟨lines,printed,same⟩
      obtain ⟨line,first,printed⟩ := Option.bind_eq_some_iff.mp printed
      obtain ⟨more,later,printed⟩ := Option.bind_eq_some_iff.mp printed
      cases Option.some.inj printed
      rw [List.map_cons,List.map_cons,List.cons.injEq] at same
      exact ⟨⟨line,first,same.1⟩,more,later,same.2⟩
    · rintro ⟨⟨line,first,here⟩,more,later,same⟩
      refine ⟨line::more,by simp [first,later],?_⟩
      rw [List.map_cons,List.map_cons,here,same]

theorem tableDecodesIff (indent : Nat) {rows : List Row} (valid : ∀ r ∈ rows, r.Valid) :
    TableDecodes indent rows ↔ ∀ r ∈ rows, r.Decodable := by
  have each : (∀ r ∈ rows, ∃ line, r.line = some line ∧ readLine (List.replicate indent ' ' ++ line) = some r.entry) ↔
      ∀ r ∈ rows, r.Decodable :=
    forall₂_congr (fun r mem => rowDecodes indent (valid r mem))
  rw [← each,← linesRead (fun line => readLine (List.replicate indent ' ' ++ line)) rows]
  constructor
  · rintro ⟨lines,printed,read,_⟩
    obtain ⟨plain,shown,rfl⟩ := Option.map_eq_some_iff.mp printed
    rw [List.map_map] at read
    exact ⟨plain,shown,read⟩
  · rintro ⟨lines,shown,read⟩
    have same : (lines.map (List.replicate indent ' ' ++ ·)).map readLine = rows.map (fun r => some r.entry) := by
      rw [List.map_map]
      exact read
    exact ⟨_,by rw [shown]; rfl,same,cellCount same⟩

def passedRow : Row := ⟨"mm/x".toList,"PASS".toList,"normal".toList,10,some (⟨9,14,17,47,39⟩,some 1234)⟩

example : passedRow.line = some "PASS 0914/174739   1234 [10] (normal) mm/x".toList := by decide

def timedRow : Row := ⟨"mm/x".toList,"174739".toList,"normal".toList,10,some (⟨9,14,17,47,39⟩,some 123456)⟩

theorem tableDecodesTimed : TableDecodes 2 [timedRow] := by
  have word : timedRow.testType.all isWord = true := by decide
  have digits : timedRow.result.all isWord = true := by decide
  have valid : timedRow.Valid :=
    ⟨by decide,⟨by decide,List.all_eq_true.mp digits⟩,fun c mem => .inl (List.all_eq_true.mp word c mem)⟩
  refine (tableDecodesIff 2 (fun r mem => List.mem_singleton.mp mem ▸ valid)).mpr (fun r mem => ?_)
  rw [List.mem_singleton.mp mem]
  exact ⟨by decide,⟨by decide,by decide,List.all_eq_true.mp (by decide)⟩,_,_,rfl,by decide,by decide⟩

/- The result is taken from between the blanks that pad the duration. -/
theorem passedRowMisread : passedRow.line.bind readLine = some ⟨[],"normal".toList,"mm/x".toList⟩ ∧
    ¬ TableDecodes 0 [passedRow] := by
  refine ⟨by decide,?_⟩
  rintro ⟨lines,printed,read,_⟩
  rw [show (showProgressVerbose [passedRow]).map (List.map (List.replicate 0 ' ' ++ ·)) =
    some ["PASS 0914/174739   1234 [10] (normal) mm/x".toList] by decide] at printed
  cases Option.some.inj printed
  revert read
  decide

end MmRegression
