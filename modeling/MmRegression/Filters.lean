import Mathlib.Data.List.TakeWhile
import MmRegression.Fields
import MmRegression.Trials
import MmRegression.RunRecipe

/-! The two filters. `recipe.rb list` reads TEST_TYPE and TEST_PRIORITY from the text of a recipe and
compares Ruby arrays; `recipe_load_check` compares the values of the shell variables, the
priority as a field of the text that `normalize_priority` makes of PRIORITY. -/
namespace MmRegression

inductive PriorityItem where
  | number (n : Nat)
  | range (a b : Nat)
  deriving DecidableEq, Repr

def PriorityItem.text : PriorityItem → Text
  | .number n => digits n
  | .range a b => digits a ++ '-'::digits b

def PriorityItem.Covers (n : Nat) : PriorityItem → Prop
  | .number m => n = m
  | .range a b => a ≤ n ∧ n ≤ b

def commaList (ws : List Text) : Text := List.intercalate [','] ws

def WordList (ws : List Text) : Prop := ws ≠ [] ∧ ∀ w ∈ ws, w ≠ [] ∧ ∀ c ∈ w, isWord c = true

/-- The value that a recipe gives a variable, when the last line that mentions it is a literal
assignment, or none does. -/
inductive Assigned (name : Text) (lines : List Text) : Option Text → Prop where
  | absent (unnamed : ∀ line ∈ lines, contains (name ++ ['=']) line = false) : Assigned name lines none
  | literal {before after : List Text} {a value b : Text}
      (line : lines = before ++ (a ++ ((name ++ ['=']) ++ (value ++ b))) :: after)
      (first : contains (name ++ ['=']) a = false) (starts : ∀ c ∈ a.getLast?, isWord c = false)
      (ends : ∀ c ∈ b.head?, c ∈ " \t;&|()<>".toList)
      (once : contains (name ++ ['=']) b = false)
      (later : ∀ line ∈ after, contains (name ++ ['=']) line = false) : Assigned name lines (some value)

/- A recipe of these types and this priority, with the values that its call finds in the
variables. -/
structure Literal (f : CaseFile) (c : Call) (types : List Text) (priority : Nat) : Prop where
  type : Assigned "TEST_TYPE".toList f.lines none ∧ c.testType = [] ∧ types = ["normal".toList] ∨
    Assigned "TEST_TYPE".toList f.lines (some (commaList types)) ∧ c.testType = commaList types
  words : WordList types
  priority : Assigned "TEST_PRIORITY".toList f.lines none ∧ c.testPriority = digits 10 ∧ priority = 10 ∨
    Assigned "TEST_PRIORITY".toList f.lines (some (digits priority)) ∧ c.testPriority = digits priority

/-! ### The text of the recipe -/

theorem scanAbsent {key line : Text} (ok : Char → Bool) (absent : contains key line = false) :
    scanKey key ok line = none := by
  induction line with
  | nil => rfl
  | cons c cs ih =>
    rw [containsCons,Bool.or_eq_false_iff] at absent
    rw [scanKey,absent.1]
    exact ih absent.2

/- A name followed by the equals sign does not begin inside what stands before it. -/
theorem startsLater {name : Text} (clean : '=' ∉ name) {a : Text} (some : a ≠ [])
    (first : startsWith (name ++ ['=']) a = false) (rest : Text) :
    startsWith (name ++ ['=']) (a ++ ((name ++ ['=']) ++ rest)) = false := by
  rw [startsWith,Bool.eq_false_iff,ne_eq,List.isPrefixOf_iff_prefix] at first ⊢
  intro begins
  rcases List.prefix_or_prefix_of_prefix begins (List.prefix_append a _) with inside | ⟨tail,shape⟩
  · exact first inside
  · -- The name would overlap itself, with its equals sign before its end.
    rw [← shape,List.prefix_append_right_inj,shape] at begins
    have short : tail.length < (name ++ ['=']).length := by
      have whole := congrArg List.length shape
      have positive := List.length_pos_iff.mpr some
      simp only [List.length_append] at whole ⊢
      omega
    have part : tail <+: name := by
      rw [List.append_assoc] at begins
      simp only [List.length_append,List.length_singleton] at short
      exact List.prefix_of_prefix_length_le begins (List.prefix_append name _) (by omega)
    rcases List.eq_nil_or_concat tail with rfl | ⟨front,last,rfl⟩
    · rw [List.append_nil] at shape
      exact first (shape ▸ List.prefix_refl a)
    · have same := congrArg List.getLast? shape
      rw [List.concat_eq_append,← List.append_assoc,List.getLast?_concat,List.getLast?_concat] at same
      rw [Option.some.inj same] at part
      exact clean (part.mem (by simp))

theorem scanLiteral {name : Text} (clean : '=' ∉ name) {ok : Char → Bool} {a value b : Text}
    (first : contains (name ++ ['=']) a = false) (some : value ≠ []) (all : ∀ c ∈ value, ok c = true)
    (ends : ∀ c ∈ b.head?, ok c = false) :
    scanKey (name ++ ['=']) ok (a ++ ((name ++ ['=']) ++ (value ++ b))) = .some value := by
  induction a with
  | nil =>
    obtain ⟨c,key,shape⟩ : ∃ c key, name ++ ['='] = c::key := List.exists_cons_of_ne_nil (by simp)
    have taken : (value ++ b).takeWhile ok = value := by
      rw [List.takeWhile_append_of_pos all]
      cases b with
      | nil => rw [List.takeWhile_nil,List.append_nil]
      | cons d ds => rw [List.takeWhile_cons_of_neg (by simp [ends d rfl]),List.append_nil]
    have begins : startsWith (c::key) (c::(key ++ (value ++ b))) = true := by
      rw [← List.cons_append,startsWith,List.isPrefixOf_iff_prefix]
      exact List.prefix_append _ _
    rw [List.nil_append,shape,List.cons_append,scanKey,begins,if_pos rfl]
    have rest : (c::(key ++ (value ++ b))).drop (c::key).length = value ++ b := by
      rw [← List.cons_append,List.drop_left]
    rw [rest,taken]
    split
    · contradiction
    · rfl
  | cons c a ih =>
    rw [containsCons,Bool.or_eq_false_iff] at first
    have later := startsLater clean (List.cons_ne_nil c a) first.1 (value ++ b)
    rw [List.cons_append] at later ⊢
    rw [scanKey,later]
    exact ih first.2

theorem foldAbsent {α : Type} {key : Text} {ok : Char → Bool} (g : Text → α) (init : α) {lines : List Text}
    (absent : ∀ line ∈ lines, contains key line = false) :
    lines.foldl (fun acc line => match scanKey key ok line with | some w => g w | none => acc) init = init := by
  induction lines with
  | nil => rfl
  | cons line lines ih =>
    rw [List.foldl_cons,scanAbsent ok (absent line (by simp))]
    exact ih (fun l mem => absent l (by simp [mem]))

theorem foldAssigned {α : Type} {name : Text} (clean : '=' ∉ name) {ok : Char → Bool}
    (stops : ∀ c ∈ " \t;&|()<>".toList, ok c = false) (g : Text → α) (init : α) {lines : List Text} {value : Option Text}
    (assigned : Assigned name lines value) (some : ∀ v ∈ value, v ≠ []) (all : ∀ v ∈ value, ∀ c ∈ v, ok c = true) :
    lines.foldl (fun acc line => match scanKey (name ++ ['=']) ok line with | .some w => g w | none => acc) init =
      (value.map g).getD init := by
  cases assigned with
  | absent unnamed => exact foldAbsent g init unnamed
  | literal line first _ ends _ later =>
    have found := scanLiteral clean first (some _ rfl) (all _ rfl) (fun c mem => stops c (ends c mem))
    rw [line,List.foldl_append,List.foldl_cons,found,foldAbsent g _ later]
    rfl

theorem splitFieldsJoin {ws : List Text} (some : ws ≠ []) (fields : ∀ w ∈ ws, Token w ∧ ',' ∉ w) :
    splitFields ',' (commaList ws) = ws := by
  rw [splitFields,commaList,splitJoin some (fun w mem => (fields w mem).2)]
  obtain ⟨front,last,rfl⟩ := List.eq_nil_or_concat ws |>.resolve_left some
  have nonempty : last ≠ [] := (fields last (by simp)).1.1
  simp [nonempty]

/- `for elm in $(echo $list | tr ',' ' ')` -/
theorem wordsCommaList {ws : List Text} (fields : ∀ w ∈ ws, Token w ∧ ',' ∉ w) :
    words (blanksForCommas (commaList ws)) = ws := by
  have same : ws.map (List.map (fun c => if c = ',' then ' ' else c)) = ws := by
    refine (List.map_congr_left (fun w mem => ?_)).trans (List.map_id ws)
    refine (List.map_congr_left (fun c inside => ?_)).trans (List.map_id w)
    exact if_neg (by rintro rfl; exact (fields w mem).2 inside)
  rw [blanksForCommas,commaList,mapJoin,same,if_pos rfl]
  exact wordsJoin (fun w mem => (fields w mem).1)

theorem WordList.ofAll {ws : List Text} (some : ws ≠ []) (all : ∀ w ∈ ws, w ≠ [] ∧ w.all isWord = true) : WordList ws :=
  ⟨some,fun w mem => ⟨(all w mem).1,List.all_eq_true.mp (all w mem).2⟩⟩

theorem WordList.fields {ws : List Text} (list : WordList ws) : ∀ w ∈ ws, Token w ∧ ',' ∉ w := by
  intro w mem
  obtain ⟨some,word⟩ := list.2 w mem
  have none : ∀ c ∈ " \t\n,".toList, isWord c = false := List.forall_iff_forall_mem.mp (by decide)
  have other : ∀ c ∈ w, ∀ d ∈ " \t\n,".toList, c ≠ d := by
    rintro c inside d blank rfl
    exact absurd (word c inside) (by simp [none c blank])
  exact ⟨⟨some,fun c inside => ⟨other c inside ' ' (by simp),other c inside '\t' (by simp),other c inside '\n' (by simp)⟩⟩,
    fun inside => other ',' inside ',' (by simp) rfl⟩

theorem commaListChars {ws : List Text} (list : WordList ws) :
    commaList ws ≠ [] ∧ ∀ c ∈ commaList ws, (isWord c || c == ',') = true := by
  obtain ⟨some,words⟩ := list
  unfold commaList
  induction ws with
  | nil => contradiction
  | cons w ws ih =>
    obtain ⟨nonempty,word⟩ := words w (by simp)
    cases ws with
    | nil =>
      rw [List.intercalate_singleton]
      exact ⟨nonempty,fun c mem => by simp [word c mem]⟩
    | cons v ws =>
      rw [joinCons]
      refine ⟨by simp [nonempty],fun c mem => ?_⟩
      rcases List.mem_append.mp mem with here | later
      · simp [word c here]
      · rcases List.mem_cons.mp later with rfl | later
        · simp
        · exact (ih (by simp) (fun x mem => words x (List.mem_cons_of_mem w mem))).2 c later

theorem numberDigits (n : Nat) : number (digits n) = n := Nat.ofDigitChars_ten_toDigits

section Literal
variable {f : CaseFile} {c : Call} {types : List Text} {priority : Nat} (literal : Literal f c types priority)
include literal

theorem Literal.typeOf : f.type = types := by
  have unsigned : '=' ∉ "TEST_TYPE".toList := by decide
  have stops : ∀ c ∈ " \t;&|()<>".toList, (isWord c || c == ',') = false := List.forall_iff_forall_mem.mp (by decide)
  obtain ⟨nonempty,chars⟩ := commaListChars literal.words
  rcases literal.type with ⟨assigned,_,rfl⟩ | ⟨assigned,_⟩
  · exact foldAssigned unsigned stops (splitFields ',') ["normal".toList] assigned (by simp) (by simp)
  · refine (foldAssigned unsigned stops (splitFields ',') ["normal".toList] assigned ?_ ?_).trans ?_
    · simpa using nonempty
    · simpa using chars
    · exact splitFieldsJoin literal.words.1 literal.words.fields

theorem Literal.priorityOf : f.priority = priority := by
  have unsigned : '=' ∉ "TEST_PRIORITY".toList := by decide
  have stops : ∀ c ∈ " \t;&|()<>".toList, Char.isDigit c = false := List.forall_iff_forall_mem.mp (by decide)
  rcases literal.priority with ⟨assigned,_,rfl⟩ | ⟨assigned,_⟩
  · exact foldAssigned unsigned stops number 10 assigned (by simp) (by simp)
  · refine (foldAssigned unsigned stops number 10 assigned ?_ ?_).trans ?_
    · intro v mem
      cases Option.mem_some_iff.mp mem
      exact Nat.toDigits_ne_nil
    · intro v mem
      cases Option.mem_some_iff.mp mem
      exact digitsDigit
    · exact numberDigits priority

end Literal

/-! ### Types -/

theorem typeOptionList {modes : List Text} (list : WordList modes) : typeOption (commaList modes) =
    if commaList modes = "all".toList then none else some modes := by
  unfold typeOption
  by_cases every : commaList modes = "all".toList
  · rw [if_pos (.inr every),if_pos every]
  · rw [if_neg (not_or.mpr ⟨(commaListChars list).1,every⟩),if_neg every,splitFieldsJoin list.1 list.fields]

theorem checkTestFlagList {modes types : List Text} (listed : WordList modes) (list : WordList types) {testType : Text}
    (value : testType = [] ∧ types = ["normal".toList] ∨ testType = commaList types) :
    checkTestFlag (commaList modes) testType = false ↔ commaList modes = "all".toList ∨ ∀ t ∈ types, t ∈ modes := by
  have type : (if testType = [] then "normal".toList else testType) = commaList types := by
    rcases value with ⟨rfl,rfl⟩ | rfl
    · rfl
    · exact if_neg (commaListChars list).1
  simp only [checkTestFlag]
  rw [type]
  by_cases every : commaList modes = "all".toList
  · rw [if_pos every]
    exact iff_of_true rfl (.inl every)
  · rw [if_neg every,wordsCommaList list.fields,wordsCommaList listed.fields,or_iff_right every]
    simp

/-! ### Priorities -/

def PriorityItem.numbers : PriorityItem → List Nat
  | .number n => [n]
  | .range a b => List.range' a (b + 1 - a)

theorem memNumbers {n : Nat} {item : PriorityItem} : n ∈ item.numbers ↔ item.Covers n := by
  cases item with
  | number m => simp [PriorityItem.numbers,PriorityItem.Covers]
  | range a b =>
    simp only [PriorityItem.numbers,PriorityItem.Covers,List.mem_range'_1]
    omega

theorem digitsSome (n : Nat) : digits n ≠ [] := Nat.toDigits_ne_nil

theorem takeDigits (n : Nat) : (digits n).takeWhile Char.isDigit = digits n :=
  List.takeWhile_eq_self_iff.mpr digitsDigit

theorem scanRangeDigits {t : Text} (digit : ∀ c ∈ t, c.isDigit = true) : scanRange t = none := by
  induction t with
  | nil => rfl
  | cons c cs ih =>
    have whole : (c::cs).dropWhile Char.isDigit = [] := List.dropWhile_eq_nil_iff.mpr digit
    have tail := ih (fun d mem => digit d (by simp [mem]))
    rw [scanRange,whole]
    split
    · exact tail
    · contradiction
    · exact tail

theorem scanRangeText (a b : Nat) : scanRange (PriorityItem.range a b).text = some (a,b) := by
  obtain ⟨c,cs,first⟩ := List.exists_cons_of_ne_nil (digitsSome a)
  obtain ⟨d,ds,second⟩ := List.exists_cons_of_ne_nil (digitsSome b)
  have taken : (digits a ++ '-'::digits b).takeWhile Char.isDigit = digits a := by
    rw [List.takeWhile_append_of_pos digitsDigit,List.takeWhile_cons_of_neg (by decide),List.append_nil]
  have dropped : (digits a ++ '-'::digits b).dropWhile Char.isDigit = '-'::digits b := by
    rw [List.dropWhile_append_of_pos digitsDigit,List.dropWhile_cons_of_neg (by decide)]
  have left := numberDigits a
  have right := numberDigits b
  have last := takeDigits b
  rw [PriorityItem.text]
  rw [first] at taken dropped left ⊢
  rw [List.cons_append,scanRange,← List.cons_append,taken,dropped]
  simp only [last,left]
  rw [second] at right ⊢
  simp only [right]

theorem toIDigits (n : Nat) : toI (digits n) = Int.ofNat n := by
  obtain ⟨c,cs,shape⟩ := List.exists_cons_of_ne_nil (digitsSome n)
  have digit : c.isDigit = true := digitsDigit (n := n) c (by simp [shape])
  have kept : (digits n).dropWhile (fun c => c == ' ' || c == '\t') = c::cs := by
    rw [shape,List.dropWhile_cons_of_neg]
    rintro blank
    simp only [Bool.or_eq_true,beq_iff_eq] at blank
    rcases blank with rfl | rfl <;> exact absurd digit (by decide)
  rw [toI,kept]
  split
  · rename_i minus
    cases minus
    exact absurd digit (by decide)
  · rename_i plus
    cases plus
    exact absurd digit (by decide)
  · rw [← shape,takeDigits,numberDigits]
    rfl

theorem PriorityItem.textChars (item : PriorityItem) : ∀ c ∈ item.text, c.isDigit = true ∨ c = '-' := by
  intro c mem
  cases item with
  | number n => exact .inl (digitsDigit c mem)
  | range a b =>
    rcases List.mem_append.mp mem with left | right
    · exact .inl (digitsDigit c left)
    · exact (List.mem_cons.mp right).symm.imp (digitsDigit c) id

theorem PriorityItem.textSome (item : PriorityItem) : item.text ≠ [] := by
  cases item with
  | number n => exact digitsSome n
  | range a b => simp [PriorityItem.text]

theorem itemFields {items : List PriorityItem} : ∀ w ∈ items.map PriorityItem.text, Token w ∧ ',' ∉ w := by
  intro w mem
  obtain ⟨item,_,rfl⟩ := List.mem_map.mp mem
  have other : ∀ d ∈ " \t\n,".toList, ∀ c ∈ item.text, c ≠ d := by
    rintro d blank c inside rfl
    have out : ∀ d ∈ " \t\n,".toList, ¬ (d.isDigit = true ∨ d = '-') := List.forall_iff_forall_mem.mp (by decide)
    exact out c blank (item.textChars c inside)
  refine ⟨⟨item.textSome,fun c inside => ?_⟩,fun inside => other ',' (by simp) ',' inside rfl⟩
  exact ⟨other ' ' (by simp) c inside,other '\t' (by simp) c inside,other '\n' (by simp) c inside⟩

theorem priorityOptionItems {items : List PriorityItem} (some : items ≠ []) :
    priorityOption (commaList (items.map PriorityItem.text)) =
      (items.flatMap PriorityItem.numbers).map Int.ofNat := by
  have nonempty : items.map PriorityItem.text ≠ [] := by simpa using some
  rw [priorityOption,splitFieldsJoin nonempty itemFields,List.flatMap_map,List.map_flatMap]
  congr 1
  funext item
  cases item with
  | number n =>
    have none : scanRange (PriorityItem.number n).text = none := scanRangeDigits digitsDigit
    rw [none]
    simp only [PriorityItem.text,PriorityItem.numbers,toIDigits,List.map_cons,List.map_nil]
  | range a b =>
    rw [scanRangeText]
    rfl

theorem memPriorityOption {items : List PriorityItem} (some : items ≠ []) (n : Nat) :
    (priorityOption (commaList (items.map PriorityItem.text))).contains (Int.ofNat n) = true ↔
      ∃ item ∈ items, item.Covers n := by
  rw [priorityOptionItems some,List.contains_iff_mem,List.mem_map_of_injective (fun _ _ => Int.ofNat.inj),List.mem_flatMap]
  exact exists_congr (fun item => and_congr_right (fun _ => memNumbers))

theorem sedHead (t : Text) : (sedCommas t).head? = t.head? := by
  fun_cases sedCommas t <;> rfl

theorem sedLast (t : Text) : (sedCommas t).getLast? = t.getLast? := by
  fun_induction sedCommas t with
  | case1 t ih => rw [List.getLast?_cons,ih,List.getLast?_cons,List.getLast?_cons]; rfl
  | case2 c t _ ih => rw [List.getLast?_cons,ih,List.getLast?_cons]
  | case3 => rfl

/- `sed 's/,,/,/g'` takes away empty fields only. -/
theorem sedFields (t : Text) : ∃ first before after, split ',' t = first::before ∧
    split ',' (sedCommas t) = first::after ∧
    after.filter (fun w => !w.isEmpty) = before.filter (fun w => !w.isEmpty) := by
  fun_induction sedCommas t with
  | case1 t ih =>
    obtain ⟨first,before,after,whole,less,same⟩ := ih
    refine ⟨[],[]::first::before,first::after,?_,?_,?_⟩
    · simp [split,whole]
    · simp [split,less]
    · rw [List.filter_cons,List.filter_cons_of_neg (by simp),List.filter_cons,same]
  | case2 c t _ ih =>
    obtain ⟨first,before,after,whole,less,same⟩ := ih
    by_cases comma : c = ','
    · refine ⟨[],first::before,first::after,by simp [split,comma,whole],by simp [split,comma,less],?_⟩
      rw [List.filter_cons,List.filter_cons,same]
    · exact ⟨c::first,before,after,by simp [split,comma,whole],by simp [split,comma,less],same⟩
  | case3 => exact ⟨[],[],[],rfl,rfl,rfl⟩

theorem memSedFields {w : Text} (some : w ≠ []) (t : Text) : w ∈ split ',' (sedCommas t) ↔ w ∈ split ',' t := by
  obtain ⟨first,before,after,whole,less,same⟩ := sedFields t
  have filled : ∀ ws : List Text, w ∈ ws ↔ w ∈ ws.filter (fun w => !w.isEmpty) := by simp [some]
  rw [whole,less,List.mem_cons,List.mem_cons,filled after,filled before,same]

/-! ### `check_skip_priority` -/

def PriorityItem.listed : PriorityItem → Text
  | .number n => ','::digits n
  | .range a b => ','::(List.range' a (b + 1 - a)).flatMap (fun n => digits n ++ [','])

theorem hasRangeDigits {t : Text} (digit : ∀ c ∈ t, c.isDigit = true) : hasRange t = false := by
  fun_induction hasRange t with
  | case1 a b t _ => exact absurd (digit '-' (by simp)) (by decide)
  | case2 c t _ ih => exact ih (fun d mem => digit d (by simp [mem]))
  | case3 => rfl

theorem hasRangeCons {c : Char} {t : Text} (later : hasRange t = true) : hasRange (c::t) = true := by
  rw [hasRange.eq_def]
  split
  · rename_i shape
    cases shape
    rw [later,Bool.or_true]
  · rename_i shape
    cases shape
    exact later
  · contradiction

theorem hasRangeText (a b : Nat) : hasRange (digits a ++ '-'::digits b) = true := by
  obtain ⟨front,d,first⟩ := (List.eq_nil_or_concat (digits a)).resolve_left (digitsSome a)
  obtain ⟨e,back,second⟩ := List.exists_cons_of_ne_nil (digitsSome b)
  have left : d.isDigit = true := digitsDigit (n := a) d (by simp [first])
  have right : e.isDigit = true := digitsDigit (n := b) e (by simp [second])
  rw [first,second,List.concat_eq_append,List.append_assoc]
  clear first
  induction front with
  | nil => simp [hasRange,left,right]
  | cons c front ih => exact hasRangeCons ih

theorem seqDigits (a b : Nat) : seqWords (digits a) (digits b) = List.range' a (b + 1 - a) := by
  have digit : ∀ n, (digits n).all Char.isDigit = true := fun n => List.all_eq_true.mpr digitsDigit
  rw [seqWords,if_pos ⟨digitsSome a,digitsSome b,digit a,digit b⟩,numberDigits,numberDigits]

theorem normalizePriorityItems (items : List PriorityItem) :
    normalizePriority (commaList (items.map PriorityItem.text)) =
      sedCommas (items.flatMap PriorityItem.listed ++ [',']) := by
  have start : ∀ out : Text, (items.map PriorityItem.text).foldl (fun out elm =>
      if hasRange elm then
        out ++ (',' :: (seqWords (cutFirst '-' elm) (cutFirst '-' (cutRest '-' elm))).flatMap
          (fun n => digits n ++ [',']))
      else out ++ (',' :: elm)) out = out ++ items.flatMap PriorityItem.listed := by
    induction items with
    | nil => simp
    | cons item items ih =>
      intro out
      rw [List.map_cons,List.foldl_cons,ih,List.flatMap_cons,← List.append_assoc]
      congr 1
      cases item with
      | number n =>
        have single : hasRange (PriorityItem.number n).text = false := hasRangeDigits digitsDigit
        rw [single]
        rfl
      | range a b =>
        have clean := digitsNoDash a
        rw [PriorityItem.text,hasRangeText,if_pos rfl,cutFirstAppend clean,cutRestAppend clean,
          cutFirstClean (digitsNoDash b),seqDigits]
        rfl
  simp only [normalizePriority]
  rw [wordsCommaList itemFields,start,List.nil_append]

theorem digitsNoComma (n : Nat) : ',' ∉ digits n := digitsFree n (by decide)

theorem memListed {w : Text} (some : w ≠ []) (item : PriorityItem) :
    w ∈ split ',' item.listed ↔ w ∈ item.numbers.map digits := by
  cases item with
  | number n =>
    rw [PriorityItem.listed,split,if_pos rfl,splitClean (digitsNoComma n)]
    simp [PriorityItem.numbers,some]
  | range a b =>
    have clean : ∀ w ∈ (List.range' a (b + 1 - a)).map digits, ',' ∉ w := by
      rintro w mem
      obtain ⟨n,_,rfl⟩ := List.mem_map.mp mem
      exact digitsNoComma n
    have ended := splitEnded clean
    rw [List.flatMap_map] at ended
    rw [PriorityItem.listed,split,if_pos rfl,ended]
    simp [PriorityItem.numbers,some]

theorem listedStarts (items : List PriorityItem) : ∃ rest, items.flatMap PriorityItem.listed ++ [','] = ','::rest := by
  cases items with
  | nil => exact ⟨[],rfl⟩
  | cons item items =>
    rw [List.flatMap_cons]
    cases item <;> exact ⟨_,rfl⟩

theorem memListedItems {w : Text} (some : w ≠ []) (items : List PriorityItem) :
    w ∈ split ',' (items.flatMap PriorityItem.listed ++ [',']) ↔ w ∈ (items.flatMap PriorityItem.numbers).map digits := by
  induction items with
  | nil => simp [split,some]
  | cons item items ih =>
    obtain ⟨rest,shape⟩ := listedStarts items
    have later : w ∈ split ',' (','::rest) ↔ w ∈ split ',' rest := by simp [split,some]
    rw [List.flatMap_cons,List.flatMap_cons,List.append_assoc,List.map_append,List.mem_append,← ih,shape,splitAppend,
      List.mem_append,later,memListed some]

/- `grep -q ",$test_priority,"` on the normalised list. -/
theorem checkSkipPriorityItems (items : List PriorityItem) (n : Nat) :
    checkSkipPriority (commaList (items.map PriorityItem.text)) (digits n) = true ↔ ∃ item ∈ items, item.Covers n := by
  have starts : (sedCommas (items.flatMap PriorityItem.listed ++ [','])).head? = some ',' := by
    obtain ⟨rest,shape⟩ := listedStarts items
    rw [sedHead,shape]
    rfl
  have ends : (sedCommas (items.flatMap PriorityItem.listed ++ [','])).getLast? = some ',' := by
    rw [sedLast,List.getLast?_concat]
  have enclosed : ∀ a b : Text, a ++ ((',' :: digits n) ++ [','] ++ b) = a ++ ','::(digits n ++ ','::b) := by simp
  rw [checkSkipPriority,normalizePriorityItems,containsIff]
  simp only [enclosed]
  rw [fieldInside (digitsNoComma n) (digitsSome n) starts ends,memSedFields (digitsSome n),
    memListedItems (digitsSome n),List.mem_map_of_injective (fun _ _ => digitsInjective),List.mem_flatMap]
  exact exists_congr (fun item => and_congr_right (fun _ => memNumbers))

def hugeRecipe : CaseFile :=
  ⟨"mm/huge".toList,"TEST_TYPE=normal,huge\nTEST_PRIORITY=7 # not first\n".toList⟩

def hugeCall : Call := { passingCall with testType := "normal,huge".toList, testPriority := "7".toList }

theorem hugeLiteral : Literal hugeRecipe hugeCall ["normal".toList,"huge".toList] 7 where
  type := by
    have line : hugeRecipe.lines = [] ++
        ([] ++ (("TEST_TYPE".toList ++ ['=']) ++ (commaList ["normal".toList,"huge".toList] ++ []))) ::
          ["TEST_PRIORITY=7 # not first".toList,[]] := by decide
    exact .inr ⟨.literal line (by decide) (by simp) (by simp) (by decide) (by decide),by decide⟩
  words := .ofAll (by decide) (by decide)
  priority := by
    have line : hugeRecipe.lines = ["TEST_TYPE=normal,huge".toList] ++
        ([] ++ (("TEST_PRIORITY".toList ++ ['=']) ++ (digits 7 ++ " # not first".toList))) :: [[]] := by decide
    exact .inr ⟨.literal line (by decide) (by simp) (by simp) (by decide) (by decide),by decide⟩

end MmRegression
