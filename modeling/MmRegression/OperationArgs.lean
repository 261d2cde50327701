import MmRegression.Fields
import MmRegression.Operation

/-! What `parse_operation_args` reads from an operation string, and the lookups after
`opc_set_value`. -/
namespace MmRegression

open CInt

/- The first `parsed` values were allocated by `parse_operation_arg`, the others by `opc_set_value`. -/
def valueSize (parsed i : Nat) : Nat := if i < parsed then 128 else 64

def opcSetValue (parsed : Nat) (opc : OpControl) (key value : Text) : Except Stop OpControl :=
  match opc.args.findIdx? (fun a => a.1 == key) with
  | some i =>
      if valueSize parsed i ≤ value.length then .error .undefined
      else .ok { opc with args := opc.args.modify i (fun a => (a.1,value)) }
  | none =>
      if 10 ≤ opc.args.length ∨ 64 ≤ key.length ∨ 64 ≤ value.length then .error .undefined
      else .ok { opc with args := opc.args ++ [(key,value)] }

def generic : List Text := ["wait_before".toList,"wait_after".toList,"tag".toList]

def supportedArgs (name : Text) : Option (List Text) :=
  ((getOpIndex name).bind (fun i => operations[i]?)).map (·.2)

/- How `parse_operation_arg` stops at an argument of an operation, if it does. -/
def argStop (name : Text) (pair : Text × Text) : Option Stop :=
  if 64 ≤ pair.1.length ∨ 128 ≤ pair.2.length then some .undefined
  else if generic.contains pair.1 then none
  else match supportedArgs name with
    | none => some .undefined
    | some keys => if keys.contains pair.1 then none else some (.exited (unsupported name pair.1))

def tagIndex (args : List (Text × Text)) : Option Nat :=
  (args.zipIdx.filter (fun a => a.1.1 == "tag".toList)).getLast?.map (·.2)

def recorded (name : Text) (args : List (Text × Text)) : OpControl :=
  ⟨name,args.any (fun a => a.1 == "wait_before".toList),args.any (fun a => a.1 == "wait_after".toList),
    tagIndex args,args⟩

theorem genericKeys : "wait_before".toList ≠ "wait_after".toList ∧ "wait_before".toList ≠ "tag".toList ∧
    "wait_after".toList ≠ "tag".toList := by decide +kernel

theorem tagAppend (args : List (Text × Text)) (pair : Text × Text) :
    tagIndex (args ++ [pair]) = if pair.1 = "tag".toList then some args.length else tagIndex args := by
  simp only [tagIndex,List.zipIdx_append,List.filter_append,List.zipIdx_cons,List.zipIdx_nil,Nat.zero_add]
  by_cases tag : pair.1 = "tag".toList
  · rw [if_pos tag,List.filter_cons_of_pos (by simpa using tag)]
    simp
  · rw [if_neg tag,List.filter_cons_of_neg (by simpa using tag)]
    simp

theorem recordedAppend (name : Text) (args : List (Text × Text)) (pair : Text × Text) :
    recorded name (args ++ [pair]) =
      ⟨name,(recorded name args).waitBefore || pair.1 == "wait_before".toList,
        (recorded name args).waitAfter || pair.1 == "wait_after".toList,
        if pair.1 = "tag".toList then some args.length else tagIndex args,args ++ [pair]⟩ := by
  simp only [recorded,tagAppend,List.any_append,List.any_cons,List.any_nil,Bool.or_false]

/- One argument is recorded after those before it, or the parser stops there. -/
theorem parseOne (name : Text) (args : List (Text × Text)) (arg : Text) :
    parseOperationArg (recorded name args) arg =
      match argStop name (scanArg arg) with
      | some stop => .error stop
      | none => .ok (recorded name (args ++ [scanArg arg])) := by
  generalize pairIs : scanArg arg = pair
  obtain ⟨beforeAfter,beforeTag,afterTag⟩ := genericKeys
  simp only [parseOperationArg,argStop,pairIs,recordedAppend]
  split
  · rfl
  by_cases before : pair.1 = "wait_before".toList
  · have member : pair.1 ∈ generic := by rw [before]; exact List.mem_cons_self
    rw [if_pos before,if_pos (List.contains_iff_mem.mpr member)]
    simp only [recorded,before,beq_self_eq_true,Bool.or_true,if_neg beforeTag,beq_eq_false_iff_ne.mpr beforeAfter,
      Bool.or_false]
  by_cases after : pair.1 = "wait_after".toList
  · have member : pair.1 ∈ generic := by rw [after]; exact List.mem_cons_of_mem _ List.mem_cons_self
    rw [if_neg before,if_pos after,if_pos (List.contains_iff_mem.mpr member)]
    simp only [recorded,after,beq_self_eq_true,Bool.or_true,if_neg afterTag,beq_eq_false_iff_ne.mpr beforeAfter.symm,
      Bool.or_false]
  have noBefore := beq_eq_false_iff_ne.mpr before
  have noAfter := beq_eq_false_iff_ne.mpr after
  rw [if_neg before,if_neg after]
  by_cases tag : pair.1 = "tag".toList
  · have member : pair.1 ∈ generic := by
      rw [tag]
      exact List.mem_cons_of_mem _ (List.mem_cons_of_mem _ List.mem_cons_self)
    rw [if_pos tag,if_pos (List.contains_iff_mem.mpr member),noBefore,noAfter]
    simp only [recorded,if_pos tag,Bool.or_false]
  · have member : pair.1 ∉ generic := by
      simp only [generic,List.mem_cons,before,after,tag,List.not_mem_nil,or_self,not_false_iff]
    rw [if_neg tag,if_neg (mt List.contains_iff_mem.mp member),noBefore,noAfter]
    simp only [recorded,if_neg tag,Bool.or_false,supportedArgs]
    cases (getOpIndex name).bind (fun i => operations[i]?) with
    | none => rfl
    | some row =>
      by_cases listed : row.2.contains pair.1
      · simp only [Option.map_some,listed,if_true]
      · simp only [Option.map_some,listed]
        rfl

/- The arguments are all recorded in their order, unless one of them stops the parser. -/
theorem parseAll (name : Text) (args : List (Text × Text)) (tokens : List Text) :
    tokens.foldlM parseOperationArg (recorded name args) =
      match tokens.findSome? (fun t => argStop name (scanArg t)) with
      | some stop => .error stop
      | none => .ok (recorded name (args ++ tokens.map scanArg)) := by
  induction tokens generalizing args with
  | nil => simp only [List.foldlM_nil,List.findSome?_nil,List.map_nil,List.append_nil]; rfl
  | cons t ts ih =>
    rw [List.foldlM_cons,parseOne,List.findSome?_cons]
    cases argStop name (scanArg t) with
    | some stop => rfl
    | none =>
      simp only [bind,Except.bind]
      rw [ih,List.map_cons,List.append_assoc,List.singleton_append]


/- A key with an optional value, as it is writtenArg in an operation string. -/
abbrev Argument := Text × Option Text

def writtenArg : Argument → Text
  | (key,none) => key
  | (key,some value) => key ++ '='::value

def scanned (arg : Argument) : Text × Text := (arg.1,arg.2.getD [])

def rendering (name : Text) (args : List Argument) : Text := List.intercalate [':'] (name :: args.map writtenArg)

structure Writable (arg : Argument) : Prop where
  filled : arg.1 ≠ []
  short : arg.1.length < 64
  clean : ∀ c ∈ arg.1, c ≠ ':' ∧ c ≠ '=' ∧ isSpace c = false
  value : ∀ v, arg.2 = some v → v ≠ [] ∧ v.length < 128 ∧ ∀ c ∈ v, c ≠ ':' ∧ isSpace c = false

def Supports (name key : Text) : Prop := key ∈ generic ∨ ∃ row ∈ operations, row.1 = name ∧ key ∈ row.2

theorem keepAll {p : Char → Bool} {t : Text} (all : ∀ c ∈ t, p c = true) : t.takeWhile p = t :=
  List.takeWhile_eq_self_iff.mpr all

theorem scanWritten {arg : Argument} (good : Writable arg) : scanArg (writtenArg arg) = scanned arg := by
  obtain ⟨key,value⟩ := arg
  have notEqual : ∀ c ∈ key, (c != '=') = true := fun c mem => bne_iff_ne.mpr (good.clean c mem).2.1
  obtain ⟨c,cs,rfl⟩ := List.exists_cons_of_ne_nil good.filled
  cases value with
  | none =>
    have rest : (c::cs).dropWhile (· != '=') = [] := List.dropWhile_eq_nil_iff.mpr notEqual
    simp only [scanArg,writtenArg,keepAll notEqual,rest,scanned,Option.getD_none]
  | some value =>
    obtain ⟨filled,-,clean⟩ := good.value value rfl
    have keyPart : ((c::cs) ++ '='::value).takeWhile (· != '=') = c::cs := by
      rw [List.takeWhile_append_of_pos notEqual,List.takeWhile_cons_of_neg (by decide),List.append_nil]
    have valuePart : ((c::cs) ++ '='::value).dropWhile (· != '=') = '='::value := by
      rw [List.dropWhile_append_of_pos notEqual,List.dropWhile_cons_of_neg (by decide)]
    have noBlank : ∀ d ∈ value, (!isSpace d) = true := fun d mem => by rw [(clean d mem).2]; rfl
    have start : value.dropWhile isSpace = value := by
      cases value with
      | nil => rfl
      | cons d ds => exact List.dropWhile_cons_of_neg (by rw [(clean d List.mem_cons_self).2]; decide)
    simp only [scanArg,writtenArg,keyPart,valuePart,start,keepAll noBlank,scanned,Option.getD_some]

theorem colonFree {arg : Argument} (good : Writable arg) : ':' ∉ writtenArg arg := by
  intro mem
  obtain ⟨key,value⟩ := arg
  cases value with
  | none => exact (good.clean ':' mem).1 rfl
  | some value =>
    rcases List.mem_append.mp mem with inKey | inValue
    · exact (good.clean ':' inKey).1 rfl
    · rcases List.mem_cons.mp inValue with equal | inside
      · exact absurd equal (by decide)
      · exact ((good.value value rfl).2.2 ':' inside).1 rfl

theorem writtenFilled {arg : Argument} (good : Writable arg) : writtenArg arg ≠ [] := by
  obtain ⟨key,value⟩ := arg
  cases value with
  | none => exact good.filled
  | some value => exact List.append_ne_nil_of_left_ne_nil good.filled _

theorem operationNames : ∀ row ∈ operations, ':' ∉ row.1 ∧ row.1 ≠ [] := by decide +kernel

theorem operationsDistinct : (operations.map (·.1)).Nodup := by decide +kernel

theorem findNamed {name : Text} {row : Text × List Text}
    (found : operations.find? (fun row => row.1 == name) = some row) : row.1 = name ∧ row ∈ operations := by
  have same := List.find?_some found
  exact ⟨eq_of_beq same,List.mem_of_find?_eq_some found⟩

/- Names differ, so the row found for a name is the row with that name. -/
theorem supportedRow {name : Text} {keys : List Text} :
    supportedArgs name = some keys ↔ (name,keys) ∈ operations := by
  rw [supportedArgs,getOpIndex,← List.find?_eq_bind_findIdx?_getElem?]
  constructor
  · intro found
    obtain ⟨row,first,rfl⟩ := Option.map_eq_some_iff.mp found
    obtain ⟨rfl,mem⟩ := findNamed first
    exact mem
  · intro mem
    have isSome : (operations.find? (fun row => row.1 == name)).isSome :=
      List.find?_isSome.mpr ⟨(name,keys),mem,beq_self_eq_true name⟩
    obtain ⟨row,first⟩ := Option.isSome_iff_exists.mp isSome
    obtain ⟨same,inside⟩ := findNamed first
    rw [first,List.inj_on_of_nodup_map operationsDistinct inside mem same]
    rfl

theorem supportedKnown {name : Text} (known : name ∈ operations.map (·.1)) :
    ∃ keys, supportedArgs name = some keys := by
  obtain ⟨row,mem,rfl⟩ := List.mem_map.mp known
  exact ⟨row.2,supportedRow.mpr mem⟩

theorem argStopNone {name : Text} {pair : Text × Text} (shortKey : pair.1.length < 64)
    (shortValue : pair.2.length < 128)
    (supports : Supports name pair.1) : argStop name pair = none := by
  rw [argStop,if_neg (by omega)]
  rcases supports with inGeneric | ⟨row,mem,rfl,inRow⟩
  · rw [if_pos (List.contains_iff_mem.mpr inGeneric)]
  · split
    · rfl
    · rw [supportedRow.mpr mem]
      simp only [List.contains_iff_mem.mpr inRow,if_true]

theorem argStopExits {name : Text} {pair : Text × Text} (known : name ∈ operations.map (·.1))
    (shortKey : pair.1.length < 64) (shortValue : pair.2.length < 128) (foreign : ¬ Supports name pair.1) :
    argStop name pair = some (.exited (unsupported name pair.1)) := by
  obtain ⟨keys,found⟩ := supportedKnown known
  have notGeneric : pair.1 ∉ generic := fun inside => foreign (.inl inside)
  have notListed : keys.contains pair.1 = false := by
    rw [Bool.eq_false_iff]
    intro inside
    exact foreign (.inr ⟨(name,keys),supportedRow.mp found,rfl,List.contains_iff_mem.mp inside⟩)
  rw [argStop,if_neg (by omega),if_neg (mt List.contains_iff_mem.mp notGeneric),found]
  simp only [notListed]
  rfl

theorem tokensRendering {name : Text} {args : List Argument} (known : name ∈ operations.map (·.1))
    (good : ∀ a ∈ args, Writable a) : strtok ':' (rendering name args) = name :: args.map writtenArg := by
  obtain ⟨row,mem,rfl⟩ := List.mem_map.mp known
  obtain ⟨clean,filled⟩ := operationNames row mem
  rw [strtok,rendering,splitJoin (List.cons_ne_nil _ _)]
  · apply List.filter_eq_self.mpr
    intro w inside
    rcases List.mem_cons.mp inside with rfl | inArgs
    · simpa using filled
    · obtain ⟨a,memArg,rfl⟩ := List.mem_map.mp inArgs
      simpa using writtenFilled (good a memArg)
  · intro w inside
    rcases List.mem_cons.mp inside with rfl | inArgs
    · exact clean
    · obtain ⟨a,memArg,rfl⟩ := List.mem_map.mp inArgs
      exact colonFree (good a memArg)

theorem findModify {args : List (Text × Text)} {key : Text} {i : Nat}
    (found : args.findIdx? (fun a => a.1 == key) = some i) (value other : Text) :
    (args.modify i (fun a => (a.1,value))).find? (fun a => a.1 == other) =
      if other = key then some (key,value) else args.find? (fun a => a.1 == other) := by
  induction args generalizing i with
  | nil => contradiction
  | cons a as ih =>
    rw [List.findIdx?_cons] at found
    by_cases here : a.1 = key
    · rw [if_pos (beq_iff_eq.mpr here)] at found
      cases Option.some.inj found
      rw [List.modify_zero_cons,List.find?_cons,List.find?_cons,here]
      by_cases same : other = key
      · rw [if_pos same,same,beq_self_eq_true]
      · rw [if_neg same,beq_eq_false_iff_ne.mpr (Ne.symm same)]
    · rw [if_neg (by simpa using here)] at found
      obtain ⟨j,later,rfl⟩ := Option.map_eq_some_iff.mp found
      rw [List.modify_succ_cons,List.find?_cons,List.find?_cons,ih later]
      by_cases same : a.1 = other
      · have apart : ¬ other = key := fun equal => here (same.trans equal)
        simp only [beq_iff_eq.mpr same,if_neg apart]
      · rw [beq_eq_false_iff_ne.mpr same]

/- Setting a value changes what is read for its key and for no other. -/
theorem getSet {parsed : Nat} {opc set : OpControl} {key value : Text}
    (done : opcSetValue parsed opc key value = .ok set) (other : Text) :
    opcGetValue set other =
      if other = key then (if value = [] then none else some value) else opcGetValue opc other := by
  rw [opcSetValue] at done
  split at done
  · rename_i i found
    split at done
    · contradiction
    · cases Except.ok.inj done
      simp only [opcGetValue,findModify found]
      split <;> rfl
  · rename_i missing
    split at done
    · contradiction
    · cases Except.ok.inj done
      have none : opc.args.find? (fun a => a.1 == key) = none := by
        rw [List.find?_eq_none]
        intro a mem
        rw [List.findIdx?_eq_none_iff.mp missing a mem]
        decide
      simp only [opcGetValue,List.find?_append]
      by_cases same : other = key
      · rw [if_pos same,same,none]
        simp
      · rw [if_neg same,List.find?_cons_of_neg (by simpa using Ne.symm same),List.find?_nil,Option.or_none]

theorem setFits {parsed : Nat} {opc : OpControl} {key value : Text} (room : opc.args.length < 10)
    (shortKey : key.length < 64) (shortValue : value.length < 64) :
    ∃ set, opcSetValue parsed opc key value = .ok set := by
  rw [opcSetValue]
  split
  · rename_i i found
    have size : 64 ≤ valueSize parsed i := by
      rw [valueSize]
      split <;> omega
    exact ⟨_,if_neg (by omega)⟩
  · exact ⟨_,if_neg (by omega)⟩

/- The tag stays the last one of the arguments when more are added after them. -/
theorem tagLast (args more : List (Text × Text)) :
    (tagIndex args).bind (fun i => (args ++ more)[i]?) = (args.filter (fun a => a.1 == "tag".toList)).getLast? := by
  induction args using List.reverseRecOn generalizing more with
  | nil => rfl
  | append_singleton args pair ih =>
    rw [tagAppend,List.filter_append,List.append_assoc]
    by_cases tag : pair.1 = "tag".toList
    · rw [if_pos tag,List.filter_cons_of_pos (by simpa using tag),List.filter_nil,List.getLast?_append]
      simp
    · rw [if_neg tag,List.filter_cons_of_neg (by simpa using tag),List.filter_nil,List.append_nil]
      exact ih ([pair] ++ more)

theorem parseRendering {name : Text} {args : List Argument} (known : name ∈ operations.map (·.1))
    (few : args.length ≤ 10) (good : ∀ a ∈ args, Writable a) (supports : ∀ a ∈ args, Supports name a.1)
    (short : (rendering name args).length < 256) :
    parseOperationArgs (rendering name args) = .ok (recorded name (args.map scanned)) := by
  have pass : (args.map writtenArg).findSome? (fun t => argStop name (scanArg t)) = none := by
    rw [List.findSome?_eq_none_iff]
    intro t mem
    obtain ⟨a,inArgs,rfl⟩ := List.mem_map.mp mem
    have fits : (scanned a).2.length < 128 := by
      obtain ⟨key,value⟩ := a
      cases value with
      | none => exact Nat.zero_lt_succ 127
      | some value => exact ((good _ inArgs).value value rfl).2.1
    rw [scanWritten (good a inArgs)]
    exact argStopNone (good a inArgs).short fits (supports a inArgs)
  have pairs : (args.map writtenArg).map scanArg = args.map scanned := by
    rw [List.map_map]
    exact List.map_congr_left (fun a mem => scanWritten (good a mem))
  have run := parseAll name [] (args.map writtenArg)
  rw [pass,pairs] at run
  rw [parseOperationArgs,if_neg (by omega),tokensRendering known good]
  simp only [List.length_map,if_neg (Nat.not_lt.mpr few)]
  exact run

/- Any string of an operation that has an argument it does not support stops the harness with a
message about such an argument, when everything up to there fits. -/
theorem rejectForeign {name str : Text} {tokens : List Text} (known : name ∈ operations.map (·.1))
    (short : str.length < 256) (cut : strtok ':' str = name :: tokens) (few : tokens.length ≤ 10)
    (fits : ∀ t ∈ tokens, (scanArg t).1.length < 64 ∧ (scanArg t).2.length < 128)
    (foreign : ∃ t ∈ tokens, ¬ Supports name (scanArg t).1) :
    ∃ t ∈ tokens, ¬ Supports name (scanArg t).1 ∧
      parseOperationArgs str = .error (.exited (unsupported name (scanArg t).1)) := by
  obtain ⟨t,inside,bad⟩ := foreign
  have stops : (tokens.findSome? (fun t => argStop name (scanArg t))).isSome := by
    rw [List.findSome?_isSome_iff]
    exact ⟨t,inside,by rw [argStopExits known (fits t inside).1 (fits t inside).2 bad]; rfl⟩
  obtain ⟨stop,first⟩ := Option.isSome_iff_exists.mp stops
  obtain ⟨u,mem,here⟩ := List.exists_of_findSome?_eq_some first
  have badHere : ¬ Supports name (scanArg u).1 := by
    intro supports
    rw [argStopNone (fits u mem).1 (fits u mem).2 supports] at here
    contradiction
  rw [argStopExits known (fits u mem).1 (fits u mem).2 badHere] at here
  have run := parseAll name [] tokens
  rw [first] at run
  refine ⟨u,mem,badHere,?_⟩
  rw [parseOperationArgs,if_neg (by omega),cut]
  simp only [if_neg (Nat.not_lt.mpr few),Option.some.inj here]
  exact run

theorem getWritten {args : List Argument} (good : ∀ a ∈ args, Writable a) (name key : Text) :
    opcGetValue (recorded name (args.map scanned)) key = (args.find? (fun a => a.1 == key)).bind (·.2) := by
  simp only [opcGetValue,recorded,List.find?_map]
  have same : (fun a : Argument => (scanned a).1 == key) = fun a => a.1 == key := rfl
  rw [Function.comp_def,same]
  cases found : args.find? (fun a => a.1 == key) with
  | none => rfl
  | some a =>
    obtain ⟨k,value⟩ := a
    cases value with
    | none => rfl
    | some value =>
      have filled := ((good _ (List.mem_of_find?_eq_some found)).value value rfl).1
      simp only [Option.map_some,Option.bind_some,scanned,Option.getD_some,if_neg filled]

theorem anyWritten (args : List Argument) (key : Text) :
    (args.map scanned).any (fun a => a.1 == key) = true ↔ ∃ a ∈ args, a.1 = key := by
  simp only [List.any_map,List.any_eq_true,Function.comp,scanned,beq_iff_eq]

/- The operation is the one that was writtenArg down, for every reader of it. -/
structure ReadsBack (name : Text) (args : List Argument) (opc : OpControl) : Prop where
  sameName : opc.name = name
  sameArgs : opc.args = args.map scanned
  before : opc.waitBefore = true ↔ ∃ a ∈ args, a.1 = "wait_before".toList
  after : opc.waitAfter = true ↔ ∃ a ∈ args, a.1 = "wait_after".toList
  tag : opc.tag.bind (fun i => opc.args[i]?) = (args.filter (fun a => a.1 == "tag".toList)).getLast?.map scanned
  get : ∀ key, opcGetValue opc key = (args.find? (fun a => a.1 == key)).bind (·.2)
  set : args.length < 10 → ∀ key value, value ≠ [] → key.length < 64 → value.length < 64 →
    ∃ set, opcSetValue args.length opc key value = .ok set ∧ opcGetValue set key = some value ∧
      ∀ other, other ≠ key → opcGetValue set other = opcGetValue opc other

theorem recordedReads {args : List Argument} (good : ∀ a ∈ args, Writable a) (name : Text) :
    ReadsBack name args (recorded name (args.map scanned)) where
  sameName := rfl
  sameArgs := rfl
  before := anyWritten args _
  after := anyWritten args _
  tag := by
    have last := tagLast (args.map scanned) []
    rw [List.append_nil,List.filter_map,List.getLast?_map] at last
    exact last
  get := getWritten good name
  set := by
    intro room key value filled shortKey shortValue
    have fewer : (recorded name (args.map scanned)).args.length < 10 := by
      simpa only [recorded,List.length_map] using room
    obtain ⟨set,done⟩ := setFits fewer shortKey shortValue
    refine ⟨set,done,?_,?_⟩
    · rw [getSet done,if_pos rfl,if_neg filled]
    · intro other apart
      rw [getSet done,if_neg apart]

/- A value with an equals sign in it and a tag given twice. -/
def accessArgs : List Argument :=
  [("type".toList,some "a=b".toList),("tag".toList,some "x".toList),("wait_after".toList,none),
    ("tag".toList,some "y".toList)]

theorem writableWord {key : Text} {value : Option Text} (short : key.length < 64) (filled : key ≠ [])
    (clean : key.all (fun c => c != ':' && c != '=' && !isSpace c) = true)
    (fits : value.all (fun v => !v.isEmpty && v.length < 128 && v.all (fun c => c != ':' && !isSpace c)) = true) :
    Writable (key,value) where
  filled := filled
  short := short
  clean := by
    intro c mem
    have plain := List.all_eq_true.mp clean c mem
    simpa only [Bool.and_eq_true,bne_iff_ne,Bool.not_eq_true',and_assoc] using plain
  value := by
    rintro v rfl
    simp only [Option.all_some,Bool.and_eq_true,Bool.not_eq_true',decide_eq_true_eq,List.isEmpty_eq_false_iff] at fits
    refine ⟨fits.1.1,fits.1.2,?_⟩
    intro c mem
    have plain := List.all_eq_true.mp fits.2 c mem
    simpa only [Bool.and_eq_true,bne_iff_ne,Bool.not_eq_true'] using plain

def supported (name key : Text) : Bool :=
  generic.contains key || operations.any (fun row => row.1 == name && row.2.contains key)

theorem supportsIff {name key : Text} : Supports name key ↔ supported name key = true := by
  simp only [Supports,supported,Bool.or_eq_true,List.contains_iff_mem,List.any_eq_true,Bool.and_eq_true,beq_iff_eq]

theorem accessWritable : ∀ a ∈ accessArgs, Writable a := by
  rw [accessArgs,List.forall_mem_cons,List.forall_mem_cons,List.forall_mem_cons,List.forall_mem_singleton]
  refine ⟨writableWord ?_ ?_ ?_ ?_,writableWord ?_ ?_ ?_ ?_,writableWord ?_ ?_ ?_ ?_,writableWord ?_ ?_ ?_ ?_⟩ <;>
    decide +kernel

end MmRegression
