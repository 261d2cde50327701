import Mathlib.Algebra.GroupWithZero.Nat
import Mathlib.Algebra.Order.BigOperators.Group.List
import Mathlib.Algebra.Order.Group.Nat
import MmRegression.OperationArgs

/-! `parse_operations` and `do_operation_loop`: the operations of one `-L` string, each parsed,
dispatched on its name and waited for. What an operation does to memory is not here; it may return,
end the process or go on in the child of a fork. -/
namespace MmRegression

open CInt

/- How an operation ends. `failed` is an end before its `opc_set_value`, `ended` one after it. -/
inductive OpEnding where
  | returned
  | inChild
  | failed (message : Text)
  | ended (message : Text)
  deriving DecidableEq, Repr

/- The `opc_set_value` calls of the operations that always make them, under the operations' names. -/
def setValues : List (Text × List (Text × Text)) :=
  [("iterate_mlock",[("type","syswrite")]),("iterate_write_fsync",[("type","syswrite")]),
    ("madv_soft",[("advice","soft_offline"),("size","4096")]),("iterate_fault_dontneed",[("advice","dontneed")])].map
    (fun row => (row.1.toList,row.2.map (fun set => (set.1.toList,set.2.toList))))

/- The operations that fork, whose child becomes an `access`. -/
def forking : List Text := ["fork".toList,"fork_pmd_split".toList,"process_vm_access".toList]

def setAll (parsed : Nat) (opc : OpControl) (sets : List (Text × Text)) : Except Stop OpControl :=
  sets.foldlM (fun o set => opcSetValue parsed o set.1 set.2) opc

def childSets : List (Text × Text) := [("type".toList,"read".toList)]

/- One operation of the dispatch, with what it leaves in its `op_control`. -/
def perform (ending : OpEnding) (opc : OpControl) : Except Stop OpControl :=
  match ending with
  | .failed message => .error (.exited message)
  | .inChild =>
      if forking.contains opc.name then
        setAll opc.args.length { opc with name := "access".toList, waitAfter := true } childSets
      else setAll opc.args.length opc ((setValues.lookup opc.name).getD [])
  | .returned => setAll opc.args.length opc ((setValues.lookup opc.name).getD [])
  | .ended message => do
      let _ ← setAll opc.args.length opc ((setValues.lookup opc.name).getD [])
      .error (.exited message)

def waitKeyString (word : Text) (opc : OpControl) : Text :=
  match opc.tag.bind (fun i => opc.args[i]?) with
  | some tag => word ++ ('_' :: (opc.name ++ '_'::tag.2))
  | none => word ++ '_'::opc.name

/- `wait_key_string` has 256 bytes. -/
def doWaitKey (word : Text) (opc : OpControl) : Except Stop Unit :=
  if 256 ≤ (waitKeyString word opc).length then .error .undefined else .ok ()

def unsupportedOp (name : Text) : Text := "unsupported op_string: ".toList ++ (name ++ ['\n'])

def doWaitBefore (opc : OpControl) : Except Stop Unit :=
  if opc.waitBefore then doWaitKey "before".toList opc else .ok ()

def doWaitAfter (opc : OpControl) : Except Stop Unit := if opc.waitAfter then doWaitKey "after".toList opc else .ok ()

def dispatch (ending : OpEnding) (opc : OpControl) : Except Stop Unit :=
  if (operations.map (·.1)).contains opc.name then do
    let opc ← perform ending opc
    doWaitAfter opc
  else .error (.exited (unsupportedOp opc.name))

def operate (ending : OpControl → OpEnding) (str : Text) : Except Stop Unit := do
  let opc ← parseOperationArgs str
  doWaitBefore opc
  dispatch (ending opc) opc

def doOperationLoop (ending : Nat → OpControl → OpEnding) : Nat → List Text → Except Stop Unit
  | _, [] => .ok ()
  | i, str::rest => do
      operate (ending i) str
      doOperationLoop ending (i+1) rest

/- `op_strings` has 256 entries, and the last one used holds the null pointer. -/
def parseOperations (str : Text) : Except Stop (List Text) :=
  if 256 ≤ (strtok ' ' str).length then .error .undefined else .ok (strtok ' ' str)

def runOperations (ending : Nat → OpControl → OpEnding) (str : Text) : Except Stop Unit := do
  let ops ← parseOperations str
  doOperationLoop ending 0 ops

/- How many arguments an operation of this name adds to those it was given. -/
def addedArgs (name : Text) : Nat :=
  if forking.contains name then childSets.length else ((setValues.lookup name).getD []).length

/- An argument fits when its buffers hold it, and when its operation has a row to be looked up in. -/
def ArgFits (name arg : Text) : Prop :=
  (scanArg arg).1.length < 64 ∧ (scanArg arg).2.length < 128 ∧
    ((scanArg arg).1 ∈ generic ∨ name ∈ operations.map (·.1))

def ArgPasses (name arg : Text) : Prop := Supports name (scanArg arg).1

/- Every member fits up to the first one that does not pass, that one included. -/
def FitsUpTo (passes fits : Text → Prop) (ts : List Text) : Prop :=
  ∀ pre t post, ts = pre ++ t::post → (∀ a ∈ pre, passes a) → fits t

def ArgsFit (name : Text) (args : List Text) : Prop := FitsUpTo (ArgPasses name) (ArgFits name) args

structure OperationPasses (name : Text) (args : List Text) : Prop where
  known : name ∈ operations.map (·.1)
  supported : ∀ a ∈ args, ArgPasses name a

structure OperationFits (str : Text) : Prop where
  short : str.length < 256
  named : strtok ':' str ≠ []
  few : ∀ name args, strtok ':' str = name::args → args.length ≤ 10
  fits : ∀ name args, strtok ':' str = name::args → ArgsFit name args
  added : ∀ name args, strtok ':' str = name::args → OperationPasses name args → args.length + addedArgs name ≤ 10

def AcceptedOp (str : Text) : Prop := ∃ name args, strtok ':' str = name::args ∧ OperationPasses name args

/- Every operation fits up to the first one that is refused. -/
structure InTables (str : Text) : Prop where
  few : (strtok ' ' str).length < 256
  fits : FitsUpTo AcceptedOp OperationFits (strtok ' ' str)

theorem fitsNil (passes fits : Text → Prop) : FitsUpTo passes fits [] := by
  intro pre t post cut
  exact absurd cut.symm (List.append_ne_nil_of_right_ne_nil pre (List.cons_ne_nil t post))

theorem fitsCons {passes fits : Text → Prop} (t : Text) (ts : List Text) :
    FitsUpTo passes fits (t::ts) ↔ fits t ∧ (passes t → FitsUpTo passes fits ts) := by
  constructor
  · intro all
    refine ⟨all [] t ts rfl (List.forall_mem_nil _),?_⟩
    intro pass pre a post cut before
    exact all (t::pre) a post (by rw [cut]; rfl) (List.forall_mem_cons.mpr ⟨pass,before⟩)
  · intro both pre a post cut before
    cases pre with
    | nil =>
      cases (List.cons.inj cut).1
      exact both.1
    | cons b pre =>
      obtain ⟨rfl,rest⟩ := List.cons.inj cut
      obtain ⟨pass,before⟩ := List.forall_mem_cons.mp before
      exact both.2 pass pre a post rest before

theorem fitsAll {passes fits : Text → Prop} {ts : List Text} (all : FitsUpTo passes fits ts)
    (pass : ∀ t ∈ ts, passes t) :
    ∀ t ∈ ts, fits t := by
  intro t mem
  obtain ⟨pre,post,cut⟩ := List.append_of_mem mem
  exact all pre t post cut (fun a inPre => pass a (cut ▸ List.mem_append_left _ inPre))

section Arguments

variable {name : Text}

theorem unknownRow (unknown : name ∉ operations.map (·.1)) : supportedArgs name = none := by
  rw [Option.eq_none_iff_forall_not_mem]
  intro keys found
  exact unknown (List.mem_map.mpr ⟨(name,keys),supportedRow.mp found,rfl⟩)

theorem argStopFits (arg : Text) : argStop name (scanArg arg) ≠ some .undefined ↔ ArgFits name arg := by
  by_cases short : (scanArg arg).1.length < 64 ∧ (scanArg arg).2.length < 128
  · by_cases inGeneric : (scanArg arg).1 ∈ generic
    · rw [argStopNone short.1 short.2 (.inl inGeneric)]
      exact iff_of_true (Option.some_ne_none _).symm ⟨short.1,short.2,.inl inGeneric⟩
    · by_cases known : name ∈ operations.map (·.1)
      · refine iff_of_true ?_ ⟨short.1,short.2,.inr known⟩
        by_cases supports : Supports name (scanArg arg).1
        · rw [argStopNone short.1 short.2 supports]
          exact (Option.some_ne_none _).symm
        · rw [argStopExits known short.1 short.2 supports]
          intro equal
          cases Option.some.inj equal
      · refine iff_of_false ?_ (fun fits => fits.2.2.elim inGeneric known)
        rw [argStop,if_neg (by omega),if_neg (mt List.contains_iff_mem.mp inGeneric),unknownRow known]
        exact fun differ => differ rfl
  · refine iff_of_false ?_ (fun fits => short ⟨fits.1,fits.2.1⟩)
    rw [argStop,if_pos (by omega)]
    exact fun differ => differ rfl

theorem argStopPasses {arg : Text} (fits : ArgFits name arg) :
    argStop name (scanArg arg) = none ↔ ArgPasses name arg := by
  obtain ⟨shortKey,shortValue,looked⟩ := fits
  constructor
  · intro passes
    rcases looked with inGeneric | known
    · exact .inl inGeneric
    · by_contra foreign
      rw [argStopExits known shortKey shortValue foreign] at passes
      contradiction
  · exact argStopNone shortKey shortValue

/- The arguments stop the parser outside its buffers exactly when one does not fit. -/
theorem argsStopFits (args : List Text) :
    args.findSome? (fun a => argStop name (scanArg a)) ≠ some .undefined ↔ ArgsFit name args := by
  induction args with
  | nil =>
    exact iff_of_true (Option.some_ne_none _).symm (fitsNil _ _)
  | cons a as ih =>
    rw [ArgsFit,fitsCons,List.findSome?_cons]
    cases stop : argStop name (scanArg a) with
    | none =>
      have fits : ArgFits name a := (argStopFits a).mp (by rw [stop]; exact (Option.some_ne_none _).symm)
      have passes := (argStopPasses fits).mp stop
      rw [ih]
      exact ⟨fun rest => ⟨fits,fun _ => rest⟩,fun both => both.2 passes⟩
    | some stop =>
      have refused : ArgFits name a → ¬ ArgPasses name a := by
        intro fits passes
        rw [(argStopPasses fits).mpr passes] at stop
        contradiction
      have here := @argStopFits name a
      rw [stop] at here
      rw [here]
      exact ⟨fun fits => ⟨fits,fun passes => absurd passes (refused fits)⟩,fun both => both.1⟩

theorem argsStopPasses {args : List Text} (fits : ArgsFit name args) :
    args.findSome? (fun a => argStop name (scanArg a)) = none ↔ ∀ a ∈ args, ArgPasses name a := by
  induction args with
  | nil => exact iff_of_true rfl (List.forall_mem_nil _)
  | cons a as ih =>
    obtain ⟨fitsHere,fitsRest⟩ := (fitsCons a as).mp fits
    rw [List.findSome?_cons,List.forall_mem_cons,← argStopPasses fitsHere]
    cases stop : argStop name (scanArg a) with
    | none =>
      rw [ih (fitsRest ((argStopPasses fitsHere).mp stop))]
      exact (and_iff_right rfl).symm
    | some stop => exact iff_of_false (Option.some_ne_none _) (fun both => Option.some_ne_none _ both.1)

end Arguments

/- Where the parser gets through, and what it leaves. -/
theorem parsedTokens {str name : Text} {args : List Text} (short : str.length < 256) (cut : strtok ':' str = name::args)
    (few : args.length ≤ 10) :
    parseOperationArgs str = match args.findSome? (fun a => argStop name (scanArg a)) with
      | some stop => .error stop
      | none => .ok (recorded name (args.map scanArg)) := by
  rw [parseOperationArgs,if_neg (by omega),cut]
  simp only [if_neg (Nat.not_lt.mpr few)]
  exact parseAll name [] args

section Added

variable {parsed : Nat}

theorem setFresh {opc : OpControl} {set : Text × Text} (fresh : ∀ a ∈ opc.args, a.1 ≠ set.1)
    (shortKey : set.1.length < 64) (shortValue : set.2.length < 64) :
    opcSetValue parsed opc set.1 set.2 =
      if opc.args.length < 10 then .ok { opc with args := opc.args ++ [set] } else .error .undefined := by
  have missing : opc.args.findIdx? (fun a => a.1 == set.1) = none := by
    rw [List.findIdx?_eq_none_iff]
    intro a mem
    exact beq_eq_false_iff_ne.mpr (fresh a mem)
  rw [opcSetValue,missing]
  by_cases room : opc.args.length < 10
  · simp only [if_pos room,if_neg (show ¬ (10 ≤ opc.args.length ∨ 64 ≤ set.1.length ∨ 64 ≤ set.2.length) by omega)]
  · simp only [if_neg room,if_pos (show 10 ≤ opc.args.length ∨ 64 ≤ set.1.length ∨ 64 ≤ set.2.length by omega)]

/- New keys are added behind the arguments while their arrays have room. -/
theorem setAllFresh {sets : List (Text × Text)} {opc : OpControl} (few : opc.args.length ≤ 10)
    (fresh : ∀ s ∈ sets, ∀ a ∈ opc.args, a.1 ≠ s.1) (distinct : (sets.map (·.1)).Nodup)
    (short : ∀ s ∈ sets, s.1.length < 64 ∧ s.2.length < 64) :
    setAll parsed opc sets =
      if opc.args.length + sets.length ≤ 10 then .ok { opc with args := opc.args ++ sets } else .error .undefined := by
  induction sets generalizing opc with
  | nil =>
    rw [List.length_nil,Nat.add_zero,if_pos few,List.append_nil]
    rfl
  | cons s ss ih =>
    obtain ⟨freshHere,freshRest⟩ := List.forall_mem_cons.mp fresh
    obtain ⟨shortHere,shortRest⟩ := List.forall_mem_cons.mp short
    rw [List.map_cons,List.nodup_cons] at distinct
    rw [setAll,List.foldlM_cons,setFresh freshHere shortHere.1 shortHere.2,List.length_cons]
    by_cases room : opc.args.length < 10
    · have apart : ∀ t ∈ ss, ∀ a ∈ opc.args ++ [s], a.1 ≠ t.1 := by
        intro t inRest a inside
        rcases List.mem_append.mp inside with old | new
        · exact freshRest t inRest a old
        · rw [List.mem_singleton.mp new]
          exact fun same => distinct.1 (List.mem_map.mpr ⟨t,inRest,same.symm⟩)
      have rest := @ih { opc with args := opc.args ++ [s] }
        (by simp only [List.length_append,List.length_singleton]; omega) apart distinct.2 shortRest
      rw [if_pos room,bindOk]
      rw [setAll] at rest
      rw [rest]
      simp only [List.length_append,List.length_singleton,List.append_assoc,List.singleton_append]
      rw [Nat.add_assoc,Nat.add_comm 1]
    · rw [if_neg room,if_neg (by omega)]
      rfl

end Added

/- What the operations set themselves is short, and under keys that they do not take as arguments. -/
structure SetsFor (name : Text) (sets : List (Text × Text)) : Prop where
  foreign : ∀ s ∈ sets, ¬ Supports name s.1
  short : ∀ s ∈ sets, s.1.length < 64 ∧ s.2.length < 64
  distinct : (sets.map (·.1)).Nodup

def setsCheck (name : Text) (sets : List (Text × Text)) : Bool :=
  sets.all (fun s => !supported name s.1 && decide (s.1.length < 64) && decide (s.2.length < 64)) &&
    decide (sets.map (·.1)).Nodup

theorem setsChecked {name : Text} {sets : List (Text × Text)} (checked : setsCheck name sets = true) :
    SetsFor name sets := by
  obtain ⟨all,distinct⟩ := Bool.and_eq_true_iff.mp checked
  have each : ∀ s ∈ sets, ¬ Supports name s.1 ∧ s.1.length < 64 ∧ s.2.length < 64 := by
    intro s mem
    have here := List.all_eq_true.mp all s mem
    simpa only [Bool.and_eq_true,Bool.not_eq_true',decide_eq_true_eq,← Bool.not_eq_true,← supportsIff,
      and_assoc] using here
  exact ⟨fun s mem => (each s mem).1,fun s mem => (each s mem).2,of_decide_eq_true distinct⟩

theorem setsOfName (name : Text) : SetsFor name ((setValues.lookup name).getD []) := by
  have checked : setValues.all (fun row => setsCheck row.1 row.2) = true := by decide +kernel
  cases found : setValues.lookup name with
  | none => exact ⟨List.forall_mem_nil _,List.forall_mem_nil _,List.nodup_nil⟩
  | some sets =>
    obtain ⟨before,after,cut,-⟩ := List.lookup_eq_some_iff.mp found
    have mem : (name,sets) ∈ setValues := by
      rw [cut]
      exact List.mem_append_right _ List.mem_cons_self
    exact setsChecked (List.all_eq_true.mp checked _ mem)

theorem setsOfChild {name : Text} (forks : forking.contains name = true) : SetsFor name childSets := by
  have checked : forking.all (fun name => setsCheck name childSets) = true := by decide +kernel
  exact setsChecked (List.all_eq_true.mp checked name (List.contains_iff_mem.mp forks))

theorem setAllFor {parsed : Nat} {name : Text} {sets : List (Text × Text)} {opc : OpControl} (extra : SetsFor name sets)
    (few : opc.args.length ≤ 10) (supports : ∀ a ∈ opc.args, Supports name a.1) :
    setAll parsed opc sets =
      if opc.args.length + sets.length ≤ 10 then .ok { opc with args := opc.args ++ sets } else .error .undefined := by
  apply setAllFresh few
  · intro s mem a inArgs same
    exact extra.foreign s mem (same ▸ supports a inArgs)
  · exact extra.distinct
  · exact extra.short

theorem operationNameShort {name : Text} (known : name ∈ operations.map (·.1)) : name.length ≤ 22 := by
  have short : operations.all (fun row => decide (row.1.length ≤ 22)) = true := by decide +kernel
  obtain ⟨row,mem,rfl⟩ := List.mem_map.mp known
  exact of_decide_eq_true (List.all_eq_true.mp short row mem)

/- The name is short and every value has the size of its buffer, so what is waited for fits. -/
theorem waitKeyFits {word : Text} {opc : OpControl} (shortWord : word.length ≤ 6) (shortName : opc.name.length ≤ 22)
    (values : ∀ a ∈ opc.args, a.2.length < 128) : doWaitKey word opc = .ok () := by
  have short : (waitKeyString word opc).length < 256 := by
    rw [waitKeyString]
    split
    · rename_i tag found
      obtain ⟨i,-,here⟩ := Option.bind_eq_some_iff.mp found
      have value := values tag (List.mem_of_getElem? here)
      simp only [List.length_append,List.length_cons]
      omega
    · simp only [List.length_append,List.length_cons]
      omega
  exact if_neg (by omega)

theorem splitLength (sep : Char) (t : Text) : ((split sep t).map (fun w => w.length+1)).sum = t.length+1 := by
  induction t with
  | nil => rfl
  | cons c cs ih =>
    rw [split]
    split
    · rw [List.map_cons,List.sum_cons,ih]
      simp only [List.length_nil,List.length_cons]
      omega
    · split
      · rename_i none
        exact absurd none (splitNonempty sep cs)
      · rename_i head tail pieces
        rw [pieces,List.map_cons,List.sum_cons] at ih
        simp only [List.map_cons,List.sum_cons,List.length_cons]
        omega

theorem strtokLength (sep : Char) (t : Text) : ((strtok sep t).map (fun w => w.length+1)).sum ≤ t.length+1 := by
  rw [← splitLength sep t]
  exact (List.filter_sublist.map _).sum_le_sum (fun _ _ => Nat.zero_le _)

/- Two different members of a list both count in its sum. -/
theorem pairSum {f : Text → Nat} {ts : List Text} {u t : Text} (left : u ∈ ts) (right : t ∈ ts) (apart : u ≠ t) :
    f u + f t ≤ (ts.map f).sum := by
  induction ts with
  | nil => contradiction
  | cons v vs ih =>
    rw [List.map_cons,List.sum_cons]
    rcases List.mem_cons.mp left with rfl | leftRest
    · rcases List.mem_cons.mp right with same | rightRest
      · exact absurd same.symm apart
      · exact Nat.add_le_add_left (List.le_sum_of_mem (List.mem_map_of_mem rightRest)) _
    · rcases List.mem_cons.mp right with rfl | rightRest
      · rw [Nat.add_comm]
        exact Nat.add_le_add_left (List.le_sum_of_mem (List.mem_map_of_mem leftRest)) _
      · exact Nat.le_trans (ih leftRest rightRest) (Nat.le_add_left _ _)

theorem scanLength (arg : Text) : (scanArg arg).1.length + (scanArg arg).2.length ≤ arg.length := by
  have whole : (arg.takeWhile (· != '=')).length + (arg.dropWhile (· != '=')).length = arg.length := by
    rw [← List.length_append,List.takeWhile_append_dropWhile]
  cases keyIs : arg.takeWhile (· != '=') with
  | nil =>
    simp only [scanArg,keyIs,List.length_nil]
    omega
  | cons c cs =>
    cases restIs : arg.dropWhile (· != '=') with
    | nil =>
      rw [keyIs,restIs] at whole
      simp only [scanArg,keyIs,restIs]
      omega
    | cons d rest =>
      have inner : ((rest.dropWhile isSpace).takeWhile (fun c => !isSpace c)).length ≤ rest.length :=
        Nat.le_trans (List.takeWhile_sublist _).length_le (List.dropWhile_sublist _).length_le
      rw [keyIs,restIs,List.length_cons (a := d)] at whole
      simp only [scanArg,keyIs,restIs]
      omega

theorem tagPair {name : Text} {args : List (Text × Text)} {tag : Text × Text}
    (found : (recorded name args).tag.bind (fun i => (recorded name args).args[i]?) = some tag) :
    tag ∈ args ∧ tag.1 = "tag".toList := by
  have last := tagLast args []
  rw [List.append_nil] at last
  have inside := List.mem_of_getLast? (last.symm.trans found)
  obtain ⟨mem,key⟩ := List.mem_filter.mp inside
  exact ⟨mem,eq_of_beq key⟩

/- Before an operation the name may be any text, but it shares one string with the argument
`wait_before` and with the tag. -/
theorem waitBeforeFits {str name : Text} {args : List Text} (short : str.length < 256)
    (cut : strtok ':' str = name::args) : doWaitBefore (recorded name (args.map scanArg)) = .ok () := by
  by_cases waits : (recorded name (args.map scanArg)).waitBefore = true
  case neg => exact if_neg waits
  rw [doWaitBefore,if_pos waits]
  have total := strtokLength ':' str
  rw [cut,List.map_cons,List.sum_cons] at total
  obtain ⟨wait,waitMem,waitKey⟩ : ∃ a ∈ args.map scanArg, (a.1 == "wait_before".toList) = true :=
    List.any_eq_true.mp waits
  obtain ⟨u,uMem,rfl⟩ := List.mem_map.mp waitMem
  have waitLength := scanLength u
  have word : "wait_before".toList.length = 11 := rfl
  rw [eq_of_beq waitKey,word] at waitLength
  have fits : (waitKeyString "before".toList (recorded name (args.map scanArg))).length < 256 := by
    have before : "before".toList.length = 6 := rfl
    rw [waitKeyString]
    split
    · rename_i tag found
      obtain ⟨tagMem,tagKey⟩ := tagPair found
      obtain ⟨t,tMem,rfl⟩ := List.mem_map.mp tagMem
      have tagLength := scanLength t
      have tagWord : "tag".toList.length = 3 := rfl
      rw [tagKey,tagWord] at tagLength
      have apart : u ≠ t := by
        rintro rfl
        exact genericKeys.2.1 ((eq_of_beq waitKey).symm.trans tagKey)
      have both := @pairSum (fun w => w.length+1) args u t uMem tMem apart
      simp only [List.length_append,List.length_cons,before,recorded]
      omega
    · have one := List.le_sum_of_mem (List.mem_map_of_mem (f := fun w : Text => w.length+1) uMem)
      simp only [List.length_append,List.length_cons,before,recorded]
      omega
  exact if_neg (by omega)

/- What an operation sets itself leaves `wait_after` with a string that fits. -/
theorem afterSets {parsed : Nat} {name : Text} {extra : List (Text × Text)} {opc : OpControl}
    (sets : SetsFor name extra)
    (room : opc.args.length + extra.length ≤ 10) (supports : ∀ a ∈ opc.args, Supports name a.1)
    (shortName : opc.name.length ≤ 22) (values : ∀ a ∈ opc.args, a.2.length < 128) :
    (setAll parsed opc extra >>= doWaitAfter) = .ok () := by
  have every : ∀ a ∈ opc.args ++ extra, a.2.length < 128 := by
    intro a mem
    rcases List.mem_append.mp mem with old | new
    · exact values a old
    · have short := (sets.short a new).2
      omega
  have fits := @waitKeyFits "after".toList { opc with args := opc.args ++ extra } (by decide) shortName every
  rw [setAllFor sets (by omega) supports,if_pos room,bindOk,doWaitAfter,fits]
  exact ite_self _

theorem fullSets {parsed : Nat} {name : Text} {extra : List (Text × Text)} {opc : OpControl} (sets : SetsFor name extra)
    (few : opc.args.length ≤ 10) (full : ¬ opc.args.length + extra.length ≤ 10)
    (supports : ∀ a ∈ opc.args, Supports name a.1) : (setAll parsed opc extra >>= doWaitAfter) = .error .undefined := by
  rw [setAllFor sets few supports,if_neg full,bindError]

theorem forkingSetsNone {name : Text} (forks : forking.contains name = true) : setValues.lookup name = none := by
  have none : forking.all (fun name => (setValues.lookup name).isNone) = true := by decide +kernel
  exact Option.isNone_iff_eq_none.mp (List.all_eq_true.mp none name (List.contains_iff_mem.mp forks))

section Perform

variable {name : Text} {args : List (Text × Text)}

theorem performSafe (known : name ∈ operations.map (·.1)) (room : args.length + addedArgs name ≤ 10)
    (supports : ∀ a ∈ args, Supports name a.1) (values : ∀ a ∈ args, a.2.length < 128) (ending : OpEnding) :
    dispatch ending (recorded name args) ≠ .error .undefined ∧ dispatch .inChild (recorded name args) = .ok () := by
  have shortName := operationNameShort known
  have plainRoom : args.length + ((setValues.lookup name).getD []).length ≤ 10 := by
    rw [addedArgs] at room
    split at room
    · rename_i forks
      rw [forkingSetsNone forks,Option.getD_none,List.length_nil]
      omega
    · exact room
  have plain := @afterSets args.length name _ (recorded name args) (setsOfName name) plainRoom supports shortName values
  have branch (e : OpEnding) : dispatch e (recorded name args) = (perform e (recorded name args) >>= doWaitAfter) :=
    if_pos (List.contains_iff_mem.mpr known)
  have child : dispatch .inChild (recorded name args) = .ok () := by
    rw [branch,perform]
    split
    · rename_i forks
      have forksName : forking.contains name = true := forks
      rw [addedArgs,if_pos forksName] at room
      have access : "access".toList.length ≤ 22 := by decide
      exact afterSets (setsOfChild forks) room supports access values
    · exact plain
  refine ⟨?_,child⟩
  cases ending with
  | returned =>
    rw [branch,perform]
    exact fun wrong => nomatch plain.symm.trans wrong
  | inChild => exact fun wrong => nomatch child.symm.trans wrong
  | failed message =>
    rw [branch,perform,bindError]
    exact fun wrong => nomatch wrong
  | ended message =>
    have few : (recorded name args).args.length ≤ 10 := Nat.le_trans (Nat.le_add_right _ _) plainRoom
    have done : setAll args.length (recorded name args) ((setValues.lookup name).getD []) = .ok _ :=
      (setAllFor (setsOfName name) few supports).trans (if_pos plainRoom)
    have stops : perform (.ended message) (recorded name args) = .error (.exited message) := by
      rw [perform]
      exact (congrArg (· >>= fun _ => Except.error (Stop.exited message)) done).trans (bindOk _ _)
    rw [branch,stops,bindError]
    exact fun wrong => nomatch wrong

theorem performFull (known : name ∈ operations.map (·.1)) (few : args.length ≤ 10)
    (full : ¬ args.length + addedArgs name ≤ 10) (supports : ∀ a ∈ args, Supports name a.1) :
    dispatch .inChild (recorded name args) = .error .undefined := by
  have branch : dispatch .inChild (recorded name args) = (perform .inChild (recorded name args) >>= doWaitAfter) :=
    if_pos (List.contains_iff_mem.mpr known)
  rw [branch,perform]
  split
  · rename_i forks
    have forksName : forking.contains name = true := forks
    rw [addedArgs,if_pos forksName] at full
    exact fullSets (setsOfChild forksName) few full supports
  · rename_i plain
    have plainName : ¬ forking.contains name = true := plain
    rw [addedArgs,if_neg plainName] at full
    exact fullSets (setsOfName name) few full supports

end Perform

section Operation

variable {str : Text}

theorem operateFits (fits : OperationFits str) (ending : OpControl → OpEnding) :
    operate ending str ≠ .error .undefined ∧ (operate ending str = .ok () → AcceptedOp str) ∧
      (AcceptedOp str → operate (fun _ => .inChild) str = .ok ()) := by
  obtain ⟨name,args,cut⟩ := List.exists_cons_of_ne_nil fits.named
  have parsed := parsedTokens fits.short cut (fits.few name args cut)
  have argsFit := fits.fits name args cut
  have whole (e : OpControl → OpEnding) : operate e str = (parseOperationArgs str >>= fun opc => do
      doWaitBefore opc
      dispatch (e opc) opc) := rfl
  cases found : args.findSome? (fun a => argStop name (scanArg a)) with
  | some stop =>
    rw [found] at parsed
    have inside : some stop ≠ some .undefined := found ▸ (argsStopFits args).mpr argsFit
    have failed (e : OpControl → OpEnding) : operate e str = .error stop := by rw [whole,parsed,bindError]
    rw [failed]
    refine ⟨fun wrong => inside (congrArg some (Except.error.inj wrong)),fun wrong => (nomatch wrong),?_⟩
    rintro ⟨n,as,cut',passes⟩
    cases cut.symm.trans cut'
    rw [(argsStopPasses argsFit).mpr passes.supported] at found
    contradiction
  | none =>
    rw [found] at parsed
    have supported := (argsStopPasses argsFit).mp found
    have dispatches (e : OpControl → OpEnding) :
        operate e str = dispatch (e (recorded name (args.map scanArg))) (recorded name (args.map scanArg)) := by
      rw [whole,parsed,bindOk,waitBeforeFits fits.short cut,bindOk]
    rw [dispatches,dispatches]
    by_cases known : name ∈ operations.map (·.1)
    · have passes : OperationPasses name args := ⟨known,supported⟩
      have room : (args.map scanArg).length + addedArgs name ≤ 10 := by
        rw [List.length_map]
        exact fits.added name args cut passes
      have supports : ∀ a ∈ args.map scanArg, Supports name a.1 := List.forall_mem_map.mpr supported
      have values : ∀ a ∈ args.map scanArg, a.2.length < 128 :=
        List.forall_mem_map.mpr (fun a mem => (fitsAll argsFit supported a mem).2.1)
      obtain ⟨safe,child⟩ := performSafe known room supports values (ending (recorded name (args.map scanArg)))
      exact ⟨safe,fun _ => ⟨name,args,cut,passes⟩,fun _ => child⟩
    · have refused (e : OpEnding) :
          dispatch e (recorded name (args.map scanArg)) = .error (.exited (unsupportedOp name)) :=
        if_neg (fun inside => known (List.contains_iff_mem.mp inside))
      rw [refused,refused]
      refine ⟨fun wrong => (nomatch wrong),fun wrong => (nomatch wrong),?_⟩
      rintro ⟨n,as,cut',passes⟩
      cases cut.symm.trans cut'
      exact absurd passes.known known

theorem operateUnfit (unfit : ¬ OperationFits str) : operate (fun _ => .inChild) str = .error .undefined := by
  have whole : operate (fun _ => .inChild) str = (parseOperationArgs str >>= fun opc => do
      doWaitBefore opc
      dispatch .inChild opc) := rfl
  by_cases short : str.length < 256
  case neg => rw [whole,parseOperationArgs,if_pos (by omega),bindError]
  cases cut : strtok ':' str with
  | nil =>
    rw [whole,parseOperationArgs,if_neg (by omega),cut]
    rfl
  | cons name args =>
    by_cases few : args.length ≤ 10
    case neg =>
      rw [whole,parseOperationArgs,if_neg (by omega),cut]
      simp only [if_pos (Nat.lt_of_not_le few),bindError]
    have parsed := parsedTokens short cut few
    by_cases argsFit : ArgsFit name args
    case neg =>
      have stops := not_not.mp (mt (argsStopFits args).mp argsFit)
      rw [stops] at parsed
      rw [whole,parsed,bindError]
    by_cases room : OperationPasses name args → args.length + addedArgs name ≤ 10
    · refine absurd ⟨short,by rw [cut]; exact List.cons_ne_nil _ _,?_,?_,?_⟩ unfit <;> intro n as same <;>
        cases cut.symm.trans same
      · exact few
      · exact argsFit
      · exact room
    · obtain ⟨passes,full⟩ := Classical.not_imp.mp room
      rw [(argsStopPasses argsFit).mpr passes.supported] at parsed
      rw [whole,parsed,bindOk,waitBeforeFits short cut,bindOk]
      apply performFull passes.known
      · rw [List.length_map]
        exact few
      · rw [List.length_map]
        exact full
      · exact List.forall_mem_map.mpr passes.supported

end Operation

theorem loopFits {ops : List Text} (fits : FitsUpTo AcceptedOp OperationFits ops) (ending : Nat → OpControl → OpEnding)
    (i : Nat) : doOperationLoop ending i ops ≠ .error .undefined := by
  induction ops generalizing i with
  | nil => exact fun wrong => nomatch wrong
  | cons op ops ih =>
    obtain ⟨fitsHere,fitsRest⟩ := (fitsCons op ops).mp fits
    obtain ⟨safe,accepts,-⟩ := operateFits fitsHere (ending i)
    rw [doOperationLoop]
    cases ran : operate (ending i) op with
    | ok done => exact ih (fitsRest (accepts ran)) (i+1)
    | error stop => exact fun wrong => safe (ran.trans wrong)

theorem loopUnfit {ops : List Text} (unfit : ¬ FitsUpTo AcceptedOp OperationFits ops) (i : Nat) :
    doOperationLoop (fun _ _ => .inChild) i ops = .error .undefined := by
  induction ops generalizing i with
  | nil => exact absurd (fitsNil _ _) unfit
  | cons op ops ih =>
    rw [doOperationLoop]
    by_cases fitsHere : OperationFits op
    · obtain ⟨accepted,rest⟩ : AcceptedOp op ∧ ¬ FitsUpTo AcceptedOp OperationFits ops := by
        rw [fitsCons,not_and] at unfit
        exact Classical.not_imp.mp (unfit fitsHere)
      rw [(operateFits fitsHere (fun _ => .inChild)).2.2 accepted,bindOk]
      exact ih rest (i+1)
    · rw [operateUnfit fitsHere,bindError]

end MmRegression
