import MmRegression.CInt
import MmRegression.Filters

/-! The operation strings of `test_alloc_generic`: `parse_operation_args`, the tables it reads, and
the lookups in the parsed arguments. A copy that does not fit its buffer and an index outside its
table are undefined. -/
namespace MmRegression

open CInt

/- `operation_name` with the row of `op_supported_args` for each. -/
def operations : List (Text × List Text) :=
  [("start",[]),("noop",[]),("exit",[]),("open",["path"]),("mmap",[]),
    ("mmap_numa",["preferred_cpu_node","preferred_mem_node"]),("access",["type","check","reverse"]),("busyloop",["type"]),
    ("munmap",["hp_partial"]),("mbind",["hp_partial","flags"]),("move_pages",[]),("mlock",["hp_partial"]),
    ("mlock2",["hp_partial"]),("memory_error_injection",["error_type","access_after_injection","error_offset"]),
    ("auto_numa",["busyloop"]),("mprotect",["hp_partial","permission"]),("change_cpuset",["busyloop"]),
    ("migratepages",["busyloop"]),("memory_compaction",[]),("allocate_more",[]),("madv_soft",[]),("iterate_mapping",[]),
    ("iterate_fault_dontneed",[]),("iterate_mlock",[]),("iterate_write_fsync",[]),("mremap",[]),("mremap_stress",[]),
    ("hotremove",["busyloop","pageflags"]),("process_vm_access",["busyloop"]),("fork_stress",[]),("mbind_pingpong",[]),
    ("move_pages_pingpong",[]),("mbind_fuzz",[]),("fork",[]),("split_thp",["only_pmd"]),("fork_pmd_split",[]),
    ("madvise",["advice","size","hp_partial","offset","length","step"]),("vm86",[]),("prctl",["early_kill","late_kill"]),
    ("set_mempolicy",["mode","node"])].map (fun row => (row.1.toList,row.2.map String.toList))

def getOpIndex (name : Text) : Option Nat := operations.findIdx? (fun row => row.1 == name)

def strtok (delimiter : Char) (t : Text) : List Text := (split delimiter t).filter (fun w => !w.isEmpty)

def isSpace (c : Char) : Bool := c == ' ' || ('\t' ≤ c && c ≤ '\r')

/- `sscanf(arg, "%[^=]=%s", key, value)` into zeroed buffers. -/
def scanArg (arg : Text) : Text × Text :=
  match arg.takeWhile (· != '='), arg.dropWhile (· != '=') with
  | [], _ => ([],[])
  | key, _::rest => (key,(rest.dropWhile isSpace).takeWhile (fun c => !isSpace c))
  | key, [] => (key,[])

/- `tag` is the number of the argument it points to. -/
structure OpControl where
  name : Text
  waitBefore : Bool
  waitAfter : Bool
  tag : Option Nat
  args : List (Text × Text)
  deriving DecidableEq, Repr

def unsupported (name key : Text) : Text :=
  "operation ".toList ++ (name ++ (" does not support argument ".toList ++ (key ++ ['\n'])))

def parseOperationArg (opc : OpControl) (arg : Text) : Except Stop OpControl :=
  let pair := scanArg arg
  let next := { opc with args := opc.args ++ [pair] }
  if 64 ≤ pair.1.length ∨ 128 ≤ pair.2.length then .error .undefined
  else if pair.1 = "wait_before".toList then .ok { next with waitBefore := true }
  else if pair.1 = "wait_after".toList then .ok { next with waitAfter := true }
  else if pair.1 = "tag".toList then .ok { next with tag := some opc.args.length }
  else match (getOpIndex opc.name).bind (fun i => operations[i]?) with
    -- `get_op_index` returns nothing for an unknown name.
    | none => .error .undefined
    | some row => if row.2.contains pair.1 then .ok next else .error (.exited (unsupported opc.name pair.1))

def parseOperationArgs (str : Text) : Except Stop OpControl :=
  if 256 ≤ str.length then .error .undefined
  else match strtok ':' str with
    | [] => .error .undefined
    | name::args =>
        if 10 < args.length then .error .undefined else args.foldlM parseOperationArg ⟨name,false,false,none,[]⟩

def opcDefined (opc : OpControl) (key : Text) : Bool := opc.args.any (fun a => a.1 == key)

def opcGetValue (opc : OpControl) (key : Text) : Option Text :=
  (opc.args.find? (fun a => a.1 == key)).bind (fun a => if a.2 = [] then none else some a.2)

def hexValue (c : Char) : Option Nat :=
  if '0' ≤ c && c ≤ '9' then some (c.toNat-48)
  else if 'a' ≤ c && c ≤ 'f' then some (c.toNat-87)
  else if 'A' ≤ c && c ≤ 'F' then some (c.toNat-55)
  else none

def hexNumber (t : Text) : Nat := ((t.takeWhile (fun c => (hexValue c).isSome)).filterMap hexValue).foldl (fun n d => 16*n+d) 0

/- A constant with its base before it, as C and the shell read it. -/
def constant : Text → Nat
  | '0' :: 'x' :: t => hexNumber t
  | '0' :: 'X' :: t => hexNumber t
  | '0' :: t => Nat.ofDigitChars 8 (t.takeWhile (fun c => '0' ≤ c && c ≤ '7')) 0
  | t => Nat.ofDigitChars 10 (t.takeWhile Char.isDigit) 0

/- `strtoul(t, NULL, 0)`. -/
def strtoul (t : Text) : Nat :=
  match t.dropWhile isSpace with
  | '-'::u => if constant u < ulongLimit then (ulongLimit-constant u) % ulongLimit else ulongLimit-1
  | '+'::u => min (constant u) (ulongLimit-1)
  | u => min (constant u) (ulongLimit-1)

theorem digitsHead {n : Nat} (positive : 0 < n) (t : Text) : digits n ≠ '0'::t := by
  induction n using Nat.strongRecOn generalizing t with
  | _ n ih =>
    intro same
    rcases Nat.lt_or_ge n 10 with small | large
    · rw [digits,Nat.toDigits_of_lt_base small] at same
      have known : ∀ m < 10, 0 < m → Nat.digitChar m ≠ '0' := by decide
      exact known n small positive (List.cons.inj same).1
    · rw [digits,Nat.toDigits_of_base_le (by decide) large] at same
      cases front : digits (n/10) with
      | nil => exact absurd front Nat.toDigits_ne_nil
      | cons c cs =>
        rw [digits] at front
        rw [front] at same
        have head := (List.cons.inj same).1
        exact ih (n/10) (by omega) (by omega) cs (by rw [digits,front,head])

/- A number written in decimal is read back, its first digit not being taken for a base. -/
theorem constantDigits (n : Nat) : constant (digits n) = n := by
  rcases Nat.eq_zero_or_pos n with rfl | positive
  · decide
  · have plain : constant (digits n) = Nat.ofDigitChars 10 ((digits n).takeWhile Char.isDigit) 0 := by
      rw [constant]
      · exact fun t => digitsHead positive ('x'::t)
      · exact fun t => digitsHead positive ('X'::t)
      · exact digitsHead positive
    rw [plain,takeDigits]
    exact numberDigits n

end MmRegression
