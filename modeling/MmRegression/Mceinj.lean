import MmRegression.Operation
import MmRegression.PageFlags
import MmRegression.PageTypes

/-! `mceinj.sh -p`: the frame it reads from a pagemap entry, beside `pagemap_pfn` of `pfn.h`. -/
namespace MmRegression

inductive ErrorType where
  | mceCe
  | mceSrao
  | mceSrar
  | hardOffline
  | softOffline
  deriving DecidableEq, Repr

/- The ways into the kernel that the script looks for: `/dev/mcelog` and the debugfs directory. -/
structure Interfaces where
  mcelog : Bool
  sysdir : Bool
  deriving DecidableEq, Repr

/- What an error is injected with, and the address given to it. -/
structure InjectedError where
  place : Text
  address : Text
  deriving DecidableEq, Repr

/- `$[$TARGET * 4096]`. -/
def physical (target : Text) : Text := digits (constant target*4096)

def debugfsAddr : Text := "/sys/kernel/debug/mce-inject/addr".toList

def injectError (type : ErrorType) (found : Interfaces) (target : Text) : List InjectedError :=
  match type with
  | .hardOffline => [⟨"/sys/devices/system/memory/hard_offline_page".toList,physical target⟩]
  | .softOffline => [⟨"/sys/devices/system/memory/soft_offline_page".toList,physical target⟩]
  | .mceSrao | .mceSrar =>
      if found.mcelog then [⟨"mce-inject".toList,physical target⟩]
      else if found.sysdir then [⟨debugfsAddr,physical target⟩] else []
  | .mceCe =>
      if found.mcelog then [⟨"mce-inject".toList,physical target⟩]
      -- this test is the other way round than for the other types
      else if !found.sysdir then [⟨debugfsAddr,physical target⟩] else []

def pmPresent : Word := bit 63
def pmPframeMask : Word := 0x7fffffffffffff#64

def pagemapPfn (val : Word) : Word := if val &&& pmPresent ≠ 0#64 then val &&& pmPframeMask else 0#64

/- What the embedded ruby prints for the entry; nothing when it cannot read one. -/
def printTarget : Option Word → Text
  | some entry => hex (entry &&& 0xfffffffffff#64).toNat
  | none => []

/- The exit code and the injections of `mceinj.sh -p` with an error type that it knows. -/
def mceinj (type : ErrorType) (double : Bool) (found : Interfaces) (entry : Option Word) : Nat × List InjectedError :=
  let target := '0' :: 'x' :: printTarget entry
  if target = "0x".toList then (1,[])
  else if double then (0,injectError type found target ++ injectError type found target)
  else (0,injectError type found target)

def frameText (frame : Word) : Text := '0' :: 'x' :: hex frame.toNat

/- The error goes to the frame that backs the page, and nowhere without such a frame. -/
structure Decodes (type : ErrorType) (double : Bool) (found : Interfaces) (entry : Word) : Prop where
  present : entry &&& pmPresent ≠ 0#64 → (mceinj type double found (some entry)).2 =
    (List.replicate (if double then 2 else 1) (injectError type found (frameText (pagemapPfn entry)))).flatten ∧
      ∀ i ∈ (mceinj type double found (some entry)).2, i.address = digits ((pagemapPfn entry).toNat*4096)
  absent : entry &&& pmPresent = 0#64 → (mceinj type double found (some entry)).1 ≠ 0 ∧
    (mceinj type double found (some entry)).2 = []

theorem hexNumberAppend {t : Text} {c : Char} {v : Nat} (hexes : ∀ d ∈ t, (hexValue d).isSome = true)
    (value : hexValue c = some v) : hexNumber (t ++ [c]) = 16*hexNumber t + v := by
  have keep : ∀ d ∈ t ++ [c], (hexValue d).isSome = true := by
    intro d mem
    rcases List.mem_append.mp mem with old | new
    · exact hexes d old
    · rw [List.mem_singleton.mp new,value]
      rfl
  rw [hexNumber,hexNumber,List.takeWhile_eq_self_iff.mpr keep,List.takeWhile_eq_self_iff.mpr hexes,
    List.filterMap_append,
    List.foldl_append]
  simp only [List.filterMap_cons,value,List.filterMap_nil,List.foldl_cons,List.foldl_nil]

theorem hexDigitValue (n : Nat) (small : n < 16) : hexValue n.digitChar = some n := by
  have all : ∀ i : Fin 16, hexValue (i.val).digitChar = some i.val := by decide
  exact all ⟨n,small⟩

theorem hexAll (n : Nat) : ∀ c ∈ hex n, (hexValue c).isSome = true := by
  have all : hexDigits.all (fun c => (hexValue c).isSome) = true := by decide
  exact fun c mem => List.all_eq_true.mp all c (hexChars n c mem)

/- A number printed in hexadecimal is read back. -/
theorem hexNumberHex (n : Nat) : hexNumber (hex n) = n := by
  induction n using Nat.strongRecOn with
  | _ n ih =>
    rcases Nat.lt_or_ge n 16 with small | large
    · rw [hex,Nat.toDigits_of_lt_base small]
      have one := @hexNumberAppend [] n.digitChar n (List.forall_mem_nil _) (hexDigitValue n small)
      have zero : hexNumber [] = 0 := rfl
      rw [List.nil_append,zero,Nat.mul_zero,Nat.zero_add] at one
      exact one
    · rw [hex,Nat.toDigits_of_base_le (by decide) large]
      have last := hexNumberAppend (hexAll (n/16)) (hexDigitValue (n % 16) (Nat.mod_lt n (by decide)))
      rw [hex] at last
      rw [last,← hex,ih (n/16) (by omega)]
      omega

theorem frameRead (frame : Word) : physical (frameText frame) = digits (frame.toNat*4096) := by
  rw [physical,frameText,constant,hexNumberHex]

theorem injectedAddress {type : ErrorType} {found : Interfaces} {target : Text} :
    ∀ i ∈ injectError type found target, i.address = physical target := by
  have single (place : Text) : ∀ i ∈ [InjectedError.mk place (physical target)], i.address = physical target :=
    List.forall_mem_singleton.mpr rfl
  have choice (first second : Bool) (a b : Text) : ∀ i ∈ (if first then [InjectedError.mk a (physical target)]
      else if second then [⟨b,physical target⟩] else []), i.address = physical target := by
    cases first <;> cases second
    · exact List.forall_mem_nil _
    · exact single b
    · exact single a
    · exact single a
  cases type with
  | hardOffline => exact single _
  | softOffline => exact single _
  | mceSrao => exact choice _ _ _ _
  | mceSrar => exact choice _ _ _ _
  | mceCe => exact choice _ _ _ _

/- Below 2^44 the two masks keep the same frame. -/
theorem lowFrame {entry : Word} (small : (entry &&& pmPframeMask).toNat < 2^44) :
    entry &&& 0xfffffffffff#64 = entry &&& pmPframeMask := by
  apply BitVec.eq_of_toNat_eq
  have wide : (entry &&& pmPframeMask).toNat = entry.toNat % 2^55 := by
    rw [BitVec.toNat_and]
    exact Nat.and_two_pow_sub_one_eq_mod entry.toNat 55
  have narrow : (entry &&& 0xfffffffffff#64).toNat = entry.toNat % 2^44 := by
    rw [BitVec.toNat_and]
    exact Nat.and_two_pow_sub_one_eq_mod entry.toNat 44
  rw [wide] at small ⊢
  rw [narrow]
  omega

theorem targetPrinted (entry : Word) : '0' :: 'x' :: printTarget (some entry) ≠ "0x".toList := by
  intro empty
  exact Nat.toDigits_ne_nil (List.cons.inj (List.cons.inj empty).2).2

/- The script injects at the low 44 bits of every entry that it can read. -/
theorem mceinjRuns (type : ErrorType) (double : Bool) (found : Interfaces) (entry : Word) :
    mceinj type double found (some entry) =
      (0,(List.replicate (if double then 2 else 1)
      (injectError type found ('0' :: 'x' :: printTarget (some entry)))).flatten) := by
  rw [mceinj]
  simp only [if_neg (targetPrinted entry)]
  cases double
  · simp
  · simp

end MmRegression
