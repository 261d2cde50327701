import MmRegression.Layout
import MmRegression.Operation

/-! The two ways a memory error reaches a page of the test program: `do_memory_error_injection`
calls `madvise` itself for `madv_hard` and `madv_soft`, and for the other types it waits while
`control_mce_test` of `setup_mce_test.sh` runs `mceinj.sh` on a page of the process. -/
namespace MmRegression

open CInt

inductive Injection where
  | waitFor (line : Text)
  | madvise (addr length : Nat) (hard : Bool)
  | access
  deriving DecidableEq, Repr

/- `unsigned long offset` after the argument has been looked up. -/
def errorOffset : Option Text → Nat
  | none => 0
  -- The result of `strtol` is not stored.
  | some _ => 0

def injectByMadvise (chunkset : List MemChunk) (opc : OpControl) (errorType : Text) : Except Stop (List Injection) :=
  match chunkset[0]? with
  | none => .error .undefined
  | some first =>
      let offset := errorOffset (opcGetValue opc "error_offset".toList)
      .ok [.madvise (uadd first.p (umul offset PS)) PS (errorType == "madv_hard".toList),
        .waitFor "after madvise injection\n".toList]

def doMemoryErrorInjection (chunkset : List MemChunk) (opc : OpControl) : Except Stop (List Injection) := do
  match opcGetValue opc "error_type".toList with
  | none => throw (.exited "parameter error_type not given\n".toList)
  | some errorType =>
      let injected ←
        if errorType = "mce-srao".toList ∨ errorType = "hard-offline".toList ∨ errorType = "soft-offline".toList then
          pure [.waitFor "waiting for injection from outside\n".toList]
        else if errorType = "madv_hard".toList ∨ errorType = "madv_soft".toList then
          injectByMadvise chunkset opc errorType
        else throw (.exited ("unknown error_type: ".toList ++ (errorType ++ ['\n'])))
      if opcDefined opc "access_after_injection".toList then
        return injected ++ [.waitFor "writing affected region\n".toList,.access]
      return injected

def injectedPages (actions : List Injection) : List Nat :=
  actions.filterMap (fun a => match a with
    | .madvise addr _ _ => some (addr/PS)
    | _ => none)

def baseVfn : Text := "0x700000000".toList

/- The page of `mceinj.sh -a $[BASEVFN + ERROR_OFFSET]`, with 0 for an unset ERROR_OFFSET. -/
def outsidePage (errorOffset : Text) : Nat :=
  constant baseVfn+constant (if errorOffset = [] then "0".toList else errorOffset)

/- INJOP of `cases/mm/hwpoison/base.set3`. -/
def injop (errorType : Text) (later : Bool) (e : Nat) : Text :=
  "memory_error_injection:error_type=".toList ++ (errorType ++ ((if later then ":access_after_injection".toList else []) ++
    (":error_offset=".toList ++ digits e)))

section Pages

variable {kernel : Kernel} {g : Globals} {writes : List (Nat × MemChunk)}

theorem firstChunk (grants : kernel.Grants) (types : 0 < g.nrMemTypes) (mapped : doMmap kernel g = .ok writes) :
    ∃ first, (fill g writes)[0]? = some first ∧ first.p = allocateBase := by
  have some : 0 < g.nrAllChunks := by
    rw [g.all]
    exact Nat.mul_pos (chunkPositive g) types
  rw [doMmapOk grants g (doMmapInv mapped)] at mapped
  cases Except.ok.inj mapped
  refine ⟨chunkAt kernel g 0,?_,?_⟩
  · rw [fillRange,List.getElem?_map,List.getElem?_range some]
    rfl
  · simp only [chunkAt]
    rw [Nat.zero_mul,Nat.add_zero]

/- Whatever the offset, `madvise` gets the first page. -/
theorem madviseFirst {chunkset : List MemChunk} (opc : OpControl) {first : MemChunk} {errorType : Text}
    (head : chunkset[0]? = some first) (place : first.p = allocateBase)
    (kind : errorType ∈ ["madv_hard".toList,"madv_soft".toList])
    (type : opcGetValue opc "error_type".toList = some errorType) :
    ∃ actions, doMemoryErrorInjection chunkset opc = .ok actions ∧ injectedPages actions = [allocateBase/PS] := by
  have zero : errorOffset (opcGetValue opc "error_offset".toList) = 0 := by
    cases opcGetValue opc "error_offset".toList <;> rfl
  have inside : ¬(errorType = "mce-srao".toList ∨ errorType = "hard-offline".toList ∨ errorType = "soft-offline".toList) := by
    rcases List.mem_pair.mp kind with rfl | rfl <;> decide
  have own : errorType = "madv_hard".toList ∨ errorType = "madv_soft".toList := List.mem_pair.mp kind
  have injected : injectByMadvise chunkset opc errorType =
      .ok [.madvise allocateBase PS (errorType == "madv_hard".toList),.waitFor "after madvise injection\n".toList] := by
    rw [injectByMadvise,head]
    simp only [zero,place]
    rfl
  simp only [doMemoryErrorInjection,type,if_neg inside,if_pos own,injected]
  cases opcDefined opc "access_after_injection".toList with
  | true => exact ⟨_,rfl,rfl⟩
  | false => exact ⟨_,rfl,rfl⟩

theorem outsideDigits (e : Nat) : outsidePage (digits e) = allocateBase/PS+e := by
  rw [outsidePage,if_neg (digitsSome e),constantDigits]
  rfl

theorem injectionsAgreeIff (grants : kernel.Grants) (types : 0 < g.nrMemTypes) (mapped : doMmap kernel g = .ok writes)
    {opc : OpControl} {errorType : Text} {e : Nat} (kind : errorType ∈ ["madv_hard".toList,"madv_soft".toList])
    (type : opcGetValue opc "error_type".toList = some errorType)
    (_offset : opcGetValue opc "error_offset".toList = some (digits e)) :
    (∃ actions first, doMemoryErrorInjection (fill g writes) opc = .ok actions ∧ (fill g writes)[0]? = some first ∧
      injectedPages actions = [outsidePage (digits e)] ∧ outsidePage (digits e) = first.p/PS+e) ↔ e = 0 := by
  obtain ⟨first,head,place⟩ := firstChunk grants types mapped
  obtain ⟨actions,ran,pages⟩ := madviseFirst opc head place kind type
  constructor
  · rintro ⟨other,_,ran',_,same,_⟩
    rw [ran] at ran'
    cases Except.ok.inj ran'
    rw [pages,outsideDigits] at same
    have := (List.cons.inj same).1
    omega
  · rintro rfl
    refine ⟨actions,first,ran,head,?_,?_⟩
    · rw [pages,outsideDigits,Nat.add_zero]
    · rw [outsideDigits,place]

/- The recipe's operation string, parsed. -/
def parsedInjop (later : Bool) (e : Nat) : OpControl :=
  ⟨"memory_error_injection".toList,false,false,none,
    ("error_type".toList,"madv_hard".toList) :: (if later then [("access_after_injection".toList,[])] else []) ++
      [("error_offset".toList,digits e)]⟩

theorem injectionsAgreeHead : parseOperationArgs (injop "madv_hard".toList true 0) = .ok (parsedInjop true 0) ∧
    ∃ g writes, setup grantingKernel twoBackends = .ok g ∧ doMmap grantingKernel g = .ok writes ∧
    ∃ actions first, doMemoryErrorInjection (fill g writes) (parsedInjop true 0) = .ok actions ∧
      (fill g writes)[0]? = some first ∧ injectedPages actions = [outsidePage (digits 0)] ∧
      outsidePage (digits 0) = first.p/PS+0 := by
  refine ⟨by decide +kernel,_,_,twoSetup,twoMapped,?_⟩
  exact (injectionsAgreeIff grantingGrants (by decide) twoMapped (by decide) rfl rfl).mpr rfl

theorem injectionMissesTail : parseOperationArgs (injop "madv_hard".toList true 1) = .ok (parsedInjop true 1) ∧
    ∃ g writes, setup grantingKernel twoBackends = .ok g ∧ doMmap grantingKernel g = .ok writes ∧
    ∃ actions, doMemoryErrorInjection (fill g writes) (parsedInjop true 1) = .ok actions ∧
      injectedPages actions = [0x700000000] ∧ outsidePage (digits 1) = 0x700000001 := by
  obtain ⟨first,head,place⟩ := firstChunk grantingGrants (by decide) twoMapped
  have hard : "madv_hard".toList ∈ ["madv_hard".toList,"madv_soft".toList] := by decide
  obtain ⟨actions,injected,pages⟩ := madviseFirst (parsedInjop true 1) head place hard rfl
  exact ⟨by decide +kernel,_,_,twoSetup,twoMapped,actions,injected,pages,outsideDigits 1⟩

end Pages

end MmRegression
