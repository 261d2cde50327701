import Mathlib.Logic.Function.Basic

/-! Memory that outlives the program. A store is read back at once, but it is on the medium only when its
cell is persisted, or before that by chance: a crash leaves in each cell one of the values that it had
since it was last persisted. -/
namespace MmRegression.PersistentMemory

variable {ι : Type} {ν : ι → Type}

abbrev Image (ν : ι → Type) := (c : ι) → ν c

structure State (ν : ι → Type) where
  cells : Image ν
  since : (c : ι) → List (ν c)

/- Everything that was stored is on the medium. -/
def settled (m : Image ν) : State ν := ⟨m,fun c => [m c]⟩

inductive Instr (ν : ι → Type) where
  | store (c : ι) (value : Image ν → ν c)
  | persist (cs : List ι)

def Instr.stores (c : ι) : Instr ν → Prop
  | .store d _ => d = c
  | .persist _ => False

def Crash (s : State ν) (m : Image ν) : Prop := ∀ c, m c ∈ s.since c

theorem crashSettled {m m' : Image ν} : Crash (settled m) m' ↔ m' = m :=
  ⟨fun crash => funext fun c => List.mem_singleton.mp (crash c),fun same c => by simp [same,settled]⟩

section
variable [DecidableEq ι]

def exec (s : State ν) : Instr ν → State ν
  | .store c value =>
      ⟨Function.update s.cells c (value s.cells),Function.update s.since c (s.since c ++ [value s.cells])⟩
  | .persist cs => ⟨s.cells,fun c => if c ∈ cs then [s.cells c] else s.since c⟩

def execs (s : State ν) (is : List (Instr ν)) : State ν := is.foldl exec s

variable {s : State ν} {m m' : Image ν}

@[simp] theorem execsNil : execs s [] = s := rfl
@[simp] theorem execsCons (i : Instr ν) (is : List (Instr ν)) : execs s (i::is) = execs (exec s i) is := rfl

theorem crashPersist {cs : List ι} : Crash (exec s (.persist cs)) m ↔
    ∀ c, if c ∈ cs then m c = s.cells c else m c ∈ s.since c := by
  refine forall_congr' fun c => ?_
  by_cases mem : c ∈ cs <;> simp [exec,mem]

theorem crashStore {c : ι} {value : Image ν → ν c} : Crash (exec s (.store c value)) m ↔
    (m c ∈ s.since c ∨ m c = value s.cells) ∧ ∀ d, d ≠ c → m d ∈ s.since d := by
  constructor
  · intro crash
    refine ⟨by simpa [exec] using crash c,fun d other => ?_⟩
    simpa [exec,Function.update_of_ne other] using crash d
  · rintro ⟨here,rest⟩ d
    by_cases same : d = c
    · subst same
      simpa [exec] using here
    · simpa [exec,Function.update_of_ne same] using rest d same

theorem crashExec (i : Instr ν) (here : Crash s s.cells) : Crash (exec s i) (exec s i).cells := by
  cases i with
  | store c value =>
    refine crashStore.mpr ⟨.inr (Function.update_self ..),fun d other => ?_⟩
    rw [show (exec s (.store c value)).cells d = s.cells d from Function.update_of_ne other _ _]
    exact here d
  | persist cs =>
    refine crashPersist.mpr fun c => ?_
    split
    · rfl
    · exact here c

/- What is read back is one of the images. -/
theorem crashCells (m : Image ν) (is : List (Instr ν)) :
    Crash (execs (settled m) is) (execs (settled m) is).cells := by
  suffices keep : ∀ s : State ν, Crash s s.cells → Crash (execs s is) (execs s is).cells from
    keep _ (crashSettled.mpr rfl)
  induction is with
  | nil => exact fun _ here => here
  | cons i is ih => exact fun s here => ih _ (crashExec i here)

theorem execCell {c : ι} {i : Instr ν} (untouched : ¬i.stores c) : (exec s i).cells c = s.cells c := by
  cases i with
  | store d value => exact Function.update_of_ne (Ne.symm untouched) _ _
  | persist cs => rfl

theorem execsSince {c : ι} {is : List (Instr ν)} (untouched : ∀ i ∈ is, ¬i.stores c)
    (on : s.since c = [s.cells c]) : (execs s is).since c = [s.cells c] := by
  induction is generalizing s with
  | nil => exact on
  | cons i is ih =>
    have here : ¬i.stores c := untouched i List.mem_cons_self
    rw [execsCons,ih (fun j mem => untouched j (List.mem_cons_of_mem i mem)),execCell here]
    cases i with
    | store d value =>
      rw [execCell here]
      exact (Function.update_of_ne (Ne.symm here) _ _).trans on
    | persist cs =>
      by_cases mem : c ∈ cs <;> simp [exec,mem,on]

/- What a crash after the first `k` instructions can leave. -/
def Cut (m : Image ν) (is : List (Instr ν)) (k : Nat) (m' : Image ν) : Prop :=
  Crash (execs (settled m) (is.take k)) m'

theorem cutCells (m : Image ν) (is : List (Instr ν)) (k : Nat) :
    Cut m is k (execs (settled m) (is.take k)).cells := crashCells m _

/- A store takes no image away. -/
theorem cutStore {c : ι} {value : Image ν → ν c} {is : List (Instr ν)} {k : Nat}
    (next : is[k]? = some (.store c value)) (cut : Cut m is k m') : Cut m is (k+1) m' := by
  unfold Cut
  rw [List.take_add_one,next,execs,List.foldl_append]
  exact crashStore.mpr ⟨.inl (cut c),fun d _ => cut d⟩

theorem cutUntouched {c : ι} {is : List (Instr ν)} {k : Nat} (untouched : ∀ i ∈ is, ¬i.stores c)
    (cut : Cut m is k m') : m' c = m c := by
  have mem := cut c
  rw [execsSince (fun i here => untouched i (List.mem_of_mem_take here)) rfl] at mem
  exact List.mem_singleton.mp mem

end

end MmRegression.PersistentMemory
