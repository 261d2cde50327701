import MmRegression.Machine
import MmRegression.Shell

/-! The wait points of `lib/hugetlb_1gb.c`. A wait publishes its message with
`pprintf` and then calls `pause()`, with nothing between them that looks at the
`flag` the handler clears. -/
namespace MmRegression.PauseHandshake

/-- One operation of the command line. A wait is absent, a message, or a sleep of the given
microseconds (`wait_before=<us>`); `ret` is what the operation returns. -/
structure OpControl where
  name : Text
  tag : Option Text
  waitBefore : Option (Option Nat)
  waitAfter : Option (Option Nat)
  ret : Text
  deriving DecidableEq, Repr

inductive Instr where
  | write (line : Text) (wait : Bool)
  | sleep
  | work
  | pause
  deriving DecidableEq, Repr

def pprintf (line : Text) : List Instr := [.write line false,.sleep]
def waitPoint (line : Text) : List Instr := [.write line true,.sleep,.pause]

def Dprintf (verbose : Bool) (line : Text) : List Instr := if verbose then pprintf line else []

def named (name : Text) (tag : Option Text) : Text :=
  match tag with
  | some t => name ++ ('_'::t)
  | none => name

def doWait (verbose : Bool) (word : Text) (opc : OpControl) : Option (Option Nat) → List Instr
  | none => []
  | some (some us) =>
      Dprintf verbose ("wait ".toList ++ (digits us ++ (" usecs ".toList ++
        (word ++ named opc.name opc.tag)))) ++ [.sleep]
  | some none => waitPoint (word ++ named opc.name opc.tag)

def doWaitBefore (verbose : Bool) (opc : OpControl) : List Instr :=
  doWait verbose "before_".toList opc opc.waitBefore

def doWaitAfter (verbose : Bool) (opc : OpControl) : List Instr :=
  doWait verbose "after_".toList opc opc.waitAfter

def operation (opc : OpControl) : List Instr :=
  if opc.name = "pause".toList then waitPoint (named opc.name opc.tag) else [.work]

def mainStep (verbose : Bool) (opc : OpControl) : List Instr :=
  doWaitBefore verbose opc ++ (operation opc ++
    (pprintf (named opc.name opc.tag ++ (" returned ".toList ++ opc.ret)) ++ doWaitAfter verbose opc))

def main (verbose : Bool) (ops : List OpControl) : List Instr := ops.flatMap (mainStep verbose)

structure State where
  todo : List Instr
  blocked : Bool
  flag : Bool
  pipe : List (Text × Bool)
  owed : Nat
  pending : Bool
  waits : Nat
  passed : Nat
  sent : Nat
  delivered : Nat
  deriving DecidableEq, Repr

def initial (verbose : Bool) (ops : List OpControl) : State :=
  ⟨main verbose ops,false,true,[],0,false,0,0,0,0⟩

inductive Act where
  | program | read | kill | deliver
  deriving DecidableEq, Repr

def step (s : State) : Act → Option State
  | .program => if s.blocked then none else
      match s.todo with
      | [] => none
      | .write line wait::rest => some { s with
          todo := rest, pipe := s.pipe ++ [(line,wait)], waits := s.waits + wait.toNat }
      | .pause::rest => some { s with todo := rest, blocked := true }
      | .sleep::rest => some { s with todo := rest }
      | .work::rest => some { s with todo := rest }
  | .read => match s.pipe with
      | [] => none
      | (_,wait)::rest => some { s with pipe := rest, owed := s.owed + wait.toNat }
  | .kill => if 0 < s.owed then
      some { s with owed := s.owed - 1, pending := true, sent := s.sent + 1 } else none
  -- `sig_handle_flag`; a blocked `pause()` returns when the handler does.
  | .deliver => if s.pending then
      some { s with
        pending := false, delivered := s.delivered + 1, flag := false
        pipe := s.pipe ++ [("Received SIGUSR1".toList,false)]
        blocked := false, passed := s.passed + s.blocked.toNat } else none

def NoLostWakeup (s : State) : Prop := s.blocked = true → s.delivered < s.waits
instance (s : State) : Decidable (NoLostWakeup s) := by unfold NoLostWakeup; infer_instance

def InPause (s : State) (a : Act) : Prop := a = .deliver → s.blocked = true
instance (s : State) (a : Act) : Decidable (InPause s a) := by unfold InPause; infer_instance

inductive Shape : List Instr → Prop where
  | nil : Shape []
  | plain {line rest} (tail : Shape rest) : Shape (.write line false::rest)
  | sleep {rest} (tail : Shape rest) : Shape (.sleep::rest)
  | work {rest} (tail : Shape rest) : Shape (.work::rest)
  | wait {line rest} (tail : Shape rest) : Shape (.write line true::.sleep::.pause::rest)

theorem shapeAppend {a b : List Instr} (ha : Shape a) (hb : Shape b) : Shape (a ++ b) := by
  induction ha with
  | nil => exact hb
  | plain _ ih => exact .plain ih
  | sleep _ ih => exact .sleep ih
  | work _ ih => exact .work ih
  | wait _ ih => exact .wait ih

theorem shapePprintf (line : Text) : Shape (pprintf line) := .plain (.sleep .nil)

theorem shapeDoWait (verbose : Bool) (word : Text) (opc : OpControl) (w : Option (Option Nat)) :
    Shape (doWait verbose word opc w) := by
  match w with
  | none => exact .nil
  | some none => exact .wait .nil
  | some (some us) =>
    refine shapeAppend ?_ (.sleep .nil)
    cases verbose with
    | false => exact .nil
    | true => exact shapePprintf _

theorem shapeMain (verbose : Bool) (ops : List OpControl) : Shape (main verbose ops) := by
  induction ops with
  | nil => exact .nil
  | cons opc ops ih =>
    have body : Shape (operation opc) := by
      unfold operation
      split
      · exact .wait .nil
      · exact .work .nil
    have one : Shape (mainStep verbose opc) :=
      shapeAppend (shapeDoWait _ _ _ _) (shapeAppend body
        (shapeAppend (shapePprintf _) (shapeDoWait _ _ _ _)))
    exact shapeAppend one ih

inductive Place : State → Prop where
  | between {s} (shape : Shape s.todo) (free : s.blocked = false) (count : s.waits = s.passed) : Place s
  | blocked {s} (shape : Shape s.todo) (held : s.blocked = true) (count : s.waits = s.passed + 1) : Place s
  | window {s rest} (shape : Shape rest) (todo : s.todo = .sleep::.pause::rest ∨ s.todo = .pause::rest)
      (free : s.blocked = false) (count : s.waits = s.passed + 1) : Place s

def waitsIn (pipe : List (Text × Bool)) : Nat := pipe.countP (fun m => m.2)

structure Inv (s : State) : Prop where
  place : Place s
  counted : s.delivered = s.passed
  signals : s.delivered + s.pending.toNat ≤ s.sent
  messages : waitsIn s.pipe + s.owed + s.sent = s.waits

theorem waitsInAppend (pipe : List (Text × Bool)) (line : Text) (wait : Bool) :
    waitsIn (pipe ++ [(line,wait)]) = waitsIn pipe + wait.toNat := by
  cases wait <;> simp [waitsIn]

theorem programKeeps {s t : State} (h : Inv s) (moved : step s .program = some t) : Inv t := by
  obtain ⟨place,counted,signals,messages⟩ := h
  simp only [step] at moved
  split at moved <;> try contradiction
  rename_i free
  cases place with
  | blocked shape held count => exact absurd held free
  | between shape _ count =>
    cases todo : s.todo with
    | nil => simp [todo] at moved
    | cons i rest =>
      rw [todo] at shape moved
      cases shape with
      | plain tail =>
        cases Option.some.inj moved
        refine ⟨.between tail (by simpa using free) (by simpa using count),counted,signals,?_⟩
        rw [waitsInAppend]; simpa using messages
      | sleep tail =>
        cases Option.some.inj moved
        exact ⟨.between tail (by simpa using free) count,counted,signals,messages⟩
      | work tail =>
        cases Option.some.inj moved
        exact ⟨.between tail (by simpa using free) count,counted,signals,messages⟩
      | wait tail =>
        cases Option.some.inj moved
        refine ⟨.window tail (.inl rfl) (by simpa using free) (by simp [count]),counted,signals,?_⟩
        rw [waitsInAppend]
        simp only [Bool.toNat_true]
        omega
  | @window rest shape todo _ count =>
    rcases todo with todo | todo
    · rw [todo] at moved
      cases Option.some.inj moved
      exact ⟨.window shape (.inr rfl) (by simpa using free) count,counted,signals,messages⟩
    · rw [todo] at moved
      cases Option.some.inj moved
      exact ⟨.blocked shape rfl count,counted,signals,messages⟩

theorem placeOf {s t : State} (todo : t.todo = s.todo) (blocked : t.blocked = s.blocked)
    (waits : t.waits = s.waits) (passed : t.passed = s.passed) (place : Place s) : Place t := by
  cases place with
  | between shape free count => exact .between (todo ▸ shape) (blocked ▸ free) (by omega)
  | blocked shape held count => exact .blocked (todo ▸ shape) (blocked ▸ held) (by omega)
  | window shape at_todo free count =>
    exact .window shape (by rw [todo]; exact at_todo) (blocked ▸ free) (by omega)

theorem invStep {s t : State} {a : Act} (h : Inv s) (guard : InPause s a)
    (moved : step s a = some t) : Inv t := by
  cases a with
  | program => exact programKeeps h moved
  | read =>
    simp only [step] at moved
    split at moved
    · contradiction
    · rename_i line wait rest pipe
      cases Option.some.inj moved
      refine ⟨placeOf (s := s) rfl rfl rfl rfl h.place,h.counted,h.signals,?_⟩
      have := h.messages
      rw [pipe] at this
      cases wait <;> simp [waitsIn] at this ⊢ <;> omega
  | kill =>
    simp only [step] at moved
    split at moved <;> try contradiction
    cases Option.some.inj moved
    have bound : s.delivered ≤ s.sent := by have := h.signals; omega
    have := h.messages
    refine ⟨placeOf (s := s) rfl rfl rfl rfl h.place,h.counted,?_,?_⟩
    · simp only [Bool.toNat_true]; omega
    · simp only; omega
  | deliver =>
    have held := guard rfl
    simp only [step] at moved
    split at moved <;> try contradiction
    rename_i pending
    cases Option.some.inj moved
    have signals := h.signals
    rw [pending,Bool.toNat_true] at signals
    refine ⟨?_,?_,by simpa using signals,?_⟩
    · cases h.place with
      | between _ free _ => rw [held] at free; contradiction
      | window _ _ free _ => rw [held] at free; contradiction
      | blocked shape _ count => exact .between shape rfl (by simpa [held] using count)
    · simpa [held] using h.counted
    · rw [waitsInAppend]; simpa using h.messages

theorem invInitial (verbose : Bool) (ops : List OpControl) : Inv (initial verbose ops) :=
  ⟨.between (shapeMain verbose ops) rfl rfl,rfl,Nat.zero_le _,rfl⟩

theorem invNoLostWakeup {s : State} (h : Inv s) : NoLostWakeup s := by
  intro held
  cases h.place with
  | between _ free _ => rw [held] at free; contradiction
  | window _ _ free _ => rw [held] at free; contradiction
  | blocked _ _ count => have := h.counted; omega

theorem windowLoses {s : State} (h : Inv s) (pending : s.pending = true) (free : s.blocked = false) :
    ∃ acts t, Machine.run step s (.deliver::acts) = some t ∧ ¬ NoLostWakeup t := by
  have behind : s.passed < s.waits := by
    have signals := h.signals
    have messages := h.messages
    have counted := h.counted
    rw [pending,Bool.toNat_true] at signals
    omega
  cases h.place with
  | between _ _ count => omega
  | blocked _ held _ => rw [free] at held; contradiction
  | @window rest shape todo _ count =>
    let t : State := { s with
      todo := rest, blocked := true, pending := false, flag := false, delivered := s.delivered + 1
      pipe := s.pipe ++ [("Received SIGUSR1".toList,false)] }
    have lost : ¬ NoLostWakeup t := by
      intro ok
      have late : s.delivered + 1 < s.waits := ok rfl
      have := h.counted
      omega
    rcases todo with todo | todo
    · exact ⟨[.program,.program],t,by simp [Machine.run,step,pending,free,todo,t],lost⟩
    · exact ⟨[.program],t,by simp [Machine.run,step,pending,free,todo,t],lost⟩

/-- In every schedule whose signals all come while the program is blocked in `pause()`, no
wakeup is lost and every answered wait is passed; and a schedule that has met this so far
loses one as soon as a signal comes outside `pause()`. -/
theorem noLostWakeupInPause {verbose : Bool} {ops : List OpControl} {acts : List Act} {s : State}
    (along : Machine.Along step InPause (initial verbose ops) acts)
    (ran : Machine.run step (initial verbose ops) acts = some s) :
    NoLostWakeup s ∧ s.passed = s.delivered ∧
    (s.pending = true → s.blocked = false →
      ∃ more t, Machine.run step s (.deliver::more) = some t ∧ ¬ NoLostWakeup t) := by
  have h : Inv s := Machine.runKeeps Inv invStep (invInitial verbose ops) along ran
  exact ⟨invNoLostWakeup h,h.counted.symm,windowLoses h⟩

def pauseOp : OpControl := ⟨"pause".toList,some "wait_injection".toList,none,none,"0".toList⟩

def slowController : List Act := [.program,.program,.program,.read,.kill,.deliver]

def afterSlowController : State :=
  ⟨pprintf "pause_wait_injection returned 0".toList,false,false,[("Received SIGUSR1".toList,false)],
    0,false,1,1,1,1⟩

theorem slowControllerLosesNothing :
    Machine.run step (initial false [pauseOp]) slowController = some afterSlowController ∧
    NoLostWakeup afterSlowController ∧ afterSlowController.passed = afterSlowController.delivered := by
  have along : Machine.Along step InPause (initial false [pauseOp]) slowController := by decide
  have ran : Machine.run step (initial false [pauseOp]) slowController = some afterSlowController := by decide
  obtain ⟨woken,passed,_⟩ := noLostWakeupInPause along ran
  exact ⟨ran,woken,passed⟩

def fastController : List Act := [.program,.read,.kill,.deliver,.program,.program]

theorem fastControllerLosesWakeup :
    ∃ s, Machine.run step (initial false [pauseOp]) fastController = some s ∧ ¬ NoLostWakeup s :=
  ⟨_,rfl,by decide⟩

end MmRegression.PauseHandshake
