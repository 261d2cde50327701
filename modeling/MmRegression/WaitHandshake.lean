import MmRegression.Machine

/-! `pprintf_wait` and `pprintf_wait_func` of `test_core/lib/include.h`, with a
controller that answers every wait message by one SIGUSR1. The program, the
controller and the kernel each take one step at a time, in any order; a standard
signal that is already pending is not queued twice. -/
namespace MmRegression.WaitHandshake

inductive Body where
  | spin | func | usleep
  deriving DecidableEq, Repr

inductive Message where
  | wait | other
  deriving DecidableEq, Repr

/-- Where the program is. `written` is the 10 ms delay at the end of `pprintf`, `leaving`
the way from the loop to the second `sigaction`. -/
inductive Pc where
  | outside | flagSet | installed | written | polling | inBody | leaving
  deriving DecidableEq, Repr

structure State where
  pc : Pc
  body : Body
  flag : Bool
  handler : Bool
  pipe : List Message
  owed : Nat
  pending : Bool
  killed : Bool
  entered : Nat
  left : Nat
  sent : Nat
  delivered : Nat
  deriving DecidableEq, Repr

def initial : State where
  pc := .outside
  body := .spin
  flag := false
  handler := false
  pipe := []
  owed := 0
  pending := false
  killed := false
  entered := 0
  left := 0
  sent := 0
  delivered := 0

inductive Act where
  | setFlag (body : Body)
  | install
  | write
  | wake
  | poll
  | bodyEnds
  | restore
  | say
  | read
  | kill
  | deliver
  deriving DecidableEq, Repr

def State.at (s : State) (pc : Pc) (t : State) : Option State :=
  if s.pc = pc ∧ s.killed = false then some t else none

def step (s : State) : Act → Option State
  | .setFlag body =>
      s.at .outside { s with pc := .flagSet, body := body, flag := true, entered := s.entered + 1 }
  | .install => s.at .flagSet { s with pc := .installed, handler := true }
  | .write => s.at .installed { s with pc := .written, pipe := s.pipe ++ [.wait] }
  | .wake => s.at .written { s with pc := .polling }
  | .poll => s.at .polling { s with pc := if s.flag then .inBody else .leaving }
  | .bodyEnds => s.at .inBody { s with pc := .polling }
  | .restore => s.at .leaving { s with pc := .outside, handler := false, left := s.left + 1 }
  -- Any other message, between two waits or from the function in the loop.
  | .say => if s.pc = .outside ∨ s.pc = .inBody ∧ s.body = .func then
      s.at s.pc { s with pipe := s.pipe ++ [.other] } else none
  | .read => match s.pipe with
      | [] => none
      | .wait::rest => some { s with pipe := rest, owed := s.owed + 1 }
      | .other::rest => some { s with pipe := rest }
  | .kill => if 0 < s.owed then
      some { s with owed := s.owed - 1, pending := true, sent := s.sent + 1 } else none
  | .deliver => if s.pending = true ∧ s.killed = false then
      some (if s.handler then { s with pending := false, delivered := s.delivered + 1, flag := false }
        else { s with pending := false, delivered := s.delivered + 1, killed := true }) else none

theorem atSome {s t u : State} {pc : Pc} (h : s.at pc t = some u) : s.pc = pc ∧ u = t := by
  unfold State.at at h
  split at h <;> try contradiction
  rename_i here
  exact ⟨here.1,(Option.some.inj h).symm⟩

def State.unanswered (s : State) : Nat := s.pipe.count .wait + s.owed

def Local (s : State) : Prop :=
  match s.pc with
  | .outside => s.entered = s.left ∧ s.delivered = s.left ∧ s.pending = false ∧ s.unanswered = 0
  | .flagSet => s.entered = s.left + 1 ∧ s.delivered = s.left ∧ s.pending = false ∧
      s.unanswered = 0 ∧ s.flag = true
  | .installed => s.entered = s.left + 1 ∧ s.delivered = s.left ∧ s.pending = false ∧
      s.unanswered = 0 ∧ s.flag = true ∧ s.handler = true
  | .leaving => s.entered = s.left + 1 ∧ s.delivered = s.left + 1 ∧ s.pending = false ∧
      s.unanswered = 0 ∧ s.flag = false ∧ s.handler = true
  | _ => s.entered = s.left + 1 ∧ s.handler = true ∧
      s.delivered + s.pending.toNat + s.unanswered = s.left + 1 ∧
      (s.flag = true ↔ s.delivered = s.left) ∧ (s.flag = false ↔ s.delivered = s.left + 1)

def Inv (s : State) : Prop :=
  s.killed = false ∧ s.sent = s.delivered + s.pending.toNat ∧ Local s

theorem invInitial : Inv initial := ⟨rfl,rfl,rfl,rfl,rfl,rfl⟩

/- One lemma for each party: the program, the controller, the kernel. -/

theorem programKeeps {s t : State} {a : Act} (h : Inv s)
    (mine : a ≠ .read ∧ a ≠ .kill ∧ a ≠ .deliver) (moved : step s a = some t) : Inv t := by
  obtain ⟨alive,sent,here⟩ := h
  cases a with
  | setFlag body =>
    obtain ⟨pc,rfl⟩ := atSome moved
    simp only [Local,pc] at here
    obtain ⟨entered,delivered,pending,none⟩ := here
    exact ⟨alive,sent,by simp [entered],delivered,pending,none,rfl⟩
  | install =>
    obtain ⟨pc,rfl⟩ := atSome moved
    simp only [Local,pc] at here
    obtain ⟨entered,delivered,pending,none,flag⟩ := here
    exact ⟨alive,sent,entered,delivered,pending,none,flag,rfl⟩
  | write =>
    obtain ⟨pc,rfl⟩ := atSome moved
    simp only [Local,pc] at here
    obtain ⟨entered,delivered,pending,none,flag,handler⟩ := here
    refine ⟨alive,sent,entered,handler,?_,by simp [flag,delivered],by simp [flag,delivered]⟩
    simp only [State.unanswered] at none
    simp [State.unanswered,pending]
    omega
  | wake =>
    obtain ⟨pc,rfl⟩ := atSome moved
    simp only [Local,pc] at here
    exact ⟨alive,sent,here⟩
  | poll =>
    obtain ⟨pc,rfl⟩ := atSome moved
    simp only [Local,pc] at here
    refine ⟨alive,sent,?_⟩
    by_cases flag : s.flag = true
    · rw [if_pos flag]
      exact here
    -- The loop ends only after a delivery, so nothing is in flight any more.
    · have zero : s.flag = false := by simpa using flag
      obtain ⟨entered,handler,total,_,only⟩ := here
      have delivered := only.mp zero
      have none : s.pending.toNat = 0 ∧ s.unanswered = 0 := by omega
      rw [if_neg flag]
      exact ⟨entered,delivered,by simpa using none.1,none.2,zero,handler⟩
  | bodyEnds =>
    obtain ⟨pc,rfl⟩ := atSome moved
    simp only [Local,pc] at here
    exact ⟨alive,sent,here⟩
  | restore =>
    obtain ⟨pc,rfl⟩ := atSome moved
    simp only [Local,pc] at here
    obtain ⟨entered,delivered,pending,none,_,_⟩ := here
    exact ⟨alive,sent,entered,delivered,pending,none⟩
  | say =>
    simp only [step] at moved
    split at moved <;> try contradiction
    obtain ⟨_,rfl⟩ := atSome moved
    have same : (s.pipe ++ [Message.other]).count .wait = s.pipe.count .wait := by simp
    refine ⟨alive,sent,?_⟩
    simp only [Local,State.unanswered,same] at here ⊢
    exact here
  | read => exact absurd rfl mine.1
  | kill => exact absurd rfl mine.2.1
  | deliver => exact absurd rfl mine.2.2

theorem localMoves {s : State} {pipe : List Message} {owed : Nat}
    (same : pipe.count .wait + owed = s.unanswered) (here : Local s) :
    Local { s with pipe := pipe, owed := owed } := by
  have eq : State.unanswered { s with pipe := pipe, owed := owed } = s.unanswered := same
  simp only [Local,eq] at here ⊢
  exact here

theorem inFlight {s : State} (h : Inv s) (some : s.pending = true ∨ 0 < s.unanswered) :
    (s.pc = .written ∨ s.pc = .polling ∨ s.pc = .inBody) ∧ s.handler = true ∧ s.entered = s.left + 1 ∧
      s.delivered + s.pending.toNat + s.unanswered = s.left + 1 ∧ s.delivered = s.left := by
  obtain ⟨_,_,here⟩ := h
  have positive : 1 ≤ s.pending.toNat + s.unanswered := by
    rcases some with p | u
    · simp [p]
    · omega
  have middle : ∀ {q}, s.pc = q → (s.entered = s.left + 1 ∧ s.handler = true ∧
      s.delivered + s.pending.toNat + s.unanswered = s.left + 1 ∧
      (s.flag = true ↔ s.delivered = s.left) ∧ (s.flag = false ↔ s.delivered = s.left + 1)) →
      s.handler = true ∧ s.entered = s.left + 1 ∧
      s.delivered + s.pending.toNat + s.unanswered = s.left + 1 ∧ s.delivered = s.left := by
    rintro q _ ⟨entered,handler,total,on,off⟩
    refine ⟨handler,entered,total,?_⟩
    cases flag : s.flag with
    | true => exact on.mp flag
    | false => have := off.mp flag; omega
  cases pc : s.pc with
  | outside => simp only [Local,pc] at here; simp [here.2.2.1,here.2.2.2] at positive
  | flagSet => simp only [Local,pc] at here; simp [here.2.2.1,here.2.2.2.1] at positive
  | installed => simp only [Local,pc] at here; simp [here.2.2.1,here.2.2.2.1] at positive
  | leaving => simp only [Local,pc] at here; simp [here.2.2.1,here.2.2.2.1] at positive
  | written => simp only [Local,pc] at here; exact ⟨.inl rfl,middle pc here⟩
  | polling => simp only [Local,pc] at here; exact ⟨.inr (.inl rfl),middle pc here⟩
  | inBody => simp only [Local,pc] at here; exact ⟨.inr (.inr rfl),middle pc here⟩

theorem localMiddle {s : State} (pc : s.pc = .written ∨ s.pc = .polling ∨ s.pc = .inBody)
    (entered : s.entered = s.left + 1) (handler : s.handler = true)
    (total : s.delivered + s.pending.toNat + s.unanswered = s.left + 1)
    (on : s.flag = true ↔ s.delivered = s.left) (off : s.flag = false ↔ s.delivered = s.left + 1) :
    Local s := by
  rcases pc with pc | pc | pc <;> simp only [Local,pc] <;> exact ⟨entered,handler,total,on,off⟩

theorem controllerKeeps {s t : State} {a : Act} (h : Inv s) (mine : a = .read ∨ a = .kill)
    (moved : step s a = some t) : Inv t := by
  rcases mine with rfl | rfl
  · simp only [step] at moved
    split at moved
    · contradiction
    · rename_i rest pipe
      cases Option.some.inj moved
      refine ⟨h.1,h.2.1,localMoves ?_ h.2.2⟩
      simp [State.unanswered,pipe]
      omega
    · rename_i rest pipe
      cases Option.some.inj moved
      have same : rest.count .wait + s.owed = s.unanswered := by simp [State.unanswered,pipe]
      exact ⟨h.1,h.2.1,localMoves same h.2.2⟩
  · simp only [step] at moved
    split at moved <;> try contradiction
    rename_i owed
    cases Option.some.inj moved
    have some : 0 < s.unanswered := by simp only [State.unanswered]; omega
    obtain ⟨pc,handler,entered,total,delivered⟩ := inFlight h (.inr some)
    have none : s.pending.toNat = 0 := by omega
    have flag := h.2.2
    refine ⟨h.1,?_,localMiddle pc entered handler ?_ ?_ ?_⟩
    · have := h.2.1; simp only [Bool.toNat_true]; omega
    · simp only [State.unanswered,Bool.toNat_true] at total ⊢; omega
    · rcases pc with pc | pc | pc <;> simp only [Local,pc] at flag <;> exact flag.2.2.2.1
    · rcases pc with pc | pc | pc <;> simp only [Local,pc] at flag <;> exact flag.2.2.2.2

theorem kernelKeeps {s t : State} (h : Inv s) (moved : step s .deliver = some t) : Inv t := by
  simp only [step] at moved
  split at moved <;> try contradiction
  rename_i pending
  obtain ⟨pc,handler,entered,total,delivered⟩ := inFlight h (.inl pending.1)
  rw [if_pos handler] at moved
  cases Option.some.inj moved
  have one : s.pending.toNat = 1 := by simp [pending.1]
  refine ⟨h.1,?_,localMiddle pc entered handler ?_ ?_ ?_⟩
  · have := h.2.1; simp only [Bool.toNat_false]; omega
  · simp only [State.unanswered,Bool.toNat_false] at total ⊢; omega
  · simp [delivered]
  · simp [delivered]

theorem invStep {s t : State} {a : Act} (h : Inv s) (moved : step s a = some t) : Inv t := by
  by_cases reads : a = .read
  · exact controllerKeeps h (.inl reads) moved
  by_cases kills : a = .kill
  · exact controllerKeeps h (.inr kills) moved
  by_cases delivers : a = .deliver
  · subst delivers; exact kernelKeeps h moved
  exact programKeeps h ⟨reads,kills,delivers⟩ moved

/-- In every state of every schedule: no wait is left before its signal was sent, the loop of
a wait ends only after its signal was delivered, from that delivery on the flag is 0 until
the wait is left, and no signal meets a program without a handler. -/
theorem waitHandshake {acts : List Act} {s : State} (ran : Machine.run step initial acts = some s) :
    s.left ≤ s.sent ∧
    (s.pc = .leaving → s.entered ≤ s.sent ∧ s.entered ≤ s.delivered) ∧
    (s.pc ≠ .outside → s.entered = s.left + 1 ∧ (s.entered ≤ s.delivered → s.flag = false)) ∧
    s.killed = false := by
  have h : Inv s := Machine.runInvariant invStep invInitial ran
  obtain ⟨alive,sent,here⟩ := h
  cases pc : s.pc with
  | outside => simp only [Local,pc] at here; refine ⟨by omega,by simp,by simp,alive⟩
  | flagSet =>
    simp only [Local,pc] at here
    exact ⟨by omega,by simp,fun _ => ⟨here.1,by omega⟩,alive⟩
  | installed =>
    simp only [Local,pc] at here
    exact ⟨by omega,by simp,fun _ => ⟨here.1,by omega⟩,alive⟩
  | leaving =>
    simp only [Local,pc] at here
    exact ⟨by omega,fun _ => by omega,fun _ => ⟨here.1,fun _ => here.2.2.2.2.1⟩,alive⟩
  | _ =>
    simp only [Local,pc] at here
    obtain ⟨entered,_,_,on,off⟩ := here
    have low : s.left ≤ s.delivered := by
      cases flag : s.flag with
      | true => have := on.mp flag; omega
      | false => have := off.mp flag; omega
    refine ⟨by omega,by simp,fun _ => ⟨entered,fun late => ?_⟩,alive⟩
    by_contra set
    have := on.mp (by simpa using set)
    omega

def twoWaits : List Act :=
  [.setFlag .spin,.install,.write,.read,.kill,.deliver,.wake,.poll,.restore,
   .say,.setFlag .func,.install,.write,.wake,.poll,.say,.read,.read,.kill,.deliver,.bodyEnds,.poll]

def afterTwoWaits : State :=
  ⟨.leaving,.func,false,true,[.other],0,false,false,2,1,2,2⟩

theorem waitHandshakeTwice : Machine.run step initial twoWaits = some afterTwoWaits ∧
    afterTwoWaits.left ≤ afterTwoWaits.sent ∧
    (afterTwoWaits.pc = .leaving → afterTwoWaits.entered ≤ afterTwoWaits.sent ∧
      afterTwoWaits.entered ≤ afterTwoWaits.delivered) ∧
    (afterTwoWaits.pc ≠ .outside → afterTwoWaits.entered = afterTwoWaits.left + 1 ∧
      (afterTwoWaits.entered ≤ afterTwoWaits.delivered → afterTwoWaits.flag = false)) ∧
    afterTwoWaits.killed = false :=
  have ran : Machine.run step initial twoWaits = some afterTwoWaits := by decide
  ⟨ran,waitHandshake ran⟩

end MmRegression.WaitHandshake
