import MmRegression.Machine
import MmRegression.Shell

/-! The loop of `__do_test` between a test program and `run_controller`. The program
writes whole lines to the pipe and may exit at any moment; fd 11 keeps the pipe
open, so what was written stays buffered. The loop asks whether the program is
alive before it reads. -/
namespace MmRegression.PipeLoop

def isBlank (c : Char) : Bool := c == ' ' || c == '\t'

/-- `read` without `-r`: a backslash is dropped and protects the next character. The flag says
that the line ends in a bare backslash, so that the next line continues it. -/
def unescape : Text → List (Char × Bool) × Bool
  | [] => ([],false)
  | ['\\'] => ([],true)
  | '\\'::c::cs => ((c,true)::(unescape cs).1,(unescape cs).2)
  | c::cs => ((c,false)::(unescape cs).1,(unescape cs).2)

def blankEnd (p : Char × Bool) : Bool := isBlank p.1 && !p.2

def trim (cs : List (Char × Bool)) : Text :=
  (((cs.dropWhile blankEnd).reverse.dropWhile blankEnd).reverse).map Prod.fst

def readLine : List (Char × Bool) → List Text → Option (Text × List Text)
  | _, [] => none
  | acc, l::rest =>
      let r := unescape l
      if r.2 then readLine (acc ++ r.1) rest else some (trim (acc ++ r.1),rest)

inductive Code where
  | killed | timeout | stopped
  deriving DecidableEq, Repr

inductive Pc where
  | top | reading | controlling | timedOut
  | ended (code : Code)
  deriving DecidableEq, Repr

structure State where
  alive : Bool
  pipe : List Text
  written : List Text
  pc : Pc
  passed : List Text
  deriving DecidableEq, Repr

def initial : State := ⟨true,[],[],.top,[]⟩

inductive Act where
  | write (line : Text)
  | exit
  | check
  | read
  | control (ret : Nat)
  | expire
  | recheck
  deriving DecidableEq, Repr

def step (s : State) : Act → Option State
  | .write line => if s.alive then
      some { s with pipe := s.pipe ++ [line], written := s.written ++ [line] } else none
  | .exit => if s.alive then some { s with alive := false } else none
  | .check => if s.pc = .top then
      some { s with pc := if s.alive then .reading else .ended .killed } else none
  | .read => if s.pc = .reading then
      match readLine [] s.pipe with
      | some (line,rest) => some { s with pipe := rest, pc := .controlling, passed := s.passed ++ [line] }
      | none => none
      else none
  | .control ret => if s.pc = .controlling then
      some { s with pc := if ret = 0 then .ended .stopped else .top } else none
  -- PIPETIMEOUT runs out only with no whole line to return; a begun line is used up.
  | .expire => if s.pc = .reading ∧ readLine [] s.pipe = none then
      some { s with pipe := [], pc := .timedOut } else none
  | .recheck => if s.pc = .timedOut then
      some { s with pc := .ended (if s.alive then .timeout else .killed) } else none

def AllPassed (s : State) : Prop := s.pc = .ended .killed → s.passed = s.written
instance (s : State) : Decidable (AllPassed s) := by unfold AllPassed; infer_instance

def Plain (l : Text) : Prop :=
  (∀ c ∈ l, c ≠ '\\') ∧ (∀ c, l.head? = some c → isBlank c = false) ∧
    ∀ c, l.getLast? = some c → isBlank c = false

instance (l : Text) : Decidable (Plain l) :=
  decidable_of_iff (l.all (· != '\\') = true ∧ l.head?.all (fun c => !isBlank c) = true ∧
    l.getLast?.all (fun c => !isBlank c) = true) (by simp [Plain,Option.all_eq_true])

def Drained (s : State) : Act → Prop
  | .write line => Plain line
  | .check => s.alive = true ∨ s.pipe = []
  | .recheck => s.alive = true ∨ s.pipe = []
  | _ => True

instance (s : State) : ∀ a, Decidable (Drained s a)
  | .write line => inferInstanceAs (Decidable (Plain line))
  | .check => inferInstanceAs (Decidable (s.alive = true ∨ s.pipe = []))
  | .recheck => inferInstanceAs (Decidable (s.alive = true ∨ s.pipe = []))
  | .exit => isTrue trivial
  | .read => isTrue trivial
  | .control _ => isTrue trivial
  | .expire => isTrue trivial

theorem unescapePlain {l : Text} (clean : ∀ c ∈ l, c ≠ '\\') :
    unescape l = (l.map (fun c => (c,false)),false) := by
  induction l with
  | nil => rfl
  | cons c cs ih =>
    have head := clean c (by simp)
    have tail := ih (fun d hd => clean d (by simp [hd]))
    rw [unescape]
    · simp [tail]
    · rintro rfl; exact absurd rfl head
    · rintro d ds rfl; exact absurd rfl head

theorem dropBlankPlain {l : Text} (clean : ∀ c, l.head? = some c → isBlank c = false) :
    (l.map (fun c => (c,false))).dropWhile blankEnd = l.map (fun c => (c,false)) := by
  cases l with
  | nil => rfl
  | cons c cs => simp [blankEnd,clean c rfl]

theorem readPlain {l : Text} (plain : Plain l) (rest : List Text) :
    readLine [] (l::rest) = some (l,rest) := by
  obtain ⟨clean,first,last⟩ := plain
  have back : (l.map (fun c => (c,false))).reverse = l.reverse.map (fun c => (c,false)) := by simp
  have trimmed : trim (l.map (fun c => (c,false))) = l := by
    rw [trim,dropBlankPlain first,back,dropBlankPlain (by simpa using last)]
    simp [Function.comp_def]
  simp [readLine,unescapePlain clean,trimmed]

structure Inv (s : State) : Prop where
  plain : ∀ l ∈ s.pipe, Plain l
  order : s.passed ++ s.pipe = s.written
  drained : s.pc = .ended .killed → s.pipe = [] ∧ s.alive = false

theorem writeInv {s : State} {line : Text} (h : Inv s) (plain : Plain line) (alive : s.alive = true) :
    Inv { s with pipe := s.pipe ++ [line], written := s.written ++ [line] } where
  plain := by
    intro l hl
    rcases List.mem_append.mp hl with old | new
    · exact h.plain l old
    · rw [List.mem_singleton.mp new]
      exact plain
  order := by rw [← List.append_assoc,h.order]
  drained := by
    intro ended
    have dead := (h.drained ended).2
    rw [alive] at dead
    contradiction

/- A look at the program ends the loop only where it finds it dead, and then the pipe is empty. -/
theorem lookInv {s : State} (h : Inv s) (guard : s.alive = true ∨ s.pipe = []) {pc : Pc}
    (dead : pc = .ended .killed → s.alive = false) : Inv { s with pc := pc } := by
  refine ⟨h.plain,h.order,fun ended => ⟨guard.resolve_left ?_,dead ended⟩⟩
  rw [dead ended]
  exact Bool.false_ne_true

theorem pipeEmpty {pipe : List Text} (plain : ∀ l ∈ pipe, Plain l) (nothing : readLine [] pipe = none) : pipe = [] := by
  cases pipe with
  | nil => rfl
  | cons l rest =>
    rw [readPlain (plain l List.mem_cons_self) rest] at nothing
    contradiction

theorem readInv {s : State} {line : Text} {rest : List Text} (h : Inv s) (found : readLine [] s.pipe = some (line,rest)) :
    Inv { s with pipe := rest, pc := .controlling, passed := s.passed ++ [line] } := by
  obtain ⟨plain,order,-⟩ := h
  cases pipe : s.pipe with
  | nil => simp [pipe,readLine] at found
  | cons l more =>
    rw [pipe] at plain order found
    rw [readPlain (plain l List.mem_cons_self) more] at found
    obtain ⟨rfl,rfl⟩ := Prod.mk.inj (Option.some.inj found)
    exact ⟨fun m mem => plain m (List.mem_cons_of_mem l mem),by simpa using order,by simp⟩

theorem invStep {s t : State} {a : Act} (h : Inv s) (guard : Drained s a)
    (moved : step s a = some t) : Inv t := by
  cases a with
  | write line =>
    simp only [step] at moved
    split at moved <;> try contradiction
    cases Option.some.inj moved
    exact writeInv h guard ‹_›
  | exit =>
    simp only [step] at moved
    split at moved <;> try contradiction
    cases Option.some.inj moved
    exact ⟨h.plain,h.order,fun ended => ⟨(h.drained ended).1,rfl⟩⟩
  | check =>
    simp only [step] at moved
    split at moved <;> try contradiction
    cases Option.some.inj moved
    exact lookInv h guard (by cases s.alive <;> simp)
  | read =>
    simp only [step] at moved
    split at moved <;> try contradiction
    split at moved <;> try contradiction
    cases Option.some.inj moved
    exact readInv h ‹_›
  | control ret =>
    simp only [step] at moved
    split at moved <;> try contradiction
    cases Option.some.inj moved
    refine ⟨h.plain,h.order,fun ended => ?_⟩
    by_cases zero : ret = 0 <;> simp [zero] at ended
  | expire =>
    simp only [step] at moved
    split at moved <;> try contradiction
    rename_i waits
    cases Option.some.inj moved
    have order := h.order
    rw [pipeEmpty h.plain waits.2] at order
    exact ⟨by simp,order,by simp⟩
  | recheck =>
    simp only [step] at moved
    split at moved <;> try contradiction
    cases Option.some.inj moved
    exact lookInv h guard (by cases s.alive <;> simp)

theorem invInitial : Inv initial := ⟨by simp [initial],rfl,by simp [initial]⟩

theorem undrainedLoses {s : State} (h : Inv s) (dead : s.alive = false) (left : s.pipe ≠ [])
    (looks : s.pc = .top ∨ s.pc = .timedOut) :
    ∃ a t, (a = .check ∨ a = .recheck) ∧ step s a = some t ∧ ¬ AllPassed t := by
  have differ : s.passed ≠ s.written := by
    intro same
    rw [← h.order] at same
    exact left (by simpa using same)
  rcases looks with pc | pc
  · refine ⟨.check,{ s with pc := .ended .killed },.inl rfl,by simp [step,pc,dead],?_⟩
    exact fun all => differ (all rfl)
  · refine ⟨.recheck,{ s with pc := .ended .killed },.inr rfl,by simp [step,pc,dead],?_⟩
    exact fun all => differ (all rfl)

def startLine : Text := "after_start".toList

def politeRun : List Act := [.write startLine,.check,.read,.control 1,.exit,.check]

def afterPoliteRun : State := ⟨false,[],[startLine],.ended .killed,[startLine]⟩

def hastyRun : List Act := [.write startLine,.exit,.check]

end MmRegression.PipeLoop
