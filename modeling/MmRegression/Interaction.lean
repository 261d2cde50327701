import Mathlib.Data.List.Basic

/-! Programs that ask their surroundings and go on with the answers. What is proved of one holds of the
record of its questions and answers whatever is answered. -/
namespace MmRegression.Interaction

variable {Q : Type} {R : Q → Type} {α β : Type}

inductive Prog (R : Q → Type) (α : Type) where
  | ret (a : α)
  | ask (q : Q) (next : R q → Prog R α)

def Prog.bind : Prog R α → (α → Prog R β) → Prog R β
  | .ret a, f => f a
  | .ask q next, f => .ask q (fun r => (next r).bind f)

instance : Monad (Prog R) where
  pure := .ret
  bind := Prog.bind

theorem bindRet (p : Prog R α) : p.bind .ret = p := by
  induction p with
  | ret a => rfl
  | ask q next ih => exact congrArg (Prog.ask q) (funext ih)

theorem bindBind {γ : Type} (p : Prog R α) (f : α → Prog R β) (g : β → Prog R γ) :
    (p.bind f).bind g = p.bind (fun a => (f a).bind g) := by
  induction p with
  | ret a => rfl
  | ask q next ih => exact congrArg (Prog.ask q) (funext ih)

instance : LawfulMonad (Prog R) := LawfulMonad.mk' (Prog R) bindRet (fun _ _ => rfl) bindBind

def ask (q : Q) : Prog R (R q) := .ask q .ret

abbrev Record (R : Q → Type) := List ((q : Q) × R q)

/- The answers may depend on everything that was asked and answered before. -/
def answered (env : Record R → (q : Q) → R q) : Record R → Prog R α → Record R × α
  | past, .ret a => (past,a)
  | past, .ask q next => answered env (past ++ [⟨q,env past q⟩]) (next (env past q))

def Ensures : Record R → Prog R α → (Record R → α → Prop) → Prop
  | past, .ret a, post => post past a
  | past, .ask q next, post => ∀ r, Ensures (past ++ [⟨q,r⟩]) (next r) post

section
variable {past : Record R} {p : Prog R α} {post post' : Record R → α → Prop}

theorem ensured (env : Record R → (q : Q) → R q) (ensures : Ensures past p post) :
    post (answered env past p).1 (answered env past p).2 := by
  induction p generalizing past with
  | ret a => exact ensures
  | ask q next ih => exact ih _ (ensures _)

theorem ensuresMono (weaker : ∀ log a, post log a → post' log a) (ensures : Ensures past p post) :
    Ensures past p post' := by
  induction p generalizing past with
  | ret a => exact weaker _ _ ensures
  | ask q next ih => exact fun r => ih r (ensures r)

@[simp] theorem ensuresPure {a : α} : Ensures past (pure a : Prog R α) post ↔ post past a := Iff.rfl

@[simp] theorem ensuresAsk {q : Q} {post : Record R → R q → Prop} :
    Ensures past (ask q) post ↔ ∀ r, post (past ++ [⟨q,r⟩]) r := Iff.rfl

@[simp] theorem ensuresBind {f : α → Prog R β} {post : Record R → β → Prop} :
    Ensures past (p >>= f) post ↔ Ensures past p (fun log a => Ensures log (f a) post) := by
  induction p generalizing past with
  | ret a => exact Iff.rfl
  | ask q next ih => exact forall_congr' fun r => ih r

theorem ensuresAnd : Ensures past p (fun log a => post log a ∧ post' log a) ↔
    Ensures past p post ∧ Ensures past p post' := by
  induction p generalizing past with
  | ret a => exact Iff.rfl
  | ask q next ih => exact (forall_congr' fun r => ih r).trans forall_and

theorem ensuresPrefix : Ensures past p (fun log _ => past <+: log) := by
  induction p generalizing past with
  | ret a => exact List.prefix_rfl
  | ask q next ih => exact fun r => ensuresMono (fun _ _ more => (List.prefix_append ..).trans more) (ih r)

/- The invariant may speak of the elements that the fold has passed. -/
theorem ensuresFold {f : β → α → Prog R β} {as : List α} {b : β} (inv : List α → Record R → β → Prop)
    (step : ∀ front a rest, as = front ++ a::rest → ∀ past b, inv front past b →
      Ensures past (f b a) (inv (front ++ [a]))) (start : inv [] past b) :
    Ensures past (as.foldlM f b) (inv as) := by
  suffices from_ : ∀ rest front past b, as = front ++ rest → inv front past b →
      Ensures past (rest.foldlM f b) (inv as) from from_ as [] past b rfl start
  intro rest
  induction rest with
  | nil =>
    intro front past b parts kept
    rw [parts,List.append_nil]
    exact kept
  | cons a rest ih =>
    intro front past b parts kept
    rw [List.foldlM_cons,ensuresBind]
    refine ensuresMono (fun log b kept => ?_) (step front a rest parts past b kept)
    exact ih (front ++ [a]) log b (by simp [parts]) kept

end

/- The records that a program can leave, each with its result. -/
def Traces : Prog R α → Record R → α → Prop
  | .ret a, log, b => log = [] ∧ b = a
  | .ask q next, log, b => ∃ r rest, log = ⟨q,r⟩::rest ∧ Traces (next r) rest b

section
variable {log : Record R}

@[simp] theorem tracesPure {a b : α} : Traces (pure a : Prog R α) log b ↔ log = [] ∧ b = a := Iff.rfl

@[simp] theorem tracesAsk {q : Q} {r : R q} : Traces (ask q) log r ↔ log = [⟨q,r⟩] := by
  constructor
  · rintro ⟨r',rest,rfl,rfl,rfl⟩
    rfl
  · rintro rfl
    exact ⟨r,[],rfl,rfl,rfl⟩

theorem tracesBind {p : Prog R α} {f : α → Prog R β} {b : β} :
    Traces (p >>= f) log b ↔ ∃ one a other, log = one ++ other ∧ Traces p one a ∧ Traces (f a) other b := by
  induction p generalizing log with
  | ret a =>
    constructor
    · exact fun traces => ⟨[],a,log,rfl,⟨rfl,rfl⟩,traces⟩
    · rintro ⟨_,_,other,rfl,⟨rfl,rfl⟩,traces⟩
      exact traces
  | ask q next ih =>
    constructor
    · rintro ⟨r,rest,rfl,traces⟩
      obtain ⟨one,a,other,rfl,first,second⟩ := ih r |>.mp traces
      exact ⟨⟨q,r⟩::one,a,other,rfl,⟨r,one,rfl,first⟩,second⟩
    · rintro ⟨_,a,other,rfl,⟨r,one,rfl,first⟩,second⟩
      exact ⟨r,one ++ other,rfl,(ih r).mpr ⟨one,a,other,rfl,first,second⟩⟩

theorem answeredTraces (env : Record R → (q : Q) → R q) (past : Record R) (p : Prog R α) :
    ∃ new, (answered env past p).1 = past ++ new ∧ Traces p new (answered env past p).2 := by
  induction p generalizing past with
  | ret a => exact ⟨[],(List.append_nil past).symm,rfl,rfl⟩
  | ask q next ih =>
    obtain ⟨new,parts,traces⟩ := ih (env past q) (past ++ [⟨q,env past q⟩])
    exact ⟨⟨q,env past q⟩::new,parts.trans (List.append_assoc ..),env past q,new,rfl,traces⟩

theorem ensuresTraces {past : Record R} {p : Prog R α} {post : Record R → α → Prop} :
    Ensures past p post ↔ ∀ new a, Traces p new a → post (past ++ new) a := by
  induction p generalizing past with
  | ret a =>
    constructor
    · rintro holds _ _ ⟨rfl,rfl⟩
      rwa [List.append_nil]
    · intro holds
      have here := holds [] a ⟨rfl,rfl⟩
      rwa [List.append_nil] at here
  | ask q next ih =>
    constructor
    · rintro holds _ a ⟨r,rest,rfl,traces⟩
      rw [List.append_cons]
      exact (ih r).mp (holds r) rest a traces
    · intro holds r
      refine (ih r).mpr (fun new a traces => ?_)
      rw [← List.append_cons]
      exact holds _ a ⟨r,new,rfl,traces⟩

theorem tracesAskBind {q : Q} {f : R q → Prog R β} {b : β} :
    Traces (ask q >>= f) log b ↔ ∃ r rest, log = ⟨q,r⟩::rest ∧ Traces (f r) rest b := Iff.rfl

end

/-! ### Records -/

/- Each entry stands where `good` allows it to. -/
def Each (good : Record R → (q : Q) × R q → Prop) (log : Record R) : Prop :=
  ∀ pre e post, log = pre ++ e::post → good pre e

variable {good : Record R → (q : Q) × R q → Prop} {log : Record R}

theorem eachNil : Each good ([] : Record R) := by
  intro pre e post parts
  simp at parts

theorem eachAppend {other : Record R} :
    Each good (log ++ other) ↔ Each good log ∧ Each (fun pre e => good (log ++ pre) e) other := by
  constructor
  · refine fun each => ⟨fun pre e post parts => each pre e (post ++ other) ?_,fun pre e post parts => ?_⟩
    · rw [parts,List.append_assoc,List.cons_append]
    · exact each (log ++ pre) e post (by rw [parts,List.append_assoc])
  · rintro ⟨front,back⟩ pre e post parts
    rcases List.append_eq_append_iff.mp parts with ⟨more,rfl,rest⟩ | ⟨more,rfl,rest⟩
    · exact back more e post rest
    · rcases List.cons_eq_append_iff.mp rest with ⟨rfl,rest⟩ | ⟨more,rfl,rest⟩
      · have last := back [] e post rest.symm
        rwa [List.append_nil,List.append_nil] at last
      · exact front pre e more rfl

theorem eachOne {e : (q : Q) × R q} : Each good [e] ↔ good [] e := by
  constructor
  · exact fun each => each [] e [] rfl
  · rintro here pre d post parts
    rcases List.singleton_eq_append_iff.mp parts with ⟨rfl,same⟩ | ⟨_,same⟩
    · cases same
      exact here
    · contradiction

theorem eachSnoc {e : (q : Q) × R q} : Each good (log ++ [e]) ↔ Each good log ∧ good log e := by
  rw [eachAppend,eachOne,List.append_nil]

theorem eachImp {good' : Record R → (q : Q) × R q → Prop} (imp : ∀ pre e, good pre e → good' pre e)
    (each : Each good log) : Each good' log :=
  fun pre e post parts => imp pre e (each pre e post parts)

/- Only entries with calm questions have been added. -/
def Adds (calm : Q → Bool) (past log : Record R) : Prop := ∃ new, log = past ++ new ∧ ∀ e ∈ new, calm e.1 = true

variable {calm : Q → Bool} {past later : Record R}

theorem addsRefl : Adds calm past past := ⟨[],by simp,by simp⟩

theorem addsTrans (first : Adds calm past log) (second : Adds calm log later) : Adds calm past later := by
  obtain ⟨new,rfl,calm₁⟩ := first
  obtain ⟨more,rfl,calm₂⟩ := second
  refine ⟨new ++ more,List.append_assoc ..,fun e mem => ?_⟩
  rcases List.mem_append.mp mem with mem | mem
  · exact calm₁ e mem
  · exact calm₂ e mem

theorem addsSnoc {q : Q} (r : R q) (quiet : calm q = true) (adds : Adds calm past log) :
    Adds calm past (log ++ [⟨q,r⟩]) :=
  addsTrans adds ⟨[⟨q,r⟩],rfl,by simpa using quiet⟩

theorem addsImp {calm' : Q → Bool} (imp : ∀ q, calm q = true → calm' q = true) (adds : Adds calm past log) :
    Adds calm' past log := by
  obtain ⟨new,parts,quiet⟩ := adds
  exact ⟨new,parts,fun e mem => imp e.1 (quiet e mem)⟩

/- What one calm entry keeps, any number of them keep. -/
theorem addsKeeps (inv : Record R → Prop)
    (keeps : ∀ log (q : Q) (r : R q), calm q = true → inv log → inv (log ++ [⟨q,r⟩]))
    (adds : Adds calm past log) (start : inv past) : inv log := by
  obtain ⟨new,rfl,quiet⟩ := adds
  induction new generalizing past with
  | nil => simpa using start
  | cons e new ih =>
    rw [← List.singleton_append,← List.append_assoc]
    exact ih (keeps past e.1 e.2 (quiet e List.mem_cons_self) start) (fun f mem => quiet f (List.mem_cons_of_mem e mem))

/- Whatever is answered, all that the program asks is calm. -/
def Asks (calm : Q → Bool) : Prog R α → Prop
  | .ret _ => True
  | .ask q next => calm q = true ∧ ∀ r, Asks calm (next r)

@[simp] theorem asksPure {a : α} : Asks calm (pure a : Prog R α) := trivial

@[simp] theorem asksAsk {q : Q} : Asks calm (ask q : Prog R (R q)) ↔ calm q = true := and_iff_left (fun _ => trivial)

@[simp] theorem asksAskBind {q : Q} {f : R q → Prog R β} :
    Asks calm (ask q >>= f) ↔ calm q = true ∧ ∀ r, Asks calm (f r) := Iff.rfl

theorem asksBind {p : Prog R α} {f : α → Prog R β} (first : Asks calm p) (second : ∀ a, Asks calm (f a)) :
    Asks calm (p >>= f) := by
  induction p with
  | ret a => exact second a
  | ask q next ih => exact ⟨first.1,fun r => ih r (first.2 r)⟩

theorem asksTraces {p : Prog R α} {a : α} (asks : Asks calm p) (traces : Traces p log a) :
    ∀ e ∈ log, calm e.1 = true := by
  induction p generalizing log with
  | ret b =>
    obtain ⟨rfl,rfl⟩ := traces
    simp
  | ask q next ih =>
    obtain ⟨r,rest,rfl,later⟩ := traces
    exact List.forall_mem_cons.mpr ⟨asks.1,ih r (asks.2 r) later⟩

theorem asksAdds {p : Prog R α} (asks : Asks calm p) : Ensures past p (fun log _ => Adds calm past log) :=
  ensuresTraces.mpr (fun new _ traces => ⟨new,rfl,asksTraces asks traces⟩)

theorem answeredBind (env : Record R → (q : Q) → R q) (p : Prog R α) (f : α → Prog R β) :
    answered env past (p >>= f) = answered env (answered env past p).1 (f (answered env past p).2) := by
  induction p generalizing past with
  | ret a => rfl
  | ask q next ih => exact ih _

end MmRegression.Interaction
