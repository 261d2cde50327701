import Mathlib.Data.List.Basic

/-! Deterministic labelled machines. A schedule is a list of labels, so a
statement about every schedule that a machine accepts is one about every
interleaving of the parties the labels belong to. -/
namespace MmRegression.Machine

variable {σ α : Type}

def run (step : σ → α → Option σ) : σ → List α → Option σ
  | s, [] => some s
  | s, a::as => (step s a).bind (fun t => run step t as)

def Along (step : σ → α → Option σ) (guard : σ → α → Prop) : σ → List α → Prop
  | _, [] => True
  | s, a::as => guard s a ∧ ∀ t, step s a = some t → Along step guard t as

theorem alongNone {step : σ → α → Option σ} {guard : σ → α → Prop} {s : σ} {a : α} {as : List α}
    (stuck : step s a = none) : Along step guard s (a::as) ↔ guard s a :=
  ⟨And.left,fun g => ⟨g,fun t moved => by rw [stuck] at moved; contradiction⟩⟩

theorem alongSome {step : σ → α → Option σ} {guard : σ → α → Prop} {s t : σ} {a : α} {as : List α}
    (moved : step s a = some t) :
    Along step guard s (a::as) ↔ guard s a ∧ Along step guard t as := by
  constructor
  · rintro ⟨g,rest⟩
    exact ⟨g,rest t moved⟩
  · rintro ⟨g,rest⟩
    refine ⟨g,fun u again => ?_⟩
    rw [moved] at again
    cases Option.some.inj again
    exact rest

instance alongDecidable (step : σ → α → Option σ) (guard : σ → α → Prop)
    [dec : ∀ s a, Decidable (guard s a)] : ∀ s as, Decidable (Along step guard s as)
  | _, [] => isTrue trivial
  | s, a::as => match h : step s a with
    | none => decidable_of_iff _ (alongNone h).symm
    | some t =>
        have := alongDecidable step guard t as
        decidable_of_iff _ (alongSome h).symm

theorem runCons {step : σ → α → Option σ} {s t : σ} {a : α} {as : List α}
    (h : run step s (a::as) = some t) : ∃ u, step s a = some u ∧ run step u as = some t :=
  Option.bind_eq_some_iff.mp h

theorem runKeeps {step : σ → α → Option σ} {guard : σ → α → Prop} (inv : σ → Prop)
    (keep : ∀ {s a t}, inv s → guard s a → step s a = some t → inv t) {as : List α} {s t : σ}
    (start : inv s) (along : Along step guard s as) (ran : run step s as = some t) : inv t := by
  induction as generalizing s with
  | nil => cases Option.some.inj ran; exact start
  | cons a as ih =>
    obtain ⟨u,first,rest⟩ := runCons ran
    exact ih (keep start along.1 first) (along.2 u first) rest

theorem alongTrivial (step : σ → α → Option σ) (s : σ) (as : List α) :
    Along step (fun _ _ => True) s as := by
  induction as generalizing s with
  | nil => trivial
  | cons a as ih => exact ⟨trivial,fun t _ => ih t⟩

theorem runInvariant {step : σ → α → Option σ} {inv : σ → Prop}
    (keep : ∀ {s a t}, inv s → step s a = some t → inv t) {as : List α} {s t : σ}
    (start : inv s) (ran : run step s as = some t) : inv t :=
  runKeeps inv (fun h _ st => keep h st) start (alongTrivial step s as) ran

theorem runMeasured {step : σ → α → Option σ} {inv : σ → Prop} (measure : σ → Nat)
    (keep : ∀ {s a t}, inv s → step s a = some t → inv t)
    (less : ∀ {s a t}, inv s → step s a = some t → measure t < measure s) {as : List α} {s t : σ}
    (start : inv s) (ran : run step s as = some t) : measure t+as.length ≤ measure s := by
  induction as generalizing s with
  | nil => cases Option.some.inj ran; exact Nat.le_refl _
  | cons a as ih =>
    obtain ⟨u,first,rest⟩ := runCons ran
    have here := less start first
    have later := ih (keep start first) rest
    rw [List.length_cons]
    omega

/- In every state that a schedule passes through. -/
def Throughout (step : σ → α → Option σ) (good : σ → Prop) (s : σ) (as : List α) : Prop :=
  ∀ front rest t, as = front ++ rest → run step s front = some t → good t

theorem throughoutNil {step : σ → α → Option σ} {good : σ → Prop} {s : σ} :
    Throughout step good s [] ↔ good s := by
  constructor
  · intro all
    exact all [] [] s rfl rfl
  · intro here front rest t parts ran
    rw [(List.append_eq_nil_iff.mp parts.symm).1] at ran
    cases Option.some.inj ran
    exact here

theorem throughoutCons {step : σ → α → Option σ} {good : σ → Prop} {s u : σ} {a : α} {as : List α}
    (moved : step s a = some u) : Throughout step good s (a::as) ↔ good s ∧ Throughout step good u as := by
  constructor
  · intro all
    refine ⟨all [] (a::as) s rfl rfl,fun front rest t parts ran => ?_⟩
    refine all (a::front) rest t (by rw [parts,List.cons_append]) ?_
    rw [run,moved]
    exact ran
  · intro both front rest t parts ran
    cases front with
    | nil =>
      cases Option.some.inj ran
      exact both.1
    | cons b front =>
      rw [List.cons_append] at parts
      cases List.cons_eq_cons.mp parts |>.1
      obtain ⟨v,first,later⟩ := runCons ran
      rw [moved] at first
      cases Option.some.inj first
      exact both.2 front rest t (List.cons_eq_cons.mp parts).2 later

/-- Where a step keeps `good` exactly under its guard, a run keeps it throughout exactly when the guard
holds along it. -/
theorem throughoutIff {step : σ → α → Option σ} {good inv : σ → Prop} {guard : σ → α → Prop}
    (keep : ∀ {s a t}, inv s → step s a = some t → inv t)
    (exact : ∀ {s a t}, inv s → good s → step s a = some t → (good t ↔ guard s a)) {as : List α} {s t : σ}
    (start : inv s) (first : good s) (ran : run step s as = some t) :
    Throughout step good s as ↔ Along step guard s as := by
  induction as generalizing s with
  | nil => exact throughoutNil.trans ⟨fun _ => trivial,fun _ => first⟩
  | cons a as ih =>
    obtain ⟨u,moved,rest⟩ := runCons ran
    rw [throughoutCons moved,alongSome moved,and_iff_right first]
    have here := exact start first moved
    constructor
    · intro all
      have next : good u := all [] as u rfl rfl
      exact ⟨here.mp next,(ih (keep start moved) next rest).mp all⟩
    · intro along
      exact (ih (keep start moved) (here.mpr along.1) rest).mpr along.2

end MmRegression.Machine
