import MmRegression.Trials

/-! What the verdict of `do_soft_try` says about the trials it started, for every
SOFT_RETRY, HARD_RETRY and every table of trials. -/
namespace MmRegression

def Env.retries (env : Env) (soft hard : Nat) : Env :=
  { env with softRetry := some soft, hardRetry := some hard }

/- The fast paths for a count of 1 give what the loops would give. -/
theorem hardCases {n : Nat} (positive : 1 ≤ n) (o : Nat → Nat) :
    hardRet (some n) o = Loop.status o hardStop (Loop.seq n) 0 ∧
    hardRan (some n) o = Loop.ran o hardStop (Loop.seq n) := by
  rcases Nat.eq_or_lt_of_le positive with rfl | large
  · obtain ⟨st,rn⟩ := Loop.oneIteration o hardStop 0
    exact ⟨st.symm,rn.symm⟩
  · obtain ⟨m,rfl⟩ : ∃ m, n = m+2 := ⟨n-2,by omega⟩
    exact ⟨rfl,rfl⟩

theorem softCases {n : Nat} (positive : 1 ≤ n) (hard : Option Nat) (o : Nat → Nat → Nat) :
    softRet (some n) hard o = Loop.status (fun s => hardRet hard (o s)) softStop (Loop.seq n) 0 ∧
    softRan (some n) hard o = Loop.ran (fun s => hardRet hard (o s)) softStop (Loop.seq n) := by
  rcases Nat.eq_or_lt_of_le positive with rfl | large
  · obtain ⟨st,rn⟩ := Loop.oneIteration (fun s => hardRet hard (o s)) softStop 0
    exact ⟨st.symm,rn.symm⟩
  · obtain ⟨m,rfl⟩ : ∃ m, n = m+2 := ⟨n-2,by omega⟩
    exact ⟨rfl,rfl⟩

theorem verdictLinesPass (env : Env) (ret : Nat) :
    Effect.line (resultLine [] .pass) ∈ verdictLines env ret ↔ 1 ≤ env.loglevel ∧ ret = 0 := by
  have other : ∀ v, v ≠ Verdict.pass → resultLine [] .pass ≠ resultLine [] v := by
    intro v; cases v <;> decide
  have log : ∀ v, Effect.line (resultLine [] .pass) = echoLog env (resultLine [] v) ↔
      1 ≤ env.loglevel ∧ v = .pass := by
    intro v
    by_cases loud : 1 ≤ env.loglevel
    · rw [echoLog,if_pos loud,Effect.line.injEq]
      exact ⟨fun same => ⟨loud,by_contra fun ne => other v ne same⟩,fun both => by rw [both.2]⟩
    · simp [echoLog,loud]
  match ret with
  | 0 => simp [verdictLines,verdictOf,log]
  | 1 => simp [verdictLines,verdictOf,log]
  | 2 => simp [verdictLines,verdictOf,log]
  | _+3 => simp [verdictLines,verdictOf]

def startedDirs (env : Env) (trials : Nat → Nat → Trial) (c : Counters) : List Text :=
  dirs (doSoftTry env trials ⟨c,[]⟩).2.effects

def PassIsEarned (env : Env) (hard : Nat) (trials : Nat → Nat → Trial) (c : Counters) : Prop :=
  Effect.line (resultLine [] .pass) ∈ verdictLines env (doSoftTry env trials ⟨c,[]⟩).1 →
    ∃ s h, (startedDirs env trials c).getLast? = some (trialDir s h) ∧
      ∀ h', 1 ≤ h' → h' ≤ hard →
        trialDir s h' ∈ startedDirs env trials c ∧ (trials s h').status = 0

def GoesOn (hard : Nat) (o : Nat → Nat) : Prop :=
  (∃ h, 1 ≤ h ∧ h ≤ hard ∧ o h = 2 ∧ ∀ j, 1 ≤ j → j < h → o j ≠ 1 ∧ o j ≠ 2) ∨
  ((∀ j, 1 ≤ j → j ≤ hard → o j ≠ 1 ∧ o j ≠ 2) ∧ o hard ≠ 0)

/-- An abnormal trial (a status above 2) that a last trial returning 0 hides. -/
def Masked (hard : Nat) (o : Nat → Nat) : Prop :=
  (∀ j, 1 ≤ j → j ≤ hard → o j ≠ 1 ∧ o j ≠ 2) ∧ o hard = 0 ∧ ∃ j, 1 ≤ j ∧ j < hard ∧ 2 < o j

theorem hardStopFalse {r : Nat} : hardStop r = false ↔ r ≠ 1 ∧ r ≠ 2 := by
  simp [hardStop]

theorem softStopFalse {r : Nat} : softStop r = false ↔ r ≠ 0 ∧ r ≠ 1 := by
  simp [softStop]

theorem hardOutcome {n : Nat} (positive : 1 ≤ n) (o : Nat → Nat) :
    (∃ h, 1 ≤ h ∧ h ≤ n ∧ (∀ j, 1 ≤ j → j < h → o j ≠ 1 ∧ o j ≠ 2) ∧ (o h = 1 ∨ o h = 2) ∧
      hardRet (some n) o = o h ∧ hardRan (some n) o = Loop.seq h) ∨
    ((∀ j, 1 ≤ j → j ≤ n → o j ≠ 1 ∧ o j ≠ 2) ∧ hardRet (some n) o = o n ∧
      hardRan (some n) o = Loop.seq n) := by
  obtain ⟨ret,rn⟩ := hardCases positive o
  rw [ret,rn]
  rcases Loop.seqOutcome o hardStop n 0 with ⟨h,low,high,before,stops,st,rn⟩ | ⟨never,st,rn⟩
  · refine .inl ⟨h,low,high,fun j h1 h2 => hardStopFalse.mp (before j h1 h2),?_,st,rn⟩
    simpa [hardStop] using stops
  · refine .inr ⟨fun j h1 h2 => hardStopFalse.mp (never j h1 h2),?_,rn⟩
    rw [st,if_neg (by omega)]

theorem goesOnIff {n : Nat} (positive : 1 ≤ n) (o : Nat → Nat) :
    GoesOn n o ↔ softStop (hardRet (some n) o) = false := by
  rw [softStopFalse]
  rcases hardOutcome positive o with ⟨h,low,high,before,value,ret,_⟩ | ⟨never,ret,_⟩
  · rw [ret]
    constructor
    · rintro (⟨k,klow,khigh,two,first⟩ | ⟨none,_⟩)
      · have same : k = h := by
          rcases Nat.lt_trichotomy k h with lt | eq | gt
          · exact absurd two (before k klow lt).2
          · exact eq
          · have := first h low gt; omega
        subst same
        omega
      · have := none h low high; omega
    · intro other
      exact .inl ⟨h,low,high,by omega,before⟩
  · rw [ret]
    constructor
    · rintro (⟨k,klow,khigh,two,_⟩ | ⟨_,last⟩)
      · exact absurd two (never k klow khigh).2
      · exact ⟨last,(never n positive (Nat.le_refl n)).1⟩
    · rintro ⟨last,_⟩
      exact .inr ⟨never,last⟩

theorem getLastFlatMap {α : Type} (f : Nat → List α) {n : Nat} (positive : 1 ≤ n) {x : α}
    (last : (f n).getLast? = some x) : ((Loop.seq n).flatMap f).getLast? = some x := by
  obtain ⟨m,rfl⟩ : ∃ m, n = m+1 := ⟨n-1,by omega⟩
  have grown : Loop.seq (m+1) = Loop.seq m ++ [m+1] := by
    simp [Loop.seq,List.range'_concat,Nat.add_comm]
  rw [grown,List.flatMap_append,List.getLast?_append]
  simp [last]

theorem passedSoftTry {soft hard : Nat} (hs : 1 ≤ soft) (hh : 1 ≤ hard) {o : Nat → Nat → Nat}
    (zero : softRet (some soft) (some hard) o = 0) :
    ∃ s, 1 ≤ s ∧ s ≤ soft ∧ (∀ s', 1 ≤ s' → s' < s → GoesOn hard (o s')) ∧
      (∀ j, 1 ≤ j → j ≤ hard → o s j ≠ 1 ∧ o s j ≠ 2) ∧ o s hard = 0 ∧
      (trialsRan (some soft) (some hard) o).getLast? = some (s,hard) ∧
      ∀ h, 1 ≤ h → h ≤ hard → (s,h) ∈ trialsRan (some soft) (some hard) o := by
  obtain ⟨ret,rn⟩ := softCases hs (some hard) o
  rw [ret] at zero
  rcases Loop.seqOutcome (fun s => hardRet (some hard) (o s)) softStop soft 0 with
    ⟨s,low,high,before,_,st,srn⟩ | ⟨never,st,_⟩
  · have sub : hardRet (some hard) (o s) = 0 := st.symm.trans zero
    rcases hardOutcome hh (o s) with ⟨h,_,_,_,value,hret,_⟩ | ⟨clean,hret,hrn⟩
    · omega
    · refine ⟨s,low,high,fun s' h1 h2 => (goesOnIff hh (o s')).mpr (before s' h1 h2),clean,by omega,?_,?_⟩
      · rw [trialsRan,rn,srn]
        refine getLastFlatMap _ low ?_
        simp [hrn,Loop.seqLast hh]
      · intro h h1 h2
        rw [trialsRan,rn,srn,List.mem_flatMap]
        refine ⟨s,Loop.memSeq.mpr ⟨low,Nat.le_refl s⟩,?_⟩
        simp [hrn,Loop.memSeq,h1,h2]
  · have last := softStopFalse.mp (never soft hs (Nat.le_refl soft))
    rw [st,if_neg (by omega)] at zero
    exact absurd zero last.1

theorem softRetOfReached {soft hard s : Nat} (hh : 1 ≤ hard) (low : 1 ≤ s) (high : s ≤ soft)
    {o : Nat → Nat → Nat} (reached : ∀ s', 1 ≤ s' → s' < s → GoesOn hard (o s'))
    (clean : ∀ j, 1 ≤ j → j ≤ hard → o s j ≠ 1 ∧ o s j ≠ 2) (zero : o s hard = 0) :
    softRet (some soft) (some hard) o = 0 := by
  have sub : hardRet (some hard) (o s) = 0 := by
    rcases hardOutcome hh (o s) with ⟨h,h1,h2,_,value,_,_⟩ | ⟨_,hret,_⟩
    · have := clean h h1 h2; omega
    · omega
  rw [(softCases (by omega) (some hard) o).1]
  rcases Loop.seqOutcome (fun s => hardRet (some hard) (o s)) softStop soft 0 with
    ⟨k,klow,_,before,stops,st,_⟩ | ⟨never,_,_⟩
  · have same : k = s := by
      rcases Nat.lt_trichotomy k s with lt | eq | gt
      · have := (goesOnIff hh (o k)).mp (reached k klow lt)
        rw [this] at stops; contradiction
      · exact eq
      · have := before s low gt
        rw [softStopFalse] at this; omega
    rw [st,same,sub]
  · have := softStopFalse.mp (never s low high); omega

theorem cleanStops {n : Nat} {o : Nat → Nat}
    (clean : ∀ j, 1 ≤ j → j ≤ n → o j ≠ 1 ∧ o j ≠ 2) (zero : o n = 0) : ¬ GoesOn n o := by
  rintro (⟨h,low,high,two,_⟩ | ⟨_,last⟩)
  · exact (clean h low high).2 two
  · exact last zero

theorem emptyLoopPasses {soft hard : Nat} (empty : soft = 0 ∨ hard = 0) (o : Nat → Nat → Nat) :
    softRet (some soft) (some hard) o = 0 ∧ trialsRan (some soft) (some hard) o = [] := by
  rcases empty with rfl | rfl
  · exact ⟨rfl,rfl⟩
  · have none : trialsRan (some soft) (some 0) o = [] := by
      simp [trialsRan,hardRan,Loop.seq,Loop.ran]
    refine ⟨?_,none⟩
    rcases Nat.eq_zero_or_pos soft with rfl | positive
    · rfl
    · have always : ∀ s, hardRet (some 0) (o s) = 0 := fun s => rfl
      rw [(softCases positive (some 0) o).1]
      rcases Loop.seqOutcome (fun s => hardRet (some 0) (o s)) softStop soft 0 with
        ⟨s,_,_,_,_,st,_⟩ | ⟨never,_,_⟩
      · rw [st]; exact always s
      · have := never soft positive (Nat.le_refl soft)
        simp [always,softStop] at this

/- The statement on statuses alone. -/
theorem zeroIsEarnedIff (soft hard : Nat) (o : Nat → Nat → Nat) :
    (softRet (some soft) (some hard) o = 0 →
      ∃ s h, (trialsRan (some soft) (some hard) o).getLast? = some (s,h) ∧
        ∀ h', 1 ≤ h' → h' ≤ hard → (s,h') ∈ trialsRan (some soft) (some hard) o ∧ o s h' = 0) ↔
    (1 ≤ soft ∧ 1 ≤ hard ∧ ∀ s, 1 ≤ s → s ≤ soft →
      (∀ s', 1 ≤ s' → s' < s → GoesOn hard (o s')) → ¬ Masked hard (o s)) := by
  constructor
  · intro earned
    have positive : 1 ≤ soft ∧ 1 ≤ hard := by
      by_contra zero
      obtain ⟨pass,none⟩ := emptyLoopPasses (show soft = 0 ∨ hard = 0 by omega) o
      obtain ⟨s,h,last,_⟩ := earned pass
      simp [none] at last
    refine ⟨positive.1,positive.2,?_⟩
    rintro s low high reached ⟨clean,zero,j,jlow,jhigh,abnormal⟩
    have pass := softRetOfReached positive.2 low high reached clean zero
    obtain ⟨s₁,low₁,_,reached₁,clean₁,zero₁,last,_⟩ := passedSoftTry positive.1 positive.2 pass
    obtain ⟨s₂,h₂,last₂,all⟩ := earned pass
    rw [last] at last₂
    cases Option.some.inj last₂
    -- Neither soft try is passed over by the outer loop, so they are one.
    have same : s₁ = s := by
      rcases Nat.lt_trichotomy s₁ s with lt | eq | gt
      · exact absurd (reached s₁ low₁ lt) (cleanStops clean₁ zero₁)
      · exact eq
      · exact absurd (reached₁ s low gt) (cleanStops clean zero)
    subst same
    have := (all j jlow (by omega)).2
    omega
  · rintro ⟨softPos,hardPos,unmasked⟩ zero
    obtain ⟨s,low,high,reached,clean,last0,last,all⟩ := passedSoftTry softPos hardPos zero
    refine ⟨s,hard,last,fun h h1 h2 => ⟨all h h1 h2,?_⟩⟩
    by_contra nonzero
    refine unmasked s low high reached ⟨clean,last0,h,h1,?_,?_⟩
    · rcases Nat.eq_or_lt_of_le h2 with rfl | lt
      · exact absurd last0 nonzero
      · exact lt
    · have := clean h h1 h2; omega

theorem startedDirsEq (env : Env) (soft hard : Nat) (trials : Nat → Nat → Trial) {c : Counters}
    (file : c.failure.isSome = true) : startedDirs (env.retries soft hard) trials c =
      (trialsRan (some soft) (some hard) (fun s h => (trials s h).status)).map
        (fun t => trialDir t.1 t.2) :=
  doSoftTryDirs (env.retries soft hard) trials (p := ⟨c,[]⟩) file

theorem passIsEarnedIff (env : Env) (soft hard : Nat) (trials : Nat → Nat → Trial) {c : Counters}
    (file : c.failure.isSome = true) : PassIsEarned (env.retries soft hard) hard trials c ↔
      env.loglevel = 0 ∨ (1 ≤ soft ∧ 1 ≤ hard ∧
        ∀ s, 1 ≤ s → s ≤ soft →
          (∀ s', 1 ≤ s' → s' < s → GoesOn hard (fun h => (trials s' h).status)) →
          ¬ Masked hard (fun h => (trials s h).status)) := by
  have ret := doSoftTryStatus (env.retries soft hard) trials (p := ⟨c,[]⟩) file
  have made := startedDirsEq env soft hard trials file
  have core := zeroIsEarnedIff soft hard (fun s h => (trials s h).status)
  rw [← core]
  simp only [PassIsEarned,verdictLinesPass,ret,made]
  constructor
  · intro earned
    rcases Nat.eq_zero_or_pos env.loglevel with quiet | loud
    · exact .inl quiet
    · refine .inr fun zero => ?_
      obtain ⟨s,h,last,all⟩ := earned ⟨loud,zero⟩
      rw [List.getLast?_map,Option.map_eq_some_iff] at last
      obtain ⟨⟨s₁,h₁⟩,last,same⟩ := last
      obtain ⟨rfl,rfl⟩ := trialDirInjective same
      refine ⟨s₁,h₁,last,fun h' low high => ⟨?_,(all h' low high).2⟩⟩
      obtain ⟨⟨s₂,h₂⟩,mem,same⟩ := List.mem_map.mp (all h' low high).1
      obtain ⟨rfl,rfl⟩ := trialDirInjective same
      exact mem
  · rintro (quiet | earned) ⟨loud,zero⟩
    · exact absurd loud (by simp [Env.retries,quiet])
    · obtain ⟨s,h,last,all⟩ := earned zero
      refine ⟨s,h,by rw [List.getLast?_map,last]; rfl,fun h' low high => ?_⟩
      exact ⟨List.mem_map.mpr ⟨(s,h'),(all h' low high).1,rfl⟩,(all h' low high).2⟩

def killedFirst (_soft hard : Nat) : Trial := ⟨[],if hard = 1 then .exited 137 else .done⟩

theorem passIsEarnedOneByTwo :
    PassIsEarned (Env.initial.retries 1 2) 2 (fun _ _ => ⟨[],.done⟩) .zero ↔
      Env.initial.loglevel = 0 ∨ (1 ≤ 1 ∧ 1 ≤ 2 ∧
        ∀ s, 1 ≤ s → s ≤ 1 → (∀ s', 1 ≤ s' → s' < s → GoesOn 2 (fun _ => 0)) →
          ¬ Masked 2 (fun _ => 0)) :=
  passIsEarnedIff Env.initial 1 2 (fun _ _ => ⟨[],.done⟩) (c := .zero) (by decide)

theorem killedTrialPasses : ¬ PassIsEarned (Env.initial.retries 1 2) 2 killedFirst .zero := by
  intro earned
  have pass : Effect.line (resultLine [] .pass) ∈
      verdictLines (Env.initial.retries 1 2) (doSoftTry (Env.initial.retries 1 2) killedFirst ⟨.zero,[]⟩).1 := by
    decide
  obtain ⟨s,h,_,all⟩ := earned pass
  exact absurd (all 1 (by decide) (by decide)).2 (by simp [killedFirst,Trial.status])

/-! ### Retry semantics for trials that come to an end -/

def Trial.ends (t : Trial) : Prop := ∀ n, t.ending ≠ .exited n

def softOutcome (hard : Nat) (o : Nat → Nat) : Nat :=
  (((Loop.seq hard).map o).find? (fun r => r != 0)).getD 0

theorem statusRange {t : Trial} (ends : t.ends) : t.status = 0 ∨ t.status = 1 ∨ t.status = 2 := by
  cases h : t.ending with
  | exited n => exact absurd h (ends n)
  | aborted => simp [Trial.status,h]
  | done => simp only [Trial.status,h]; split <;> simp

theorem softOutcomeZero {hard : Nat} {o : Nat → Nat}
    (zero : ∀ j, 1 ≤ j → j ≤ hard → o j = 0) : softOutcome hard o = 0 := by
  have none : ((Loop.seq hard).map o).find? (fun r => r != 0) = none := by
    rw [List.find?_eq_none]
    intro r mem
    obtain ⟨j,hj,rfl⟩ := List.mem_map.mp mem
    obtain ⟨low,high⟩ := Loop.memSeq.mp hj
    simp [zero j low high]
  simp [softOutcome,none]

theorem softOutcomeFirst {hard h : Nat} {o : Nat → Nat} (low : 1 ≤ h) (high : h ≤ hard)
    (before : ∀ j, 1 ≤ j → j < h → o j = 0) (nonzero : o h ≠ 0) : softOutcome hard o = o h := by
  have split : Loop.seq hard = Loop.seq (h-1) ++ h :: List.range' (h+1) (hard-h) := by
    have tail : h :: List.range' (h+1) (hard-h) = List.range' h (hard-h+1) := rfl
    rw [tail,Loop.seq,Loop.seq]
    have joined := List.range'_append_1 (s := 1) (m := h-1) (n := hard-h+1)
    rw [show 1 + (h-1) = h by omega,show h-1 + (hard-h+1) = hard by omega] at joined
    exact joined.symm
  have none : ((Loop.seq (h-1)).map o).find? (fun r => r != 0) = none := by
    rw [List.find?_eq_none]
    intro r mem
    obtain ⟨j,hj,rfl⟩ := List.mem_map.mp mem
    obtain ⟨jl,jh⟩ := Loop.memSeq.mp hj
    simp [before j jl (by omega)]
  rw [softOutcome,split,List.map_append,List.find?_append,none]
  simp [nonzero]

theorem hardRetOutcome {hard : Nat} (positive : 1 ≤ hard) {o : Nat → Nat}
    (range : ∀ h, o h = 0 ∨ o h = 1 ∨ o h = 2) :
    hardRet (some hard) o = softOutcome hard o ∧
    ∀ h, h ∈ hardRan (some hard) o ↔ 1 ≤ h ∧ h ≤ hard ∧ ∀ j, 1 ≤ j → j < h → o j = 0 := by
  have zeroIff : ∀ j, hardStop (o j) = false ↔ o j = 0 := by
    intro j
    rw [hardStopFalse]
    have := range j
    omega
  constructor
  · rcases hardOutcome positive o with ⟨h,low,high,before,value,ret,_⟩ | ⟨never,ret,_⟩
    · rw [ret]
      refine (softOutcomeFirst low high (fun j h1 h2 => ?_) (by omega)).symm
      have := before j h1 h2
      have := range j
      omega
    · have zero : ∀ j, 1 ≤ j → j ≤ hard → o j = 0 := by
        intro j h1 h2
        have := never j h1 h2
        have := range j
        omega
      rw [ret,softOutcomeZero zero,zero hard positive (Nat.le_refl hard)]
  · intro h
    rw [(hardCases positive o).2,Loop.memRan]
    simp only [zeroIff]

structure RetrySemantics (env : Env) (soft hard : Nat) (trials : Nat → Nat → Trial) (p : Proc) :
    Prop where
  own : ∀ s h q, q.Counted → (doTestTryIn env trials s h q).1 = (trials s h).status
  skipped : ∀ s h q, (doTestTryIn env trials s h q).1 = 1 ↔ (trials s h).ending = .aborted
  failed : ∀ s h q, (doTestTryIn env trials s h q).1 = 2 ↔ (trials s h).ending = .done ∧
    grew q.counters.failure (doTestTryIn env trials s h q).2.counters.failure = true
  pass : (doSoftTry env trials p).1 = 0 ↔ ∃ s, 1 ≤ s ∧ s ≤ soft ∧
    softOutcome hard (fun h => (trials s h).status) = 0 ∧
    ∀ s', 1 ≤ s' → s' < s → softOutcome hard (fun h => (trials s' h).status) = 2
  skip : (doSoftTry env trials p).1 = 1 ↔ ∃ s, 1 ≤ s ∧ s ≤ soft ∧
    softOutcome hard (fun h => (trials s h).status) = 1 ∧
    ∀ s', 1 ≤ s' → s' < s → softOutcome hard (fun h => (trials s' h).status) = 2
  fail : (doSoftTry env trials p).1 = 2 ↔ ∀ s, 1 ≤ s → s ≤ soft →
    softOutcome hard (fun h => (trials s h).status) = 2
  written : 1 ≤ env.loglevel → ∃ v, verdictOf (doSoftTry env trials p).1 = some v ∧
    verdictLines env (doSoftTry env trials p).1 = [.line (resultLine [] v)]
  started : ∃ ran : List (Nat × Nat),
    dirs (doSoftTry env trials p).2.effects = dirs p.effects ++ ran.map (fun t => trialDir t.1 t.2) ∧
    ran.Pairwise (fun a b => a.1 < b.1 ∨ a.1 = b.1 ∧ a.2 < b.2) ∧
    (ran.map (fun t => trialDir t.1 t.2)).Nodup ∧
    ∀ s h, (s,h) ∈ ran ↔ (1 ≤ s ∧ s ≤ soft ∧ 1 ≤ h ∧ h ≤ hard) ∧
      (∀ s', 1 ≤ s' → s' < s → softOutcome hard (fun h => (trials s' h).status) = 2) ∧
      ∀ h', 1 ≤ h' → h' < h → (trials s h').status = 0

theorem softOutcomeRange {hard : Nat} (positive : 1 ≤ hard) {o : Nat → Nat}
    (range : ∀ h, o h = 0 ∨ o h = 1 ∨ o h = 2) :
    softOutcome hard o = 0 ∨ softOutcome hard o = 1 ∨ softOutcome hard o = 2 := by
  rw [← (hardRetOutcome positive range).1]
  rcases hardOutcome positive o with ⟨h,_,_,_,_,ret,_⟩ | ⟨_,ret,_⟩
  · rw [ret]; exact range h
  · rw [ret]; exact range hard

theorem firstDecides {soft : Nat} (positive : 1 ≤ soft) {t : Nat → Nat}
    (range : ∀ s, t s = 0 ∨ t s = 1 ∨ t s = 2) :
    (∀ v, v ≠ 2 → (Loop.status t softStop (Loop.seq soft) 0 = v ↔
      ∃ s, 1 ≤ s ∧ s ≤ soft ∧ t s = v ∧ ∀ s', 1 ≤ s' → s' < s → t s' = 2)) ∧
    (Loop.status t softStop (Loop.seq soft) 0 = 2 ↔ ∀ s, 1 ≤ s → s ≤ soft → t s = 2) ∧
    (Loop.status t softStop (Loop.seq soft) 0 = 0 ∨ Loop.status t softStop (Loop.seq soft) 0 = 1 ∨
      Loop.status t softStop (Loop.seq soft) 0 = 2) := by
  have twoIff : ∀ s, softStop (t s) = false ↔ t s = 2 := by
    intro s
    rw [softStopFalse]
    have := range s
    omega
  rcases Loop.seqOutcome t softStop soft 0 with ⟨s,low,high,before,stops,st,_⟩ | ⟨never,st,_⟩
  · have decided : t s ≠ 2 := fun two => by rw [(twoIff s).mpr two] at stops; contradiction
    have twos : ∀ s', 1 ≤ s' → s' < s → t s' = 2 := fun s' h1 h2 => (twoIff s').mp (before s' h1 h2)
    rw [st]
    refine ⟨?_,?_,range s⟩
    · intro v other
      constructor
      · intro eq
        exact ⟨s,low,high,eq,twos⟩
      · rintro ⟨k,klow,_,value,kbefore⟩
        rcases Nat.lt_trichotomy k s with lt | rfl | gt
        · have := twos k klow lt; omega
        · exact value
        · exact absurd (kbefore s low gt) decided
    · exact ⟨fun eq => absurd eq decided,fun all => absurd (all s low high) decided⟩
  · have twos : ∀ s', 1 ≤ s' → s' ≤ soft → t s' = 2 := fun s' h1 h2 => (twoIff s').mp (never s' h1 h2)
    have last : Loop.status t softStop (Loop.seq soft) 0 = 2 := by
      rw [st,if_neg (by omega)]
      exact twos soft positive (Nat.le_refl soft)
    rw [last]
    refine ⟨?_,?_,.inr (.inr rfl)⟩
    · intro v other
      constructor
      · intro eq; omega
      · rintro ⟨k,klow,khigh,value,_⟩
        have := twos k klow khigh; omega
    · exact ⟨fun _ => twos,fun _ => rfl⟩

theorem startedTrials {soft hard : Nat} (hs : 1 ≤ soft) (hh : 1 ≤ hard) {o : Nat → Nat → Nat}
    (range : ∀ s h, o s h = 0 ∨ o s h = 1 ∨ o s h = 2) :
    (trialsRan (some soft) (some hard) o).Pairwise
      (fun a b => a.1 < b.1 ∨ a.1 = b.1 ∧ a.2 < b.2) ∧
    ∀ s h, (s,h) ∈ trialsRan (some soft) (some hard) o ↔ (1 ≤ s ∧ s ≤ soft ∧ 1 ≤ h ∧ h ≤ hard) ∧
      (∀ s', 1 ≤ s' → s' < s → softOutcome hard (o s') = 2) ∧
      ∀ h', 1 ≤ h' → h' < h → o s h' = 0 := by
  have inner := fun s => hardRetOutcome hh (range s)
  have goes : ∀ s, softStop (hardRet (some hard) (o s)) = false ↔ softOutcome hard (o s) = 2 := by
    intro s
    rw [(inner s).1,softStopFalse]
    have := softOutcomeRange hh (range s)
    omega
  constructor
  · rw [trialsRan,(softCases hs (some hard) o).2,List.pairwise_flatMap]
    constructor
    · intro s _
      rw [(hardCases hh (o s)).2,List.pairwise_map]
      exact (Loop.ranIncreasing (o s) hardStop hard).imp (fun lt => .inr ⟨rfl,lt⟩)
    · refine (Loop.ranIncreasing _ softStop soft).imp (fun lt x hx y hy => ?_)
      obtain ⟨h,_,rfl⟩ := List.mem_map.mp hx
      obtain ⟨k,_,rfl⟩ := List.mem_map.mp hy
      exact .inl lt
  · intro s h
    rw [trialsRan,(softCases hs (some hard) o).2,List.mem_flatMap]
    constructor
    · rintro ⟨k,hk,mem⟩
      obtain ⟨j,hj,same⟩ := List.mem_map.mp mem
      cases same
      obtain ⟨low,high,before⟩ := Loop.memRan.mp hk
      obtain ⟨hl,hr,zeros⟩ := ((inner s).2 h).mp hj
      exact ⟨⟨low,high,hl,hr⟩,fun s' h1 h2 => (goes s').mp (before s' h1 h2),zeros⟩
    · rintro ⟨⟨low,high,hl,hr⟩,before,zeros⟩
      refine ⟨s,Loop.memRan.mpr ⟨low,high,fun s' h1 h2 => (goes s').mpr (before s' h1 h2)⟩,?_⟩
      exact List.mem_map.mpr ⟨h,((inner s).2 h).mpr ⟨hl,hr,zeros⟩,rfl⟩

theorem abortedIff {t : Trial} (ends : t.ends) (env : Env) (q : Proc) :
    (doTestTry env t q).1 = 1 ↔ t.ending = .aborted := by
  cases ending : t.ending with
  | exited n => exact absurd ending (ends n)
  | aborted => simp [doTestTry,ending]
  | done =>
    simp only [doTestTry,ending]
    split <;> simp

theorem failedIff {t : Trial} (ends : t.ends) (env : Env) (q : Proc) :
    (doTestTry env t q).1 = 2 ↔
      t.ending = .done ∧ grew q.counters.failure (doTestTry env t q).2.counters.failure = true := by
  cases ending : t.ending with
  | exited n => exact absurd ending (ends n)
  | aborted => simp [doTestTry,ending]
  | done =>
    simp only [doTestTry,ending,true_and]
    split <;> simp_all

theorem verdictWritten {env : Env} {ret : Nat} (loud : 1 ≤ env.loglevel)
    (range : ret = 0 ∨ ret = 1 ∨ ret = 2) :
    ∃ v, verdictOf ret = some v ∧ verdictLines env ret = [.line (resultLine [] v)] := by
  rcases range with rfl | rfl | rfl
  · exact ⟨.pass,rfl,by simp [verdictLines,verdictOf,echoLog,loud]⟩
  · exact ⟨.skip,rfl,by simp [verdictLines,verdictOf,echoLog,loud]⟩
  · exact ⟨.fail,rfl,by simp [verdictLines,verdictOf,echoLog,loud]⟩

theorem retrySemantics (env : Env) {soft hard : Nat} (hs : 1 ≤ soft) (hh : 1 ≤ hard)
    (trials : Nat → Nat → Trial) (ends : ∀ s h, (trials s h).ends) {p : Proc} (file : p.Counted) :
    RetrySemantics (env.retries soft hard) soft hard trials p := by
  have range : ∀ s h, (trials s h).status = 0 ∨ (trials s h).status = 1 ∨ (trials s h).status = 2 :=
    fun s h => statusRange (ends s h)
  have ret : (doSoftTry (env.retries soft hard) trials p).1 =
      Loop.status (fun s => softOutcome hard (fun h => (trials s h).status)) softStop (Loop.seq soft) 0 := by
    rw [doSoftTryStatus _ _ file]
    change softRet (some soft) (some hard) _ = _
    rw [(softCases hs (some hard) _).1]
    congr 1
    funext s
    exact (hardRetOutcome hh (range s)).1
  have decides := firstDecides hs (fun s => softOutcomeRange hh (range s))
  rw [← ret] at decides
  obtain ⟨increasing,members⟩ := startedTrials hs hh range
  refine ⟨fun s h _ => doTestTryInStatus _ trials s h,fun s h q => abortedIff (ends s h) _ _,
    fun s h q => failedIff (ends s h) _ _,decides.1 0 (by decide),decides.1 1 (by decide),decides.2.1,
    fun loud => verdictWritten loud decides.2.2,
    trialsRan (some soft) (some hard) (fun s h => (trials s h).status),doSoftTryDirs _ trials file,
    increasing,?_,members⟩
  rw [List.nodup_iff_pairwise_ne,List.pairwise_map]
  refine increasing.imp (fun {a b} lt same => ?_)
  obtain ⟨first,second⟩ := trialDirInjective same
  omega

def secondTryPasses (soft hard : Nat) : Trial :=
  ⟨if soft = 1 ∧ hard = 2 then [.testcount,.failure false "return code".toList] else [],.done⟩

theorem secondTryEnds (soft hard : Nat) : (secondTryPasses soft hard).ends := by
  intro n
  exact Ending.noConfusion

theorem retrySemanticsTwoByTwo :
    RetrySemantics (Env.initial.retries 2 2) 2 2 secondTryPasses ⟨.zero,[]⟩ ∧
    (doSoftTry (Env.initial.retries 2 2) secondTryPasses ⟨.zero,[]⟩).1 = 0 :=
  ⟨retrySemantics Env.initial (by decide) (by decide) secondTryPasses secondTryEnds (by decide),
    by decide⟩

def failedPreparation (_soft _hard : Nat) : Trial :=
  ⟨[.failure false "hugetlb pool empty check".toList,.skipped "Preparation process".toList],.aborted⟩

theorem abortedTrialHidesFailure :
    ¬ ((doTestTryIn Env.initial failedPreparation 1 1 ⟨.zero,[]⟩).1 = 2 ↔
      grew Counters.zero.failure
        (doTestTryIn Env.initial failedPreparation 1 1 ⟨.zero,[]⟩).2.counters.failure = true) := by
  decide

end MmRegression
