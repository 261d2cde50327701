import MmRegression.Lexicographic
import MmRegression.Recipes

/-! `version.rb`: a version is split at its points and dashes, and what is written in digits becomes a
number. Two versions are compared at the first position with a difference, then by their lengths. Ruby
compares a number with a number and a string with a string; anything else raises an error. -/
namespace MmRegression

inductive Component where
  | number (n : Int)
  | word (t : Text)
  deriving DecidableEq, Repr

def isBlank (c : Char) : Bool := " \t\n\x0b\x0c\r".toList.contains c

/- The leading digits of `to_i`, a single underscore between two of them left out. -/
def leadingDigits : Text → Text
  | [] => []
  | [c] => if c.isDigit then [c] else []
  | c::d::cs =>
      if c.isDigit then
        if d == '_' then c :: (match cs with | [] => [] | e::_ => if e.isDigit then leadingDigits cs else [])
        else c :: leadingDigits (d::cs)
      else []

/- `to_i` of a string that may have several lines. -/
def linesToI (t : Text) : Int :=
  match t.dropWhile isBlank with
  | '-'::rest => -(number (leadingDigits rest) : Int)
  | '+'::rest => number (leadingDigits rest)
  | rest => number (leadingDigits rest)

/- `s =~ /^\d+$/` looks at each line of the string. -/
def digitLine (s : Text) : Bool := (split '\n' s).any (fun line => !line.isEmpty && line.all Char.isDigit)

def component (s : Text) : Component := if digitLine s then .number (linesToI s) else .word s

/- `v.split(/[\.-]/)` -/
def splitVersion (v : Text) : List Text := splitFields '.' (v.map (fun c => if c = '-' then '.' else c))

def components (v : Text) : List Component := (splitVersion v).map component

/-! ### The comparison of the parts -/

def charCompare (c d : Char) : Option Ordering :=
  some (if c = d then .eq else if d.toNat < c.toNat then .gt else .lt)

def numberCompare (n m : Int) : Option Ordering :=
  some (if n = m then .eq else if m < n then .gt else .lt)

/- A comparison that never fails, from a linear order given by numbers. -/
theorem charNumber (c d : Char) : charCompare c d = numberCompare c.toNat d.toNat := by
  have same : c = d ↔ (c.toNat : Int) = d.toNat := by
    rw [Int.ofNat_inj]
    exact ⟨congrArg Char.toNat,fun eq => Char.ext (UInt32.toNat_inj.mp eq)⟩
  simp only [charCompare,numberCompare,same,Int.ofNat_lt]

theorem numberSame (n m : Int) : numberCompare n m = some .eq ↔ n = m := by
  rw [numberCompare]
  split
  · simp [*]
  · split <;> simp [*]

theorem numberSwap (n m : Int) : numberCompare m n = (numberCompare n m).map Ordering.swap := by
  simp only [numberCompare,Option.map_some]
  by_cases equal : n = m
  · rw [if_pos equal,if_pos equal.symm]
    rfl
  · rw [if_neg equal,if_neg (Ne.symm equal)]
    by_cases below : m < n
    · rw [if_pos below,if_neg (by omega)]
      rfl
    · rw [if_neg below,if_pos (by omega)]
      rfl

theorem numberGreater {n m : Int} : numberCompare n m = some .gt ↔ m < n := by
  rw [numberCompare]
  by_cases equal : n = m
  · rw [if_pos equal]
    simp [equal]
  · rw [if_neg equal]
    by_cases below : m < n <;> simp [below]

/- Strings are compared byte by byte, which for UTF-8 is by code points. -/
def characters : Comparison Char where
  cmp := charCompare
  same := fun c d => by
    rw [charNumber,numberSame,Int.ofNat_inj]
    exact ⟨fun eq => Char.ext (UInt32.toNat_inj.mp eq),congrArg Char.toNat⟩
  swap := fun c d => by rw [charNumber,charNumber,numberSwap]
  trans := fun c d e first second => by
    rw [charNumber,numberGreater] at *
    exact Int.lt_trans second first

/- `x > y`, none where Ruby raises an ArgumentError. -/
def Component.greater : Component → Component → Option Bool
  | .number n, .number m => some (decide (m < n))
  | .word a, .word b => some (decide (characters.lexicographic.cmp a b = some .gt))
  | _, _ => none

structure VersionCheck where
  vers0 : List Component
  vers1 : List Component

def VersionCheck.new (v0 v1 : Text) : VersionCheck := ⟨components v0,components v1⟩

/-- 0, 1 or 2 for a first version that is newer, the same or older. -/
def VersionCheck.compare (v : VersionCheck) : Option Nat :=
  let len0 := v.vers0.length
  let len1 := v.vers1.length
  let len := if len1 > len0 then len0 else len1
  match (List.range len).find? (fun i => v.vers0[i]? != v.vers1[i]?) with
  | some i => do
      let x ← v.vers0[i]?
      let y ← v.vers1[i]?
      let newer ← x.greater y
      some (if newer then 0 else 2)
  | none => if len0 = len1 then some 1 else some (if len0 > len1 then 0 else 2)

def Component.order : Component → Component → Option Ordering
  | .number n, .number m => numberCompare n m
  | .word a, .word b => characters.lexicographic.cmp a b
  | _, _ => none

def ordered : Comparison Component where
  cmp := Component.order
  same := fun x y => by
    cases x <;> cases y <;> simp [Component.order,numberSame,characters.lexicographic.same]
  swap := fun x y => by
    cases x <;> cases y <;> first | rfl | exact numberSwap _ _ | exact characters.lexicographic.swap _ _
  trans := fun x y z first second => by
    cases x <;> cases y <;> first | cases first | skip
    all_goals cases z <;> first | cases second | skip
    · rw [Component.order,numberGreater] at *
      exact Int.lt_trans second first
    · exact characters.lexicographic.trans _ _ _ first second

/-! ### `compare` is the lexicographic order of the components -/

def resultCode : Ordering → Nat
  | .gt => 0
  | .eq => 1
  | .lt => 2

theorem wordsCompared (a b : Text) : characters.lexicographic.cmp a b ≠ none := by
  intro fails
  obtain ⟨front,c,d,cs,ds,-,-,wrong⟩ := (lexFails characters).mp fails
  cases wrong

theorem greaterOrder {x y : Component} (other : x ≠ y) :
    (x.greater y).map (fun newer => if newer then 0 else 2) = (ordered.cmp x y).map resultCode := by
  have equal : ordered.cmp x y ≠ some .eq := mt (ordered.same x y).mp other
  have newer : x.greater y = (ordered.cmp x y).map (fun o => decide (o = .gt)) := by
    cases x with
    | number n =>
      cases y with
      | number m =>
        rw [Component.greater,show ordered.cmp (.number n) (.number m) = numberCompare n m from rfl]
        cases result : numberCompare n m with
        | none => cases result
        | some o => simp [← numberGreater,result]
      | word b => rfl
    | word a =>
      cases y with
      | number m => rfl
      | word b =>
        rw [Component.greater,show ordered.cmp (.word a) (.word b) = characters.lexicographic.cmp a b from rfl]
        cases result : characters.lexicographic.cmp a b with
        | none => exact absurd result (wordsCompared a b)
        | some o => simp
  rw [newer]
  cases result : ordered.cmp x y with
  | none => rfl
  | some o =>
    cases o with
    | gt => rfl
    | lt => rfl
    | eq => exact absurd result equal

theorem compareCons (x y : Component) (xs ys : List Component) :
    (VersionCheck.mk (x::xs) (y::ys)).compare =
      if x = y then (VersionCheck.mk xs ys).compare else (x.greater y).map (fun newer => if newer then 0 else 2) := by
  have length : (if (y::ys).length > (x::xs).length then (x::xs).length else (y::ys).length) =
      (if ys.length > xs.length then xs.length else ys.length) + 1 := by
    simp only [List.length_cons]
    split <;> split <;> omega
  simp only [VersionCheck.compare,length,List.range_succ_eq_map,List.find?_cons,List.getElem?_cons_zero]
  by_cases equal : x = y
  · subst equal
    have here : (some x != some x) = false := by simp
    rw [if_pos rfl,here,List.find?_map]
    cases found : (List.range (if ys.length > xs.length then xs.length else ys.length)).find?
        (fun i => xs[i]? != ys[i]?) with
    | none => simp [Function.comp_def,found]
    | some i => simp [Function.comp_def,found]
  · have here : (some x != some y) = true := by simpa using equal
    rw [if_neg equal,here]
    cases newer : x.greater y <;> simp [newer]

theorem compareOrder (xs ys : List Component) :
    (VersionCheck.mk xs ys).compare = (ordered.lexicographic.cmp xs ys).map resultCode := by
  induction xs generalizing ys with
  | nil => cases ys <;> rfl
  | cons x xs ih =>
    cases ys with
    | nil => rfl
    | cons y ys =>
      have step : ordered.lexicographic.cmp (x::xs) (y::ys) =
          if ordered.cmp x y = some .eq then ordered.lexicographic.cmp xs ys else ordered.cmp x y := rfl
      rw [compareCons,step]
      by_cases equal : x = y
      · rw [if_pos equal,if_pos ((ordered.same x y).mpr equal),ih]
      · rw [if_neg equal,if_neg (mt (ordered.same x y).mp equal),greaterOrder equal]

example : (VersionCheck.new "5.10.0-rc1".toList "5.9".toList).compare = some 0 := by decide +kernel

/-! ### When it is an order -/

def compareVersions (a b : Text) : Option Nat := (VersionCheck.new a b).compare

theorem versionsCompared (a b : Text) (o : Ordering) :
    compareVersions a b = some (resultCode o) ↔ ordered.lexicographic.cmp (components a) (components b) = some o := by
  rw [compareVersions,VersionCheck.new,compareOrder,Option.map_eq_some_iff]
  constructor
  · intro found
    obtain ⟨p,result,same⟩ := found
    rw [result]
    cases p <;> cases o <;> first | rfl | cases same
  · intro result
    exact ⟨o,result,rfl⟩

structure VersionLaws (a b c : Text) : Prop where
  result : compareVersions a b ≠ none
  same : compareVersions a b = some 1 ↔ components a = components b
  turned : compareVersions a b = some 0 ↔ compareVersions b a = some 2
  chain : compareVersions a b = some 0 → compareVersions b c = some 0 → compareVersions a c = some 0

def Component.isNumber : Component → Bool
  | .number _ => true
  | .word _ => false

/-- The first components that differ are two numbers or two strings. -/
def OneKind (xs ys : List Component) : Prop :=
  ∀ front x y xs' ys', xs = front ++ x::xs' → ys = front ++ y::ys' → x ≠ y → x.isNumber = y.isNumber

theorem orderFails (x y : Component) : ordered.cmp x y = none ↔ x.isNumber ≠ y.isNumber := by
  cases x with
  | number n =>
    cases y with
    | number m => exact iff_of_false (fun fails => nomatch fails) (fun other => other rfl)
    | word b => exact iff_of_true rfl (fun eq => Bool.false_ne_true eq.symm)
  | word a =>
    cases y with
    | number m => exact iff_of_true rfl Bool.false_ne_true
    | word b => exact iff_of_false (wordsCompared a b) (fun other => other rfl)

theorem compareRaises (a b : Text) : compareVersions a b = none ↔ ¬ OneKind (components a) (components b) := by
  rw [compareVersions,VersionCheck.new,compareOrder,Option.map_eq_none_iff]
  constructor
  · intro fails kind
    obtain ⟨front,x,y,xs,ys,left,right,wrong⟩ := (lexFails ordered).mp fails
    have other := (orderFails x y).mp wrong
    exact other (kind front x y xs ys left right (fun same => other (congrArg _ same)))
  · intro mixed
    refine Classical.by_contradiction (fun result => mixed ?_)
    intro front x y xs ys left right _
    refine Classical.by_contradiction (fun other => result ?_)
    exact (lexFails ordered).mpr ⟨front,x,y,xs,ys,left,right,(orderFails x y).mpr other⟩

/- The order laws hold of every result; what fails is that there is one. -/
theorem versionOrder (a b c : Text) : VersionLaws a b c ↔ OneKind (components a) (components b) := by
  constructor
  · intro laws
    exact Classical.by_contradiction (fun mixed => laws.result ((compareRaises a b).mpr mixed))
  · intro kind
    have swap := ordered.lexicographic.swap (components a) (components b)
    refine ⟨fun raises => (compareRaises a b).mp raises kind,?_,?_,?_⟩
    · exact (versionsCompared a b .eq).trans (ordered.lexicographic.same _ _)
    · rw [show some 0 = some (resultCode .gt) from rfl,show some 2 = some (resultCode .lt) from rfl,versionsCompared,
        versionsCompared,swap]
      cases ordered.lexicographic.cmp (components a) (components b) with
      | none => simp
      | some o => cases o <;> simp
    · intro first second
      rw [show some 0 = some (resultCode .gt) from rfl,versionsCompared] at *
      exact ordered.lexicographic.trans _ _ _ first second

theorem candidateRaises : ¬ ∀ a b c, VersionLaws a b c := by
  intro claim
  exact (claim "4.18.0-305".toList "4.18.0-rc1".toList []).result (by decide +kernel)

end MmRegression
