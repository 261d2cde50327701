import MmRegression.Diff
import MmRegression.ReturnCode

/-! The kernel messages of a test: what `get_kernel_message_diff` of `setup_test_core.sh` keeps of them and the checks
that look there. The words that the checks look for hold no pattern characters. -/
namespace MmRegression.KernelMessage

open Diff

/- The lines that `diff` without options marks as new. -/
structure Normal (diff : List Text → List Text → List Text) : Prop where
  added {before after : List Text} (order : Ordered before after) :
    (diff before after).filter (startsWith "> ".toList) = (missing after before).map ("> ".toList ++ ·)

def containsAny (subs : List String) (line : Text) : Bool := subs.any (fun sub => contains sub.toList line)

def dmesgFilter1 (line : Text) : Bool :=
  !containsAny ["MCE: Page was already unpoisoned","Unpoison: Page was already unpoisoned"] line

def dmesgFilter2 (line : Text) : Bool :=
  !containsAny ["MCE: Software-unpoisoned ","Unpoison: Software-unpoisoned "] line

def dmesgFilter3 (line : Text) : Bool := !containsAny ["Soft offlining page","drop_caches: 3"] line

/- `DMESG_FILTER_SWITCH` -/
def dmesgFilter (switch : Bool) (lines : List Text) : List Text :=
  if switch then ((lines.filter dmesgFilter1).filter dmesgFilter2).filter dmesgFilter3 else lines

section
variable (diff : List Text → List Text → List Text)

def getKernelMessageDiff (switch : Bool) (before after : List Text) : List Text :=
  dmesgFilter switch ((diff before after).filter (startsWith "> ".toList))

end

/- The two checks for a word differ in whose messages they speak of. -/
def checkMessage (whose : Text) (known inverse : Bool) (word : Text) (dmesgDiff : List Text) : List Event :=
  if word.isEmpty then []
  else
    let label (verb : String) : Text := whose ++ "kernel message ".toList ++ verb.toList ++ " word '".toList ++ word ++
      "'.".toList
    [.testcount,
      if dmesgDiff.any (contains word) then
        if inverse then .failure known (label "shows unexpected") else .success known (label "shows expected")
      else if inverse then .success known (label "does not show unexpected")
      else .failure known (label "does not show expected")]

def checkKernelMessage : Bool → Bool → Text → List Text → List Event := checkMessage []
def checkConsoleOutput : Bool → Bool → Text → List Text → List Event := checkMessage "host ".toList

/-! ### The buffer of the kernel -/

/- What `dmesg` prints when the first `from_` of the first `upto` messages have been overwritten. -/
def window (history : List Text) (from_ upto : Nat) : List Text := (history.take upto).drop from_

section
variable {history : List Text} {i j n m : Nat}

theorem windowSublist (history : List Text) (i n : Nat) : (window history i n).Sublist history :=
  (List.drop_sublist ..).trans (List.take_sublist ..)

/- Messages stand in the order in which they came. -/
theorem historySorted (once : history.Nodup) : history.Pairwise (fun l k => history.idxOf l < history.idxOf k) := by
  rw [List.pairwise_iff_getElem]
  intro a b ha hb less
  rwa [once.idxOf_getElem,once.idxOf_getElem]

theorem windowsOrdered (once : history.Nodup) (i j n m : Nat) : Ordered (window history i n) (window history j m) :=
  orderedBy (fun _ => Nat.lt_irrefl _) (fun _ _ => Nat.lt_asymm) ((historySorted once).sublist (windowSublist ..))
    ((historySorted once).sublist (windowSublist ..))

theorem memWindow (once : history.Nodup) {l : Text} :
    l ∈ window history i n ↔ l ∈ history ∧ i ≤ history.idxOf l ∧ history.idxOf l < n := by
  constructor
  · intro mem
    obtain ⟨k,found⟩ := List.mem_iff_getElem?.mp mem
    rw [window,List.getElem?_drop,List.getElem?_take] at found
    split at found
    · rename_i inside
      obtain ⟨bound,rfl⟩ := List.getElem?_eq_some_iff.mp found
      rw [once.idxOf_getElem]
      exact ⟨List.getElem_mem bound,Nat.le_add_right i k,inside⟩
    · contradiction
  · rintro ⟨mem,from_,upto⟩
    refine List.mem_iff_getElem?.mpr ⟨history.idxOf l-i,?_⟩
    rw [window,List.getElem?_drop,List.getElem?_take,Nat.add_sub_cancel' from_,if_pos upto]
    exact List.getElem?_eq_some_iff.mpr ⟨List.idxOf_lt_length_of_mem mem,List.getElem_idxOf _⟩

theorem windowNew (once : history.Nodup) (forward : i ≤ j) :
    missing (window history j m) (window history i n) = window history (max n j) m := by
  have : Std.Irrefl (fun l k : Text => history.idxOf l < history.idxOf k) := ⟨fun _ => Nat.lt_irrefl _⟩
  have : Std.Antisymm (fun l k : Text => history.idxOf l < history.idxOf k) :=
    ⟨fun _ _ less more => absurd more (Nat.lt_asymm less)⟩
  have sorted : ∀ i n, (window history i n).Pairwise (fun l k => history.idxOf l < history.idxOf k) :=
    fun i n => (historySorted once).sublist (windowSublist ..)
  refine List.Pairwise.eq_of_mem_iff ((sorted j m).filter _) (sorted (max n j) m) (fun l => ?_)
  rw [memMissing,memWindow once,memWindow once,memWindow once]
  constructor
  · rintro ⟨⟨mem,from_,upto⟩,old⟩
    refine ⟨mem,?_,upto⟩
    by_contra early
    exact old ⟨mem,by omega,by omega⟩
  · rintro ⟨mem,from_,upto⟩
    exact ⟨⟨mem,by omega,upto⟩,fun old => by omega⟩

end

/-! ### The checks -/

/- A word that starts neither with `>` nor with a blank is not found in the mark of a line. -/
theorem containsMarked {c : Char} {w : Text} (word : c ≠ '>' ∧ c ≠ ' ') (l : Text) :
    contains (c::w) ("> ".toList ++ l) = contains (c::w) l := by
  have apart : ∀ d t, c ≠ d → startsWith (c::w) (d::t) = false := by
    intro d t other
    simp [startsWith,List.isPrefixOf,other]
  show contains (c::w) ('>' :: ' ' :: l) = contains (c::w) l
  rw [containsCons,containsCons,apart _ _ word.1,apart _ _ word.2,Bool.false_or,Bool.false_or]

/- What is looked for does not start in a mark. -/
def Unmarked (sub : Text) : Prop := ∃ c w, sub = c::w ∧ c ≠ '>' ∧ c ≠ ' '

theorem anyMarked {subs : List String} (starts : ∀ sub ∈ subs, Unmarked sub.toList) (l : Text) :
    containsAny subs ("> ".toList ++ l) = containsAny subs l := by
  unfold containsAny
  rw [Bool.eq_iff_iff,List.any_eq_true,List.any_eq_true]
  refine exists_congr fun sub => and_congr_right fun mem => ?_
  obtain ⟨c,w,shape,word⟩ := starts sub mem
  rw [shape,containsMarked word]

theorem filterMarked {p : Text → Bool} (same : ∀ l, p ("> ".toList ++ l) = p l) (lines : List Text) :
    (lines.map ("> ".toList ++ ·)).filter p = (lines.filter p).map ("> ".toList ++ ·) := by
  rw [List.filter_map]
  exact congrArg _ (List.filter_congr fun l _ => same l)

theorem dmesgFilterMarked (switch : Bool) (lines : List Text) :
    dmesgFilter switch (lines.map ("> ".toList ++ ·)) = (dmesgFilter switch lines).map ("> ".toList ++ ·) := by
  have first : ∀ l, dmesgFilter1 ("> ".toList ++ l) = dmesgFilter1 l := fun l =>
    congrArg (!·) (anyMarked (by simp [Unmarked]) l)
  have second : ∀ l, dmesgFilter2 ("> ".toList ++ l) = dmesgFilter2 l := fun l =>
    congrArg (!·) (anyMarked (by simp [Unmarked]) l)
  have third : ∀ l, dmesgFilter3 ("> ".toList ++ l) = dmesgFilter3 l := fun l =>
    congrArg (!·) (anyMarked (by simp [Unmarked]) l)
  unfold dmesgFilter
  split
  · rw [filterMarked first,filterMarked second,filterMarked third]
  · rfl

/- The messages that came between the two looks and are still there at the second, without those that are noise. -/
def logged (switch : Bool) (history : List Text) (n j m : Nat) : List Text :=
  dmesgFilter switch (window history (max n j) m)

theorem messagesFound {diff : List Text → List Text → List Text} (normal : Normal diff) {history : List Text}
    (once : history.Nodup) {i j n m : Nat} (forward : i ≤ j) (switch : Bool) :
    getKernelMessageDiff diff switch (window history i n) (window history j m) =
      (logged switch history n j m).map ("> ".toList ++ ·) := by
  rw [getKernelMessageDiff,normal.added (windowsOrdered once i j n m),windowNew once forward,dmesgFilterMarked,logged]

theorem anyMap {p : Text → Bool} (same : ∀ l, p ("> ".toList ++ l) = p l) (lines : List Text) :
    (lines.map ("> ".toList ++ ·)).any p = lines.any p := by
  rw [List.any_map]
  exact congrArg lines.any (funext same)

/- One more message after two, as `diff` shows it. -/
def appendedDiff (before after : List Text) : List Text :=
  if before = after then [] else "2a3".toList :: (missing after before).map ("> ".toList ++ ·)

theorem appendedNormal : Normal appendedDiff where
  added {before after} _ := by
    have marked : ∀ ls : List Text, (ls.map ("> ".toList ++ ·)).filter (startsWith "> ".toList) =
        ls.map ("> ".toList ++ ·) := by
      intro ls
      refine List.filter_eq_self.mpr (fun l mem => ?_)
      obtain ⟨k,_,rfl⟩ := List.mem_map.mp mem
      simp [startsWith]
    rw [appendedDiff]
    split
    · rename_i same
      simp [same,missing]
    · rw [List.filter_cons_of_neg (by decide),marked]

def threeMessages : List Text := ["[1.0] usb 1-1: new device".toList,"[2.0] drop_caches: 3".toList,
  "[3.0] BUG: Bad page state".toList]

end MmRegression.KernelMessage
