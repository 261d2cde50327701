import MmRegression.PersistentMemory
import MmRegression.Shell
import Mathlib.Data.List.Perm.Subperm

/-! `lib/pmem/pmreorder_list.c`: a list in persistent memory, and the two ways it inserts. Each field is
one cell; `pmem_persist` names the cells that lie in its range. -/
namespace MmRegression.PmreorderList

open PersistentMemory

def maxNodes : Nat := 10

/- `struct list_root`. -/
inductive Cell where
  | head
  | value (node : Nat)
  | next (node : Nat)
  deriving DecidableEq, Repr

abbrev Contents : Cell → Type
  | .head => Nat
  | .value _ => Int
  | .next _ => Nat

abbrev Root := Image Contents

/- After `pmem_memset_persist`. -/
def zeroed : Root
  | .head => (0 : Nat)
  | .value _ => (0 : Int)
  | .next _ => (0 : Nat)

/- The nodes that a loop over the links comes by; none when it is still running after `fuel` of them, or
reads behind the last node. -/
def nodesFrom (root : Root) : Nat → Nat → Option (List Nat)
  | _, 0 => some []
  | 0, _+1 => none
  | fuel+1, node+1 =>
      if maxNodes ≤ node+1 then none else (nodesFrom root fuel (root (.next (node+1)))).map ((node+1)::·)

def checkFrom (root : Root) : Nat → Nat → Option Nat
  | _, 0 => some 0
  | 0, _+1 => none
  | fuel+1, node+1 =>
      if maxNodes ≤ node+1 then none
      else if root (.value (node+1)) = 0 then some 1 else checkFrom root fuel (root (.next (node+1)))

def checkConsistency (root : Root) (fuel : Nat) : Option Nat := checkFrom root fuel (root .head)

def listPrint (list : Root) (fuel : Nat) : Option Text := do
  let nodes ← nodesFrom list fuel (list .head)
  if nodes = [] then some "List:\nList is empty".toList
  else some ("List:\n".toList ++
    nodes.flatMap (fun node => "Value: ".toList ++ intText (list (.value node)) ++ ['\n']))

def listInsertConsistent (node : Nat) (value : Int) : List (Instr Contents) :=
  [.store (.value node) (fun _ => value),.store (.next node) (fun root => root .head),
    .persist [.value node,.next node],.store .head (fun _ => node),.persist [.head]]

def listInsertInconsistent (node : Nat) (value : Int) : List (Instr Contents) :=
  [.store (.next node) (fun root => root .head),.persist [.next node],
    .store .head (fun _ => node),.persist [.head],
    .store (.value node) (fun _ => value),.persist [.value node]]

/-! ### What a root holds -/

/- From a link on, the list of nodes with their values. -/
def Holds (root : Root) : Nat → List (Nat × Int) → Prop
  | link, [] => link = 0
  | link, e::es => link = e.1 ∧ 0 < e.1 ∧ e.1 < maxNodes ∧ root (.value e.1) = e.2 ∧ Holds root (root (.next e.1)) es

theorem holdsUnique {root : Root} {link : Nat} {es fs : List (Nat × Int)} (one : Holds root link es)
    (other : Holds root link fs) : es = fs := by
  induction es generalizing link fs with
  | nil =>
    cases fs with
    | nil => rfl
    | cons f fs =>
      have zero : link = 0 := one
      have positive := other.2.1
      have same := other.1
      omega
  | cons e es ih =>
    obtain ⟨same,positive,_,value,rest⟩ := one
    cases fs with
    | nil =>
      have zero : link = 0 := other
      omega
    | cons f fs =>
      obtain ⟨same',_,_,value',rest'⟩ := other
      have node : e.1 = f.1 := same.symm.trans same'
      have entry : e = f := Prod.ext node (by rw [← value,← value',node])
      rw [← node] at rest'
      rw [entry,ih rest rest']

theorem holdsSuffix {root : Root} {link : Nat} {es fs : List (Nat × Int)} (holds : Holds root link (es ++ fs)) :
    ∃ link', Holds root link' fs ∧ ∀ f gs, fs = f::gs → link' = f.1 := by
  induction es generalizing link with
  | nil =>
    refine ⟨link,holds,fun f gs eq => ?_⟩
    subst eq
    exact holds.1
  | cons e es ih => exact ih holds.2.2.2.2

/- A node that came twice would be followed by two different rests. -/
theorem holdsNodup {root : Root} {link : Nat} {es : List (Nat × Int)} (holds : Holds root link es) :
    (es.map Prod.fst).Nodup := by
  induction es generalizing link with
  | nil => exact List.nodup_nil
  | cons e es ih =>
    refine List.nodup_cons.mpr ⟨fun mem => ?_,ih holds.2.2.2.2⟩
    obtain ⟨f,mem,same⟩ := List.mem_map.mp mem
    obtain ⟨front,rest,parts⟩ := List.append_of_mem mem
    have later : Holds root e.1 (f::rest) := by
      obtain ⟨link',here,first⟩ := holdsSuffix (parts ▸ holds.2.2.2.2)
      rwa [first f rest rfl,same] at here
    have lengths := congrArg List.length (holdsUnique (holds.1 ▸ holds) later)
    rw [parts] at lengths
    simp at lengths
    omega

theorem holdsBound {root : Root} {link : Nat} {es : List (Nat × Int)} (holds : Holds root link es) :
    ∀ e ∈ es, 0 < e.1 ∧ e.1 < maxNodes := by
  induction es generalizing link with
  | nil => simp
  | cons e es ih =>
    intro f mem
    rcases List.mem_cons.mp mem with rfl | mem
    · exact ⟨holds.2.1,holds.2.2.1⟩
    · exact ih holds.2.2.2.2 f mem

theorem holdsValue {root : Root} {link : Nat} {es : List (Nat × Int)} (holds : Holds root link es) :
    ∀ e ∈ es, root (.value e.1) = e.2 := by
  induction es generalizing link with
  | nil => simp
  | cons e es ih =>
    intro f mem
    rcases List.mem_cons.mp mem with rfl | mem
    · exact holds.2.2.2.1
    · exact ih holds.2.2.2.2 f mem

theorem holdsLength {root : Root} {link : Nat} {es : List (Nat × Int)} (holds : Holds root link es) :
    es.length < maxNodes := by
  have inside : (es.map Prod.fst) ⊆ (List.range maxNodes).erase 0 := by
    intro node mem
    obtain ⟨e,here,rfl⟩ := List.mem_map.mp mem
    obtain ⟨positive,bound⟩ := holdsBound holds e here
    exact (List.mem_erase_of_ne (by omega)).mpr (List.mem_range.mpr bound)
  have short := (List.subperm_of_subset (holdsNodup holds) inside).length_le
  rw [List.length_map,List.length_erase_of_mem (by decide),List.length_range] at short
  have : maxNodes = 10 := rfl
  omega

theorem holdsFrame {root root' : Root} {link : Nat} {es : List (Nat × Int)}
    (same : ∀ e ∈ es, root' (.value e.1) = root (.value e.1) ∧ root' (.next e.1) = root (.next e.1))
    (holds : Holds root link es) : Holds root' link es := by
  induction es generalizing link with
  | nil => exact holds
  | cons e es ih =>
    obtain ⟨value,next⟩ := same e List.mem_cons_self
    refine ⟨holds.1,holds.2.1,holds.2.2.1,value.trans holds.2.2.2.1,?_⟩
    rw [next]
    exact ih (fun f mem => same f (List.mem_cons_of_mem e mem)) holds.2.2.2.2

theorem nodesFromHolds {root : Root} {link fuel : Nat} {es : List (Nat × Int)} (holds : Holds root link es)
    (enough : es.length ≤ fuel) : nodesFrom root fuel link = some (es.map Prod.fst) := by
  induction es generalizing link fuel with
  | nil =>
    cases (show link = 0 from holds)
    cases fuel <;> rfl
  | cons e es ih =>
    obtain ⟨rfl,positive,bound,_,rest⟩ := holds
    obtain ⟨n,node⟩ : ∃ n, e.1 = n+1 := ⟨e.1-1,by omega⟩
    rw [List.length_cons] at enough
    obtain ⟨f,rfl⟩ : ∃ f, fuel = f+1 := ⟨fuel-1,by omega⟩
    rw [node] at bound rest
    rw [List.map_cons,node,nodesFrom,if_neg (by omega),ih rest (by omega)]
    rfl

theorem checkFromHolds {root : Root} {link fuel : Nat} {es : List (Nat × Int)} (holds : Holds root link es)
    (enough : es.length ≤ fuel) :
    checkFrom root fuel link = some (if 0 ∈ es.map Prod.snd then 1 else 0) := by
  induction es generalizing link fuel with
  | nil =>
    cases (show link = 0 from holds)
    cases fuel <;> simp [checkFrom]
  | cons e es ih =>
    obtain ⟨rfl,positive,bound,value,rest⟩ := holds
    obtain ⟨n,node⟩ : ∃ n, e.1 = n+1 := ⟨e.1-1,by omega⟩
    rw [List.length_cons] at enough
    obtain ⟨f,rfl⟩ : ∃ f, fuel = f+1 := ⟨fuel-1,by omega⟩
    rw [node] at value bound rest
    rw [node,checkFrom,if_neg (by omega),value]
    by_cases zero : e.2 = 0
    · simp [zero]
    · rw [if_neg zero,ih rest (by omega)]
      simp only [List.map_cons,List.mem_cons,Ne.symm zero,false_or]

/-! ### What a crash leaves -/

theorem consistentOther {root root' : Root} {node : Nat} {value : Int} {k : Nat} {c : Cell}
    (cut : Cut root (listInsertConsistent node value) k root')
    (head : c ≠ .head) (here : c ≠ .value node) (link : c ≠ .next node) : root' c = root c := by
  refine cutUntouched (fun i mem => ?_) cut
  simp only [listInsertConsistent,List.mem_cons,List.not_mem_nil,or_false] at mem
  rcases mem with rfl | rfl | rfl | rfl | rfl <;>
    simp [Instr.stores,Ne.symm head,Ne.symm here,Ne.symm link]

theorem consistentImage {root root' : Root} {node : Nat} {value : Int} {k : Nat}
    (cut : Cut root (listInsertConsistent node value) k root') :
    (k ≤ 4 ∧ root' .head = root .head) ∨
      (4 ≤ k ∧ root' .head = node ∧ root' (.value node) = value ∧ root' (.next node) = root .head) := by
  have head := cut .head
  have value := cut (.value node)
  have next := cut (.next node)
  match k with
  | 0 | 1 | 2 | 3 =>
    simp [listInsertConsistent,exec,settled] at head
    exact .inl ⟨by omega,head⟩
  | 4 =>
    simp [listInsertConsistent,exec,settled] at head value next
    rcases head with old | new
    · exact .inl ⟨by omega,old⟩
    · exact .inr ⟨by omega,new,value,next⟩
  | k+5 =>
    simp [listInsertConsistent,exec,settled] at head value next
    exact .inr ⟨by omega,head,value,next⟩

theorem inconsistentOther {root root' : Root} {node : Nat} {value : Int} {k : Nat} {c : Cell}
    (cut : Cut root (listInsertInconsistent node value) k root')
    (head : c ≠ .head) (here : c ≠ .value node) (link : c ≠ .next node) : root' c = root c := by
  refine cutUntouched (fun i mem => ?_) cut
  simp only [listInsertInconsistent,List.mem_cons,List.not_mem_nil,or_false] at mem
  rcases mem with rfl | rfl | rfl | rfl | rfl | rfl <;>
    simp [Instr.stores,Ne.symm head,Ne.symm here,Ne.symm link]

theorem inconsistentImage {root root' : Root} {node : Nat} {value : Int} {k : Nat}
    (cut : Cut root (listInsertInconsistent node value) k root') :
    (k ≤ 3 ∧ root' .head = root .head) ∨
      (3 ≤ k ∧ root' .head = node ∧ root' (.next node) = root .head ∧
        (k ≤ 5 ∧ root' (.value node) = root (.value node) ∨ 5 ≤ k ∧ root' (.value node) = value)) := by
  have head := cut .head
  have value := cut (.value node)
  have next := cut (.next node)
  match k with
  | 0 | 1 | 2 =>
    simp [listInsertInconsistent,exec,settled] at head
    exact .inl ⟨by omega,head⟩
  | 3 =>
    simp [listInsertInconsistent,exec,settled] at head value next
    rcases head with old | new
    · exact .inl ⟨by omega,old⟩
    · exact .inr ⟨by omega,new,next,.inl ⟨by omega,value⟩⟩
  | 4 =>
    simp [listInsertInconsistent,exec,settled] at head value next
    exact .inr ⟨by omega,head,next,.inl ⟨by omega,value⟩⟩
  | 5 =>
    simp [listInsertInconsistent,exec,settled] at head value next
    exact .inr ⟨by omega,head,next,value.imp (fun old => ⟨by omega,old⟩) (fun new => ⟨by omega,new⟩)⟩
  | k+6 =>
    simp [listInsertInconsistent,exec,settled] at head value next
    exact .inr ⟨by omega,head,next,.inr ⟨by omega,value⟩⟩

def Fresh (root : Root) (node : Nat) : Prop :=
  0 < node ∧ node < maxNodes ∧ ∀ es, Holds root (root .head) es → node ∉ es.map Prod.fst

theorem holdsOther {root root' : Root} {node : Nat} {es : List (Nat × Int)}
    (other : ∀ c : Cell, c ≠ .head → c ≠ .value node → c ≠ .next node → root' c = root c)
    (holds : Holds root (root .head) es) (fresh : Fresh root node) : Holds root' (root .head) es := by
  refine holdsFrame (fun e mem => ?_) holds
  have apart : e.1 ≠ node := by
    rintro rfl
    exact fresh.2.2 es holds (List.mem_map_of_mem mem)
  exact ⟨other _ (by simp) (by simpa using apart) (by simp),other _ (by simp) (by simp) (by simpa using apart)⟩

theorem holdsLinked {root root' : Root} {node : Nat} {es : List (Nat × Int)} (fresh : Fresh root node)
    (head : root' .head = node) (next : root' (.next node) = root .head) (holds : Holds root' (root .head) es) :
    Holds root' (root' .head) ((node,root' (.value node))::es) := by
  refine ⟨head,fresh.1,fresh.2.1,rfl,?_⟩
  change Holds root' (root' (.next node)) es
  rwa [next]

/-! ### Runs -/

structure Attempt where
  node : Nat
  value : Int
  steps : Nat
  deriving DecidableEq, Repr

/- Each insert is cut by a crash after some of its steps, or after the last of them; the next one
is made on what the crash has left. -/
inductive Ran (insert : Nat → Int → List (Instr Contents)) : Root → List Attempt → Root → Prop where
  | start (root : Root) : Ran insert root [] root
  | more {root root' root'' : Root} {a : Attempt} {as : List Attempt} (fresh : Fresh root a.node)
      (cut : Cut root (insert a.node a.value) a.steps root')
      (later : Ran insert root' as root'') : Ran insert root (a::as) root''

def Attempt.entry (a : Attempt) : Nat × Int := (a.node,a.value)

theorem ranHolds {root root' : Root} {as : List Attempt} {es : List (Nat × Int)}
    (holds : Holds root (root .head) es) (ran : Ran listInsertConsistent root as root') :
    ∃ kept : List Attempt, (as.filter (fun a => 5 ≤ a.steps)).Sublist kept ∧
      kept.Sublist (as.filter (fun a => 4 ≤ a.steps)) ∧
      Holds root' (root' .head) ((kept.map Attempt.entry).reverse ++ es) := by
  induction ran generalizing es with
  | start root => exact ⟨[],.slnil,.slnil,holds⟩
  | @more root root' root'' a as fresh cut later ih =>
    have old := holdsOther (fun c => consistentOther cut) holds fresh
    rcases consistentImage cut with ⟨early,head⟩ | ⟨late,head,value,next⟩
    · obtain ⟨kept,low,high,listed⟩ := ih (by rwa [head])
      refine ⟨kept,?_,high.trans (List.Sublist.filter _ (List.sublist_cons_self a as)),listed⟩
      rwa [List.filter_cons_of_neg (by simpa using by omega)]
    · have linked := holdsLinked fresh head next old
      rw [value] at linked
      obtain ⟨kept,low,high,listed⟩ := ih linked
      refine ⟨a::kept,?_,?_,?_⟩
      · rw [List.filter_cons]
        split
        · exact low.cons_cons a
        · exact low.cons a
      · rw [List.filter_cons_of_pos (by simpa using late)]
        exact high.cons_cons a
      · simpa [Attempt.entry] using listed

def printed (es : List (Nat × Int)) : Text :=
  if es = [] then "List:\nList is empty".toList
  else "List:\n".toList ++ es.flatMap (fun e => "Value: ".toList ++ intText e.2 ++ ['\n'])

theorem printHolds {root : Root} {es : List (Nat × Int)} (holds : Holds root (root .head) es) :
    listPrint root maxNodes = some (printed es) := by
  have same : (es.map Prod.fst).flatMap (fun node => "Value: ".toList ++ intText (root (.value node)) ++ ['\n']) =
      es.flatMap (fun e => "Value: ".toList ++ intText e.2 ++ ['\n']) := by
    rw [List.flatMap_map]
    refine List.flatMap_congr fun e mem => ?_
    rw [holdsValue holds e mem]
  have nodes := nodesFromHolds holds (Nat.le_of_lt (holdsLength holds))
  simp only [listPrint,nodes,bind,Option.bind,List.map_eq_nil_iff,same,printed]
  split <;> rfl

theorem checkHolds {root : Root} {es : List (Nat × Int)} (holds : Holds root (root .head) es) :
    checkConsistency root maxNodes = some (if 0 ∈ es.map Prod.snd then 1 else 0) :=
  checkFromHolds holds (Nat.le_of_lt (holdsLength holds))

/-- Wherever crashes cut the consistent inserts, an insert whose head was persisted is in the list, one
whose head was not stored is not, and none is there in part: the list prints the values of those that
took effect, last first, and passes the check. -/
theorem insertsDurable {root root' : Root} {as : List Attempt} {es : List (Nat × Int)}
    (holds : Holds root (root .head) es) (set : ∀ e ∈ es, e.2 ≠ 0) (values : ∀ a ∈ as, a.value ≠ 0)
    (ran : Ran listInsertConsistent root as root') :
    ∃ kept : List Attempt, (as.filter (fun a => 5 ≤ a.steps)).Sublist kept ∧
      kept.Sublist (as.filter (fun a => 4 ≤ a.steps)) ∧
      checkConsistency root' maxNodes = some 0 ∧
      listPrint root' maxNodes = some (printed ((kept.map Attempt.entry).reverse ++ es)) := by
  obtain ⟨kept,low,high,listed⟩ := ranHolds holds ran
  refine ⟨kept,low,high,?_,printHolds listed⟩
  rw [checkHolds listed,if_neg]
  intro zero
  obtain ⟨e,mem,zero⟩ := List.mem_map.mp zero
  rcases List.mem_append.mp mem with mem | mem
  · obtain ⟨a,here,rfl⟩ := List.mem_map.mp (List.mem_reverse.mp mem)
    exact values a (List.mem_of_mem_filter (high.subset here)) zero
  · exact set e mem zero

theorem freshOf {root : Root} {node : Nat} {es : List (Nat × Int)} (holds : Holds root (root .head) es)
    (positive : 0 < node) (bound : node < maxNodes) (new : node ∉ es.map Prod.fst) : Fresh root node :=
  ⟨positive,bound,fun fs other => by rwa [← holdsUnique holds other]⟩

/- The inserts of `main`, the last one cut between its stores of the head. -/
def goodCase : List Attempt := [⟨5,55,5⟩,⟨3,33,5⟩,⟨6,66,4⟩]

def goodRoot (as : List Attempt) : Root :=
  as.foldl (fun root a => (execs (settled root) ((listInsertConsistent a.node a.value).take a.steps)).cells) zeroed

theorem holdsZeroed : Holds zeroed (zeroed .head) [] := rfl

theorem insertsDurableGoodCase : ∃ kept : List Attempt, (goodCase.filter (fun a => 5 ≤ a.steps)).Sublist kept ∧
    kept.Sublist (goodCase.filter (fun a => 4 ≤ a.steps)) ∧
    checkConsistency (goodRoot goodCase) maxNodes = some 0 ∧
    listPrint (goodRoot goodCase) maxNodes = some (printed ((kept.map Attempt.entry).reverse ++ [])) := by
  have first : Holds (goodRoot (goodCase.take 1)) (goodRoot (goodCase.take 1) .head) [(5,55)] := by
    simp only [Holds]
    decide
  have second : Holds (goodRoot (goodCase.take 2)) (goodRoot (goodCase.take 2) .head) [(3,33),(5,55)] := by
    simp only [Holds]
    decide
  refine insertsDurable holdsZeroed (by simp) (by decide) ?_
  refine .more (freshOf holdsZeroed (by decide) (by decide) (by decide)) (cutCells _ _ _) ?_
  refine .more (freshOf first (by decide) (by decide) (by decide)) (cutCells _ _ _) ?_
  exact .more (freshOf second (by decide) (by decide) (by decide)) (cutCells _ _ _) (.start _)

theorem freshHead {root : Root} {node : Nat} {es : List (Nat × Int)} (holds : Holds root (root .head) es)
    (fresh : Fresh root node) : root .head ≠ node := by
  intro same
  cases es with
  | nil =>
    have zero : node = 0 := same.symm.trans holds
    exact absurd fresh.1 (by omega)
  | cons e es =>
    refine fresh.2.2 _ holds ?_
    rw [List.map_cons,← holds.1,same]
    exact List.mem_cons_self

theorem inconsistentCheck {root root' : Root} {node : Nat} {value : Int} {k : Nat} {es : List (Nat × Int)}
    (holds : Holds root (root .head) es) (set : ∀ e ∈ es, e.2 ≠ 0) (fresh : Fresh root node)
    (cut : Cut root (listInsertInconsistent node value) k root') :
    checkConsistency root' maxNodes = some (if root' .head = node ∧ root' (.value node) = 0 then 1 else 0) := by
  have old := holdsOther (fun c => inconsistentOther cut) holds fresh
  have whole : 0 ∉ es.map Prod.snd := by
    intro zero
    obtain ⟨e,mem,zero⟩ := List.mem_map.mp zero
    exact set e mem zero
  rcases inconsistentImage cut with ⟨_,head⟩ | ⟨_,head,next,_⟩
  · rw [← head] at old
    rw [checkHolds old,if_neg whole,if_neg]
    rintro ⟨same,_⟩
    exact freshHead holds fresh (head.symm.trans same)
  · rw [checkHolds (holdsLinked fresh head next old)]
    simp only [List.map_cons,List.mem_cons,whole,or_false,head,true_and,eq_comm (a := (0 : Int))]

theorem inconsistentImages (root : Root) (node : Nat) (value : Int) (k : Nat) :
    (k ≤ 3 → ∃ root', Cut root (listInsertInconsistent node value) k root' ∧ root' .head = root .head) ∧
    (3 ≤ k → k ≤ 5 → ∃ root', Cut root (listInsertInconsistent node value) k root' ∧
      root' .head = node ∧ root' (.value node) = root (.value node)) ∧
    (5 ≤ k → ∃ root', Cut root (listInsertInconsistent node value) k root' ∧ root' (.value node) = value) := by
  have read := cutCells root (listInsertInconsistent node value)
  refine ⟨fun early => ?_,fun low high => ?_,fun late => ?_⟩
  · rcases (show k = 0 ∨ k = 1 ∨ k = 2 ∨ k = 3 by omega) with rfl | rfl | rfl | rfl
    · exact ⟨_,read _,by simp [listInsertInconsistent,settled]⟩
    · exact ⟨_,read _,by simp [listInsertInconsistent,exec,settled]⟩
    · exact ⟨_,read _,by simp [listInsertInconsistent,exec,settled]⟩
    · exact ⟨_,cutStore rfl (read 2),by simp [listInsertInconsistent,exec,settled]⟩
  · rcases (show k = 3 ∨ k = 4 ∨ k = 5 by omega) with rfl | rfl | rfl
    · exact ⟨_,read _,by simp [listInsertInconsistent,exec,settled]⟩
    · exact ⟨_,read _,by simp [listInsertInconsistent,exec,settled]⟩
    · exact ⟨_,cutStore rfl (read 4),by simp [listInsertInconsistent,exec,settled]⟩
  · rcases Nat.eq_or_lt_of_le late with rfl | later
    · exact ⟨_,read _,by simp [listInsertInconsistent,exec,settled]⟩
    · obtain ⟨j,rfl⟩ := Nat.exists_eq_add_of_le' later
      exact ⟨_,read _,by simp [listInsertInconsistent,exec,settled]⟩

/-- After a cut at step `k`, some image of the inconsistent insert fails the check exactly when the head is
stored and the value not yet persisted, in a node whose value was 0; and each image fails exactly
between the persisted head and the store of the value. -/
theorem inconsistentFails {root : Root} {node : Nat} {value : Int} {k : Nat} {es : List (Nat × Int)}
    (holds : Holds root (root .head) es) (set : ∀ e ∈ es, e.2 ≠ 0) (fresh : Fresh root node) (nonzero : value ≠ 0) :
    let images := Cut root (listInsertInconsistent node value) k
    ((∃ root', images root' ∧ checkConsistency root' maxNodes = some 1) ↔
      root (.value node) = 0 ∧ 3 ≤ k ∧ k ≤ 5) ∧
    ((∀ root', images root' → checkConsistency root' maxNodes = some 1) ↔ root (.value node) = 0 ∧ k = 4) := by
  intro images
  have fails {root' : Root} (cut : images root') : checkConsistency root' maxNodes = some 1 ↔
      root' .head = node ∧ root' (.value node) = 0 := by
    rw [inconsistentCheck holds set fresh cut]
    split <;> simp_all
  have front := freshHead holds fresh
  obtain ⟨before,between,after⟩ := inconsistentImages root node value k
  constructor
  · constructor
    · rintro ⟨root',cut,bad⟩
      obtain ⟨head,zero⟩ := (fails cut).mp bad
      rcases inconsistentImage cut with ⟨_,same⟩ | ⟨low,_,_,⟨high,same⟩ | ⟨_,same⟩⟩
      · exact absurd (same.symm.trans head) front
      · exact ⟨same.symm.trans zero,low,high⟩
      · exact absurd (same.symm.trans zero) nonzero
    · rintro ⟨zero,low,high⟩
      obtain ⟨root',cut,head,same⟩ := between low high
      exact ⟨root',cut,(fails cut).mpr ⟨head,same.trans zero⟩⟩
  · constructor
    · intro all
      have low : 3 < k := by
        refine Nat.lt_of_not_le fun early => ?_
        obtain ⟨root',cut,same⟩ := before early
        exact front (same.symm.trans ((fails cut).mp (all root' cut)).1)
      have high : k < 5 := by
        refine Nat.lt_of_not_le fun late => ?_
        obtain ⟨root',cut,same⟩ := after late
        exact nonzero (same.symm.trans ((fails cut).mp (all root' cut)).2)
      obtain ⟨root',cut,_,same⟩ := between (by omega) (by omega)
      exact ⟨same.symm.trans ((fails cut).mp (all root' cut)).2,by omega⟩
    · rintro ⟨zero,rfl⟩ root' cut
      rcases inconsistentImage cut with ⟨late,_⟩ | ⟨_,head,_,⟨_,same⟩ | ⟨late,_⟩⟩
      · omega
      · exact (fails cut).mpr ⟨head,same.trans zero⟩
      · omega

theorem inconsistentFailsFirst :
    let images := Cut zeroed (listInsertInconsistent 5 55) 4
    ((∃ root', images root' ∧ checkConsistency root' maxNodes = some 1) ↔
      zeroed (.value 5) = 0 ∧ 3 ≤ 4 ∧ 4 ≤ 5) ∧
    ((∀ root', images root' → checkConsistency root' maxNodes = some 1) ↔ zeroed (.value 5) = 0 ∧ 4 = 4) :=
  inconsistentFails holdsZeroed (by simp) (freshOf holdsZeroed (by decide) (by decide) (by decide)) (by decide)

end MmRegression.PmreorderList
