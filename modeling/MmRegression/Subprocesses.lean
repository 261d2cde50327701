import MmRegression.BreadthFirst
import MmRegression.Filters

/-! `collect_subprocesses` and `kill_all_subprograms` of `lib/common.sh`: the processes under a pid, found
by grepping the parents in a file of `ppid pid` lines. A pattern is a blank-ended number or a number
between a blank and the end, so `grep` compares a prefix or a suffix. -/
namespace MmRegression.Subprocesses

open BreadthFirst

/- `cut -f2 -d' '` -/
def cutField2 (line : Text) : Text := cutFirst ' ' (cutRest ' ' line)

/- `cut -f1-2 -d' '` -/
def cutFields12 (line : Text) : Text := List.intercalate [' '] ((split ' ' line).take 2)

/- `tr '\n' ' '` -/
def trBlank (lines : List Text) : Text := lines.flatMap (fun line => line ++ [' '])

def grepChildren (psJx : List Text) (t : Text) : Text :=
  trBlank ((psJx.filter (startsWith (t ++ [' ']))).map cutField2)

/- `tmp` after the loop. -/
def subprocesses (psJx args : List Text) : Text := args.foldl (fun tmp t => tmp ++ ' '::grepChildren psJx t) []

/- What is printed, none while the fuel does not reach a call without arguments. -/
def collectSubprocesses (psJx : List Text) : Nat → List Text → Option Text
  | _, [] => some []
  | 0, _::_ => none
  | fuel+1, t::ts => do
      let tmp := subprocesses psJx (t::ts)
      let rest ← collectSubprocesses psJx fuel (words tmp)
      some (tmp ++ ' '::rest)

/- `awk '{print $1, $2}'`, with the columns counted from 0. -/
def awkPrint (columns : List Nat) (line : Text) : Text :=
  List.intercalate [' '] (columns.map (fun i => (words line).getD i []))

/- `.ps-jx` -/
def psJx (session : Text) (ps : List Text) : List Text :=
  (((ps.filter (fun line => !endsWith "ps jx".toList line)).map (awkPrint [0,1,3])).filter
    (endsWith (' '::session))).map cutFields12

def collectOrphanProcesses (ps : List Text) (sid : Text) : Text :=
  trBlank ((((ps.map (awkPrint [0,1,2,3])).filter (endsWith (' '::sid))).filter (fun line =>
    !endsWith (' '::(sid ++ (' '::(sid ++ ' '::sid)))) line && startsWith "1 ".toList line)).map cutField2)

/- The targets of the two `kill -9`; `ps jx` runs once for the subprocesses and once for the orphans. -/
def killAllSubprograms (fuel : Nat) (session : Text) (ps ps2 : List Text) (pid self : Text) :
    Option (List Text × List Text) := do
  let subprocs ← collectSubprocesses (psJx session ps) fuel (words pid)
  let orphanprocs := collectOrphanProcesses ps2 session
  some ((if self = [] then [] else words pid) ++ words subprocs,words orphanprocs)

/-! ### The table -/

def row (r : Nat × Nat) : Text := digits r.1 ++ ' '::digits r.2

def children (table : List (Nat × Nat)) (p : Nat) : List Nat := (table.filter (fun r => r.1 = p)).map Prod.snd

def Parent (table : List (Nat × Nat)) (p c : Nat) : Prop := (p,c) ∈ table

/- A line of `ps jx` under its header. -/
structure Process where
  line : Text
  ppid : Nat
  pid : Nat
  pgid : Nat
  sid : Nat
  columns : ∃ more, words line = digits ppid::digits pid::digits pgid::digits sid::more

def Process.edge (p : Process) : Nat × Nat := (p.ppid,p.pid)

/- What `grep` leaves of a session: `ps jx` itself is taken out. -/
def Process.ofSession (session : Nat) (p : Process) : Bool :=
  !endsWith "ps jx".toList p.line && decide (p.sid = session)

structure ProcessTable (table : List (Nat × Nat)) : Prop where
  distinct : (table.map Prod.snd).Nodup
  acyclic : ∀ p, ¬Relation.TransGen (Parent table) p p

structure Collected (table : List (Nat × Nat)) (start : Nat) (output : Text) (pids : List Nat) : Prop where
  printed : words output = pids.map digits
  once : pids.Nodup
  descendants : ∀ p, p ∈ pids ↔ Relation.TransGen (Parent table) start p
  ordered : ∀ p c, (p,c) ∈ table → c ∈ pids → p = start ∨ [p,c].Sublist pids
  spared : digits start ∉ words output

/-! ### The text -/

theorem digitsClean (n : Nat) : ' ' ∉ digits n := digitsFree n (by decide)

theorem digitsToken (n : Nat) : Token (digits n) := by
  refine ⟨digitsSome n,fun c mem => ⟨?_,?_,?_⟩⟩
  all_goals
    intro same
    exact digitsFree n (by decide) (same ▸ mem)

theorem rowField (r : Nat × Nat) : cutField2 (row r) = digits r.2 := by
  rw [cutField2,row,cutRestAppend (digitsClean r.1),cutFirstClean (digitsClean r.2)]

/- 1 is not taken for 12. -/
theorem rowStarts (r : Nat × Nat) (p : Nat) : startsWith (digits p ++ [' ']) (row r) = decide (r.1 = p) := by
  rw [Bool.eq_iff_iff,decide_eq_true_eq,startsWith,List.isPrefixOf_iff_prefix]
  constructor
  · intro started
    obtain ⟨rest,same⟩ := started
    rw [row,List.append_assoc,List.singleton_append] at same
    have cut := congrArg (cutFirst ' ') same
    rw [cutFirstAppend (digitsClean p),cutFirstAppend (digitsClean r.1)] at cut
    exact (digitsInjective cut).symm
  · intro same
    exact ⟨digits r.2,by rw [row,same,List.append_assoc,List.singleton_append]⟩

theorem endsField (a : Text) (m n : Nat) : endsWith (' '::digits m) (a ++ ' '::digits n) = decide (n = m) := by
  rw [Bool.eq_iff_iff,decide_eq_true_eq,endsWith,List.isSuffixOf_iff_suffix]
  constructor
  · intro suffix
    obtain ⟨front,same⟩ := suffix
    have cut := congrArg (split ' ') same
    rw [splitAppend,splitAppend,splitClean (digitsClean m),splitClean (digitsClean n)] at cut
    exact (digitsInjective (List.cons.inj (List.append_inj_right' cut rfl)).1).symm
  · intro same
    exact ⟨a,by rw [same]⟩

theorem awkProcess (p : Process) : awkPrint [0,1,3] p.line = row p.edge ++ ' '::digits p.sid := by
  obtain ⟨more,shape⟩ := p.columns
  have columns : [0,1,3].map (fun i => (words p.line).getD i []) = [digits p.ppid,digits p.pid,digits p.sid] := by
    rw [shape]
    rfl
  rw [awkPrint,columns,joinCons,joinCons,List.intercalate_singleton,row,List.append_assoc]
  rfl

theorem cutRow (r : Nat × Nat) (rest : Text) : cutFields12 (row r ++ ' '::rest) = row r := by
  rw [cutFields12,row,List.append_assoc,List.cons_append,splitCons (digitsClean r.1),splitCons (digitsClean r.2)]
  exact (joinCons _ _ _).trans (congrArg _ (congrArg _ List.intercalate_singleton))

/- The file has a row for each process of the session, whatever else `ps jx` prints. -/
theorem psJxTable (session : Nat) (ps : List Process) :
    psJx (digits session) (ps.map Process.line) =
      ((ps.filter (Process.ofSession session)).map Process.edge).map row := by
  have kept : ∀ p : Process, (endsWith (' '::digits session) (awkPrint [0,1,3] p.line) &&
      !endsWith "ps jx".toList p.line) = p.ofSession session := by
    intro p
    rw [awkProcess,endsField,Process.ofSession,Bool.and_comm]
  have written : ∀ p : Process, cutFields12 (awkPrint [0,1,3] p.line) = row p.edge := by
    intro p
    rw [awkProcess,cutRow]
  simp only [psJx,List.filter_map,List.filter_filter,List.map_map,Function.comp_def,kept,written]

theorem wordsTr {lines : List Text} (tokens : ∀ w ∈ lines, Token w) : words (trBlank lines) = lines := by
  induction lines with
  | nil => rfl
  | cons line lines ih =>
    rw [trBlank,List.flatMap_cons,List.append_assoc,List.singleton_append,wordsCons (tokens line List.mem_cons_self)]
    exact congrArg (line :: ·) (ih (fun w mem => tokens w (List.mem_cons_of_mem line mem)))

theorem grepWords (table : List (Nat × Nat)) (p : Nat) :
    words (grepChildren (table.map row) (digits p)) = (children table p).map digits := by
  have found : ((table.map row).filter (startsWith (digits p ++ [' ']))).map cutField2 =
      (children table p).map digits := by
    simp only [children,List.filter_map,List.map_map,Function.comp_def,rowStarts,rowField]
  rw [grepChildren,found]
  refine wordsTr ?_
  intro w mem
  obtain ⟨n,-,rfl⟩ := List.mem_map.mp mem
  exact digitsToken n

theorem subprocessWords (psJx args : List Text) :
    words (subprocesses psJx args) = args.flatMap (fun t => words (grepChildren psJx t)) := by
  have after (tmp : Text) : words (args.foldl (fun tmp t => tmp ++ ' '::grepChildren psJx t) tmp) =
      words tmp ++ args.flatMap (fun t => words (grepChildren psJx t)) := by
    induction args generalizing tmp with
    | nil => exact (List.append_nil _).symm
    | cons t ts ih => rw [List.foldl_cons,ih,wordsAppend,List.append_assoc,List.flatMap_cons]
  exact after []

theorem collectWords (psJx : List Text) (fuel : Nat) (t : Text) (ts : List Text) :
    (collectSubprocesses psJx (fuel+1) (t::ts)).map words =
      ((collectSubprocesses psJx fuel (words (subprocesses psJx (t::ts)))).map words).map
        (words (subprocesses psJx (t::ts)) ++ ·) := by
  rw [collectSubprocesses]
  cases collectSubprocesses psJx fuel (words (subprocesses psJx (t::ts))) with
  | none => rfl
  | some rest => exact congrArg some (wordsAppend _ _)

/- The recursion over the file is the search of the table. -/
theorem collectSearch (table : List (Nat × Nat)) (fuel : Nat) (pids : List Nat) :
    (collectSubprocesses (table.map row) fuel (pids.map digits)).map words =
      (search (children table) fuel pids).map (List.map digits) := by
  induction fuel generalizing pids with
  | zero => cases pids <;> rfl
  | succ fuel ih =>
    cases pids with
    | nil => rfl
    | cons p ps =>
      have next : words (subprocesses (table.map row) ((p::ps).map digits)) =
          ((p::ps).flatMap (children table)).map digits := by
        rw [subprocessWords,List.flatMap_map,List.map_flatMap]
        exact List.flatMap_congr (fun q _ => grepWords table q)
      rw [List.map_cons,collectWords,← List.map_cons,next,ih,search]
      cases search (children table) fuel ((p::ps).flatMap (children table)) with
      | none => rfl
      | some rest => exact congrArg some List.map_append.symm

/- More fuel prints the same. -/
theorem collectMore {psJx args : List Text} {fuel more : Nat} {output : Text}
    (printed : collectSubprocesses psJx fuel args = some output) (le : fuel ≤ more) :
    collectSubprocesses psJx more args = some output := by
  induction fuel generalizing more args output with
  | zero =>
    cases args with
    | nil =>
      rw [← printed]
      cases more <;> rfl
    | cons t ts => contradiction
  | succ fuel ih =>
    cases more with
    | zero => omega
    | succ more =>
      cases args with
      | nil => exact printed
      | cons t ts =>
        rw [collectSubprocesses] at printed ⊢
        obtain ⟨rest,collected,shape⟩ := Option.bind_eq_some_iff.mp printed
        exact Option.bind_eq_some_iff.mpr ⟨rest,ih collected (by omega),shape⟩

/-! ### The tree -/

theorem childTable {table : List (Nat × Nat)} {p c : Nat} : c ∈ children table p ↔ (p,c) ∈ table := by
  simp [children]

theorem childParent (table : List (Nat × Nat)) : Child (children table) = Parent table := by
  funext p c
  exact propext childTable

theorem tableForest {table : List (Nat × Nat)} (valid : ProcessTable table) : Forest (children table) where
  single := by
    intro p q c left right
    exact congrArg Prod.fst (List.inj_on_of_nodup_map valid.distinct (childTable.mp left) (childTable.mp right) rfl)
  distinct := by
    intro p
    exact List.Nodup.sublist (List.filter_sublist.map Prod.snd) valid.distinct
  acyclic := by
    rw [childParent]
    exact valid.acyclic

theorem tableInside {table : List (Nat × Nat)} : ∀ p, ∀ c ∈ children table p, c ∈ table.map Prod.snd := by
  intro p c child
  exact List.mem_map.mpr ⟨(p,c),childTable.mp child,rfl⟩

theorem subtreeCollected {table : List (Nat × Nat)} (valid : ProcessTable table) (start : Nat) :
    ∃ output pids, Collected table start output pids ∧
      (∀ fuel, table.length < fuel → collectSubprocesses (table.map row) fuel [digits start] = some output) ∧
      ∀ fuel session ps ps2, table.length < fuel → psJx session ps = table.map row →
        ∃ orphans, killAllSubprograms fuel session ps ps2 (digits start) [] = some (words output,orphans) := by
  have forest := tableForest valid
  obtain ⟨pids,searched,subtree⟩ := searchSubtree forest tableInside start
  rw [List.length_map] at searched
  have same := collectSearch table (table.length+1) [start]
  rw [searched] at same
  obtain ⟨output,collected,printed⟩ := Option.map_eq_some_iff.mp same
  have enough : ∀ fuel, table.length < fuel →
      collectSubprocesses (table.map row) fuel [digits start] = some output :=
    fun fuel le => collectMore collected le
  refine ⟨output,pids,⟨printed,subtree.distinct,?_,?_,?_⟩,enough,?_⟩
  · rw [← childParent]
    exact subtree.members
  · intro p c mem inside
    exact subtree.ordered p c inside (childTable.mpr mem)
  · rw [printed]
    intro mem
    exact startApart forest subtree ((List.mem_map_of_injective (fun _ _ => digitsInjective)).mp mem)
  · intro fuel session ps ps2 le written
    refine ⟨words (collectOrphanProcesses ps2 session),?_⟩
    rw [killAllSubprograms,written,wordsOne (digitsToken start),enough fuel le]
    rfl

/- 1 has the children 12 and 13, and 12 the child 120. -/
theorem subtreeCollectedTree : ∃ output pids, Collected [(12,120),(1,12),(1,13)] 1 output pids ∧
    (∀ fuel, 3 < fuel → collectSubprocesses ([(12,120),(1,12),(1,13)].map row) fuel [digits 1] = some output) ∧
    ∀ fuel session ps ps2, 3 < fuel → psJx session ps = [(12,120),(1,12),(1,13)].map row →
      ∃ orphans, killAllSubprograms fuel session ps ps2 (digits 1) [] = some (words output,orphans) := by
  have rising : ∀ r ∈ [(12,120),(1,12),(1,13)], r.1 < r.2 := by decide
  refine subtreeCollected ⟨by decide,fun p cycle => ?_⟩ 1
  have later : ∀ {c}, Relation.TransGen (Parent [(12,120),(1,12),(1,13)]) p c → p < c := by
    intro c path
    induction path with
    | single child => exact rising _ child
    | tail _ child ih => exact ih.trans (rising _ child)
  exact absurd (later cycle) (Nat.lt_irrefl p)

example : collectSubprocesses ["12 120".toList,"1 12".toList,"1 13".toList] 4 ["1".toList] =
    some " 12 13   120     ".toList := by decide

end MmRegression.Subprocesses
