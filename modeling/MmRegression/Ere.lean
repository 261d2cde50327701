import Mathlib.Data.List.Forall2
import Mathlib.Data.List.Infix

/-! Extended regular expressions made of ordinary characters, groups and alternatives, and the
unanchored match of `[[ =~ ]]`. The other special characters are outside: a pattern that has one is
not parsed. Nothing here names the harness. -/
namespace MmRegression.Ere

inductive Regex where
  | empty
  | char (c : Char)
  | seq (a b : Regex)
  | alt (a b : Regex)
  deriving DecidableEq, Repr

def Accepts : Regex → List Char → Prop
  | .empty, t => t = []
  | .char c, t => t = [c]
  | .seq a b, t => ∃ u v, t = u ++ v ∧ Accepts a u ∧ Accepts b v
  | .alt a b, t => Accepts a t ∨ Accepts b t

/- What can be left of a text after a match at its start. -/
def rests : Regex → List Char → List (List Char)
  | .empty, t => [t]
  | .char c, t => if t.head? = some c then [t.tail] else []
  | .seq a b, t => (rests a t).flatMap (rests b)
  | .alt a b, t => rests a t ++ rests b t

def search (r : Regex) (t : List Char) : Bool := t.tails.any (fun u => !(rests r u).isEmpty)

theorem restsIff (r : Regex) (t rest : List Char) : rest ∈ rests r t ↔ ∃ w, t = w ++ rest ∧ Accepts r w := by
  induction r generalizing t rest with
  | empty => simp [rests,Accepts,eq_comm]
  | char c =>
    cases t with
    | nil => simp [rests,Accepts]
    | cons d t =>
      simp only [rests,Accepts,List.head?_cons,Option.some.injEq,List.tail_cons]
      split
      · rename_i same
        simp [same,eq_comm]
      · rename_i other
        simp [other]
  | seq a b iha ihb =>
    simp only [rests,Accepts,List.mem_flatMap,iha,ihb]
    constructor
    · intro found
      obtain ⟨mid,⟨u,rfl,first⟩,⟨v,rfl,second⟩⟩ := found
      exact ⟨u ++ v,by simp,u,v,rfl,first,second⟩
    · intro found
      obtain ⟨_,rfl,u,v,rfl,first,second⟩ := found
      exact ⟨v ++ rest,⟨u,by simp,first⟩,⟨v,rfl,second⟩⟩
  | alt a b iha ihb =>
    simp only [rests,Accepts,List.mem_append,iha,ihb]
    constructor
    · rintro (⟨w,whole,left⟩ | ⟨w,whole,right⟩)
      · exact ⟨w,whole,.inl left⟩
      · exact ⟨w,whole,.inr right⟩
    · rintro ⟨w,whole,left | right⟩
      · exact .inl ⟨w,whole,left⟩
      · exact .inr ⟨w,whole,right⟩

theorem searchIff (r : Regex) (t : List Char) :
    search r t = true ↔ ∃ a w b, t = a ++ (w ++ b) ∧ Accepts r w := by
  simp only [search,List.any_eq_true,List.mem_tails,Bool.not_eq_true',List.isEmpty_eq_false_iff_exists_mem,restsIff]
  constructor
  · intro found
    obtain ⟨u,⟨a,rfl⟩,b,w,rfl,accepted⟩ := found
    exact ⟨a,w,b,rfl,accepted⟩
  · intro found
    obtain ⟨a,w,b,rfl,accepted⟩ := found
    exact ⟨w ++ b,⟨a,rfl⟩,b,w,rfl,accepted⟩

/- An open group: the alternatives that `|` has closed, and the one being read. -/
structure Frame where
  closed : Option Regex
  current : Regex
  deriving DecidableEq, Repr

def Frame.start : Frame := ⟨none,.empty⟩

def Frame.add (f : Frame) (r : Regex) : Frame := { f with current := .seq f.current r }

def Frame.close (f : Frame) : Regex :=
  match f.closed with
  | none => f.current
  | some r => .alt r f.current

def special (c : Char) : Bool := ".[]\\*^$+?{}()|".toList.contains c

def parseStep (s : Frame × List Frame) (c : Char) : Option (Frame × List Frame) :=
  if c = '(' then some (.start,s.1::s.2)
  else if c = ')' then
    match s.2 with
    | [] => none
    | outer::rest => some (outer.add s.1.close,rest)
  else if c = '|' then some (⟨some s.1.close,.empty⟩,s.2)
  else if special c then none
  else some (s.1.add (.char c),s.2)

def parse (t : List Char) : Option Regex :=
  match t.foldlM parseStep (.start,[]) with
  | some (f,[]) => some f.close
  | _ => none

def regMatch (pattern t : List Char) : Option Bool := (parse pattern).map (fun r => search r t)

def literal (r : Regex) (w : List Char) : Regex := w.foldl (fun r c => .seq r (.char c)) r

theorem acceptsLiteral (r : Regex) (w t : List Char) : Accepts (literal r w) t ↔ ∃ u, t = u ++ w ∧ Accepts r u := by
  induction w generalizing r with
  | nil => simp [literal]
  | cons c w ih =>
    have tail := ih (.seq r (.char c))
    simp only [literal,List.foldl_cons] at tail ⊢
    rw [tail]
    simp only [Accepts]
    constructor
    · intro found
      obtain ⟨_,whole,u,_,rfl,accepted,rfl⟩ := found
      exact ⟨u,by simpa using whole,accepted⟩
    · intro ⟨u,whole,accepted⟩
      exact ⟨u ++ [c],by simpa using whole,u,[c],rfl,accepted,rfl⟩

def Plain (w : List Char) : Prop := ∀ c ∈ w, special c = false

theorem parsePlain {c : Char} (plain : special c = false) (f : Frame) (stack : List Frame) :
    parseStep (f,stack) c = some (f.add (.char c),stack) := by
  have notOpen : c ≠ '(' := by rintro rfl; simp [special] at plain
  have notClose : c ≠ ')' := by rintro rfl; simp [special] at plain
  have notBar : c ≠ '|' := by rintro rfl; simp [special] at plain
  simp [parseStep,notOpen,notClose,notBar,plain]

theorem parseWord {w : List Char} (plain : Plain w) (f : Frame) (stack : List Frame) :
    w.foldlM parseStep (f,stack) = some ({ f with current := literal f.current w },stack) := by
  induction w generalizing f with
  | nil => rfl
  | cons c w ih =>
    rw [List.foldlM_cons,parsePlain (plain c (by simp))]
    exact ih (fun d mem => plain d (List.mem_cons_of_mem c mem)) (f.add (.char c))

/- The frame of a group after its words have been read. -/
def choice (w : List Char) (ws : List (List Char)) : Frame :=
  ws.foldl (fun f v => ⟨some f.close,literal .empty v⟩) ⟨none,literal .empty w⟩

theorem acceptsWord (w t : List Char) : Accepts (literal .empty w) t ↔ t = w := by
  simp [acceptsLiteral,Accepts]

theorem acceptsChoices (f : Frame) (ws : List (List Char)) (t : List Char) :
    Accepts (ws.foldl (fun f v => ⟨some f.close,literal .empty v⟩) f).close t ↔ Accepts f.close t ∨ t ∈ ws := by
  induction ws generalizing f with
  | nil => simp
  | cons v ws ih =>
    rw [List.foldl_cons,ih,List.mem_cons,← or_assoc]
    simp only [Frame.close,Accepts,acceptsWord]

theorem acceptsChoice (w : List Char) (ws : List (List Char)) (t : List Char) :
    Accepts (choice w ws).close t ↔ t ∈ w::ws := by
  rw [choice,acceptsChoices,List.mem_cons,← acceptsWord w t]
  rfl

theorem parseChoices {ws : List (List Char)} (plain : ∀ w ∈ ws, Plain w) (f : Frame) (stack : List Frame) :
    (ws.flatMap (fun v => '|'::v)).foldlM parseStep (f,stack) =
      some (ws.foldl (fun f v => ⟨some f.close,literal .empty v⟩) f,stack) := by
  induction ws generalizing f with
  | nil => rfl
  | cons v ws ih =>
    have bar : parseStep (f,stack) '|' = some (⟨some f.close,.empty⟩,stack) := by simp [parseStep]
    rw [List.flatMap_cons,List.foldlM_append,List.foldlM_cons,bar]
    simp only [Option.bind_eq_bind,Option.bind_some]
    rw [parseWord (plain v (by simp)),Option.bind_some,ih (fun w mem => plain w (List.mem_cons_of_mem v mem))]
    rfl

/- A part of a pattern: a word that stands for itself, or words to choose from. -/
inductive Segment where
  | word (w : List Char)
  | oneOf (w : List Char) (ws : List (List Char))
  deriving DecidableEq, Repr

def Segment.choices : Segment → List (List Char)
  | .word w => [w]
  | .oneOf w ws => w::ws

def Segment.text : Segment → List Char
  | .word w => w
  | .oneOf w ws => '(' :: (w ++ (ws.flatMap (fun v => '|'::v) ++ [')']))

def Segment.after (r : Regex) : Segment → Regex
  | .word w => literal r w
  | .oneOf w ws => .seq r (choice w ws).close

theorem parseSegment {s : Segment} (plain : ∀ w ∈ s.choices, Plain w) (f : Frame) (stack : List Frame) :
    s.text.foldlM parseStep (f,stack) = some ({ f with current := s.after f.current },stack) := by
  cases s with
  | word w => exact parseWord (plain w (by simp [Segment.choices])) f stack
  | oneOf w ws =>
    have opened : parseStep (f,stack) '(' = some (.start,f::stack) := by simp [parseStep]
    have inner := parseChoices (fun v mem => plain v (List.mem_cons_of_mem w mem)) ⟨none,literal .empty w⟩ (f::stack)
    rw [Segment.text,List.foldlM_cons,opened]
    simp only [Option.bind_eq_bind,Option.bind_some,List.foldlM_append]
    rw [parseWord (plain w (by simp [Segment.choices])),Option.bind_some]
    simp only [Frame.start]
    rw [inner]
    simp [parseStep,Frame.add,Segment.after,choice]

theorem parseSegments {segments : List Segment} (plain : ∀ s ∈ segments, ∀ w ∈ s.choices, Plain w) (f : Frame)
    (stack : List Frame) : (segments.flatMap Segment.text).foldlM parseStep (f,stack) =
      some ({ f with current := segments.foldl Segment.after f.current },stack) := by
  induction segments generalizing f with
  | nil => rfl
  | cons s segments ih =>
    rw [List.flatMap_cons,List.foldlM_append,parseSegment (plain s (by simp)),Option.bind_eq_bind,Option.bind_some,
      ih (fun x mem => plain x (List.mem_cons_of_mem s mem))]
    rfl

def Chosen (segments : List Segment) (ws : List (List Char)) : Prop :=
  List.Forall₂ (fun s w => w ∈ s.choices) segments ws

theorem acceptsSegment (r : Regex) (s : Segment) (t : List Char) :
    Accepts (s.after r) t ↔ ∃ u, ∃ w ∈ s.choices, t = u ++ w ∧ Accepts r u := by
  cases s with
  | word w => simp [Segment.after,Segment.choices,acceptsLiteral]
  | oneOf w ws =>
    simp only [Segment.after,Accepts,acceptsChoice,Segment.choices]
    constructor
    · intro ⟨u,v,whole,accepted,mem⟩
      exact ⟨u,v,mem,whole,accepted⟩
    · intro ⟨u,v,mem,whole,accepted⟩
      exact ⟨u,v,whole,accepted,mem⟩

theorem acceptsSegments (segments : List Segment) (r : Regex) (t : List Char) :
    Accepts (segments.foldl Segment.after r) t ↔ ∃ u ws, t = u ++ ws.flatten ∧ Accepts r u ∧ Chosen segments ws := by
  induction segments generalizing r with
  | nil => simp [Chosen,List.forall₂_nil_left_iff]
  | cons s segments ih =>
    rw [List.foldl_cons,ih]
    simp only [acceptsSegment]
    constructor
    · intro found
      obtain ⟨_,ws,whole,⟨u,w,mem,rfl,accepted⟩,chosen⟩ := found
      exact ⟨u,w::ws,by simpa using whole,accepted,.cons mem chosen⟩
    · intro ⟨u,_,whole,accepted,chosen⟩
      cases chosen with
      | cons mem tail => exact ⟨u ++ _,_,by simpa using whole,⟨u,_,mem,rfl,accepted⟩,tail⟩

theorem regMatchSegments {segments : List Segment} (plain : ∀ s ∈ segments, ∀ w ∈ s.choices, Plain w) (t : List Char) :
    ∃ matched, regMatch (segments.flatMap Segment.text) t = some matched ∧
      (matched = true ↔ ∃ a ws b, t = a ++ (ws.flatten ++ b) ∧ Chosen segments ws) := by
  have parsed : parse (segments.flatMap Segment.text) = some (segments.foldl Segment.after .empty) := by
    rw [parse,parseSegments plain]
    rfl
  refine ⟨search (segments.foldl Segment.after .empty) t,by rw [regMatch,parsed]; rfl,?_⟩
  rw [searchIff]
  simp only [acceptsSegments,Accepts]
  constructor
  · intro found
    obtain ⟨a,_,b,whole,_,ws,rfl,rfl,chosen⟩ := found
    exact ⟨a,ws,b,by simpa using whole,chosen⟩
  · intro ⟨a,ws,b,whole,chosen⟩
    exact ⟨a,ws.flatten,b,whole,[],ws,rfl,rfl,chosen⟩

example : regMatch "A (B|C) Z".toList "A C Z".toList = some true := by decide
example : regMatch "A (B|C) Z".toList "A CB Z".toList = some false := by decide
example : regMatch "A B* Z".toList "A Z".toList = none := by decide

end MmRegression.Ere
