import MmRegression.Ere
import MmRegression.Fields
import MmRegression.Recipes
import MmRegression.Trials

/-! The return code of a trial: `set_return_code` and what `check_system_default` makes of it. -/
namespace MmRegression

def echo (args : List Text) : Text := List.intercalate [' '] (args.dropWhile echoOption)

/- `tr -s` with one character. -/
def trSqueeze (c : Char) : Text → Text
  | a::b::t => if a = c ∧ b = c then trSqueeze c (b::t) else a :: trSqueeze c (b::t)
  | t => t

def initReturnCode : List Text := []

def setReturnCode (seq : List Text) (args : List Text) : List Text := seq ++ [echo args]

def getReturnCodeSeq (seq : List Text) : Text :=
  ((seq.flatMap (fun line => line ++ [' '])).reverse.dropWhile (· == ' ')).reverse

def returnCodeEvent (known : Bool) (expected returned : Text) (matched : Bool) : Event :=
  if matched then .success known ("return code: ".toList ++ returned)
  else .failure known ("return code: ".toList ++ (returned ++ (" (expected ".toList ++ (expected ++ [')']))))

/- `known` is `FALSENEGATIVE` or `KNOWN_FAILURE`. `none` when the expected code is a pattern that
`Ere` does not parse. -/
def checkReturnCode (known : Bool) (expected : Text) (seq : List Text) : Option (List Event) :=
  if expected.isEmpty then some []
  else
    let expected2 := 'A' :: ' ' :: (expected ++ [' ', 'Z'])
    let returned := getReturnCodeSeq seq
    let returned2 := 'A' :: ' ' :: (returned ++ [' ', 'Z'])
    (Ere.regMatch expected2 returned2).map (fun matched =>
      [.testcount,returnCodeEvent known expected returned matched])

def checkKernelMessageNobug (known : Bool) (dmesgDiff : List Text) : List Event :=
  [.testcount,
    if dmesgDiff.any (fun line => contains "BUG:".toList line || contains "WARNING:".toList line) then
      .failure known "Kernel 'BUG:'/'WARNING:' message".toList
    else .success known "No Kernel 'BUG:'/'WARNING:' message".toList]

def checkSystemDefault (known : Bool) (dmesgDiff : List Text) (expectedReturnCode : Text) (seq : List Text) :
    Option (List Event) :=
  let kernel := checkKernelMessageNobug known dmesgDiff
  if expectedReturnCode.isEmpty then some kernel
  else (checkReturnCode known (trSqueeze ' ' (echo (words expectedReturnCode))) seq).map (kernel ++ ·)

/- A token of `[A-Za-z0-9_]`. -/
abbrev CodeToken := {t : Text // t ≠ [] ∧ ∀ c ∈ t, isWord c = true}

/- An item of `EXPECTED_RETURN_CODE`, plain or in parentheses. -/
inductive CodeItem where
  | plain (t : CodeToken)
  | oneOf (t : CodeToken) (ts : List CodeToken)
  deriving DecidableEq, Repr

def CodeItem.tokens : CodeItem → List CodeToken
  | .plain t => [t]
  | .oneOf t ts => t::ts

def CodeItem.segment : CodeItem → Ere.Segment
  | .plain t => .word t.val
  | .oneOf t ts => .oneOf t.val (ts.map Subtype.val)

def CodeItem.text (i : CodeItem) : Text := i.segment.text

/- A call of `set_return_code` records one token or more. -/
abbrev CodeCall := CodeToken × List CodeToken

def CodeCall.args (c : CodeCall) : List CodeToken := c.1::c.2

def returnCodeSeq (calls : List CodeCall) : List Text :=
  (calls.map (fun c => (CodeCall.args c).map Subtype.val)).foldl setReturnCode initReturnCode

def recordedTokens (calls : List CodeCall) : List CodeToken := calls.flatMap CodeCall.args

def CodeAllowed (items : List CodeItem) (recorded : List CodeToken) : Prop :=
  List.Forall₂ (fun i t => t ∈ i.tokens) items recorded

instance (items : List CodeItem) (recorded : List CodeToken) : Decidable (CodeAllowed items recorded) := by
  unfold CodeAllowed; infer_instance

/-- The check counts a success when every recorded token is allowed by the item at its place, and a
failure when not. -/
def ReturnCodeExact (known : Bool) (dmesgDiff : List Text) (expected : Text) (items : List CodeItem)
    (calls : List CodeCall) : Prop :=
  checkSystemDefault known dmesgDiff expected (returnCodeSeq calls) =
    some (checkKernelMessageNobug known dmesgDiff ++
      [.testcount,returnCodeEvent known (List.intercalate [' '] (items.map CodeItem.text))
        (List.intercalate [' '] ((recordedTokens calls).map Subtype.val)) (decide (CodeAllowed items (recordedTokens calls)))])

instance (known : Bool) (dmesgDiff : List Text) (expected : Text) (items : List CodeItem) (calls : List CodeCall) :
    Decidable (ReturnCodeExact known dmesgDiff expected items calls) := by
  unfold ReturnCodeExact; infer_instance

theorem wordChar {c : Char} (word : isWord c = true) : c ≠ ' ' ∧ c ≠ '-' ∧ c ≠ '\t' ∧ c ≠ '\n' ∧ Ere.special c = false := by
  have other : ∀ d : Char, isWord d = false → c ≠ d := by
    intro d no same
    rw [← same,word] at no
    contradiction
  refine ⟨other _ (by decide),other _ (by decide),other _ (by decide),other _ (by decide),?_⟩
  cases found : Ere.special c with
  | false => rfl
  | true =>
    have listed : ∀ d ∈ ".[]\\*^$+?{}()|".toList, isWord d = false := List.forall_iff_forall_mem.mp (by decide)
    have mem : c ∈ ".[]\\*^$+?{}()|".toList := by simpa [Ere.special] using found
    exact absurd rfl (other c (listed c mem))

theorem codeTokenClean (t : CodeToken) : ' ' ∉ t.val := fun mem => (wordChar (t.property.2 ' ' mem)).1 rfl

theorem codeTokenPlain (t : CodeToken) : Ere.Plain t.val := fun c mem => (wordChar (t.property.2 c mem)).2.2.2.2

theorem echoJoin {c : Char} {w : Text} (other : c ≠ '-') (ws : List Text) :
    echo ((c::w)::ws) = List.intercalate [' '] ((c::w)::ws) := by
  have plain : echoOption (c::w) = false := by
    unfold echoOption
    split
    · rename_i same
      exact absurd (List.cons.inj same).1 other
    · rfl
  simp [echo,plain]

theorem echoTokens (t : CodeToken) (ts : List CodeToken) :
    echo ((t::ts).map Subtype.val) = List.intercalate [' '] ((t::ts).map Subtype.val) := by
  obtain ⟨w,filled,word⟩ := t
  cases w with
  | nil => contradiction
  | cons c w => exact echoJoin (wordChar (word c (by simp))).2.1 _

theorem setReturnCodes (seq : List Text) (calls : List (List Text)) :
    calls.foldl setReturnCode seq = seq ++ calls.map echo := by
  induction calls generalizing seq with
  | nil => simp
  | cons args calls ih => rw [List.foldl_cons,ih,setReturnCode,List.map_cons,List.append_assoc,List.singleton_append]

theorem returnCodeLines (calls : List CodeCall) :
    (returnCodeSeq calls).flatMap (fun line => line ++ [' ']) =
      (recordedTokens calls).flatMap (fun t => t.val ++ [' ']) := by
  have line : ∀ c : CodeCall, echo ((CodeCall.args c).map Subtype.val) ++ [' '] =
      (CodeCall.args c).flatMap (fun t => t.val ++ [' ']) := by
    intro c
    rw [CodeCall.args,echoTokens,List.map_cons,joinEnded,← List.map_cons,List.flatMap_map]
  rw [returnCodeSeq,setReturnCodes,initReturnCode,List.nil_append,List.map_map,List.flatMap_map,recordedTokens,
    List.flatMap_assoc]
  exact congrArg (fun f => calls.flatMap f) (funext line)

/- The newlines become blanks and the last one goes. -/
theorem returnedText (calls : List CodeCall) :
    getReturnCodeSeq (returnCodeSeq calls) = List.intercalate [' '] ((recordedTokens calls).map Subtype.val) := by
  rw [getReturnCodeSeq,returnCodeLines]
  obtain none | ⟨front,last,shape⟩ := List.eq_nil_or_concat' (recordedTokens calls)
  · simp [none]
  · have ended : List.intercalate [' '] ((front ++ [last]).map Subtype.val) ++ [' '] =
        (front ++ [last]).flatMap (fun t => t.val ++ [' ']) := by
      cases front with
      | nil => simp
      | cons t front => rw [List.cons_append,List.map_cons,joinEnded,← List.map_cons,List.flatMap_map]
    rw [shape,← ended]
    rw [List.flatMap_append,List.flatMap_singleton,← List.append_assoc] at ended
    rw [List.append_cancel_right ended]
    obtain ⟨w,filled,word⟩ := last
    obtain ⟨back,c,rfl⟩ := (List.eq_nil_or_concat' w).resolve_left filled
    have other := (wordChar (word c (by simp))).1
    simp [other]

theorem trSqueezeWord {c : Char} {w : Text} (clean : c ∉ w) (rest : Text) :
    trSqueeze c (w ++ rest) = w ++ trSqueeze c rest := by
  induction w with
  | nil => rfl
  | cons a w ih =>
    have head : a ≠ c := fun same => clean (by simp [same])
    have tail := ih (fun mem => clean (by simp [mem]))
    rw [List.cons_append,List.cons_append,← tail]
    cases w ++ rest with
    | nil => rfl
    | cons b t => simp [trSqueeze,head]

theorem trSqueezeJoin {c : Char} {ws : List Text} (clean : ∀ w ∈ ws, w ≠ [] ∧ c ∉ w) :
    trSqueeze c (List.intercalate [c] ws) = List.intercalate [c] ws := by
  induction ws with
  | nil => rfl
  | cons w ws ih =>
    have whole : ∀ t, trSqueeze c (w ++ t) = w ++ trSqueeze c t := trSqueezeWord (clean w (by simp)).2
    have tail := ih (fun v mem => clean v (List.mem_cons_of_mem w mem))
    cases ws with
    | nil => simpa [trSqueeze] using whole []
    | cons v ws =>
      obtain ⟨filled,free⟩ := clean v (by simp)
      cases v with
      | nil => contradiction
      | cons d v =>
        have head : d ≠ c := fun same => free (by simp [same])
        obtain ⟨rest,shape⟩ : ∃ rest, List.intercalate [c] ((d::v)::ws) = d::rest := by
          cases ws with
          | nil => exact ⟨v,by simp⟩
          | cons x ws => exact ⟨v ++ c::List.intercalate [c] (x::ws),by rw [joinCons]; rfl⟩
        rw [joinCons,whole,shape,trSqueeze,if_neg (fun both => head both.2),← shape,tail]

theorem itemChoices (i : CodeItem) (w : Text) : w ∈ i.segment.choices ↔ ∃ t ∈ i.tokens, w = t.val := by
  cases i with
  | plain t => simp [CodeItem.segment,CodeItem.tokens,Ere.Segment.choices]
  | oneOf t ts =>
    simp only [CodeItem.segment,CodeItem.tokens,Ere.Segment.choices]
    rw [← List.map_cons,List.mem_map]
    simp only [eq_comm]

/- The expected code, framed, as the parts of a pattern. -/
def framedSegments (items : List CodeItem) : List Ere.Segment :=
  .word ['A'] :: (items.flatMap (fun i => [.word [' '],i.segment]) ++ [.word [' ', 'Z']])

theorem framedPlain (items : List CodeItem) : ∀ s ∈ framedSegments items, ∀ w ∈ s.choices, Ere.Plain w := by
  have fixed : ∀ w : Text, (w.all (fun c => !Ere.special c)) = true → ∀ v ∈ (Ere.Segment.word w).choices, Ere.Plain v := by
    intro w free v mem c inside
    cases List.mem_singleton.mp mem
    simpa using List.all_eq_true.mp free c inside
  intro s mem
  rcases List.mem_cons.mp mem with rfl | mem
  · exact fixed _ (by decide)
  rcases List.mem_append.mp mem with mem | mem
  · obtain ⟨i,_,mem⟩ := List.mem_flatMap.mp mem
    rcases List.mem_cons.mp mem with rfl | mem
    · exact fixed _ (by decide)
    · cases List.mem_singleton.mp mem
      intro w chosen
      obtain ⟨t,_,rfl⟩ := (itemChoices i w).mp chosen
      exact codeTokenPlain t
  · cases List.mem_singleton.mp mem
    exact fixed _ (by decide)

theorem framedText (item : CodeItem) (items : List CodeItem) : (framedSegments (item::items)).flatMap Ere.Segment.text =
    'A' :: ' ' :: (List.intercalate [' '] ((item::items).map CodeItem.text) ++ [' ', 'Z']) := by
  have inner : (item::items).flatMap (fun i => ' '::i.text) =
      ' '::List.intercalate [' '] ((item::items).map CodeItem.text) := by
    rw [List.map_cons,joinFlat,← List.map_cons,List.flatMap_map]
  have framed : ∀ t : Text, 'A' :: ' ' :: (t ++ [' ', 'Z']) = 'A' :: ((' '::t) ++ [' ', 'Z']) := fun t => rfl
  rw [framed,← inner]
  simp [framedSegments,Ere.Segment.text,List.flatMap_assoc,CodeItem.text]

def framedChoice (ts : List CodeToken) : List Text :=
  ['A'] :: (ts.flatMap (fun t => [[' '],t.val]) ++ [[' ', 'Z']])

theorem framedChoiceText (ts : List CodeToken) :
    (framedChoice ts).flatten = List.intercalate [' '] (['A'] :: (ts.map Subtype.val ++ [['Z']])) := by
  have inner : (ts.flatMap (fun t => [[' '],t.val])).flatten = ts.flatMap (fun t => ' '::t.val) := by
    induction ts with
    | nil => rfl
    | cons t ts ih =>
      rw [List.flatMap_cons,List.flatMap_cons,List.flatten_append,ih]
      simp only [List.flatten_cons,List.flatten_nil,List.append_nil,List.cons_append,List.nil_append]
  have joined := joinFlat ' ' ['A'] (ts.map Subtype.val ++ [['Z']])
  rw [List.flatMap_cons,List.flatMap_append,List.flatMap_map] at joined
  rw [(List.cons.inj joined).2,framedChoice,List.flatten_cons,List.flatten_append,inner]
  rfl

theorem chosenItems {items : List CodeItem} {last : List Ere.Segment} {ws : List Text} :
    Ere.Chosen (items.flatMap (fun i => [.word [' '],i.segment]) ++ last) ws ↔
      ∃ ts rest, CodeAllowed items ts ∧ Ere.Chosen last rest ∧ ws = ts.flatMap (fun t => [[' '],t.val]) ++ rest := by
  induction items generalizing ws with
  | nil => simp [CodeAllowed]
  | cons i items ih =>
    constructor
    · intro chosen
      cases chosen with
      | cons blank tail =>
        cases tail with
        | cons mem tail =>
          obtain ⟨t,allowed,rfl⟩ := (itemChoices i _).mp mem
          obtain ⟨ts,rest,later,end_,rfl⟩ := ih.mp tail
          cases List.mem_singleton.mp blank
          exact ⟨t::ts,rest,.cons allowed later,end_,rfl⟩
    · intro ⟨_,rest,allowed,end_,whole⟩
      cases allowed with
      | cons mem tail =>
        rw [whole]
        exact .cons (List.mem_singleton_self _) (.cons ((itemChoices i _).mpr ⟨_,mem,rfl⟩) (ih.mpr ⟨_,rest,tail,end_,rfl⟩))

theorem framedChosen (items : List CodeItem) (ws : List Text) :
    Ere.Chosen (framedSegments items) ws ↔ ∃ ts, CodeAllowed items ts ∧ ws = framedChoice ts := by
  constructor
  · intro chosen
    cases chosen with
    | cons opened tail =>
      obtain ⟨ts,rest,allowed,ended,rfl⟩ := chosenItems.mp tail
      cases List.mem_singleton.mp opened
      cases ended with
      | cons closed none =>
        cases List.mem_singleton.mp closed
        cases none
        exact ⟨ts,allowed,rfl⟩
  · intro ⟨ts,allowed,whole⟩
    rw [whole]
    exact .cons (List.mem_singleton_self _)
      (chosenItems.mpr ⟨ts,_,allowed,.cons (List.mem_singleton_self _) .nil,rfl⟩)

/- The match, as an occurrence of the joined list in the returned text. -/
theorem framedMatch (item : CodeItem) (items : List CodeItem) (t : Text) :
    ∃ matched, Ere.regMatch ('A' :: ' ' :: (List.intercalate [' '] ((item::items).map CodeItem.text) ++ [' ', 'Z'])) t =
        some matched ∧
      (matched = true ↔ ∃ ts, CodeAllowed (item::items) ts ∧
        ∃ a b, t = a ++ (List.intercalate [' '] (['A'] :: (ts.map Subtype.val ++ [['Z']])) ++ b)) := by
  obtain ⟨matched,parsed,same⟩ := Ere.regMatchSegments (framedPlain (item::items)) t
  refine ⟨matched,framedText item items ▸ parsed,same.trans ?_⟩
  simp only [framedChosen,← framedChoiceText]
  constructor
  · intro ⟨a,_,b,whole,ts,allowed,shape⟩
    exact ⟨ts,allowed,a,b,shape ▸ whole⟩
  · intro ⟨ts,allowed,a,b,whole⟩
    exact ⟨a,_,b,whole,ts,allowed,rfl⟩

/- The sentinel that `A` at the end of a token and `Z` at the start of one stand in for. -/
def OpensCode (before : List CodeToken) : Prop := ∀ t ∈ before.getLast?, ['A'] <:+ t.val
def ClosesCode (after : List CodeToken) : Prop := ∀ t ∈ after.head?, ['Z'] <+: t.val

structure CodeWindow (items : List CodeItem) (recorded before part after : List CodeToken) : Prop where
  shape : recorded = before ++ (part ++ after)
  allowed : CodeAllowed items part
  opens : OpensCode before
  closes : ClosesCode after

theorem opensIff (before : List CodeToken) :
    OpensCode before ↔ ∃ pre u, ['A'] :: before.map Subtype.val = pre ++ [u ++ ['A']] := by
  obtain rfl | ⟨front,t,rfl⟩ := List.eq_nil_or_concat' before
  · exact iff_of_true (by simp [OpensCode]) ⟨[],[],rfl⟩
  · simp only [OpensCode,List.getLast?_concat,Option.mem_some_iff,forall_eq']
    constructor
    · intro ⟨u,whole⟩
      exact ⟨['A'] :: front.map Subtype.val,u,by simp [whole]⟩
    · intro ⟨pre,u,shape⟩
      rw [List.map_append,List.map_singleton,← List.cons_append] at shape
      exact ⟨u,(List.singleton_inj.mp (List.append_inj' shape rfl).2).symm⟩

theorem closesIff (after : List CodeToken) :
    ClosesCode after ↔ ∃ v post, after.map Subtype.val ++ [['Z']] = (['Z'] ++ v)::post := by
  cases after with
  | nil => exact iff_of_true (by simp [ClosesCode]) ⟨[],[],rfl⟩
  | cons t after =>
    simp only [ClosesCode,List.head?_cons,Option.mem_some_iff,forall_eq']
    constructor
    · intro ⟨v,whole⟩
      exact ⟨v,after.map Subtype.val ++ [['Z']],by simp [← whole]⟩
    · intro ⟨v,post,shape⟩
      exact ⟨v,(List.cons.inj shape).1.symm⟩

theorem windowInside {items : List CodeItem} {recorded : List CodeToken} :
    (∃ ts, CodeAllowed items ts ∧ ∃ pre u v post,
      ['A'] :: (recorded.map Subtype.val ++ [['Z']]) =
        pre ++ (u ++ ['A'])::(ts.map Subtype.val ++ (['Z'] ++ v)::post)) ↔
      ∃ before part after, CodeWindow items recorded before part after := by
  constructor
  · intro ⟨ts,allowed,pre,u,v,post,shape⟩
    obtain ⟨l,left,opened⟩ := List.exists_cons_of_ne_nil (show pre ++ [u ++ ['A']] ≠ [] by simp)
    obtain ⟨right,r,closed⟩ := (List.eq_nil_or_concat' ((['Z'] ++ v)::post)).resolve_left (by simp)
    have whole : ['A'] :: (recorded.map Subtype.val ++ [['Z']]) = l::(left ++ ts.map Subtype.val ++ right ++ [r]) := by
      calc ['A'] :: (recorded.map Subtype.val ++ [['Z']])
          = (pre ++ [u ++ ['A']]) ++ (ts.map Subtype.val ++ (['Z'] ++ v)::post) := by rw [shape]; simp
        _ = l::(left ++ ts.map Subtype.val ++ right ++ [r]) := by rw [opened,closed]; simp
    obtain ⟨head,tail⟩ := List.cons.inj whole
    subst head
    obtain ⟨inside,ended⟩ := List.append_inj' tail rfl
    cases ended
    rw [List.append_assoc] at inside
    obtain ⟨before,rest,rfl,rfl,later⟩ := List.map_eq_append_iff.mp inside
    obtain ⟨part,after,rfl,same,rfl⟩ := List.map_eq_append_iff.mp later
    cases List.map_injective_iff.mpr Subtype.val_injective same
    exact ⟨before,ts,after,rfl,allowed,(opensIff before).mpr ⟨pre,u,opened.symm⟩,(closesIff after).mpr ⟨v,post,closed.symm⟩⟩
  · intro ⟨before,part,after,shape,allowed,opens,closes⟩
    obtain ⟨pre,u,opened⟩ := (opensIff before).mp opens
    obtain ⟨v,post,closed⟩ := (closesIff after).mp closes
    refine ⟨part,allowed,pre,u,v,post,?_⟩
    calc ['A'] :: (recorded.map Subtype.val ++ [['Z']])
        = (['A'] :: before.map Subtype.val) ++ (part.map Subtype.val ++ (after.map Subtype.val ++ [['Z']])) := by
          rw [shape]; simp
      _ = pre ++ (u ++ ['A'])::(part.map Subtype.val ++ (['Z'] ++ v)::post) := by rw [opened,closed]; simp

theorem codeItemText (i : CodeItem) : ' ' ∉ i.text ∧ ∃ c t, i.text = c::t ∧ c ≠ '-' := by
  cases i with
  | plain t =>
    obtain ⟨w,filled,word⟩ := t
    cases w with
    | nil => contradiction
    | cons c w => exact ⟨codeTokenClean ⟨c::w,filled,word⟩,c,w,rfl,(wordChar (word c (by simp))).2.1⟩
  | oneOf t ts =>
    refine ⟨?_,'(',_,rfl,by decide⟩
    simp only [CodeItem.text,CodeItem.segment,Ere.Segment.text,List.mem_cons,List.mem_append,List.mem_flatMap,List.mem_map,
      not_or]
    refine ⟨by decide,codeTokenClean t,?_,by decide,by simp⟩
    intro found
    obtain ⟨_,⟨other,_,same⟩,bar | inside⟩ := found
    · contradiction
    · exact codeTokenClean other (same ▸ inside)

/- What `check_system_default` hands over is the expected code with single blanks. -/
theorem expectedText {expected : Text} {item : CodeItem} {items : List CodeItem}
    (blanks : words expected = (item::items).map CodeItem.text) :
    trSqueeze ' ' (echo (words expected)) = List.intercalate [' '] ((item::items).map CodeItem.text) := by
  obtain ⟨_,c,t,shape,other⟩ := codeItemText item
  have echoed : echo (words expected) = List.intercalate [' '] ((item::items).map CodeItem.text) := by
    rw [blanks,List.map_cons,shape]
    exact echoJoin other _
  rw [echoed]
  apply trSqueezeJoin
  intro w mem
  obtain ⟨i,_,rfl⟩ := List.mem_map.mp mem
  obtain ⟨clean,c,t,shape,_⟩ := codeItemText i
  exact ⟨by simp [shape],clean⟩

theorem framedFields {fields : List Text} (some : fields ≠ []) :
    'A' :: ' ' :: (List.intercalate [' '] fields ++ [' ', 'Z']) = List.intercalate [' '] (['A'] :: (fields ++ [['Z']])) := by
  have whole : List.intercalate [' '] ([['A']] ++ (fields ++ [['Z']])) =
      List.intercalate [' '] [['A']] ++ ' '::(List.intercalate [' '] fields ++ ' '::List.intercalate [' '] [['Z']]) := by
    rw [joinAppend (by simp) (by simp),joinAppend some (by simp)]
  exact whole.symm

theorem framedClean {fields : List Text} (clean : ∀ w ∈ fields, ' ' ∉ w) : ∀ w ∈ ['A'] :: (fields ++ [['Z']]), ' ' ∉ w := by
  intro w mem
  rcases List.mem_cons.mp mem with rfl | mem
  · decide
  rcases List.mem_append.mp mem with inside | last
  · exact clean w inside
  · cases List.mem_singleton.mp last
    decide

/- The returned text has the windows of the recorded tokens, and none when nothing was recorded. -/
theorem returnedWindow (item : CodeItem) (items : List CodeItem) (recorded : List CodeToken) :
    (∃ ts, CodeAllowed (item::items) ts ∧ ∃ a b,
      'A' :: ' ' :: (List.intercalate [' '] (recorded.map Subtype.val) ++ [' ', 'Z']) =
        a ++ (List.intercalate [' '] (['A'] :: (ts.map Subtype.val ++ [['Z']])) ++ b)) ↔
      ∃ before part after, CodeWindow (item::items) recorded before part after := by
  have tokens : ∀ ts : List CodeToken, ∀ w ∈ ts.map Subtype.val, ' ' ∉ w := by
    intro ts w mem
    obtain ⟨t,_,rfl⟩ := List.mem_map.mp mem
    exact codeTokenClean t
  cases recorded with
  | nil =>
    apply iff_of_false
    · intro ⟨ts,allowed,found⟩
      rw [show List.intercalate [' '] (([] : List CodeToken).map Subtype.val) = List.intercalate [' '] [[]] from rfl,
        framedFields (by simp),fieldsWindow (framedClean (tokens ts)) (framedClean (by simp)) (by simp)] at found
      obtain ⟨pre,u,v,post,shape⟩ := found
      cases allowed with
      | @cons _ t _ ts _ _ =>
        have length := congrArg List.length shape
        simp only [List.length_append,List.length_cons,List.length_map,List.length_nil] at length
        cases List.eq_nil_of_length_eq_zero (show pre.length = 0 by omega)
        exact t.property.1 (List.cons.inj (List.cons.inj shape).2).1.symm
    · intro ⟨before,part,after,window⟩
      obtain ⟨_,none⟩ := List.append_eq_nil_iff.mp window.shape.symm
      have allowed := window.allowed
      rw [(List.append_eq_nil_iff.mp none).1] at allowed
      cases allowed
  | cons t recorded =>
    rw [framedFields (by simp),← windowInside]
    apply exists_congr
    intro ts
    rw [fieldsWindow (framedClean (tokens ts)) (framedClean (tokens (t::recorded))) (by simp)]

theorem returnCodeChecked (known : Bool) (dmesgDiff : List Text) {expected : Text} {item : CodeItem} {items : List CodeItem}
    (calls : List CodeCall) (blanks : words expected = (item::items).map CodeItem.text) :
    ∃ matched, checkSystemDefault known dmesgDiff expected (returnCodeSeq calls) =
        some (checkKernelMessageNobug known dmesgDiff ++
          [.testcount,returnCodeEvent known (List.intercalate [' '] ((item::items).map CodeItem.text))
            (List.intercalate [' '] ((recordedTokens calls).map Subtype.val)) matched]) ∧
      (matched = true ↔ ∃ before part after, CodeWindow (item::items) (recordedTokens calls) before part after) := by
  have given : expected.isEmpty = false := by
    cases expected with
    | nil => contradiction
    | cons c t => rfl
  have filled : (List.intercalate [' '] ((item::items).map CodeItem.text)).isEmpty = false := by
    obtain ⟨_,c,t,shape,_⟩ := codeItemText item
    rw [List.map_cons,shape]
    cases items with
    | nil => simp
    | cons i items => rw [List.map_cons,joinCons]; rfl
  obtain ⟨matched,found,window⟩ := framedMatch item items
    ('A' :: ' ' :: (List.intercalate [' '] ((recordedTokens calls).map Subtype.val) ++ [' ', 'Z']))
  refine ⟨matched,?_,window.trans (returnedWindow item items (recordedTokens calls))⟩
  simp only [checkSystemDefault,given,expectedText blanks,checkReturnCode,filled,returnedText,found,
    Bool.false_eq_true,if_false,Option.map_some]

theorem codeAllowedLength {items : List CodeItem} {recorded : List CodeToken} (allowed : CodeAllowed items recorded) :
    items.length = recorded.length := List.Forall₂.length_eq allowed

theorem properLonger {items : List CodeItem} {recorded before part after : List CodeToken}
    (framed : CodeWindow items recorded before part after) (proper : before ≠ [] ∨ after ≠ []) :
    items.length ≠ recorded.length := by
  have inner := codeAllowedLength framed.allowed
  have lengths := congrArg List.length framed.shape
  simp only [List.length_append] at lengths
  rcases proper with more | more
  · have := List.length_pos_iff.mpr more
    omega
  · have := List.length_pos_iff.mpr more
    omega

theorem returnCodeExact (known : Bool) (dmesgDiff : List Text) {expected : Text} {item : CodeItem} {items : List CodeItem}
    (calls : List CodeCall) (blanks : words expected = (item::items).map CodeItem.text) :
    ReturnCodeExact known dmesgDiff expected (item::items) calls ↔
      ¬ ∃ before part after, (before ≠ [] ∨ after ≠ []) ∧ CodeWindow (item::items) (recordedTokens calls) before part after := by
  obtain ⟨matched,checked,window⟩ := returnCodeChecked known dmesgDiff calls blanks
  have exactly : ReturnCodeExact known dmesgDiff expected (item::items) calls ↔
      (matched = true ↔ CodeAllowed (item::items) (recordedTokens calls)) := by
    rw [ReturnCodeExact,checked]
    by_cases allowed : CodeAllowed (item::items) (recordedTokens calls) <;> cases matched <;>
      simp [allowed,returnCodeEvent]
  rw [exactly,window]
  constructor
  · intro same ⟨before,part,after,proper,framed⟩
    exact properLonger framed proper (codeAllowedLength (same.mp ⟨before,part,after,framed⟩))
  · intro unframed
    constructor
    · intro ⟨before,part,after,framed⟩
      by_cases proper : before ≠ [] ∨ after ≠ []
      · exact absurd ⟨before,part,after,proper,framed⟩ unframed
      · simp only [ne_eq,not_or,not_not] at proper
        have shape := framed.shape
        rw [proper.1,proper.2,List.nil_append,List.append_nil] at shape
        exact shape ▸ framed.allowed
    · intro allowed
      exact ⟨[],recordedTokens calls,[],by simp,allowed,by simp [OpensCode],by simp [ClosesCode]⟩

def codeToken (t : Text) (word : t ≠ [] ∧ t.all isWord = true) : CodeToken := ⟨t,word.1,List.all_eq_true.mp word.2⟩

def gotHpa : CodeToken := codeToken "GOT_HPA".toList (by decide)
def guestPanicked : CodeToken := codeToken "GUEST_PANICKED".toList (by decide)

theorem gotHpaOpens :
    ¬ ReturnCodeExact false [] "GUEST_PANICKED".toList [.plain guestPanicked] [(gotHpa,[]),(guestPanicked,[])] ∧
    checkSystemDefault false [] "GUEST_PANICKED".toList (returnCodeSeq [(gotHpa,[]),(guestPanicked,[])]) =
      some (checkKernelMessageNobug false [] ++ [.testcount,.success false "return code: GOT_HPA GUEST_PANICKED".toList]) := by
  decide +kernel

theorem gotHpaExpected : ReturnCodeExact false [] "GOT_HPA  GUEST_PANICKED".toList [.plain gotHpa,.plain guestPanicked]
    [(gotHpa,[]),(guestPanicked,[])] := by
  apply (returnCodeExact false [] [(gotHpa,[]),(guestPanicked,[])] (by decide +kernel)).mpr
  intro ⟨before,part,after,proper,framed⟩
  exact properLonger framed proper rfl

end MmRegression
