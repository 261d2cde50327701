import Mathlib.Data.List.Induction
import MmRegression.Shell

/-! How the shell reads the value of a line `export NAME=value`: quotes, backslashes and the references to
variables. A reading is none where the line asks for more than its words: an operator or the end of the
command, a command substitution, another expansion than `$name` and `${name}`, a tilde, braces or a file name
pattern that may be expanded, a quote or a backslash that goes on in the next line. -/
namespace MmRegression

inductive Quoting where
  | bare | escape | single | double | doubleEscape | comment
  | dollar (inside : Bool)
  | param (inside : Bool) (name : Text)
  | braced (inside : Bool) (name : Text)
  deriving DecidableEq, Repr

/-- The words that are complete, the one being read, how far a brace expression has come in it (an open
brace, then a comma or two dots), and what the next character stands in. -/
structure Reader where
  done : List Text
  word : Option Text
  braces : Nat
  quoting : Quoting
  deriving DecidableEq, Repr

def isName : Text → Bool
  | [] => false
  | c::cs => (c.isAlpha || c == '_') && cs.all isWord

def bracesAfter (braces : Nat) (last : Option Char) (c : Char) : Nat :=
  if braces = 0 && c == '{' then 1
  else if braces = 1 && (c == ',' || (c == '.' && last == some '.')) then 2
  else braces

def Reader.last (r : Reader) : Option Char := r.word.bind List.getLast?

def Reader.add (r : Reader) (t : Text) : Option Text := some (r.word.getD [] ++ t)

/- A character that stands for itself outside quotes, or inside. -/
def Reader.literal (r : Reader) (c : Char) : Reader :=
  ⟨r.done,r.add [c],bracesAfter r.braces r.last c,.bare⟩

def Reader.quoted (r : Reader) (t : Text) (quoting : Quoting) : Reader := ⟨r.done,r.add t,r.braces,quoting⟩

def operators : Text := ";&|<>()\x60\n".toList

/- What makes a dollar sign the begin of an expansion; the quotes do it only outside double quotes. -/
def opens (inside : Bool) (c : Char) : Bool :=
  c.isAlpha || "_\x7b([*@#?-$!0123456789".toList.contains c || (!inside && (c == '\'' || c == '"'))

def bareStep (r : Reader) (c : Char) : Option Reader :=
  if c == ' ' || c == '\t' then some ⟨r.done ++ r.word.toList,none,0,.bare⟩
  else if c == '\\' then some { r with quoting := .escape }
  else if c == '\'' then some (r.quoted [] .single)
  else if c == '"' then some (r.quoted [] .double)
  else if c == '$' then some { r with quoting := .dollar false }
  else if operators.contains c then none
  else if c == '#' && r.word.isNone then some { r with quoting := .comment }
  else if c == '~' && (!r.done.isEmpty || r.last.isNone || r.last == some ':') then none
  else if c == '}' && r.braces = 2 then none
  else if "*?[".toList.contains c && !r.done.isEmpty then none
  else some (r.literal c)

def doubleStep (r : Reader) (c : Char) : Option Reader :=
  if c == '"' then some { r with quoting := .bare }
  else if c == '\\' then some { r with quoting := .doubleEscape }
  else if c == '$' then some { r with quoting := .dollar true }
  else if c == '\x60' || c == '\n' then none
  else some (r.quoted [c] .double)

def textStep (inside : Bool) (r : Reader) (c : Char) : Option Reader :=
  if inside then doubleStep r c else bareStep r c

def Reader.back (r : Reader) (inside : Bool) (t : Text) : Reader :=
  r.quoted t (if inside then .double else .bare)

/- The value of a reference is not split where the word is an assignment or the reference is quoted. -/
def Reader.refer (value : Text → Option Text) (r : Reader) (inside : Bool) (name : Text) : Option Reader :=
  if inside || r.done.isEmpty then some (r.back inside ((value name).getD [])) else none

def step (value : Text → Option Text) (r : Reader) (c : Char) : Option Reader :=
  match r.quoting with
  | .bare => bareStep r c
  | .escape => if c == '\n' then none else some (r.quoted [c] .bare)
  | .single =>
      if c == '\'' then some { r with quoting := .bare }
      else if c == '\n' then none
      else some (r.quoted [c] .single)
  | .double => doubleStep r c
  | .doubleEscape =>
      if c == '\n' then none
      else if "$\x60\"\\".toList.contains c then some (r.quoted [c] .double)
      else some (r.quoted ['\\',c] .double)
  | .comment => some r
  | .dollar inside =>
      if c == '{' then some { r with quoting := .braced inside [] }
      else if c.isAlpha || c == '_' then some { r with quoting := .param inside [c] }
      else if opens inside c then none
      else textStep inside (r.back inside ['$']) c
  | .param inside name =>
      if isWord c then some { r with quoting := .param inside (name ++ [c]) }
      else (r.refer value inside name).bind (fun r => textStep inside r c)
  | .braced inside name =>
      if c == '}' then if isName name then r.refer value inside name else none
      else if isWord c then some { r with quoting := .braced inside (name ++ [c]) }
      else none

def Reader.words (r : Reader) : List Text := r.done ++ r.word.toList

def finish (value : Text → Option Text) (r : Reader) : Option (List Text) :=
  match r.quoting with
  | .bare => some r.words
  | .comment => some r.words
  | .dollar false => some (r.back false ['$']).words
  | .param false name => (r.refer value false name).map Reader.words
  | _ => none

/-- The words that begin with the value after `export NAME=`. -/
def readWords (value : Text → Option Text) (text : Text) : Option (List Text) :=
  (text.foldlM (step value) ⟨[],some [],0,.bare⟩).bind (finish value)

def literalHere (braces : Nat) (last : Option Char) (c : Char) : Bool :=
  !(" \t\\'\"".toList.contains c) && !operators.contains c && !(c == '~' && (last.isNone || last == some ':')) &&
    !(c == '}' && braces = 2)

/-- What reads as itself outside quotes, where `last` comes before it. -/
def plain (braces : Nat) (last : Option Char) : Text → Bool
  | [] => true
  | c::cs => literalHere braces last c && !(c == '$' && cs.head?.any (opens false)) &&
      plain (bracesAfter braces last c) (some c) cs

/-- What reads as itself between double quotes. -/
def plainQuoted : Text → Bool
  | [] => true
  | c::cs =>
      !("\"\x60\n".toList.contains c) && !(c == '$' && cs.head?.any (opens true)) &&
        !(c == '\\' && (cs.head?.all (fun d => "$\x60\"\\".toList.contains d))) && plainQuoted cs

def readFrom (value : Text → Option Text) (r : Reader) (text : Text) : Option (List Text) :=
  (text.foldlM (step value) r).bind (finish value)

theorem readCons (value : Text → Option Text) (r : Reader) (c : Char) (cs : Text) :
    readFrom value r (c::cs) = (step value r c).bind (fun r => readFrom value r cs) := by
  rw [readFrom,List.foldlM_cons]
  cases step value r c <;> rfl

theorem readSame {value : Text → Option Text} {r q : Reader} {c : Char} (same : step value r c = step value q c)
    (cs : Text) : readFrom value r (c::cs) = readFrom value q (c::cs) := by
  rw [readCons,readCons,same]

theorem dollarUnopened {value : Text → Option Text} {r : Reader} {inside : Bool} {c : Char}
    (closed : opens inside c = false) (mode : r.quoting = .dollar inside) :
    step value r c = textStep inside (r.back inside ['$']) c := by
  have parts := closed
  simp only [opens,Bool.or_eq_false_iff] at parts
  obtain ⟨⟨letter,listed⟩,-⟩ := parts
  have brace : (c == '{') = false := by
    rw [Bool.eq_false_iff]
    intro eq
    cases eq_of_beq eq
    revert listed
    decide
  have low : (c == '_') = false := by
    rw [Bool.eq_false_iff]
    intro eq
    cases eq_of_beq eq
    revert listed
    decide
  simp [step,mode,brace,letter,low,closed]

theorem bracesDollar (braces : Nat) (last : Option Char) : bracesAfter braces last '$' = braces := by
  simp [bracesAfter]

theorem bareLiteral {w : Text} {braces : Nat} {c : Char} (other : c ≠ '$')
    (here : literalHere braces w.getLast? c = true) :
    bareStep ⟨[],some w,braces,.bare⟩ c = some ⟨[],some (w ++ [c]),bracesAfter braces w.getLast? c,.bare⟩ := by
  simp only [literalHere,Bool.and_eq_true,Bool.not_eq_true'] at here
  obtain ⟨⟨⟨quote,operator⟩,tilde⟩,brace⟩ := here
  have quotes : c ≠ ' ' ∧ c ≠ '\t' ∧ c ≠ '\\' ∧ c ≠ '\'' ∧ c ≠ '"' := by simpa using quote
  obtain ⟨space,tab,back,single,double⟩ := quotes
  have last : (⟨[],some w,braces,.bare⟩ : Reader).last = w.getLast? := rfl
  simp only [bareStep,last,beq_eq_false_iff_ne.mpr space,beq_eq_false_iff_ne.mpr tab,beq_eq_false_iff_ne.mpr back,
    beq_eq_false_iff_ne.mpr single,beq_eq_false_iff_ne.mpr double,beq_eq_false_iff_ne.mpr other,operator,
    List.isEmpty_nil,Option.isNone_some,Bool.not_true,Bool.false_or,Bool.and_false,tilde,brace]
  rfl

theorem plainRead (value : Text → Option Text) {t : Text} {w : Text} {braces : Nat}
    (reads : plain braces w.getLast? t = true) : readFrom value ⟨[],some w,braces,.bare⟩ t = some [w ++ t] := by
  induction t generalizing w braces with
  | nil => simp [readFrom,finish,Reader.words]
  | cons c cs ih =>
    simp only [plain,Bool.and_eq_true,Bool.not_eq_true'] at reads
    obtain ⟨⟨here,dollar⟩,rest⟩ := reads
    have next : readFrom value ⟨[],some (w ++ [c]),bracesAfter braces w.getLast? c,.bare⟩ cs = some [w ++ c::cs] := by
      rw [ih (by rwa [List.getLast?_concat]),List.append_assoc,List.singleton_append]
    by_cases sign : c = '$'
    · subst sign
      rw [bracesDollar] at next
      rw [readCons,show step value ⟨[],some w,braces,.bare⟩ '$' = some ⟨[],some w,braces,.dollar false⟩ from rfl,
        Option.bind_some]
      cases cs with
      | nil => rfl
      | cons d ds =>
        have closed : opens false d = false := by simpa using dollar
        rw [← next]
        exact readSame (dollarUnopened closed rfl) ds
    · rw [readCons,← next,show step value ⟨[],some w,braces,.bare⟩ c = _ from bareLiteral sign here,Option.bind_some]

theorem doubleLiteral {r : Reader} {c : Char} (quote : "\"\x60\n".toList.contains c = false) (sign : c ≠ '$')
    (back : c ≠ '\\') : doubleStep r c = some (r.quoted [c] .double) := by
  have others : c ≠ '"' ∧ c ≠ '\x60' ∧ c ≠ '\n' := by simpa using quote
  simp [doubleStep,others,sign,back]

/- The closing quote is read behind the text. -/
theorem quotedRead (value : Text → Option Text) {t : Text} (w : Text) (braces : Nat) (reads : plainQuoted t = true) :
    readFrom value ⟨[],some w,braces,.double⟩ (t ++ ['"']) = some [w ++ t] := by
  induction t generalizing w with
  | nil => simp [readFrom,step,doubleStep,finish,Reader.words]
  | cons c cs ih =>
    simp only [plainQuoted,Bool.and_eq_true,Bool.not_eq_true'] at reads
    obtain ⟨⟨⟨quote,dollar⟩,slash⟩,rest⟩ := reads
    have next := ih (w ++ [c]) rest
    rw [List.append_assoc,List.singleton_append] at next
    rw [List.cons_append,readCons,← next]
    by_cases sign : c = '$'
    · subst sign
      rw [show step value ⟨[],some w,braces,.double⟩ '$' = some ⟨[],some w,braces,.dollar true⟩ from rfl,
        Option.bind_some]
      cases cs with
      | nil =>
        have closed : opens true '"' = false := by decide
        exact readSame (dollarUnopened closed rfl) []
      | cons d ds =>
        have closed : opens true d = false := by simpa using dollar
        exact readSame (dollarUnopened closed rfl) (ds ++ ['"'])
    · by_cases back : c = '\\'
      · subst back
        rw [show step value ⟨[],some w,braces,.double⟩ '\\' = some ⟨[],some w,braces,.doubleEscape⟩ from rfl,
          Option.bind_some]
        cases cs with
        | nil => simp at slash
        | cons d ds =>
          have kept : "$\x60\"\\".toList.contains d = false := by simpa using slash
          simp only [plainQuoted,Bool.and_eq_true,Bool.not_eq_true'] at rest
          have clean := rest.1.1.1
          have others : d ≠ '\n' ∧ d ≠ '$' ∧ d ≠ '\\' := by simp at kept clean; simp [kept,clean]
          refine readSame ?_ (ds ++ ['"'])
          refine Eq.trans ?_ (doubleLiteral clean others.2.1 others.2.2).symm
          simp only [step,beq_eq_false_iff_ne.mpr others.1,kept]
          simp [Reader.quoted,Reader.add]
      · rw [show step value ⟨[],some w,braces,.double⟩ c = _ from doubleLiteral quote sign back,Option.bind_some]
        rfl

theorem readOpened (value : Text → Option Text) (t : Text) :
    readWords value ('"'::t) = readFrom value ⟨[],some [],0,.double⟩ t := by
  rw [readWords,← readFrom,readCons]
  rfl

theorem quotedWords (value : Text → Option Text) {t : Text} (reads : plainQuoted t = true) :
    readWords value ('"'::(t ++ ['"'])) = some [t] := by
  rw [readOpened]
  exact quotedRead value [] 0 reads

theorem plainWords (value : Text → Option Text) {t : Text} (reads : plain 0 none t = true) :
    readWords value t = some [t] :=
  plainRead value reads

/-! ### Without references a reading never grows, and keeps its length only where nothing is special -/

def Quoting.settled : Quoting → Bool
  | .dollar _ => false
  | .param _ _ => false
  | .braced _ _ => false
  | _ => true

/- A backslash in double quotes may still come with the next character. -/
def Reader.size (r : Reader) : Nat := r.words.flatten.length + if r.quoting = .doubleEscape then 1 else 0

theorem addSize (r : Reader) (t : Text) (braces : Nat) (quoting : Quoting) :
    (⟨r.done,r.add t,braces,quoting⟩ : Reader).words.flatten.length = r.words.flatten.length + t.length := by
  cases word : r.word <;> simp [Reader.words,Reader.add,word,Nat.add_assoc]

theorem quotedSize (r : Reader) (t : Text) {quoting : Quoting} (other : quoting ≠ .doubleEscape) :
    (r.quoted t quoting).size = r.words.flatten.length + t.length := by
  rw [Reader.size,Reader.quoted,addSize,if_neg other,Nat.add_zero]

/- What a character outside quotes does without a dollar sign: it stands for itself, or is dropped. -/
theorem bareCases {r r' : Reader} {c : Char} (sign : c ≠ '$') (taken : bareStep r c = some r') :
    r'.quoting.settled = true ∧
      (r' = r.literal c ∧ literalHere r.braces r.last c = true ∨ r'.size = r.words.flatten.length) := by
  rw [bareStep] at taken
  rcases ite_eq_iff.mp taken with ⟨-,stepped⟩ | ⟨blank,taken⟩
  · cases Option.some.inj stepped
    exact ⟨rfl,.inr (by simp [Reader.size,Reader.words])⟩
  rcases ite_eq_iff.mp taken with ⟨-,stepped⟩ | ⟨back,taken⟩
  · cases Option.some.inj stepped
    exact ⟨rfl,.inr rfl⟩
  rcases ite_eq_iff.mp taken with ⟨-,stepped⟩ | ⟨single,taken⟩
  · cases Option.some.inj stepped
    exact ⟨rfl,.inr (quotedSize r [] (by decide))⟩
  rcases ite_eq_iff.mp taken with ⟨-,stepped⟩ | ⟨double,taken⟩
  · cases Option.some.inj stepped
    exact ⟨rfl,.inr (quotedSize r [] (by decide))⟩
  rw [if_neg (mt eq_of_beq sign)] at taken
  rcases ite_eq_iff.mp taken with ⟨-,refused⟩ | ⟨operator,taken⟩
  · cases refused
  rcases ite_eq_iff.mp taken with ⟨-,stepped⟩ | ⟨comment,taken⟩
  · cases Option.some.inj stepped
    exact ⟨rfl,.inr rfl⟩
  rcases ite_eq_iff.mp taken with ⟨-,refused⟩ | ⟨tilde,taken⟩
  · cases refused
  rcases ite_eq_iff.mp taken with ⟨-,refused⟩ | ⟨brace,taken⟩
  · cases refused
  rcases ite_eq_iff.mp taken with ⟨-,refused⟩ | ⟨pattern,taken⟩
  · cases refused
  have here : literalHere r.braces r.last c = true := by
    have quote : " \t\\'\"".toList.contains c = false := by simp_all
    have tilde : (c == '~' && (r.last.isNone || r.last == some ':')) = false := by
      simp only [Bool.and_eq_true,Bool.or_assoc,Bool.or_eq_true,not_and,not_or] at tilde
      simpa [Option.isSome_iff_ne_none] using fun same : c = '~' => (tilde (by simp [same])).2
    simp only [Bool.not_eq_true] at operator brace
    rw [literalHere,quote,operator,tilde,brace]
    rfl
  cases Option.some.inj taken
  exact ⟨rfl,.inl ⟨rfl,here⟩⟩

/- What a character between double quotes does without a dollar sign. -/
theorem doubleCases {r r' : Reader} {c : Char} (sign : c ≠ '$') (taken : doubleStep r c = some r') :
    (c = '"' ∧ r' = { r with quoting := .bare }) ∨ (c = '\\' ∧ r' = { r with quoting := .doubleEscape }) ∨
      (c ≠ '\\' ∧ "\"\x60\n".toList.contains c = false ∧ r' = r.quoted [c] .double) := by
  rw [doubleStep] at taken
  rcases ite_eq_iff.mp taken with ⟨closing,stepped⟩ | ⟨closing,taken⟩
  · exact .inl ⟨eq_of_beq closing,(Option.some.inj stepped).symm⟩
  rcases ite_eq_iff.mp taken with ⟨back,stepped⟩ | ⟨back,taken⟩
  · exact .inr (.inl ⟨eq_of_beq back,(Option.some.inj stepped).symm⟩)
  rw [if_neg (mt eq_of_beq sign)] at taken
  rcases ite_eq_iff.mp taken with ⟨-,refused⟩ | ⟨kept,stepped⟩
  · cases refused
  refine .inr (.inr ⟨fun same => back (beq_iff_eq.mpr same),?_,(Option.some.inj stepped).symm⟩)
  simp only [Bool.or_eq_true,beq_iff_eq,not_or] at closing kept
  simp [closing,kept.1,kept.2]

/- The backslash stays where the character after it is not special. -/
theorem escapedCases {value : Text → Option Text} {r r' : Reader} {c : Char} (mode : r.quoting = .doubleEscape)
    (taken : step value r c = some r') : c ≠ '\n' ∧ (r' = r.quoted [c] .double ∨
      "$\x60\"\\".toList.contains c = false ∧ r' = r.quoted ['\\',c] .double) := by
  simp only [step,mode] at taken
  rcases ite_eq_iff.mp taken with ⟨-,refused⟩ | ⟨line,taken⟩
  · cases refused
  refine ⟨fun same => line (beq_iff_eq.mpr same),?_⟩
  rcases ite_eq_iff.mp taken with ⟨-,stepped⟩ | ⟨kept,stepped⟩
  · exact .inl (Option.some.inj stepped).symm
  · exact .inr ⟨Bool.eq_false_iff.mpr kept,(Option.some.inj stepped).symm⟩

theorem literalSize (r : Reader) (c : Char) : (r.literal c).size = r.words.flatten.length + 1 := by
  rw [Reader.size,Reader.literal,addSize]
  rfl

theorem stepSize {value : Text → Option Text} {r r' : Reader} {c : Char} (sign : c ≠ '$')
    (settled : r.quoting.settled = true) (taken : step value r c = some r') :
    r'.quoting.settled = true ∧ r'.size ≤ r.size + 1 := by
  have words : r.words.flatten.length ≤ r.size := Nat.le_add_right _ _
  have one (quoting : Quoting) (other : quoting ≠ .doubleEscape) : (r.quoted [c] quoting).size ≤ r.size + 1 := by
    have grown := quotedSize r [c] other
    rw [List.length_singleton] at grown
    omega
  cases mode : r.quoting with
  | bare =>
    rw [step,mode] at taken
    obtain ⟨next,⟨rfl,-⟩ | dropped⟩ := bareCases sign taken
    · exact ⟨rfl,by rw [literalSize]; omega⟩
    · exact ⟨next,by omega⟩
  | escape =>
    simp only [step,mode] at taken
    split at taken
    · cases taken
    · cases Option.some.inj taken
      exact ⟨rfl,one .bare (by decide)⟩
  | single =>
    simp only [step,mode] at taken
    split at taken
    · cases Option.some.inj taken
      exact ⟨rfl,Nat.le_succ_of_le words⟩
    · split at taken
      · cases taken
      · cases Option.some.inj taken
        exact ⟨rfl,one .single (by decide)⟩
  | double =>
    rw [step,mode] at taken
    rcases doubleCases sign taken with ⟨-,rfl⟩ | ⟨-,rfl⟩ | ⟨-,-,rfl⟩
    · exact ⟨rfl,Nat.le_succ_of_le words⟩
    · exact ⟨rfl,Nat.succ_le_succ words⟩
    · exact ⟨rfl,one .double (by decide)⟩
  | doubleEscape =>
    obtain ⟨-,rfl | ⟨-,rfl⟩⟩ := escapedCases mode taken
    · exact ⟨rfl,one .double (by decide)⟩
    · have pending : r.size = r.words.flatten.length + 1 := by rw [Reader.size,if_pos mode]
      have two := quotedSize r ['\\',c] (show Quoting.double ≠ .doubleEscape by decide)
      exact ⟨rfl,by simp only [List.length_cons,List.length_nil] at two; omega⟩
  | comment =>
    simp only [step,mode] at taken
    cases Option.some.inj taken
    exact ⟨settled,by omega⟩
  | dollar inside => simp [mode,Quoting.settled] at settled
  | param inside name => simp [mode,Quoting.settled] at settled
  | braced inside name => simp [mode,Quoting.settled] at settled

theorem finishSize {value : Text → Option Text} {r : Reader} {ws : List Text} (settled : r.quoting.settled = true)
    (ended : finish value r = some ws) : ws = r.words := by
  cases mode : r.quoting <;> simp_all [finish,Quoting.settled]

theorem readSize {value : Text → Option Text} {r : Reader} {t : Text} {ws : List Text} (sign : '$' ∉ t)
    (settled : r.quoting.settled = true) (read : readFrom value r t = some ws) :
    ws.flatten.length ≤ r.size + t.length := by
  induction t generalizing r with
  | nil =>
    rw [finishSize settled read]
    exact Nat.le_add_right _ _
  | cons c cs ih =>
    rw [readCons] at read
    obtain ⟨r',taken,rest⟩ := Option.bind_eq_some_iff.mp read
    obtain ⟨next,grown⟩ := stepSize (fun eq => sign (by simp [eq])) settled taken
    have bound := ih (fun mem => sign (by simp [mem])) next rest
    rw [List.length_cons]
    omega

/- A text that reads to as many characters as it has is plain. -/
theorem bareExact {value : Text → Option Text} {w t : Text} {braces : Nat} {ws : List Text} (sign : '$' ∉ t)
    (read : readFrom value ⟨[],some w,braces,.bare⟩ t = some ws) (kept : w.length + t.length ≤ ws.flatten.length) :
    plain braces w.getLast? t = true := by
  induction t generalizing w braces with
  | nil => rfl
  | cons c cs ih =>
    have other : c ≠ '$' := fun eq => sign (by simp [eq])
    have later : '$' ∉ cs := fun mem => sign (by simp [mem])
    rw [readCons] at read
    obtain ⟨r',taken,rest⟩ := Option.bind_eq_some_iff.mp read
    rw [List.length_cons] at kept
    by_cases here : literalHere braces w.getLast? c = true
    · rw [show step value ⟨[],some w,braces,.bare⟩ c = _ from bareLiteral other here] at taken
      cases Option.some.inj taken
      have tail := ih later rest (by simp only [List.length_append,List.length_singleton]; omega)
      rw [List.getLast?_concat] at tail
      simp [plain,here,other,tail]
    · obtain ⟨next,literal | dropped⟩ := bareCases other taken
      · exact absurd literal.2 here
      · have bound := readSize later next rest
        rw [dropped] at bound
        simp [Reader.words] at bound kept
        omega

theorem quoteEnds (t : Text) (braces : Nat) (last : Option Char) : plain braces last (t ++ ['"']) = false := by
  induction t generalizing braces last with
  | nil => simp [plain,literalHere]
  | cons c cs ih => simp [plain,ih]

theorem plainQuotedCons {c : Char} {cs : Text} (quote : "\"\x60\n".toList.contains c = false) (sign : c ≠ '$')
    (back : c ≠ '\\') (rest : plainQuoted cs = true) : plainQuoted (c::cs) = true := by
  simp only [plainQuoted,quote,beq_eq_false_iff_ne.mpr sign,beq_eq_false_iff_ne.mpr back,rest]
  rfl

/- A quote that closes before the end costs a character. -/
theorem closedShort {value : Text → Option Text} {w t : Text} {braces : Nat} {ws : List Text} (sign : '$' ∉ t)
    (rest : readFrom value ⟨[],some w,braces,.bare⟩ (t ++ ['"']) = some ws) :
    ws.flatten.length < w.length + t.length + 1 := by
  have clean : '$' ∉ t ++ ['"'] := by simp [sign]
  have bound := readSize clean rfl rest
  have exact := mt (bareExact clean rest) (by simp [quoteEnds])
  have size : (⟨[],some w,braces,.bare⟩ : Reader).size = w.length := by simp [Reader.size,Reader.words]
  rw [size] at bound
  simp only [List.length_append,List.length_singleton] at bound exact
  omega

/- Between double quotes, with what a backslash before the text adds. -/
theorem quotedExact {value : Text → Option Text} {w t : Text} {braces : Nat} {ws : List Text} (sign : '$' ∉ t) :
    (readFrom value ⟨[],some w,braces,.double⟩ (t ++ ['"']) = some ws → ws.flatten.length ≤ w.length + t.length ∧
      (w.length + t.length ≤ ws.flatten.length → plainQuoted t = true)) ∧
    (readFrom value ⟨[],some w,braces,.doubleEscape⟩ (t ++ ['"']) = some ws →
      ws.flatten.length ≤ w.length + t.length + 1 ∧
      (w.length + t.length + 1 ≤ ws.flatten.length → plainQuoted ('\\'::t) = true)) := by
  induction t generalizing w with
  | nil =>
    refine ⟨fun read => ?_,fun read => ?_⟩
    · have same : ws = [w] := by simpa [readFrom,step,doubleStep,finish,Reader.words] using read.symm
      simp [same,plainQuoted]
    · simp [readFrom,step,finish,Reader.quoted] at read
  | cons c cs ih =>
    have other : c ≠ '$' := fun eq => sign (by simp [eq])
    have later : '$' ∉ cs := fun mem => sign (by simp [mem])
    have one := ih (w := w ++ [c]) later
    have two := ih (w := w ++ ['\\',c]) later
    simp only [List.length_append,List.length_cons,List.length_nil] at one two ⊢
    refine ⟨fun read => ?_,fun read => ?_⟩
    · rw [List.cons_append,readCons] at read
      obtain ⟨r',taken,rest⟩ := Option.bind_eq_some_iff.mp read
      rcases doubleCases other taken with ⟨rfl,rfl⟩ | ⟨rfl,rfl⟩ | ⟨back,clean,rfl⟩
      · have bound := closedShort later rest
        exact ⟨by omega,by omega⟩
      · obtain ⟨bound,exact⟩ := (ih later).2 rest
        exact ⟨by omega,fun kept => exact (by omega)⟩
      · obtain ⟨bound,exact⟩ := one.1 rest
        exact ⟨by omega,fun kept => plainQuotedCons clean other back (exact (by omega))⟩
    · rw [List.cons_append,readCons] at read
      obtain ⟨r',taken,rest⟩ := Option.bind_eq_some_iff.mp read
      obtain ⟨line,rfl | ⟨kept,rfl⟩⟩ := escapedCases rfl taken
      · obtain ⟨bound,-⟩ := one.1 rest
        exact ⟨by omega,by omega⟩
      · obtain ⟨bound,exact⟩ := two.1 rest
        refine ⟨by omega,fun long => ?_⟩
        have tail : plainQuoted (c::cs) = true :=
          plainQuotedCons (by simp_all) other (by simp_all) (exact (by omega))
        simp_all [plainQuoted]

theorem plainExact {value : Text → Option Text} {t : Text} {ws : List Text} (sign : '$' ∉ t)
    (read : readWords value t = some ws) :
    ws.flatten.length ≤ t.length ∧ (t.length ≤ ws.flatten.length → plain 0 none t = true) := by
  have bound := readSize sign (show Quoting.settled .bare = true from rfl) read
  have empty : (⟨[],some [],0,.bare⟩ : Reader).size = 0 := rfl
  exact ⟨by omega,fun kept => bareExact sign read (by simpa using kept)⟩

theorem quotedWordsExact {value : Text → Option Text} {t : Text} {ws : List Text} (sign : '$' ∉ t)
    (read : readWords value ('"'::(t ++ ['"'])) = some ws) :
    ws.flatten.length ≤ t.length ∧ (t.length ≤ ws.flatten.length → plainQuoted t = true) := by
  rw [readOpened] at read
  obtain ⟨bound,exact⟩ := (quotedExact sign).1 read
  simp only [List.length_nil,Nat.zero_add] at bound exact
  exact ⟨bound,exact⟩

example : readWords (fun _ => none) "MM regression test".toList =
    some ["MM".toList,"regression".toList,"test".toList] := by decide

/-! ### `export`, and a file of its lines -/

structure ShellVars where
  value : Text → Option Text
  exported : Text → Bool

def ShellVars.assign (s : ShellVars) (name v : Text) : ShellVars where
  value := fun n => if n = name then some v else s.value n
  exported := fun n => if n = name then true else s.exported n

def ShellVars.mark (s : ShellVars) (name : Text) : ShellVars :=
  ⟨s.value,fun n => if n = name then true else s.exported n⟩

/- An argument of `export` after the first; what is no name is refused and changes nothing. -/
def exportWord (s : ShellVars) (w : Text) : ShellVars :=
  let name := cutFirst '=' w
  if w.contains '=' then
    if isName name then s.assign name (cutRest '=' w)
    else if name.getLast? == some '+' && isName name.dropLast then
      s.assign name.dropLast ((s.value name.dropLast).getD [] ++ cutRest '=' w)
    else s
  else if isName w then s.mark w
  else s

def exportWords (s : ShellVars) (name : Text) : List Text → Option ShellVars
  | [] => none
  | v::ws => some (ws.foldl exportWord (s.assign name v))

/- A line of another kind is not read here. -/
def sourceLine (s : ShellVars) (line : Text) : Option ShellVars :=
  let rest := line.drop "export ".toList.length
  let name := cutFirst '=' rest
  if startsWith "export ".toList line && rest.contains '=' && isName name then
    (readWords s.value (cutRest '=' rest)).bind (exportWords s name)
  else none

/-- `. file`: a result means that no command but these `export`s was executed. -/
def source (s : ShellVars) (lines : List Text) : Option ShellVars := lines.foldlM sourceLine s

def exportLine (name text : Text) : Text := "export ".toList ++ (name ++ '='::text)

theorem nameWord {name : Text} (named : isName name = true) : ∀ c ∈ name, isWord c = true := by
  intro c mem
  cases name with
  | nil => cases mem
  | cons d cs =>
    simp only [isName,Bool.and_eq_true,Bool.or_eq_true,List.all_eq_true] at named
    rcases List.mem_cons.mp mem with rfl | later
    · rcases named.1 with letter | low
      · simp [isWord,Char.isAlphanum,letter]
      · simp [isWord,low]
    · exact named.2 c later

theorem nameClean {name : Text} (named : isName name = true) : '=' ∉ name :=
  fun mem => absurd (nameWord named '=' mem) (by decide)

theorem sourceExport (s : ShellVars) {name : Text} (named : isName name = true) (text : Text) :
    sourceLine s (exportLine name text) = (readWords s.value text).bind (exportWords s name) := by
  have clean := nameClean named
  have rest : (exportLine name text).drop "export ".toList.length = name ++ '='::text := List.drop_left
  have opened : startsWith "export ".toList (exportLine name text) = true := by
    rw [startsWith,List.isPrefixOf_iff_prefix]
    exact List.prefix_append _ _
  rw [sourceLine,rest,opened,cutFirstAppend clean,cutRestAppend clean,named]
  simp

/-- A line that gives a variable a text, which may stand in double quotes. -/
structure Export where
  name : Text
  quoted : Bool
  text : Text

def Export.line (e : Export) : Text := exportLine e.name (if e.quoted then '"'::(e.text ++ ['"']) else e.text)

def Export.reads (e : Export) : Bool := if e.quoted then plainQuoted e.text else plain 0 none e.text

theorem exportReads (s : ShellVars) {e : Export} (named : isName e.name = true) (reads : e.reads = true) :
    sourceLine s e.line = some (s.assign e.name e.text) := by
  rw [Export.line,sourceExport s named]
  cases quoted : e.quoted with
  | false =>
    rw [Export.reads,quoted] at reads
    rw [if_neg Bool.false_ne_true,plainWords s.value reads]
    rfl
  | true =>
    rw [Export.reads,quoted] at reads
    rw [if_pos rfl,quotedWords s.value reads]
    rfl

theorem cutRestSize (sep : Char) (t : Text) : (cutRest sep t).length ≤ t.length := by
  rw [cutRest]
  split
  · exact ((List.tail_suffix _).trans (List.dropWhile_suffix _)).length_le
  · exact Nat.le_refl _

theorem assignValue {s : ShellVars} {name n v x : Text} (found : (s.assign name v).value n = some x) :
    n = name ∧ x = v ∨ s.value n = some x := by
  simp only [ShellVars.assign] at found
  split at found
  · rename_i same
    exact .inl ⟨same,(Option.some.inj found).symm⟩
  · exact .inr found

theorem exportWordSize (s : ShellVars) (w n : Text) {x : Text} (found : (exportWord s w).value n = some x) :
    x.length ≤ ((s.value n).getD []).length + w.length := by
  have short := cutRestSize '=' w
  have old (same : s.value n = some x) : x.length ≤ ((s.value n).getD []).length + w.length := by
    rw [same,Option.getD_some]
    exact Nat.le_add_right _ _
  simp only [exportWord] at found
  split at found
  · split at found
    · rcases assignValue found with ⟨-,rfl⟩ | same
      · omega
      · exact old same
    · split at found
      · rcases assignValue found with ⟨rfl,rfl⟩ | same
        · rw [List.length_append]
          omega
        · exact old same
      · exact old found
  · split at found <;> exact old found

theorem exportWordsSize {s : ShellVars} {ws : List Text} {n x : Text}
    (found : (ws.foldl exportWord s).value n = some x) :
    x.length ≤ ((s.value n).getD []).length + ws.flatten.length := by
  induction ws generalizing s with
  | nil =>
    rw [show s.value n = some x from found]
    exact Nat.le_add_right _ _
  | cons w ws ih =>
    have rest := ih found
    rw [List.flatten_cons,List.length_append]
    cases here : (exportWord s w).value n with
    | none =>
      rw [here] at rest
      simp only [Option.getD_none,List.length_nil] at rest
      omega
    | some y =>
      have bound := exportWordSize s w n here
      rw [here,Option.getD_some] at rest
      omega

/- A line leaves its variable the text only where the text reads as itself. -/
theorem exportExact {s t : ShellVars} {e : Export} (named : isName e.name = true) (sign : '$' ∉ e.text)
    (ran : sourceLine s e.line = some t) (kept : t.value e.name = some e.text) : e.reads = true := by
  rw [Export.line,sourceExport s named] at ran
  obtain ⟨ws,read,ran⟩ := Option.bind_eq_some_iff.mp ran
  have size : e.text.length ≤ ws.flatten.length := by
    cases ws with
    | nil => cases ran
    | cons v ws =>
      cases Option.some.inj ran
      have bound := exportWordsSize kept
      simpa [ShellVars.assign] using bound
  rw [Export.reads]
  cases quoted : e.quoted with
  | false =>
    rw [quoted] at read
    exact (plainExact sign read).2 size
  | true =>
    rw [quoted] at read
    exact (quotedWordsExact sign read).2 size

def assignAll (s : ShellVars) (es : List Export) : ShellVars := es.foldl (fun s e => s.assign e.name e.text) s

theorem sourceReads {es : List Export} (reads : ∀ e ∈ es, isName e.name = true ∧ e.reads = true) (s : ShellVars) :
    source s (es.map Export.line) = some (assignAll s es) := by
  induction es generalizing s with
  | nil => rfl
  | cons e es ih =>
    obtain ⟨named,plain⟩ := reads e (by simp)
    rw [source,List.map_cons,List.foldlM_cons,exportReads s named plain]
    exact ih (fun f mem => reads f (by simp [mem])) (s.assign e.name e.text)

theorem assignAllOther {es : List Export} {n : Text} (other : n ∉ es.map Export.name) (s : ShellVars) :
    (assignAll s es).value n = s.value n ∧ (assignAll s es).exported n = s.exported n := by
  induction es generalizing s with
  | nil => exact ⟨rfl,rfl⟩
  | cons e es ih =>
    rw [List.map_cons,List.mem_cons,not_or] at other
    obtain ⟨value,exported⟩ := ih other.2 (s.assign e.name e.text)
    exact ⟨value.trans (if_neg other.1),exported.trans (if_neg other.1)⟩

theorem assignAllOwn {es : List Export} (distinct : (es.map Export.name).Nodup) {e : Export} (mem : e ∈ es)
    (s : ShellVars) : (assignAll s es).value e.name = some e.text := by
  induction es generalizing s with
  | nil => cases mem
  | cons f es ih =>
    obtain ⟨fresh,distinct⟩ := List.nodup_cons.mp distinct
    rcases List.mem_cons.mp mem with rfl | later
    · exact (assignAllOther fresh (s.assign e.name e.text)).1.trans (if_pos rfl)
    · exact ih distinct later (s.assign f.name f.text)

/- From the last line to the first: a plain line leaves the variables of the lines before it alone. -/
theorem sourceExact {es : List Export} (distinct : (es.map Export.name).Nodup)
    (named : ∀ e ∈ es, isName e.name = true) {s t : ShellVars} (ran : source s (es.map Export.line) = some t)
    (kept : ∀ e ∈ es, e.reads = true ∨ '$' ∉ e.text ∧ t.value e.name = some e.text) :
    ∀ e ∈ es, e.reads = true := by
  induction es using List.reverseRecOn generalizing t with
  | nil => intro e mem; cases mem
  | append_singleton es last ih =>
    rw [source,List.map_append,List.foldlM_append] at ran
    obtain ⟨u,front,ran⟩ := Option.bind_eq_some_iff.mp ran
    have ran : sourceLine u last.line = some t := by simpa using ran
    have lastNamed := named last (by simp)
    have reads : last.reads = true := by
      rcases kept last (by simp) with plain | ⟨sign,value⟩
      · exact plain
      · exact exportExact lastNamed sign ran value
    rw [exportReads u lastNamed reads] at ran
    cases Option.some.inj ran
    rw [List.map_append,List.nodup_append] at distinct
    have before : ∀ e ∈ es, e.reads = true := by
      refine ih distinct.1 (fun e mem => named e (by simp [mem])) front (fun e mem => ?_)
      have other : e.name ≠ last.name := distinct.2.2 e.name (List.mem_map_of_mem mem) last.name (by simp)
      exact (kept e (by simp [mem])).imp_right (fun ⟨sign,value⟩ => ⟨sign,(if_neg other).symm.trans value⟩)
    intro e mem
    rcases List.mem_append.mp mem with early | here
    · exact before e early
    · cases List.mem_singleton.mp here
      exact reads

end MmRegression
