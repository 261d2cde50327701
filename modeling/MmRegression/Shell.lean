import Mathlib.Data.List.Basic

/-! Text as the scripts handle it, and the variables they read.
A file is a list of lines without their newlines; every program is taken to
write whole lines. Words, fields and suffixes follow `cut`, `[[ =~ ]]` and the
Ruby expressions that use them. -/
namespace MmRegression

abbrev Text := List Char

def digits (n : Nat) : Text := Nat.toDigits 10 n

def intText (n : Int) : Text := if n < 0 then '-' :: digits n.natAbs else digits n.natAbs

def cutFirst (sep : Char) (t : Text) : Text := t.takeWhile (· != sep)

def cutRest (sep : Char) (t : Text) : Text :=
  if sep ∈ t then (t.dropWhile (· != sep)).tail else t

def split (sep : Char) : Text → List Text
  | [] => [[]]
  | c::cs => if c = sep then [] :: split sep cs else
      match split sep cs with
      | [] => [[c]]
      | head::tail => (c::head)::tail

def words (t : Text) : List Text :=
  (split ' ' (t.map (fun c => if c = '\t' ∨ c = '\n' then ' ' else c))).filter (fun w => !w.isEmpty)

/- `echo $word`: what `echo` takes for its options is not printed. -/
def echoOption : Text → Bool
  | '-'::o => !o.isEmpty && o.all (fun c => "neE".toList.contains c)
  | _ => false

def echoWord (t : Text) : Text := if echoOption t then [] else t

def startsWith (pre t : Text) : Bool := pre.isPrefixOf t
def endsWith (suf t : Text) : Bool := suf.isSuffixOf t

def isWord (c : Char) : Bool := c.isAlphanum || c == '_'

/-- The shell variables that the modelled functions read, with the answers of `$USER` and
`hostname`. `loglevel` is the value after `common.sh` has put 1 for an unset one. -/
structure Env where
  loglevel : Nat
  again : Bool
  skipPass : Bool
  skipFail : Bool
  skipWarn : Bool
  runMode : Text
  priority : Text
  softRetry : Option Nat
  hardRetry : Option Nat
  testRunMode : Bool
  develMode : Bool
  filter : Option Text
  root : Bool
  background : Bool
  hostname : Text
  deriving DecidableEq, Repr

def Env.initial : Env where
  loglevel := 1
  again := false
  skipPass := false
  skipFail := false
  skipWarn := false
  runMode := "normal".toList
  priority := "0-10".toList
  softRetry := some 1
  hardRetry := some 1
  testRunMode := false
  develMode := false
  filter := none
  root := true
  background := false
  hostname := "localhost".toList

/-! The verdict line travels through the `result` file: `do_soft_try` and
`recipe_load_check` print it, `check_testcase_already_run` and
`TestCaseSummary` look for it. -/

inductive Verdict where
  | pass | skip | fail
  deriving DecidableEq, Repr

def Verdict.text : Verdict → Text
  | .pass => "PASS".toList
  | .skip => "SKIP".toList
  | .fail => "FAIL".toList

def resultMark : Text := "TESTCASE_RESULT: ".toList

def resultLine (relpath : Text) (v : Verdict) : Text :=
  resultMark ++ (relpath ++ (": ".toList ++ v.text))

/-- `line =~ /^TESTCASE_RESULT: (.+)?: (\w+)$/`, with `$2`. The word has neither a
colon nor a blank in it, so it starts after the last ": " of the line. -/
def matchResult (line : Text) : Option Text :=
  if startsWith resultMark line then
    let back := (line.drop resultMark.length).reverse
    match back.takeWhile isWord, back.dropWhile isWord with
    | [], _ => none
    | w, ' ' :: ':' :: _ => some w.reverse
    | _, _ => none
  else none

def isResult (line : Text) : Bool := (matchResult line).isSome

theorem digitsDigit {n : Nat} : ∀ c ∈ digits n, c.isDigit = true :=
  fun _ mem => Nat.isDigit_of_mem_toDigits (by decide) (by decide) mem

theorem digitsFree (n : Nat) {c : Char} (other : c.isDigit = false) : c ∉ digits n := by
  intro mem
  rw [digitsDigit c mem] at other
  contradiction

theorem verdictWord (v : Verdict) : v.text ≠ [] ∧ ∀ c ∈ v.text, isWord c = true := by
  cases v <;> exact ⟨by decide,List.all_eq_true.mp (by decide)⟩

theorem takeDropWord {w : Text} (word : ∀ c ∈ w, isWord c = true) (rest : Text) :
    (w ++ ' '::rest).takeWhile isWord = w ∧ (w ++ ' '::rest).dropWhile isWord = ' '::rest := by
  induction w with
  | nil => exact ⟨by simp [isWord],by simp [isWord]⟩
  | cons c cs ih =>
    have head := word c (by simp)
    have tail := ih (fun d hd => word d (by simp [hd]))
    exact ⟨by simp [head,tail.1],by simp [head,tail.2]⟩

/- The line is recognised whatever stands for the testcase: `do_soft_try` prints it with
`recipe_relpath` unset, since that variable is local to `recipe_load_check`. -/
theorem matchResultLine (relpath : Text) (v : Verdict) :
    matchResult (resultLine relpath v) = some v.text := by
  obtain ⟨nonempty,word⟩ := verdictWord v
  have started : startsWith resultMark (resultLine relpath v) = true := by
    simp [startsWith,resultLine]
  have back : ((resultLine relpath v).drop resultMark.length).reverse =
      v.text.reverse ++ ' ' :: ':' :: relpath.reverse := by
    simp [resultLine]
  have reversed : ∀ c ∈ v.text.reverse, isWord c = true := fun c hc => word c (by simpa using hc)
  obtain ⟨taken,dropped⟩ := takeDropWord reversed (':' :: relpath.reverse)
  simp only [matchResult,started,if_true,back,taken,dropped]
  split
  · rename_i empty; simp [nonempty] at empty
  · simp
  · rename_i _ other; exact absurd rfl (other _)

theorem matchResultWord {line w : Text} (found : matchResult line = some w) : ∀ c ∈ w, isWord c = true := by
  simp only [matchResult] at found
  split at found
  · split at found
    · contradiction
    · cases Option.some.inj found
      intro c mem
      exact List.all_eq_true.mp List.all_takeWhile c (List.mem_reverse.mp mem)
    · contradiction
  · contradiction

theorem startsWithField {pre a b : Text} {sep : Char} (free : sep ∉ pre) :
    startsWith pre (a ++ sep::b) = startsWith pre a := by
  unfold startsWith
  induction pre generalizing a with
  | nil => simp
  | cons c cs ih =>
    simp only [List.mem_cons,not_or] at free
    cases a with
    | nil => simp [List.isPrefixOf,Ne.symm free.1]
    | cons d ds => simp [List.isPrefixOf,ih free.2]

theorem otherChars {sep : Char} {a : Text} (clean : sep ∉ a) : ∀ c ∈ a, (c != sep) = true := by
  intro c mem
  have other : c ≠ sep := fun eq => clean (eq ▸ mem)
  simpa using other

theorem cutFirstAppend {sep : Char} {a : Text} (clean : sep ∉ a) (rest : Text) :
    cutFirst sep (a ++ sep::rest) = a := by
  simp [cutFirst,List.takeWhile_append_of_pos (otherChars clean)]

theorem cutFirstClean {sep : Char} {a : Text} (clean : sep ∉ a) : cutFirst sep a = a := by
  have whole : (a ++ []).takeWhile (· != sep) = a ++ [].takeWhile (· != sep) :=
    List.takeWhile_append_of_pos (otherChars clean)
  simpa [cutFirst] using whole

theorem cutRestAppend {sep : Char} {a : Text} (clean : sep ∉ a) (rest : Text) :
    cutRest sep (a ++ sep::rest) = rest := by
  simp [cutRest,List.dropWhile_append_of_pos (otherChars clean)]

example : matchResult "TESTCASE_RESULT: : PASS".toList = some "PASS".toList := by decide
example : matchResult "TESTCASE_RESULT: mm/ksm:PASS".toList = none := by decide

end MmRegression
