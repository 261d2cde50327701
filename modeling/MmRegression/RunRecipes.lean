import MmRegression.Fields
import MmRegression.Recipes

/-! `run_recipes` of `run-test.sh`: the walk over the directories of a list of testcase
ids. Consecutive ids below one directory form a batch that a subshell works on;
a directory with a `config` is entered by sourcing it and left by `dir_cleanup`. -/
namespace MmRegression

/-- What the walk does, in order, each time with the process that does it. `sourced` lists the
configs that the process has sourced or inherited. -/
inductive Act where
  | config (pid : Nat) (dir : Text) (status : Nat)
  | recipe (pid : Nat) (id : Text) (sourced : List Text)
  | cleanup (pid : Nat) (dir : Text) (sourced : List Text)
  deriving DecidableEq, Repr

structure World where
  acts : List Act
  forks : Nat
  pidFile : Text → Option Nat

def World.start : World := ⟨[],1,fun _ => none⟩

/- A shell inside `run_recipes`. A call that does not set `tmp` sees its caller's. -/
structure Process where
  pid : Nat
  sourced : List Text
  tmp : Option Text
  deriving DecidableEq, Repr

def Process.start : Process := ⟨0,[],none⟩

def World.act (w : World) (a : Act) : World := { w with acts := w.acts ++ [a] }

def fork (body : Process → World → World) (p : Process) (w : World) : World :=
  body { p with pid := w.forks } { w with forks := w.forks + 1 }

def unwords (ws : List Text) : Text := ws.flatMap (fun w => ' '::w)

def echoed (t : Text) : Text :=
  match words t with
  | [] => []
  | w::ws => w ++ unwords ws

structure Batch where
  keepdir : Text
  linerecipe : Text
  world : World

section Walk
variable (sub : Text → Process → World → World) (basedir : Text) (p : Process)

def flushBatch (b : Batch) : World :=
  if b.keepdir ≠ [] then fork (sub b.linerecipe) p b.world else b.world

def takeElm (b : Batch) (elm : Text) : Batch :=
  let dir := cutFirst '/' (echoWord elm)
  let abc := cutRest '/' (echoWord elm)
  if elm = dir then
    let w := flushBatch sub p b
    let w := fork (fun q w => w.act (.recipe q.pid (basedir ++ ('/'::elm)) q.sourced)) p w
    if b.keepdir ≠ [] then ⟨[],[],w⟩ else { b with world := w }
  else if b.keepdir ≠ dir then
    ⟨dir,(if basedir ≠ [] then basedir ++ ['/'] else []) ++ (dir ++ (": ".toList ++ abc)),
      flushBatch sub p b⟩
  else { b with linerecipe := b.linerecipe ++ (' '::abc) }

def takeElms (elms : List Text) (w : World) : World :=
  let b := elms.foldl (takeElm sub basedir p) ⟨[],[],w⟩
  if b.linerecipe ≠ [] then fork (sub b.linerecipe) p b.world else b.world

end Walk

def leaveDir (p : Process) (w : World) : World :=
  match p.tmp with
  | none => w
  | some dir =>
      if w.pidFile (fileKey dir) = some p.pid then w.act (.cleanup p.pid dir p.sourced) else w

def enterDir (cases : Cases) (config : List Act → Text → Nat) (sub : Text → Process → World → World)
    (line : Text) (p : Process) (w : World) : World :=
  let basedir := cutFirst ':' line
  let elms := words (cutRest ':' line)
  if cases.isFile (fileKey (basedir ++ "/config".toList)) then
    let status := config w.acts basedir
    let entered : World :=
      { w.act (.config p.pid basedir status) with
        pidFile := Function.update w.pidFile (fileKey basedir) (some p.pid) }
    let q : Process := ⟨p.pid,p.sourced ++ [basedir],some basedir⟩
    if status ≠ 0 then entered else leaveDir q (takeElms sub basedir q elms entered)
  else leaveDir p (takeElms sub basedir p elms w)

def runRecipes (cases : Cases) (config : List Act → Text → Nat) : Nat → Text → Process → World → World
  | 0, _, _, w => w
  | fuel+1, arg, p, w => enterDir cases config (runRecipes cases config fuel) (echoed arg) p w

def walk (cases : Cases) (config : List Act → Text → Nat) (ids : List Text) : List Act :=
  let arg := ": ".toList ++ ids.flatMap (fun id => id ++ [' '])
  (runRecipes cases config (arg.length + 1) arg .start .start).acts

/-! ### Ids

Blanks and colons would cut an id in two, and the shell would expand glob characters. -/

def idChar (c : Char) : Bool := !(" \t\n:*?[\\".toList.contains c)

def IsName (comp : Text) : Prop :=
  comp ≠ [] ∧ comp ≠ ".".toList ∧ comp ≠ "..".toList ∧ ∀ c ∈ comp, idChar c = true

def IdPath (id : Text) : Prop := ∀ comp ∈ split '/' id, IsName comp

def fileName (id : Text) : Text := (split '/' id).getLastD []

def Echoes (id : Text) : Prop := echoOption (fileName id) = false

def WalkPath (id : Text) : Prop := IdPath id ∧ Echoes id

def plainChar (c : Char) : Bool := !(" \t\n:*?[]\\^$".toList.contains c)

def PlainPath (id : Text) : Prop :=
  ∀ comp ∈ split '/' id, IsName comp ∧ (∀ c ∈ comp, plainChar c = true) ∧ echoOption comp = false

def PlainId (id : Text) : Prop := PlainPath id ∧ id.head? ≠ some '-'

instance (comp : Text) : Decidable (IsName comp) :=
  decidable_of_iff (comp ≠ [] ∧ comp ≠ ".".toList ∧ comp ≠ "..".toList ∧ comp.all idChar = true)
    (by simp [IsName])
instance (id : Text) : Decidable (IdPath id) :=
  decidable_of_iff ((split '/' id).all (fun comp => decide (IsName comp)) = true) (by simp [IdPath])
instance (id : Text) : Decidable (Echoes id) := inferInstanceAs (Decidable (_ = _))
instance (id : Text) : Decidable (WalkPath id) := inferInstanceAs (Decidable (_ ∧ _))
instance (id : Text) : Decidable (PlainPath id) :=
  decidable_of_iff ((split '/' id).all (fun comp =>
    decide (IsName comp) && (comp.all plainChar && !echoOption comp)) = true) (by simp [PlainPath])
instance (id : Text) : Decidable (PlainId id) := by unfold PlainId; infer_instance

theorem wordsUnwords {ws : List Text} (tokens : ∀ w ∈ ws, Token w) : words (unwords ws) = ws := by
  induction ws with
  | nil => rfl
  | cons w ws ih =>
    have token := tokens w (by simp)
    have tail := ih (fun v mem => tokens v (by simp [mem]))
    rw [show unwords (w::ws) = ' '::(w ++ unwords ws) by simp [unwords],wordsBlank]
    cases ws with
    | nil => simpa [unwords] using wordsOne token
    | cons v vs =>
      rw [show unwords (v::vs) = ' '::(v ++ unwords vs) by simp [unwords],wordsCons token]
      rw [show unwords (v::vs) = ' '::(v ++ unwords vs) by simp [unwords],wordsBlank] at tail
      rw [tail]

theorem echoedLine {t : Text} {ws : List Text} (token : Token t) (tokens : ∀ w ∈ ws, Token w) :
    echoed (t ++ unwords ws) = t ++ unwords ws := by
  have every : ∀ w ∈ t::ws, Token w := by
    intro w mem
    rcases List.mem_cons.mp mem with rfl | mem
    · exact token
    · exact tokens w mem
  have all := wordsUnwords every
  rw [show unwords (t::ws) = ' '::(t ++ unwords ws) by simp [unwords],wordsBlank] at all
  simp [echoed,all]

theorem echoedTop {ids : List Text} (tokens : ∀ id ∈ ids, Token id) :
    echoed (": ".toList ++ ids.flatMap (fun id => id ++ [' '])) = ":".toList ++ unwords ids := by
  have blanks : words (ids.flatMap (fun id => id ++ [' '])) = ids := by
    induction ids with
    | nil => rfl
    | cons id ids ih =>
      rw [List.flatMap_cons,List.append_assoc,List.singleton_append,wordsCons (tokens id (by simp)),
        ih (fun v mem => tokens v (by simp [mem]))]
  have colon : Token ":".toList := by
    refine ⟨by decide,fun c mem => ?_⟩
    rw [List.mem_singleton.mp mem]
    decide
  have all : words (": ".toList ++ ids.flatMap (fun id => id ++ [' '])) = ":".toList :: ids := by
    rw [show ": ".toList ++ ids.flatMap (fun id => id ++ [' ']) =
      ":".toList ++ ' '::ids.flatMap (fun id => id ++ [' ']) by simp,wordsCons colon,blanks]
  rw [echoed,all]

theorem idCharOf {c : Char} (ok : idChar c = true) : c ≠ ' ' ∧ c ≠ '\t' ∧ c ≠ '\n' ∧ c ≠ ':' := by
  refine ⟨?_,?_,?_,?_⟩ <;> · rintro rfl; exact absurd ok (by decide)

theorem splitChars {sep : Char} {t : Text} {c : Char} (mem : c ∈ t) :
    c = sep ∨ ∃ comp ∈ split sep t, c ∈ comp := by
  induction t with
  | nil => contradiction
  | cons d ds ih =>
    by_cases same : d = sep
    · rcases List.mem_cons.mp mem with rfl | mem
      · exact .inl same
      · rcases ih mem with eq | ⟨comp,member,inside⟩
        · exact .inl eq
        · exact .inr ⟨comp,by simp [split,same,member],inside⟩
    · simp only [split,if_neg same]
      cases rest : split sep ds with
      | nil =>
        rcases List.mem_cons.mp mem with rfl | mem
        · exact .inr ⟨[c],by simp,by simp⟩
        · rcases ih mem with eq | ⟨comp,member,_⟩
          · exact .inl eq
          · rw [rest] at member; contradiction
      | cons head tail =>
        rcases List.mem_cons.mp mem with rfl | mem
        · exact .inr ⟨c::head,by simp,by simp⟩
        · rcases ih mem with eq | ⟨comp,member,inside⟩
          · exact .inl eq
          · rw [rest] at member
            rcases List.mem_cons.mp member with rfl | member
            · exact .inr ⟨d::comp,by simp,by simp [inside]⟩
            · exact .inr ⟨comp,by simp [member],inside⟩

theorem IdPath.chars {e : Text} (path : IdPath e) {c : Char} (mem : c ∈ e) : c = '/' ∨ idChar c = true := by
  have found : c = '/' ∨ ∃ comp ∈ split '/' e, c ∈ comp := splitChars mem
  rcases found with eq | ⟨comp,member,inside⟩
  · exact .inl eq
  · exact .inr ((path comp member).2.2.2 c inside)

theorem IdPath.nonempty {e : Text} (path : IdPath e) : e ≠ [] := by
  rintro rfl
  exact (path [] (by simp [split])).1 rfl

theorem IdPath.token {e : Text} (path : IdPath e) : Token e ∧ ':' ∉ e := by
  have chars : ∀ c ∈ e, c ≠ ' ' ∧ c ≠ '\t' ∧ c ≠ '\n' ∧ c ≠ ':' := by
    intro c mem
    rcases path.chars mem with rfl | ok
    · decide
    · exact idCharOf ok
  exact ⟨⟨path.nonempty,fun c mem => ⟨(chars c mem).1,(chars c mem).2.1,(chars c mem).2.2.1⟩⟩,
    fun mem => (chars ':' mem).2.2.2 rfl⟩

theorem fileNameAppend (a b : Text) : fileName (a ++ '/'::b) = fileName b := by
  rw [fileName,splitAppend,fileName,List.getLastD_eq_getLast?,List.getLastD_eq_getLast?,
    List.getLast?_append_of_ne_nil _ (splitNonempty '/' b)]

theorem fileNameClean {e : Text} (clean : '/' ∉ e) : fileName e = e := by
  simp [fileName,splitClean clean]

theorem fileNameMem (id : Text) : fileName id ∈ split '/' id := by
  rw [fileName,List.getLastD_eq_getLast?,List.getLast?_eq_some_getLast (splitNonempty '/' id)]
  exact List.getLast_mem _

theorem PlainPath.walk {id : Text} (plain : PlainPath id) : WalkPath id :=
  ⟨fun comp mem => (plain comp mem).1,(plain _ (fileNameMem id)).2.2⟩

theorem IdPath.cut {e : Text} (path : IdPath e) (slash : '/' ∈ e) :
    ∃ d r, e = d ++ '/'::r ∧ '/' ∉ d ∧ IsName d ∧ IdPath r := by
  obtain ⟨d,r,rfl,clean⟩ := List.eq_append_cons_of_mem slash
  have parts : split '/' (d ++ '/'::r) = d :: split '/' r := splitCons clean r
  exact ⟨d,r,rfl,clean,path d (by simp [parts]),fun comp mem => path comp (by simp [parts,mem])⟩

theorem WalkPath.cut {e : Text} (path : WalkPath e) (slash : '/' ∈ e) :
    ∃ d r, e = d ++ '/'::r ∧ '/' ∉ d ∧ IsName d ∧ WalkPath r := by
  obtain ⟨d,r,rfl,clean,name,rest⟩ := path.1.cut slash
  have echoes := path.2
  rw [Echoes,fileNameAppend] at echoes
  exact ⟨d,r,rfl,clean,name,rest,echoes⟩

theorem echoWordWalk {e : Text} (path : WalkPath e) : echoWord e = e := by
  by_cases slash : '/' ∈ e
  · have other : echoOption e = false := by
      cases e with
      | nil => rfl
      | cons c cs =>
        by_cases dash : c = '-'
        · subst dash
          have slash' : '/' ∈ cs := by simpa using slash
          have off : (cs.all (fun c => "neE".toList.contains c)) = false := by
            rw [List.all_eq_false]
            exact ⟨'/',slash',by decide⟩
          simp only [echoOption,off,Bool.and_false]
        · unfold echoOption
          split
          · rename_i eq
            exact absurd (List.cons.inj eq).1 dash
          · rfl
    simp [echoWord,other]
  · have echoes := path.2
    rw [Echoes,fileNameClean slash] at echoes
    simp [echoWord,echoes]

def called (basedir elm : Text) : Text :=
  if basedir = [] then if '/' ∈ elm then elm else '/'::elm else basedir ++ '/'::elm

theorem squeezeTight {t : Text} (tight : ∀ comp ∈ (split '/' t).tail, comp ≠ []) : squeeze t = t := by
  induction t with
  | nil => rfl
  | cons a t ih =>
    cases t with
    | nil => rfl
    | cons b t =>
      by_cases slash : a = '/'
      · have all : ∀ comp ∈ split '/' (b::t), comp ≠ [] := by
          intro comp mem
          exact tight comp (by simpa [split,slash] using mem)
        have other : b ≠ '/' := by
          rintro rfl
          exact all [] (by simp [split]) rfl
        rw [squeeze,if_neg (by simp [other]),ih (fun comp mem => all comp (List.mem_of_mem_tail mem))]
      · have same : (split '/' (b::t)).tail = (split '/' (a::b::t)).tail := by
          rw [show split '/' (a::b::t) = _ from if_neg slash]
          cases split '/' (b::t) <;> rfl
        rw [squeeze,if_neg (by simp [slash]),ih (fun comp mem => tight comp (same ▸ mem))]

theorem fileKeyPath {id : Text} (path : IdPath id) : fileKey id = id := by
  have whole : squeeze ('/'::id) = '/'::id := squeezeTight (fun comp mem => by
    rw [show split '/' ('/'::id) = [] :: split '/' id by simp [split]] at mem
    exact (path comp mem).1)
  simp [fileKey,whole]

theorem fileKeyCalled {id : Text} (path : IdPath id) : fileKey (called [] id) = id := by
  by_cases slash : '/' ∈ id
  · simp [called,slash,fileKeyPath path]
  · have twice : fileKey ('/'::id) = fileKey id := by simp [fileKey,squeeze]
    simp [called,slash,twice,fileKeyPath path]

def Above (dir id : Text) : Prop := dir = [] ∨ startsWith (dir ++ ['/']) id = true

def FailedAbove (acts : List Act) (id : Text) : Prop :=
  ∃ pid dir status, .config pid dir status ∈ acts ∧ status ≠ 0 ∧ Above dir id

def Act.isRecipe : Act → Bool
  | .recipe .. => true
  | _ => false

theorem FailedAbove.mono {a b : List Act} (sub : ∀ x ∈ a, x ∈ b) {id : Text}
    (failed : FailedAbove a id) : FailedAbove b id := by
  obtain ⟨pid,dir,status,mem,nonzero,above⟩ := failed
  exact ⟨pid,dir,status,sub _ mem,nonzero,above⟩

/-- The acts deal with the ids in the order of the list: each is called once, or left out when
the config of a directory above it has failed. -/
inductive Covers : List Text → List Act → Prop where
  | nil : Covers [] []
  | call {ids acts} (before : Covers ids acts) (pid : Nat) (id : Text) (sourced : List Text) :
      Covers (ids ++ [id]) (acts ++ [.recipe pid id sourced])
  | act {ids acts} (before : Covers ids acts) {a : Act} (other : a.isRecipe = false) :
      Covers ids (acts ++ [a])
  | skip {ids acts} (before : Covers ids acts) {id : Text} (failed : FailedAbove acts id) :
      Covers (ids ++ [id]) acts

theorem Covers.append {ids ids' : List Text} {acts acts' : List Act} (first : Covers ids acts)
    (second : Covers ids' acts') : Covers (ids ++ ids') (acts ++ acts') := by
  induction second with
  | nil => simpa using first
  | call _ pid id sourced ih =>
    rw [← List.append_assoc,← List.append_assoc]
    exact .call ih pid id sourced
  | act _ other ih =>
    rw [← List.append_assoc]
    exact .act ih other
  | skip _ failed ih =>
    rw [← List.append_assoc]
    exact .skip ih (failed.mono (by simp +contextual))

theorem Covers.skips {ids more : List Text} {acts : List Act} (before : Covers ids acts)
    (failed : ∀ id ∈ more, FailedAbove acts id) : Covers (ids ++ more) acts := by
  induction more generalizing ids with
  | nil => simpa using before
  | cons id more ih =>
    rw [List.append_cons]
    exact ih (.skip before (failed id (by simp))) (fun x mem => failed x (by simp [mem]))

theorem Covers.before {ids : List Text} {acts : List Act} (covers : Covers ids acts) {pre post : List Act}
    {pid : Nat} {id : Text} {sourced : List Text} (eq : acts = pre ++ .recipe pid id sourced :: post) :
    ∃ first rest, ids = first ++ id::rest ∧ Covers first pre := by
  induction covers generalizing post with
  | nil => simp at eq
  | call before pid' id' sourced' ih =>
    rcases List.eq_nil_or_concat post with rfl | ⟨post',a,rfl⟩
    · obtain ⟨rfl,last⟩ := List.append_inj' eq rfl
      cases List.singleton_inj.mp last
      exact ⟨_,[],rfl,before⟩
    · rw [List.concat_eq_append,← List.cons_append,← List.append_assoc] at eq
      obtain ⟨first,rest,rfl,done⟩ := ih (List.append_inj_left' eq rfl)
      exact ⟨first,rest ++ [id'],by simp,done⟩
  | act before other ih =>
    rcases List.eq_nil_or_concat post with rfl | ⟨post',a,rfl⟩
    · have last := List.append_inj_right' eq rfl
      rw [List.singleton_inj.mp last] at other
      contradiction
    · rw [List.concat_eq_append,← List.cons_append,← List.append_assoc] at eq
      exact ih (List.append_inj_left' eq rfl)
  | @skip _ _ before id' failed ih =>
    obtain ⟨first,rest,rfl,done⟩ := ih eq
    exact ⟨first,rest ++ [id'],by simp,done⟩

def joinDir (basedir dir : Text) : Text := (if basedir ≠ [] then basedir ++ ['/'] else []) ++ dir

theorem calledJoin {dir rest : Text} (basedir : Text) (nonempty : dir ≠ []) :
    called (joinDir basedir dir) rest = called basedir (dir ++ '/'::rest) := by
  by_cases top : basedir = []
  · simp [called,joinDir,top,nonempty]
  · simp [called,joinDir,top]

def recipeLine (basedir : Text) (elms : List Text) : Text := (basedir ++ [':']) ++ unwords elms

/-! ### Batches

The loop of `run_recipes` keeps the batch it collects in `keepdir` and `linerecipe`. Read as a
whole it cuts the list into files and longest batches. -/

inductive Segment where
  | file (elm : Text)
  | batch (dir : Text) (rests : List Text)

def Segment.elms : Segment → List Text
  | .file e => [e]
  | .batch d rests => rests.map (fun r => d ++ '/'::r)

def addToBatch (d r : Text) : List Segment → List Segment
  | .batch d' rests :: more =>
      if d' = d then .batch d (r::rests) :: more else .batch d [r] :: .batch d' rests :: more
  | more => .batch d [r] :: more

def segments : List Text → List Segment
  | [] => []
  | e::es => if '/' ∈ e then addToBatch (cutFirst '/' e) (cutRest '/' e) (segments es) else .file e :: segments es

def firstDir : List Segment → Option Text
  | .batch d _ :: _ => some d
  | _ => none

def runSegment (sub : Text → Process → World → World) (basedir : Text) (p : Process) (w : World) :
    Segment → World
  | .file e => fork (fun q w => w.act (.recipe q.pid (basedir ++ ('/'::e)) q.sourced)) p w
  | .batch d rests => fork (sub (recipeLine (joinDir basedir d) rests)) p w

theorem firstDirAdd (d r : Text) (segs : List Segment) : firstDir (addToBatch d r segs) = some d := by
  unfold addToBatch
  split
  · split <;> rfl
  · rfl

theorem segmentsBatch {d : Text} (clean : '/' ∉ d) {rests : List Text} (some : rests ≠ []) {es : List Text}
    (ends : firstDir (segments es) ≠ .some d) :
    segments (rests.map (fun r => d ++ '/'::r) ++ es) = .batch d rests :: segments es := by
  have first : ∀ r, cutFirst '/' (d ++ '/'::r) = d := cutFirstAppend clean
  have rest : ∀ r, cutRest '/' (d ++ '/'::r) = r := cutRestAppend clean
  induction rests with
  | nil => contradiction
  | cons r rests ih =>
    simp only [List.map_cons,List.cons_append,segments,List.mem_append,List.mem_cons,true_or,or_true,if_true,
      first,rest]
    cases rests with
    | nil =>
      simp only [List.map_nil,List.nil_append]
      unfold addToBatch
      split
      · rename_i d' rests' more eq
        have other : d' ≠ d := by
          rintro rfl
          exact ends (by rw [eq]; rfl)
        rw [if_neg other,eq]
      · rfl
    | cons r' rests =>
      rw [ih (by simp)]
      simp [addToBatch]

section Loop
variable {sub : Text → Process → World → World} {basedir : Text} {p : Process}

theorem takeFile {b : Batch} {e : Text} (path : WalkPath e) (clean : '/' ∉ e) :
    takeElm sub basedir p b e = { (if b.keepdir ≠ [] then ⟨[],[],b.world⟩ else b : Batch) with
      world := runSegment sub basedir p (flushBatch sub p b) (.file e) } := by
  simp only [takeElm,echoWordWalk path,cutFirstClean clean,if_true,runSegment]
  split <;> rfl

theorem takePath {b : Batch} {d r : Text} (path : WalkPath (d ++ '/'::r)) (clean : '/' ∉ d) :
    takeElm sub basedir p b (d ++ '/'::r) =
      if b.keepdir ≠ d then ⟨d,recipeLine (joinDir basedir d) [r],flushBatch sub p b⟩
      else { b with linerecipe := b.linerecipe ++ (' '::r) } := by
  have inner : d ++ '/'::r ≠ d := by simp
  simp only [takeElm,echoWordWalk path,cutFirstAppend clean,cutRestAppend clean,if_neg inner]
  split
  · simp [recipeLine,joinDir,unwords]
  · rfl

def closeBatch (sub : Text → Process → World → World) (p : Process) (b : Batch) : World :=
  if b.linerecipe ≠ [] then fork (sub b.linerecipe) p b.world else b.world

/-- The pending batch, if any, is read as if its elements were still to come. -/
theorem takeElmsPending {elms : List Text} (paths : ∀ e ∈ elms, WalkPath e) (w : World) :
    closeBatch sub p (elms.foldl (takeElm sub basedir p) ⟨[],[],w⟩) =
      (segments elms).foldl (runSegment sub basedir p) w ∧
    ∀ {d : Text} {rests : List Text}, d ≠ [] → '/' ∉ d → rests ≠ [] →
      closeBatch sub p (elms.foldl (takeElm sub basedir p) ⟨d,recipeLine (joinDir basedir d) rests,w⟩) =
        (segments (rests.map (fun r => d ++ '/'::r) ++ elms)).foldl (runSegment sub basedir p) w := by
  induction elms generalizing w with
  | nil =>
    refine ⟨rfl,fun {d rests} some clean rs => ?_⟩
    have line : recipeLine (joinDir basedir d) rests ≠ [] := by simp [recipeLine]
    rw [segmentsBatch clean rs (by simp [segments,firstDir])]
    exact if_pos line
  | cons e elms ih =>
    have path := paths e (by simp)
    have later := fun w => ih (fun x mem => paths x (by simp [mem])) w
    by_cases slash : '/' ∈ e
    · obtain ⟨d,r,rfl,clean,name,_⟩ := path.cut slash
      have whole : segments ((d ++ '/'::r) :: elms) = addToBatch d r (segments elms) := by
        simp [segments,cutFirstAppend clean,cutRestAppend clean]
      refine ⟨?_,fun {k rests} some cleank rs => ?_⟩
      · rw [List.foldl_cons,takePath path clean,if_pos name.1.symm]
        exact (later w).2 name.1 clean (List.cons_ne_nil r [])
      · by_cases same : k = d
        · subst same
          have line : recipeLine (joinDir basedir k) rests ++ ' '::r = recipeLine (joinDir basedir k) (rests ++ [r]) := by
            simp [recipeLine,unwords]
          rw [List.foldl_cons,takePath path clean,if_neg (by simp),line]
          simpa using (later w).2 name.1 clean (show rests ++ [r] ≠ [] by simp)
        · have ends : firstDir (segments ((d ++ '/'::r) :: elms)) ≠ .some k := by
            rw [whole,firstDirAdd]
            simpa using Ne.symm same
          rw [List.foldl_cons,takePath path clean,if_pos same,segmentsBatch cleank rs ends,List.foldl_cons,flushBatch,
            if_pos some]
          exact (later _).2 name.1 clean (List.cons_ne_nil r [])
    · have whole : segments (e::elms) = .file e :: segments elms := by simp [segments,slash]
      refine ⟨?_,fun {k rests} some cleank rs => ?_⟩
      · rw [List.foldl_cons,takeFile path slash,whole]
        exact (later _).1
      · rw [segmentsBatch cleank rs (by rw [whole]; simp [firstDir]),whole,List.foldl_cons,takeFile path slash,
          if_pos some,flushBatch,if_pos some]
        exact (later _).1

theorem takeElmsSegments {elms : List Text} (paths : ∀ e ∈ elms, WalkPath e) (w : World) :
    takeElms sub basedir p elms w = (segments elms).foldl (runSegment sub basedir p) w :=
  (takeElmsPending paths w).1

end Loop

/- How a list is cut: on its files and its longest batches. -/
inductive Batches : List Text → List Segment → Prop where
  | nil : Batches [] []
  | file {elms segs} (e : Text) (clean : '/' ∉ e) (rest : Batches elms segs) : Batches (e::elms) (.file e :: segs)
  | batch {elms segs} (d : Text) (rests : List Text) (name : IsName d) (clean : '/' ∉ d) (some : rests ≠ [])
      (ends : firstDir segs ≠ .some d) (rest : Batches elms segs) :
      Batches (rests.map (fun r => d ++ '/'::r) ++ elms) (.batch d rests :: segs)

theorem segmentsBatches {elms : List Text} (paths : ∀ e ∈ elms, WalkPath e) : Batches elms (segments elms) := by
  induction elms with
  | nil => exact .nil
  | cons e elms ih =>
    have rest := ih (fun x mem => paths x (by simp [mem]))
    by_cases slash : '/' ∈ e
    · obtain ⟨d,r,rfl,clean,name,_⟩ := (paths e (by simp)).cut slash
      have whole : segments ((d ++ '/'::r) :: elms) = addToBatch d r (segments elms) := by
        simp [segments,cutFirstAppend clean,cutRestAppend clean]
      have alone : firstDir (segments elms) ≠ some d →
          Batches ((d ++ '/'::r) :: elms) (.batch d [r] :: segments elms) := fun ends =>
        .batch d [r] name clean (by simp) ends rest
      rw [whole]
      generalize segments elms = segs at rest alone
      cases rest with
      | nil => exact alone (by simp [firstDir])
      | file e clean rest => exact alone (by simp [firstDir])
      | batch d' rests _ _ _ ends rest =>
        simp only [addToBatch]
        split
        · rename_i same
          subst same
          exact .batch d' (r::rests) name clean (by simp) ends rest
        · rename_i other
          exact alone (by simpa [firstDir] using other)
    · rw [segments,if_neg slash]
      exact .file e slash rest

def Fits (n : Nat) (elms : List Text) : Prop := ∀ e ∈ elms, WalkPath e ∧ e.count '/' < n

theorem Fits.paths {n : Nat} {elms : List Text} (fits : Fits n elms) : ∀ e ∈ elms, WalkPath e :=
  fun e mem => (fits e mem).1

theorem Fits.rests {n : Nat} {d : Text} {rests elms : List Text} (clean : '/' ∉ d)
    (fits : Fits (n+1) (rests.map (fun r => d ++ '/'::r) ++ elms)) : Fits n rests := by
  intro r mem
  obtain ⟨path,depth⟩ := fits (d ++ '/'::r) (List.mem_append_left _ (List.mem_map.mpr ⟨r,mem,rfl⟩))
  have echoes := path.2
  rw [Echoes,fileNameAppend] at echoes
  refine ⟨⟨fun comp inside => path.1 comp ?_,echoes⟩,?_⟩
  · rw [splitCons clean]
    exact List.mem_cons_of_mem d inside
  · simp only [List.count_append,List.count_cons_self] at depth
    omega

theorem Fits.tail {n : Nat} {first elms : List Text} (fits : Fits n (first ++ elms)) : Fits n elms :=
  fun e mem => fits e (List.mem_append_right _ mem)

def DirChars (basedir : Text) : Prop := ∀ c ∈ basedir, idChar c = true

theorem DirChars.join {basedir d : Text} (base : DirChars basedir) (name : IsName d) : DirChars (joinDir basedir d) := by
  intro c mem
  unfold joinDir at mem
  rcases List.mem_append.mp mem with mem | mem
  · split at mem
    · rcases List.mem_append.mp mem with mem | mem
      · exact base c mem
      · rw [List.mem_singleton.mp mem]; decide
    · contradiction
  · exact name.2.2.2 c mem

theorem enterDirLine (cases : Cases) (config : List Act → Text → Nat) (sub : Text → Process → World → World)
    {basedir : Text} (base : DirChars basedir) {elms : List Text} (paths : ∀ e ∈ elms, WalkPath e) (p : Process)
    (w : World) : enterDir cases config sub (recipeLine basedir elms) p w =
      if cases.isFile (fileKey (basedir ++ "/config".toList)) then
        let status := config w.acts basedir
        let entered : World :=
          { w.act (.config p.pid basedir status) with
            pidFile := Function.update w.pidFile (fileKey basedir) (some p.pid) }
        let q : Process := ⟨p.pid,p.sourced ++ [basedir],some basedir⟩
        if status ≠ 0 then entered
        else leaveDir q ((segments elms).foldl (runSegment sub basedir q) entered)
      else leaveDir p ((segments elms).foldl (runSegment sub basedir p) w) := by
  have colon : ':' ∉ basedir := fun mem => (idCharOf (base ':' mem)).2.2.2 rfl
  have first : cutFirst ':' (recipeLine basedir elms) = basedir := by
    simpa [recipeLine] using cutFirstAppend colon (unwords elms)
  have second : words (cutRest ':' (recipeLine basedir elms)) = elms := by
    have rest := cutRestAppend colon (unwords elms)
    rw [recipeLine,List.append_assoc,List.singleton_append,rest]
    exact wordsUnwords (fun e mem => (paths e mem).1.token.1)
  simp only [enterDir,first,second,takeElmsSegments paths]

theorem runRecipesLine (cases : Cases) (config : List Act → Text → Nat) (fuel : Nat) {basedir : Text}
    (base : DirChars basedir) {elms : List Text} (paths : ∀ e ∈ elms, WalkPath e) (p : Process) (w : World) :
    runRecipes cases config (fuel+1) (recipeLine basedir elms) p w =
      enterDir cases config (runRecipes cases config fuel) (recipeLine basedir elms) p w := by
  have token : Token (basedir ++ [':']) := by
    refine ⟨by simp,fun c mem => ?_⟩
    rcases List.mem_append.mp mem with mem | mem
    · have := idCharOf (base c mem)
      exact ⟨this.1,this.2.1,this.2.2.1⟩
    · rw [List.mem_singleton.mp mem]; decide
  rw [runRecipes,recipeLine,echoedLine token (fun e mem => (paths e mem).1.token.1)]

/-! ### The order of the calls -/

def SubCovers (sub : Text → Process → World → World) (n : Nat) : Prop :=
  ∀ basedir elms p w, DirChars basedir → Fits n elms →
    ∃ acts, (sub (recipeLine basedir elms) p w).acts = w.acts ++ acts ∧ Covers (elms.map (called basedir)) acts

theorem leaveDirActs (p : Process) (w : World) :
    ∃ acts, (leaveDir p w).acts = w.acts ++ acts ∧ Covers [] acts := by
  unfold leaveDir
  split
  · exact ⟨[],by simp,.nil⟩
  · split
    · exact ⟨_,rfl,.act .nil rfl⟩
    · exact ⟨[],by simp,.nil⟩

theorem aboveCalled (basedir elm : Text) : Above basedir (called basedir elm) := by
  by_cases top : basedir = []
  · exact .inl top
  · refine .inr ?_
    have grown : called basedir elm = (basedir ++ ['/']) ++ elm := by simp [called,top]
    rw [grown,startsWith,List.isPrefixOf_iff_prefix]
    exact List.prefix_append _ _

theorem calledFile {elm : Text} (basedir : Text) (clean : '/' ∉ elm) : called basedir elm = basedir ++ '/'::elm := by
  by_cases top : basedir = []
  · simp [called,top,clean]
  · simp [called,top]

theorem segmentsCover {sub : Text → Process → World → World} {n : Nat} (covers : SubCovers sub n) {basedir : Text}
    (base : DirChars basedir) (p : Process) {elms : List Text} {segs : List Segment} (batches : Batches elms segs)
    (fits : Fits (n+1) elms) (w : World) :
    ∃ acts, (segs.foldl (runSegment sub basedir p) w).acts = w.acts ++ acts ∧
      Covers (elms.map (called basedir)) acts := by
  induction batches generalizing w with
  | nil => exact ⟨[],by simp,.nil⟩
  | file e clean rest ih =>
    obtain ⟨acts,grown,done⟩ := ih (fun x mem => fits x (List.mem_cons_of_mem e mem)) (runSegment sub basedir p w (.file e))
    have first := Covers.call .nil w.forks (called basedir e) p.sourced
    refine ⟨.recipe w.forks (called basedir e) p.sourced :: acts,?_,first.append done⟩
    rw [List.foldl_cons,grown]
    simp [runSegment,fork,World.act,calledFile basedir clean]
  | batch d rests name clean some ends rest ih =>
    obtain ⟨more,inside,batch⟩ := covers (joinDir basedir d) rests { p with pid := w.forks }
      { w with forks := w.forks + 1 } (base.join name) (fits.rests clean)
    obtain ⟨acts,grown,done⟩ := ih fits.tail (runSegment sub basedir p w (.batch d rests))
    refine ⟨more ++ acts,?_,?_⟩
    · rw [List.foldl_cons,grown,runSegment,fork,inside,List.append_assoc]
    · have names : (rests.map (fun r => d ++ '/'::r)).map (called basedir) =
          rests.map (called (joinDir basedir d)) := by
        simp [calledJoin basedir name.1]
      rw [List.map_append,names]
      exact batch.append done

theorem enterDirCovers (cases : Cases) (config : List Act → Text → Nat)
    {sub : Text → Process → World → World} {n : Nat} (covers : SubCovers sub n) {basedir : Text}
    (base : DirChars basedir) {elms : List Text} (fits : Fits (n+1) elms) (p : Process) (w : World) :
    ∃ acts, (enterDir cases config sub (recipeLine basedir elms) p w).acts = w.acts ++ acts ∧
      Covers (elms.map (called basedir)) acts := by
  -- The batch of an entered directory, with its cleanup.
  have inside : ∀ (q : Process) (v : World), ∃ acts,
      (leaveDir q ((segments elms).foldl (runSegment sub basedir q) v)).acts = v.acts ++ acts ∧
        Covers (elms.map (called basedir)) acts := by
    intro q v
    obtain ⟨acts,grown,done⟩ := segmentsCover covers base q (segmentsBatches fits.paths) fits v
    obtain ⟨last,left,silent⟩ := leaveDirActs q ((segments elms).foldl (runSegment sub basedir q) v)
    refine ⟨acts ++ last,by rw [left,grown,List.append_assoc],?_⟩
    simpa using done.append silent
  have entered : Covers [] [.config p.pid basedir (config w.acts basedir)] := .act .nil rfl
  rw [enterDirLine cases config sub base fits.paths]
  split
  · simp only []
    split
    · rename_i failed
      refine ⟨_,rfl,Covers.skips entered (fun id mem => ?_)⟩
      obtain ⟨e,_,rfl⟩ := List.mem_map.mp mem
      exact ⟨p.pid,basedir,_,List.mem_singleton.mpr rfl,failed,aboveCalled basedir e⟩
    · obtain ⟨acts,grown,done⟩ := inside ⟨p.pid,p.sourced ++ [basedir],some basedir⟩
        { w.act (.config p.pid basedir (config w.acts basedir)) with
          pidFile := Function.update w.pidFile (fileKey basedir) (some p.pid) }
      refine ⟨.config p.pid basedir (config w.acts basedir) :: acts,?_,?_⟩
      · rw [grown]
        simp [World.act]
      · exact entered.append done
  · exact inside p w

theorem runRecipesCovers (cases : Cases) (config : List Act → Text → Nat) (fuel : Nat) :
    SubCovers (runRecipes cases config fuel) fuel := by
  induction fuel with
  | zero =>
    intro basedir elms p w _ fits
    cases elms with
    | nil => exact ⟨[],by simp [runRecipes],.nil⟩
    | cons e es => exact absurd (fits e (by simp)).2 (by omega)
  | succ fuel ih =>
    intro basedir elms p w base fits
    rw [runRecipesLine cases config fuel base fits.paths]
    exact enterDirCovers cases config ih base fits p w

def walkArg (ids : List Text) : Text := ": ".toList ++ ids.flatMap (fun id => id ++ [' '])

theorem walkFits {ids : List Text} (paths : ∀ id ∈ ids, WalkPath id) : Fits ((walkArg ids).length + 1) ids := by
  intro id mem
  refine ⟨paths id mem,?_⟩
  have short : id.length ≤ (ids.flatMap (fun id => id ++ [' '])).length :=
    (List.sublist_flatten_of_mem (List.mem_map.mpr ⟨id,mem,rfl⟩)).length_le.trans' (by simp)
  have := List.count_le_length (a := '/') (l := id)
  simp only [walkArg,List.length_append]
  omega

theorem runRecipesArg (cases : Cases) (config : List Act → Text → Nat) (fuel : Nat) {ids : List Text}
    (paths : ∀ id ∈ ids, WalkPath id) (p : Process) (w : World) :
    runRecipes cases config (fuel+1) (walkArg ids) p w =
      enterDir cases config (runRecipes cases config fuel) (recipeLine [] ids) p w := by
  rw [runRecipes,walkArg,echoedTop (fun id mem => (paths id mem).1.token.1)]
  rfl

theorem walkCovers (cases : Cases) (config : List Act → Text → Nat) {ids : List Text}
    (paths : ∀ id ∈ ids, WalkPath id) : Covers (ids.map (called [])) (walk cases config ids) := by
  have top : DirChars [] := by simp [DirChars]
  obtain ⟨acts,grown,done⟩ := enterDirCovers cases config
    (runRecipesCovers cases config (walkArg ids).length) top (walkFits paths) .start .start
  have started := runRecipesArg cases config (walkArg ids).length paths .start .start
  rw [show walk cases config ids = _ from congrArg World.acts started,grown]
  exact done

/-! ### What a walk says of its configs and calls -/

def Configured (config : List Act → Text → Nat) (acts : List Act) : Prop :=
  ∀ pid dir status, .config pid dir status ∈ acts → ∃ before, status = config before dir

structure Makes (config : List Act → Text → Nat) (ok : Act → Prop) : Prop where
  config : ∀ pid before dir, ok (.config pid dir (config before dir))
  recipe : ∀ pid basedir elm sourced, elm = cutFirst '/' (echoWord elm) →
    ok (.recipe pid (basedir ++ '/'::elm) sourced)
  cleanup : ∀ pid dir sourced, ok (.cleanup pid dir sourced)

section Makes
variable {config : List Act → Text → Nat} {ok : Act → Prop} (makes : Makes config ok)

theorem World.actOk {w : World} (all : ∀ a ∈ w.acts, ok a) {a : Act} (new : ok a) : ∀ b ∈ (w.act a).acts, ok b := by
  intro b mem
  rcases List.mem_append.mp mem with mem | mem
  · exact all b mem
  · rwa [List.mem_singleton.mp mem]

variable {sub : Text → Process → World → World}
  (keeps : ∀ line p w, (∀ a ∈ w.acts, ok a) → ∀ a ∈ (sub line p w).acts, ok a)

include keeps in
theorem flushOk (p : Process) {b : Batch} (all : ∀ a ∈ b.world.acts, ok a) : ∀ a ∈ (flushBatch sub p b).acts, ok a := by
  unfold flushBatch
  split
  · exact keeps _ _ _ all
  · exact all

include makes keeps

theorem takeElmOk (basedir : Text) (p : Process) {b : Batch} (elm : Text) (all : ∀ a ∈ b.world.acts, ok a) :
    ∀ a ∈ (takeElm sub basedir p b elm).world.acts, ok a := by
  have flushed := flushOk keeps p all
  simp only [takeElm]
  split
  · rename_i file
    have called := World.actOk flushed (makes.recipe (flushBatch sub p b).forks basedir elm p.sourced file)
    split
    · exact called
    · exact called
  · split
    · exact flushed
    · exact all

theorem takeElmsOk (basedir : Text) (p : Process) (elms : List Text) {w : World} (all : ∀ a ∈ w.acts, ok a) :
    ∀ a ∈ (takeElms sub basedir p elms w).acts, ok a := by
  have loop : ∀ b : Batch, (∀ a ∈ b.world.acts, ok a) →
      ∀ a ∈ (elms.foldl (takeElm sub basedir p) b).world.acts, ok a := by
    induction elms with
    | nil => exact fun _ all => all
    | cons e es ih => exact fun b all => ih _ (takeElmOk makes keeps basedir p e all)
  have ended := loop ⟨[],[],w⟩ all
  simp only [takeElms]
  split
  · exact keeps _ _ _ ended
  · exact ended

omit keeps in
theorem leaveDirOk (p : Process) {w : World} (all : ∀ a ∈ w.acts, ok a) : ∀ a ∈ (leaveDir p w).acts, ok a := by
  unfold leaveDir
  split
  · exact all
  · split
    · exact World.actOk all (makes.cleanup _ _ _)
    · exact all

theorem enterDirOk (cases : Cases) (line : Text) (p : Process) {w : World} (all : ∀ a ∈ w.acts, ok a) :
    ∀ a ∈ (enterDir cases config sub line p w).acts, ok a := by
  have sourced := World.actOk all (makes.config p.pid w.acts (cutFirst ':' line))
  simp only [enterDir]
  split
  · split
    · exact sourced
    · exact leaveDirOk makes _ (takeElmsOk makes keeps _ _ _ sourced)
  · exact leaveDirOk makes _ (takeElmsOk makes keeps _ _ _ all)

end Makes

theorem runRecipesOk (cases : Cases) {config : List Act → Text → Nat} {ok : Act → Prop} (makes : Makes config ok)
    (fuel : Nat) (arg : Text) (p : Process) (w : World) (all : ∀ a ∈ w.acts, ok a) :
    ∀ a ∈ (runRecipes cases config fuel arg p w).acts, ok a := by
  induction fuel generalizing arg p w with
  | zero => exact all
  | succ fuel ih => exact enterDirOk makes ih cases _ p all

theorem walkOk (cases : Cases) {config : List Act → Text → Nat} {ok : Act → Prop} (makes : Makes config ok)
    (ids : List Text) : ∀ a ∈ walk cases config ids, ok a :=
  runRecipesOk cases makes _ _ _ _ (by intro a mem; contradiction)

theorem walkConfigured (cases : Cases) (config : List Act → Text → Nat) (ids : List Text) :
    Configured config (walk cases config ids) := by
  have makes : Makes config (fun a => ∀ pid dir status, a = .config pid dir status → ∃ before, status = config before dir) :=
    ⟨fun pid before dir _ _ _ same => by cases same; exact ⟨before,rfl⟩,by simp,by simp⟩
  exact fun pid dir status mem => walkOk cases makes ids _ mem pid dir status rfl

theorem Configured.entered {config : List Act → Text → Nat} {acts : List Act} (ok : Configured config acts) {id : Text}
    (zero : ∀ before dir, Above dir id → config before dir = 0) : ¬ FailedAbove acts id := by
  rintro ⟨pid,dir,status,mem,failed,above⟩
  obtain ⟨before,rfl⟩ := ok pid dir status mem
  exact failed (zero before dir above)

theorem Covers.called {ids : List Text} {acts : List Act} (covers : Covers ids acts) {id : Text} (mem : id ∈ ids)
    (entered : ¬ FailedAbove acts id) : ∃ pid sourced, .recipe pid id sourced ∈ acts := by
  induction covers with
  | nil => contradiction
  | @call ids acts before pid id' sourced ih =>
    rcases List.mem_append.mp mem with early | last
    · obtain ⟨pid,sourced,inside⟩ := ih early (fun failed => entered (failed.mono (by simp +contextual)))
      exact ⟨pid,sourced,by simp [inside]⟩
    · cases List.mem_singleton.mp last
      exact ⟨pid,sourced,by simp⟩
  | @act ids acts before a other ih =>
    obtain ⟨pid,sourced,inside⟩ := ih mem (fun failed => entered (failed.mono (by simp +contextual)))
    exact ⟨pid,sourced,by simp [inside]⟩
  | @skip ids acts before id' failed ih =>
    rcases List.mem_append.mp mem with early | last
    · exact ih early entered
    · cases List.mem_singleton.mp last
      exact absurd failed entered

theorem Covers.count {ids : List Text} {acts : List Act} (covers : Covers ids acts) :
    acts.countP Act.isRecipe ≤ ids.length := by
  induction covers with
  | nil => exact le_rfl
  | call before pid id sourced ih =>
    simp only [List.countP_append,List.length_append,List.countP_singleton,List.length_singleton,Act.isRecipe,if_true]
    omega
  | act before other ih =>
    simp only [List.countP_append,List.countP_singleton,other,Bool.false_eq_true,if_false]
    omega
  | skip before failed ih =>
    simp only [List.length_append,List.length_singleton]
    omega

end MmRegression
