import MmRegression.Hash
import MmRegression.RoundLoop

/-! The `.set3` templates: the file that `RecipeTemplate` writes for a template and a hash of
parameters, and the id that `recipe.rb list` makes of the path of that file. -/
namespace MmRegression

/- A hash of a `#!` line; a value may be nil. -/
abbrev Params := Hash Text (Option Text)

def getIdPart (e : Text × Option Text) : Text :=
  match e.2 with
  | none => e.1
  | some v => if v = [] then e.1 else e.1 ++ '-'::v

def getId (values : Params) : Text := List.intercalate ['_'] (values.entries.map getIdPart)

/- What `Dir.glob` leaves out is hidden by a dot. -/
def globbed (path : Text) : Bool := (split '/' path).all (fun comp => comp.head? != some '.')

/-- A `.set3` file that `Dir.glob` finds below `cases/`, by its path there without the suffix. -/
structure Template where
  stem : Text
  params : List Params
  found : fileName stem ≠ [] ∧ globbed stem = true
  clean : ∀ h ∈ params, ∀ e ∈ h.entries, '/' ∉ e.1 ∧ ∀ v ∈ e.2, '/' ∉ v

def Template.file (t : Template) : Text := "cases/".toList ++ (t.stem ++ ".set3".toList)

def dirname (f : Text) : Text := ((f.reverse.dropWhile (· != '/')).tail).reverse

def basenameWithout (suf f : Text) : Text := (basename f).take ((basename f).length - suf.length)

def Template.expansions (t : Template) : List Params := if t.params.isEmpty then [Hash.empty] else t.params

def Template.outfile (t : Template) (param : Params) : Text :=
  dirname t.file ++ '/'::(if param.entries.isEmpty then basenameWithout ".set3".toList t.file ++ ".auto3".toList
    else basenameWithout ".set3".toList t.file ++ '/'::(getId param ++ ".auto3".toList))

/- `f.gsub!("#{Dir::pwd}/", '')` and `f.gsub("cases/", '')` -/
def listId (pwd path : Text) : Text := gsubAway "cases/".toList 0 (gsubAway (pwd ++ ['/']) 0 (pwd ++ ['/'] ++ path))

structure Expands (pwd : Text) (templates : List Template) : Prop where
  apart : ∀ t ∈ templates, ∀ u ∈ templates, ∀ h ∈ t.expansions, ∀ k ∈ u.expansions,
    t.stem ≠ u.stem ∨ ¬ h.entries.Perm k.entries → t.outfile h ≠ u.outfile k
  named : ∀ t ∈ templates, ∀ h ∈ t.expansions, globbed (t.outfile h) = true →
    "cases/".toList ++ listId pwd (t.outfile h) = t.outfile h

/- The parameters as they stand in a file name, cut at the underscores. -/
def cuts (h : Params) : List Text := h.entries.flatMap (fun e => split '_' (getIdPart e))

/- The directory part of an expansion, with what of the name a pattern that ends in a slash
can reach. -/
def reach (t : Template) (h : Params) : Text := if h.entries.isEmpty then t.stem else t.stem ++ ['/']

/- A dot begins the name of the expansion. -/
def hidden (h : Params) : Bool :=
  h.entries.head?.any (fun e => e.1.head? == some '.') || h.entries.map (fun e => (e.1,e.2.getD [])) == [([],[])]

/-- What the names in a set of templates have to be like for their expansions to be told apart. -/
structure Unambiguous (pwd : Text) (templates : List Template) : Prop where
  -- Two hashes of one template that read alike at the underscores are one hash.
  ids : ∀ t ∈ templates, ∀ u ∈ templates, t.stem = u.stem → ∀ h ∈ t.expansions, ∀ k ∈ u.expansions,
    h.entries ≠ [] → k.entries ≠ [] → cuts h = cuts k → h.entries.Perm k.entries
  -- No template without parameters stands where another one puts an expansion.
  nested : ∀ t ∈ templates, ∀ u ∈ templates, ∀ h ∈ t.expansions, ∀ k ∈ u.expansions,
    h.entries = [] → k.entries ≠ [] → ∀ name, t.stem = u.stem ++ '/'::name → split '_' name ≠ cuts k
  paths : ∀ t ∈ templates, ∀ h ∈ t.expansions, hidden h = false →
    contains "cases/".toList (reach t h) = false ∧
      contains (pwd ++ ['/']) ("cases/".toList ++ reach t h) = false

/-! ### The path of an expansion -/

theorem lastSlash {t : Text} (slash : '/' ∈ t) : ∃ d x, t = d ++ '/'::x ∧ '/' ∉ x := by
  obtain ⟨x,d,back,clean⟩ := List.eq_append_cons_of_mem (List.mem_reverse.mpr slash)
  refine ⟨d.reverse,x.reverse,?_,by simpa using clean⟩
  have whole := congrArg List.reverse back
  simpa using whole

theorem dirnameFile {d x : Text} (clean : '/' ∉ x) : dirname (d ++ '/'::x) = d := by
  have back : (d ++ '/'::x).reverse = x.reverse ++ '/'::d.reverse := by simp
  have others : ∀ c ∈ x.reverse, (c != '/') = true := otherChars (by simpa using clean)
  rw [dirname,back,List.dropWhile_append_of_pos others]
  simp

theorem basenameFile {d x : Text} (clean : '/' ∉ x) (filled : x ≠ []) : basename (d ++ '/'::x) = x := by
  have back : (d ++ '/'::x).reverse = x.reverse ++ '/'::d.reverse := by simp
  have others : ∀ c ∈ x.reverse, (c != '/') = true := otherChars (by simpa using clean)
  obtain ⟨c,cs,shape⟩ := List.exists_cons_of_ne_nil (show x.reverse ≠ [] by simpa using filled)
  have first : c ≠ '/' := by
    have := others c (by simp [shape])
    simpa using this
  rw [basename,back,shape,List.cons_append,List.dropWhile_cons_of_neg (by simpa using first),← List.cons_append,← shape,
    List.takeWhile_append_of_pos others]
  simp

theorem outfilePath (t : Template) (h : Params) : t.outfile h = "cases/".toList ++ (t.stem ++
    if h.entries.isEmpty then ".auto3".toList else '/'::(getId h ++ ".auto3".toList)) := by
  -- The directory, `cases` itself or one below it, and the name.
  obtain ⟨d,x,path,clean,filled⟩ : ∃ d x, "cases/".toList ++ t.stem = d ++ '/'::x ∧ '/' ∉ x ∧ x ≠ [] := by
    by_cases slash : '/' ∈ t.stem
    · obtain ⟨d,x,shape,clean⟩ := lastSlash slash
      refine ⟨"cases/".toList ++ d,x,by rw [shape,List.append_assoc],clean,?_⟩
      have name := t.found.1
      rwa [shape,fileNameAppend,fileNameClean clean] at name
    · have name := t.found.1
      rw [fileNameClean slash] at name
      exact ⟨"cases".toList,t.stem,rfl,slash,name⟩
  have file : t.file = d ++ '/'::(x ++ ".set3".toList) := by
    have parts : t.file = "cases/".toList ++ t.stem ++ ".set3".toList := (List.append_assoc _ _ _).symm
    rw [parts,path,List.append_assoc,List.cons_append]
  have clean' : '/' ∉ x ++ ".set3".toList := by simp [clean]
  have name : basenameWithout ".set3".toList t.file = x := by
    rw [basenameWithout,file,basenameFile clean' (by simp)]
    simp
  rw [Template.outfile,name,file,dirnameFile clean',← List.append_assoc,path]
  split <;> simp

section Template
variable {t u : Template} {h k : Params}

theorem expansionsClean (mem : h ∈ t.expansions) : ∀ e ∈ h.entries, '/' ∉ getIdPart e := by
  have clean : ∀ e ∈ h.entries, '/' ∉ e.1 ∧ ∀ v ∈ e.2, '/' ∉ v := by
    unfold Template.expansions at mem
    split at mem
    · rw [List.mem_singleton.mp mem]
      intro e inside
      contradiction
    · exact t.clean h mem
  intro e inside
  obtain ⟨key,value⟩ := clean e inside
  unfold getIdPart
  split
  · exact key
  · rename_i v held
    split
    · exact key
    · have rest := value v held
      simp [key,rest]

theorem getIdClean (mem : h ∈ t.expansions) : '/' ∉ getId h := by
  intro slash
  rcases memJoin slash with same | ⟨w,part,inside⟩
  · exact absurd same (by decide)
  · obtain ⟨e,entry,rfl⟩ := List.mem_map.mp part
    exact expansionsClean mem e entry inside

theorem splitGetId (some : h.entries ≠ []) : split '_' (getId h) = cuts h := by
  rw [getId,splitIntercalate (by simpa using some),cuts,List.flatMap_map]

theorem getIdCuts (hs : h.entries ≠ []) (ks : k.entries ≠ []) : getId h = getId k ↔ cuts h = cuts k := by
  rw [← splitGetId hs,← splitGetId ks]
  exact ⟨fun same => by rw [same],splitInjective⟩

theorem outfileApart (th : h ∈ t.expansions) (uk : k ∈ u.expansions) : t.outfile h = u.outfile k ↔
    t.stem = u.stem ∧ (h.entries = [] ∧ k.entries = [] ∨ h.entries ≠ [] ∧ k.entries ≠ [] ∧ cuts h = cuts k) ∨
    h.entries = [] ∧ k.entries ≠ [] ∧ t.stem = u.stem ++ '/'::getId k ∨
    k.entries = [] ∧ h.entries ≠ [] ∧ u.stem = t.stem ++ '/'::getId h := by
  have suffix : ∀ {a b : Text}, a ++ ".auto3".toList = b ++ ".auto3".toList ↔ a = b := List.append_left_inj _
  have joined : ∀ a b : Text, a ++ '/'::(b ++ ".auto3".toList) = (a ++ '/'::b) ++ ".auto3".toList := by simp
  have below : t.stem ++ '/'::getId h = u.stem ++ '/'::getId k ↔ t.stem = u.stem ∧ getId h = getId k :=
    ⟨lastField (getIdClean th) (getIdClean uk),fun ⟨stem,id⟩ => by rw [stem,id]⟩
  rw [outfilePath,outfilePath,List.append_right_inj]
  by_cases hs : h.entries = [] <;> by_cases ks : k.entries = []
  · simp only [hs,ks,List.isEmpty_nil,if_true,suffix]
    simp
  · simp only [hs,List.isEmpty_nil,if_true,List.isEmpty_iff,if_neg ks,joined,suffix]
    simp [ks]
  · simp only [ks,List.isEmpty_nil,if_true,List.isEmpty_iff,if_neg hs,joined,suffix]
    simp [hs,eq_comm]
  · simp only [List.isEmpty_iff,if_neg hs,if_neg ks,joined,suffix,below,getIdCuts hs ks]
    simp [hs,ks]

theorem globbedAppend (a b : Text) : globbed (a ++ '/'::b) = (globbed a && globbed b) := by
  rw [globbed,splitAppend,List.all_append]
  rfl

theorem globbedClean {x : Text} (clean : '/' ∉ x) : globbed x = (x.head? != some '.') := by
  simp [globbed,splitClean clean]

theorem globbedEnded {x suf : Text} (name : fileName x ≠ []) (clean : '/' ∉ suf) : globbed (x ++ suf) = globbed x := by
  have short : ∀ {x : Text}, '/' ∉ x → x ≠ [] → globbed (x ++ suf) = globbed x := by
    intro x whole filled
    rw [globbedClean (by simp [whole,clean]),globbedClean whole,List.head?_append_of_ne_nil x filled]
  by_cases slash : '/' ∈ x
  · obtain ⟨d,last,rfl,whole⟩ := lastSlash slash
    rw [fileNameAppend,fileNameClean whole] at name
    rw [List.append_assoc,List.cons_append,globbedAppend,globbedAppend,short whole name]
  · rw [fileNameClean slash] at name
    exact short slash name

theorem getIdDot (some : h.entries ≠ []) : (getId h ++ ".auto3".toList).head? = Option.some '.' ↔ hidden h = true := by
  have parts : ∀ e : Text × Option Text, getIdPart e = e.1 ++ if e.2.getD [] = [] then [] else '-'::e.2.getD [] := by
    intro e
    obtain ⟨key,_ | value⟩ := e
    · simp [getIdPart]
    · by_cases empty : value = [] <;> simp [getIdPart,empty]
  unfold getId hidden
  match h.entries,some with
  | [],filled => exact absurd rfl filled
  | [e],_ =>
    obtain ⟨key,value⟩ := e
    rw [List.map_singleton,List.intercalate_singleton,parts]
    cases key with
    | nil => by_cases empty : value.getD [] = [] <;> simp [empty]
    | cons c cs => simp
  | e::f::es,_ =>
    obtain ⟨key,value⟩ := e
    rw [List.map_cons,List.map_cons,joinCons,parts]
    cases key with
    | nil => by_cases empty : value.getD [] = [] <;> simp [empty]
    | cons c cs => simp

theorem globbedOutfile (mem : h ∈ t.expansions) : globbed (t.outfile h) = !hidden h := by
  have below : ∀ x, globbed ("cases/".toList ++ x) = globbed x := fun x => globbedAppend "cases".toList x
  rw [outfilePath,below]
  by_cases empty : h.entries = []
  · rw [if_pos (by simp [empty]),globbedEnded t.found.1 (by decide),t.found.2]
    simp [hidden,empty]
  · have clean : '/' ∉ getId h ++ ".auto3".toList := by simp [getIdClean mem]
    rw [if_neg (by simpa using empty),globbedAppend,t.found.2,Bool.true_and,globbedClean clean,Bool.eq_iff_iff,
      Bool.not_eq_true',bne_iff_ne,Ne,getIdDot empty,Bool.not_eq_true]

end Template

/-! ### The id -/

section Gsub
variable {pat : Text}

theorem gsubAbsent {t : Text} (absent : contains pat t = false) : gsubAway pat 0 t = t := by
  induction t with
  | nil => rfl
  | cons c cs ih =>
    rw [containsCons,Bool.or_eq_false_iff] at absent
    rw [gsubAway,absent.1,if_neg (by simp),ih absent.2]

theorem gsubSkip (n : Nat) (t : Text) : gsubAway pat n t = gsubAway pat 0 (t.drop n) := by
  induction n generalizing t with
  | zero => rfl
  | succ n ih =>
    cases t with
    | nil => rfl
    | cons c cs => exact ih cs

theorem gsubFirst (filled : pat ≠ []) (t : Text) : gsubAway pat 0 (pat ++ t) = gsubAway pat 0 t := by
  obtain ⟨c,cs,shape⟩ := List.exists_cons_of_ne_nil filled
  have begins : startsWith pat (c::(cs ++ t)) = true := by
    rw [← List.cons_append,← shape,startsWith,List.isPrefixOf_iff_prefix]
    exact List.prefix_append pat t
  have whole : pat ++ t = c::(cs ++ t) := by rw [shape]; rfl
  have short : pat.length - 1 = cs.length := by simp [shape]
  rw [whole,gsubAway,if_pos begins,gsubSkip,short,List.drop_left]

theorem gsubSublist (pat t : Text) : (gsubAway pat 0 t).Sublist t := by
  induction h : t.length using Nat.strongRecOn generalizing t with
  | _ n ih =>
    cases t with
    | nil => exact .refl _
    | cons c cs =>
      rw [gsubAway]
      split
      · rw [gsubSkip]
        refine (ih _ ?_ _ rfl).trans ((List.drop_sublist _ _).trans (List.sublist_cons_self c cs))
        rw [← h,List.length_drop,List.length_cons]
        omega
      · exact (ih _ (by subst h; simp) cs rfl).cons_cons c

theorem gsubCount (filled : pat ≠ []) (c : Char) {t : Text} (found : contains pat t = true) :
    (gsubAway pat 0 t).count c + pat.count c ≤ t.count c := by
  induction t with
  | nil =>
    obtain ⟨a,b,shape⟩ := containsIff.mp found
    simp [filled] at shape
  | cons d ds ih =>
    rw [containsCons] at found
    cases begins : startsWith pat (d::ds) with
    | true =>
      obtain ⟨rest,whole⟩ := List.isPrefixOf_iff_prefix.mp begins
      rw [← whole,gsubFirst filled,List.count_append]
      have less := (gsubSublist pat rest).count_le c
      omega
    | false =>
      rw [begins,Bool.false_or] at found
      have later := ih found
      rw [gsubAway,begins,if_neg (by simp),List.count_cons,List.count_cons]
      omega

end Gsub

theorem containsTrailing {p a b : Text} {sep : Char} (clean : sep ∉ b) :
    contains (p ++ [sep]) (a ++ b) = contains (p ++ [sep]) a := by
  rw [Bool.eq_iff_iff,containsIff,containsIff]
  constructor
  · rintro ⟨x,y,whole⟩
    rw [← List.append_assoc] at whole
    rcases List.append_eq_append_iff.mp whole with ⟨m,across,rest⟩ | ⟨m,inner,_⟩
    · rcases List.eq_nil_or_concat m with rfl | ⟨front,last,rfl⟩
      · exact ⟨x,[],by rw [List.append_nil] at across; rw [← across,List.append_nil]⟩
      · -- The separator would stand in the second part.
        rw [List.concat_eq_append,← List.append_assoc,← List.append_assoc] at across
        have same := List.singleton_inj.mp (List.append_inj_right' across rfl)
        exact absurd (by simp [rest,same]) clean
    · exact ⟨x,m,by rw [inner,List.append_assoc]⟩
  · rintro ⟨x,y,rfl⟩
    exact ⟨x,y ++ b,by simp⟩

/- Every cut of the working directory would take two slashes, and one of `cases/` takes one. -/
theorem listIdIff {pwd : Text} (absolute : pwd.head? = some '/') (rel : Text) :
    listId pwd ("cases/".toList ++ rel) = rel ↔
      contains "cases/".toList rel = false ∧ contains (pwd ++ ['/']) ("cases/".toList ++ rel) = false := by
  have filled : pwd ++ ['/'] ≠ [] := by simp
  have slashes : 2 ≤ (pwd ++ ['/']).count '/' := by
    cases pwd with
    | nil => contradiction
    | cons c cs =>
      cases Option.some.inj absolute
      simp
  have cases : "cases/".toList ≠ [] := by decide
  have one : "cases/".toList.count '/' = 1 := by decide
  rw [listId,gsubFirst filled]
  cases away : contains (pwd ++ ['/']) ("cases/".toList ++ rel) with
  | true =>
    have less := gsubCount filled '/' away
    have kept := (gsubSublist "cases/".toList (gsubAway (pwd ++ ['/']) 0 ("cases/".toList ++ rel))).count_le '/'
    have whole : ("cases/".toList ++ rel).count '/' = 1 + rel.count '/' := by rw [List.count_append,one]
    rw [whole] at less
    refine iff_of_false (fun same => ?_) (by simp)
    rw [same] at kept
    omega
  | false =>
    rw [gsubAbsent away,gsubFirst cases]
    cases again : contains "cases/".toList rel with
    | true =>
      have less := gsubCount cases '/' again
      refine iff_of_false (fun same => ?_) (by simp)
      rw [same,one] at less
      omega
    | false => exact iff_of_true (gsubAbsent again) ⟨rfl,rfl⟩

theorem reachRest {t : Template} {h : Params} (mem : h ∈ t.expansions) :
    ∃ b, t.outfile h = "cases/".toList ++ (reach t h ++ b) ∧ '/' ∉ b := by
  rw [outfilePath,reach]
  split
  · exact ⟨_,rfl,by decide⟩
  · refine ⟨getId h ++ ".auto3".toList,by simp,fun slash => ?_⟩
    rcases List.mem_append.mp slash with inside | last
    · exact getIdClean mem inside
    · exact absurd last (by decide)

theorem namedIff {pwd : Text} (absolute : pwd.head? = some '/') {t : Template} {h : Params} (mem : h ∈ t.expansions) :
    "cases/".toList ++ listId pwd (t.outfile h) = t.outfile h ↔
      contains "cases/".toList (reach t h) = false ∧ contains (pwd ++ ['/']) ("cases/".toList ++ reach t h) = false := by
  obtain ⟨b,path,clean⟩ := reachRest mem
  have first : contains "cases/".toList (reach t h ++ b) = contains "cases/".toList (reach t h) :=
    containsTrailing (p := "cases".toList) clean
  rw [path,List.append_right_inj,listIdIff absolute,first,← List.append_assoc,containsTrailing clean]

theorem expandsIff {pwd : Text} (absolute : pwd.head? = some '/') (templates : List Template) :
    Expands pwd templates ↔ Unambiguous pwd templates := by
  constructor
  · intro expands
    refine ⟨fun t mt u mu stem h th k uk hs ks alike => ?_,fun t mt u mu h th k uk hs ks name stem alike => ?_,
      fun t mt h th shown => (namedIff absolute th).mp (expands.named t mt h th (by rw [globbedOutfile th,shown]; rfl))⟩
    · by_contra other
      exact expands.apart t mt u mu h th k uk (.inr other) ((outfileApart th uk).mpr (.inl ⟨stem,.inr ⟨hs,ks,alike⟩⟩))
    · rw [← splitGetId ks] at alike
      have same : t.stem = u.stem ++ '/'::getId k := by rw [stem,splitInjective alike]
      refine expands.apart t mt u mu h th k uk (.inl ?_) ((outfileApart th uk).mpr (.inr (.inl ⟨hs,ks,same⟩)))
      rw [same]
      simp
  · intro clear
    refine ⟨fun t mt u mu h th k uk pairs same => ?_,fun t mt h th glob => ?_⟩
    · rcases (outfileApart th uk).mp same with ⟨stem,⟨hs,ks⟩ | ⟨hs,ks,alike⟩⟩ | ⟨hs,ks,stem⟩ | ⟨ks,hs,stem⟩
      · rcases pairs with other | other
        · exact other stem
        · exact other (by rw [hs,ks])
      · rcases pairs with other | other
        · exact other stem
        · exact other (clear.ids t mt u mu stem h th k uk hs ks alike)
      · exact clear.nested t mt u mu h th k uk hs ks _ stem (splitGetId ks)
      · exact clear.nested u mu t mt k uk h th ks hs _ stem (splitGetId hs)
    · rw [globbedOutfile th,Bool.not_eq_true'] at glob
      exact (namedIff absolute th).mpr (clear.paths t mt h th glob)

def softDirty : Template where
  stem := "mm/soft_dirty".toList
  params := [⟨[("backend".toList,some "anonymous".toList)],by decide⟩,⟨[("backend".toList,some "thp".toList)],by decide⟩]
  found := by decide
  clean := by decide

theorem expandsSoftDirty : Expands "/root/mm_regression".toList [softDirty] := by
  have filled : ∀ t ∈ [softDirty], ∀ h ∈ t.expansions, h.entries ≠ [] := by decide
  have spelt : ∀ h ∈ softDirty.expansions, ∀ k ∈ softDirty.expansions, cuts h = cuts k → h.entries = k.entries := by
    decide
  refine (expandsIff rfl _).mpr ⟨fun t mt u mu _ h th k uk _ _ alike => ?_,fun t mt u _ h th k _ empty => ?_,by decide⟩
  · cases List.mem_singleton.mp mt
    cases List.mem_singleton.mp mu
    rw [spelt h th k uk alike]
  · exact absurd empty (filled t mt h th)

/- A value with an underscore, an expansion in the place of another template's, and a directory
named `cases`. -/
def underscored : Template where
  stem := "mm/ksm".toList
  params := [⟨[("backend".toList,some "thp_shared".toList)],by decide⟩,
    ⟨[("backend".toList,some "thp".toList),("shared".toList,none)],by decide⟩]
  found := by decide
  clean := by decide

def inner : Template := ⟨"mm/ksm/backend-thp_shared".toList,[],by decide,by simp⟩

def innerCases : Template := ⟨"mm/cases/ksm".toList,[],by decide,by simp⟩

theorem expansionsCollide : ¬ Expands "/root/mm_regression".toList [underscored] ∧
    ¬ Expands "/root/mm_regression".toList [⟨underscored.stem,underscored.params.take 1,by decide,by decide⟩,inner] ∧
    ¬ Expands "/root/mm_regression".toList [innerCases] := by
  refine ⟨fun expands => ?_,fun expands => ?_,fun expands => ?_⟩
  · have apart := expands.apart underscored (by simp) underscored (by simp) _ (List.mem_of_getElem? (i := 0) rfl) _
      (List.mem_of_getElem? (i := 1) rfl)
    exact apart (.inr (fun perm => absurd perm.length_eq (by decide))) (by decide)
  · refine expands.apart inner (by simp) _ (List.mem_of_getElem? (i := 0) rfl) _ (List.mem_of_getElem? (i := 0) rfl) _
      (List.mem_of_getElem? (i := 0) rfl) (.inl (by decide)) (by decide)
  · exact absurd (expands.named innerCases (by simp) _ (List.mem_of_getElem? (i := 0) rfl) (by decide)) (by decide)

end MmRegression
