import MmRegression.Shell

/-! Text cut into fields: `split` at a separator, the words of an unquoted expansion, and what
stands between two separators. -/
namespace MmRegression

def Token (t : Text) : Prop := t ≠ [] ∧ ∀ c ∈ t, c ≠ ' ' ∧ c ≠ '\t' ∧ c ≠ '\n'

theorem splitClean {sep : Char} {t : Text} (clean : sep ∉ t) : split sep t = [t] := by
  induction t with
  | nil => rfl
  | cons c cs ih =>
    have head : c ≠ sep := fun eq => clean (by simp [eq])
    have tail := ih (fun mem => clean (by simp [mem]))
    simp [split,head,tail]

theorem splitNonempty (sep : Char) (t : Text) : split sep t ≠ [] := by
  cases t with
  | nil => simp [split]
  | cons c cs =>
    simp only [split]
    split
    · simp
    · split <;> simp

theorem splitAppend (sep : Char) (a b : Text) : split sep (a ++ sep::b) = split sep a ++ split sep b := by
  induction a with
  | nil => simp [split]
  | cons c cs ih =>
    rw [List.cons_append,split,ih,split]
    split
    · rfl
    · cases parts : split sep cs with
      | nil => exact absurd parts (splitNonempty sep cs)
      | cons head tail => rfl

theorem splitCons {sep : Char} {a : Text} (clean : sep ∉ a) (rest : Text) :
    split sep (a ++ sep::rest) = a :: split sep rest := by
  rw [splitAppend,splitClean clean]
  rfl

theorem tokenMap {t : Text} (token : Token t) :
    t.map (fun c => if c = '\t' ∨ c = '\n' then ' ' else c) = t := by
  have same : ∀ c ∈ t, (if c = '\t' ∨ c = '\n' then ' ' else c) = c := by
    intro c mem
    have := token.2 c mem
    simp [this.2.1,this.2.2]
  exact (List.map_congr_left same).trans (List.map_id' t)

theorem wordsCons {t : Text} (token : Token t) (rest : Text) : words (t ++ ' '::rest) = t :: words rest := by
  have clean : ' ' ∉ t := fun mem => (token.2 ' ' mem).1 rfl
  simp only [words,List.map_append,tokenMap token,List.map_cons]
  rw [show (if ' ' = '\t' ∨ ' ' = '\n' then ' ' else ' ') = ' ' by decide,splitCons clean]
  rw [List.filter_cons_of_pos (by simpa using token.1)]

theorem wordsOne {t : Text} (token : Token t) : words t = [t] := by
  have clean : ' ' ∉ t := fun mem => (token.2 ' ' mem).1 rfl
  simp [words,tokenMap token,splitClean clean,token.1]

theorem wordsAppend (a b : Text) : words (a ++ ' '::b) = words a ++ words b := by
  simp only [words,List.map_append,List.map_cons]
  rw [show (if ' ' = '\t' ∨ ' ' = '\n' then ' ' else ' ') = ' ' by decide,splitAppend,List.filter_append]

theorem wordsBlank (rest : Text) : words (' '::rest) = words rest := by
  simp [words,split]

theorem splitFree {sep : Char} {t : Text} : ∀ w ∈ split sep t, sep ∉ w := by
  induction t with
  | nil => simp [split]
  | cons c cs ih =>
    intro w mem
    rw [split] at mem
    split at mem
    · rcases List.mem_cons.mp mem with rfl | later
      · exact List.not_mem_nil
      · exact ih w later
    · cases parts : split sep cs with
      | nil => exact absurd parts (splitNonempty sep cs)
      | cons head tail =>
        rw [parts] at mem ih
        rcases List.mem_cons.mp mem with rfl | later
        · exact fun inside => (List.mem_cons.mp inside).elim (fun eq => by simp_all) (ih head (by simp))
        · exact ih w (by simp [later])

theorem splitFlat (sep : Char) (t : Text) : sep::t = (split sep t).flatMap (fun w => sep::w) := by
  induction t with
  | nil => rfl
  | cons c cs ih =>
    by_cases same : c = sep
    · rw [split,if_pos same,List.flatMap_cons,← ih,same]
      rfl
    · cases parts : split sep cs with
      | nil => exact absurd parts (splitNonempty sep cs)
      | cons head tail =>
        rw [parts,List.flatMap_cons,List.cons_append,List.cons.injEq] at ih
        rw [split,if_neg same,parts]
        simp only [List.flatMap_cons,List.cons_append,← ih.2]

theorem splitChar {sep c : Char} {t : Text} : ∀ w ∈ split sep t, c ∈ w → c ∈ t := by
  intro w mem inside
  have whole : c ∈ sep::t := by
    rw [splitFlat sep t]
    exact List.mem_flatMap.mpr ⟨w,mem,List.mem_cons_of_mem sep inside⟩
  rcases List.mem_cons.mp whole with rfl | found
  · exact absurd inside (splitFree w mem)
  · exact found

theorem wordsToken {t : Text} : ∀ w ∈ words t, Token w := by
  intro w mem
  rw [words,List.mem_filter] at mem
  refine ⟨by simpa using mem.2,fun c inside => ?_⟩
  have blank : c ≠ ' ' := fun eq => splitFree w mem.1 (eq ▸ inside)
  obtain ⟨d,-,shape⟩ := List.mem_map.mp (splitChar w mem.1 inside)
  refine ⟨blank,fun tab => ?_,fun newline => ?_⟩
  all_goals
    split at shape
    · exact blank shape.symm
    · simp_all

theorem joinCons {sep : Char} (w v : Text) (ws : List Text) :
    List.intercalate [sep] (w::v::ws) = w ++ sep::List.intercalate [sep] (v::ws) := by
  rw [List.intercalate_cons_cons,List.append_assoc,List.singleton_append]

theorem splitJoin {sep : Char} {ws : List Text} (some : ws ≠ []) (clean : ∀ w ∈ ws, sep ∉ w) :
    split sep (List.intercalate [sep] ws) = ws := by
  induction ws with
  | nil => contradiction
  | cons w ws ih =>
    cases ws with
    | nil => rw [List.intercalate_singleton,splitClean (clean w (by simp))]
    | cons v ws =>
      rw [joinCons,splitCons (clean w (by simp)),ih (by simp) (fun x mem => clean x (List.mem_cons_of_mem w mem))]

theorem memJoin {sep c : Char} {ws : List Text} (mem : c ∈ List.intercalate [sep] ws) : c = sep ∨ ∃ w ∈ ws, c ∈ w := by
  induction ws with
  | nil => simp at mem
  | cons w ws ih =>
    cases ws with
    | nil => exact .inr ⟨w,by simp,by simpa using mem⟩
    | cons v ws =>
      rw [joinCons] at mem
      rcases List.mem_append.mp mem with here | later
      · exact .inr ⟨w,by simp,here⟩
      · rcases List.mem_cons.mp later with same | later
        · exact .inl same
        · exact (ih later).imp_right (fun ⟨x,inside,found⟩ => ⟨x,List.mem_cons_of_mem w inside,found⟩)

theorem wordsJoin {ws : List Text} (tokens : ∀ w ∈ ws, Token w) : words (List.intercalate [' '] ws) = ws := by
  induction ws with
  | nil => rfl
  | cons w ws ih =>
    cases ws with
    | nil => rw [List.intercalate_singleton,wordsOne (tokens w (by simp))]
    | cons v ws =>
      rw [joinCons,wordsCons (tokens w (by simp)),ih (fun x mem => tokens x (List.mem_cons_of_mem w mem))]

theorem joinFlat (sep : Char) (w : Text) (ws : List Text) :
    sep::List.intercalate [sep] (w::ws) = (w::ws).flatMap (fun v => sep::v) := by
  induction ws generalizing w with
  | nil => simp
  | cons v ws ih => rw [joinCons,List.flatMap_cons,← ih v,List.cons_append]

theorem joinEnded (sep : Char) (w : Text) (ws : List Text) :
    List.intercalate [sep] (w::ws) ++ [sep] = (w::ws).flatMap (fun v => v ++ [sep]) := by
  induction ws generalizing w with
  | nil => simp
  | cons v ws ih =>
    rw [joinCons,List.flatMap_cons,← ih v,List.append_assoc,List.append_assoc,List.cons_append,List.singleton_append]

theorem joinAppend {sep : Char} {ws vs : List Text} (left : ws ≠ []) (right : vs ≠ []) :
    List.intercalate [sep] (ws ++ vs) = List.intercalate [sep] ws ++ sep::List.intercalate [sep] vs := by
  obtain ⟨w,ws,rfl⟩ := List.exists_cons_of_ne_nil left
  obtain ⟨v,vs,rfl⟩ := List.exists_cons_of_ne_nil right
  have whole := joinFlat sep w (ws ++ v::vs)
  rw [← List.cons_append,List.flatMap_append,← joinFlat,← joinFlat] at whole
  exact (List.cons.inj whole).2

theorem mapJoin (g : Char → Char) (sep : Char) (ws : List Text) :
    (List.intercalate [sep] ws).map g = List.intercalate [g sep] (ws.map (List.map g)) := by
  induction ws with
  | nil => rfl
  | cons w ws ih =>
    cases ws with
    | nil => simp
    | cons v ws =>
      rw [joinCons,List.map_append,List.map_cons,ih,List.map_cons,List.map_cons,List.map_cons,joinCons]

theorem splitInjective {sep : Char} {a b : Text} (same : split sep a = split sep b) : a = b := by
  have whole := splitFlat sep a
  rw [same,← splitFlat sep b] at whole
  exact (List.cons.inj whole).2

theorem lastField {sep : Char} {a b x y : Text} (cleanx : sep ∉ x) (cleany : sep ∉ y)
    (same : a ++ sep::x = b ++ sep::y) : a = b ∧ x = y := by
  have fields := congrArg (split sep) same
  rw [splitAppend,splitAppend,splitClean cleanx,splitClean cleany] at fields
  obtain ⟨front,last⟩ := List.append_inj' fields rfl
  exact ⟨splitInjective front,List.singleton_inj.mp last⟩

theorem splitIntercalate {sep : Char} {ws : List Text} (some : ws ≠ []) :
    split sep (List.intercalate [sep] ws) = ws.flatMap (split sep) := by
  induction ws with
  | nil => contradiction
  | cons w ws ih =>
    cases ws with
    | nil => simp
    | cons v ws => rw [joinCons,splitAppend,ih (by simp),← List.flatMap_cons]

/- A field of `t` stands between two separators, when there is one at either end. -/
theorem fieldBetween {sep : Char} {w : Text} (clean : sep ∉ w) (t : Text) :
    (∃ a b, sep::(t ++ [sep]) = a ++ sep::(w ++ sep::b)) ↔ w ∈ split sep t := by
  constructor
  · rintro ⟨a,b,shape⟩
    have fields := congrArg (split sep) shape
    have outer : split sep (sep::(t ++ [sep])) = []::(split sep t ++ [[]]) := by
      rw [split,if_pos rfl,splitAppend]
      rfl
    rw [outer,splitAppend,splitCons clean] at fields
    cases parts : split sep a with
    | nil => exact absurd parts (splitNonempty sep a)
    | cons head tail =>
      rw [parts,List.cons_append,List.cons.injEq] at fields
      have inner := congrArg List.dropLast fields.2
      rw [List.dropLast_concat,List.dropLast_append_of_ne_nil (List.cons_ne_nil _ _),
        List.dropLast_cons_of_ne_nil (splitNonempty sep b)] at inner
      simp [inner]
  · intro mem
    obtain ⟨before,after,fields⟩ := List.append_of_mem mem
    have rest : ∃ b, after.flatMap (fun w => sep::w) ++ [sep] = sep::b := by
      cases after with
      | nil => exact ⟨[],rfl⟩
      | cons v after => exact ⟨v ++ (after.flatMap (fun w => sep::w) ++ [sep]),by simp⟩
    obtain ⟨b,rest⟩ := rest
    refine ⟨before.flatMap (fun w => sep::w),b,?_⟩
    rw [← List.cons_append,splitFlat,fields,List.flatMap_append,List.flatMap_cons,List.append_assoc,List.append_assoc,rest]
    simp

theorem fieldInside {sep : Char} {w t : Text} (clean : sep ∉ w) (filled : w ≠ []) (starts : t.head? = some sep)
    (ends : t.getLast? = some sep) : (∃ a b, t = a ++ sep::(w ++ sep::b)) ↔ w ∈ split sep t := by
  cases t with
  | nil => contradiction
  | cons c rest =>
    cases Option.some.inj starts
    rcases List.eq_nil_or_concat rest with rfl | ⟨t,last,rfl⟩
    · have alone : w ∉ split sep [sep] := by simp [split,filled]
      refine iff_of_false ?_ alone
      rintro ⟨a,b,shape⟩
      have length := congrArg List.length shape
      simp at length
      omega
    · rw [List.concat_eq_append,← List.cons_append,List.getLast?_concat,Option.some.injEq] at ends
      subst ends
      rw [List.concat_eq_append,fieldBetween clean,split,if_pos rfl,splitAppend]
      simp [split,filled]

theorem splitEnded {sep : Char} {ws : List Text} (clean : ∀ w ∈ ws, sep ∉ w) :
    split sep (ws.flatMap (fun w => w ++ [sep])) = ws ++ [[]] := by
  induction ws with
  | nil => rfl
  | cons w ws ih =>
    rw [List.flatMap_cons,List.append_assoc,List.singleton_append,splitCons (clean w (by simp)),
      ih (fun x mem => clean x (List.mem_cons_of_mem w mem)),List.cons_append]

/- The last field of one text and the first of the next become one. -/
theorem splitTouch {sep : Char} {a b u v : Text} {pre post : List Text} (left : split sep a = pre ++ [u])
    (right : split sep b = v::post) : split sep (a ++ b) = pre ++ (u ++ v)::post := by
  induction a generalizing pre u with
  | nil =>
    obtain ⟨rfl,one⟩ := List.append_inj' (show [] ++ [[]] = pre ++ [u] from left) rfl
    cases one
    exact right
  | cons c a ih =>
    rw [split] at left
    rw [List.cons_append,split]
    split at left
    · cases pre with
      | nil => exact absurd (List.cons.inj left).2 (splitNonempty sep a)
      | cons w pre =>
        obtain ⟨rfl,tail⟩ := List.cons.inj left
        rw [if_pos ‹_›,ih tail]
        rfl
    · rw [if_neg ‹_›]
      cases parts : split sep a with
      | nil => exact absurd parts (splitNonempty sep a)
      | cons head rest =>
        rw [parts] at left
        cases pre with
        | nil =>
          obtain ⟨rfl,rfl⟩ := List.cons.inj left
          rw [ih (show split sep a = [] ++ [head] from parts)]
          rfl
        | cons w pre =>
          obtain ⟨rfl,rfl⟩ := List.cons.inj left
          rw [ih (show split sep a = (head::pre) ++ [u] from parts)]
          rfl

/- Where a joined list stands in another: its inner fields are fields there, and its ends are a suffix
and a prefix of the fields beside them. -/
theorem fieldsWindow {sep : Char} {x z : Text} {mid fields : List Text} (inner : ∀ w ∈ x::(mid ++ [z]), sep ∉ w)
    (outer : ∀ w ∈ fields, sep ∉ w) (some : fields ≠ []) :
    (∃ a b, List.intercalate [sep] fields = a ++ (List.intercalate [sep] (x::(mid ++ [z])) ++ b)) ↔
      ∃ pre u v post, fields = pre ++ (u ++ x)::(mid ++ (z ++ v)::post) := by
  have middle : split sep (List.intercalate [sep] (x::(mid ++ [z]))) = (x::mid) ++ [z] := splitJoin (by simp) inner
  constructor
  · intro ⟨a,b,whole⟩
    obtain ⟨pre,u,left⟩ := (List.eq_nil_or_concat' (split sep a)).resolve_left (splitNonempty sep a)
    obtain ⟨v,post,right⟩ := List.exists_cons_of_ne_nil (splitNonempty sep b)
    have fieldsOf := congrArg (split sep) whole
    rw [splitJoin some outer,splitTouch left (splitTouch middle right)] at fieldsOf
    exact ⟨pre,u,v,post,by simpa using fieldsOf⟩
  · intro ⟨pre,u,v,post,shape⟩
    have cleanLeft : ∀ w ∈ pre ++ [u], sep ∉ w := by
      intro w mem found
      rcases List.mem_append.mp mem with before | last
      · exact outer w (by simp [shape,before]) found
      · cases List.mem_singleton.mp last
        exact outer (u ++ x) (by simp [shape]) (List.mem_append_left x found)
    have cleanRight : ∀ w ∈ v::post, sep ∉ w := by
      intro w mem found
      rcases List.mem_cons.mp mem with rfl | after
      · exact outer (z ++ w) (by simp [shape]) (List.mem_append_right z found)
      · exact outer w (by simp [shape,after]) found
    have left := splitJoin (by simp) cleanLeft
    have right := splitJoin (by simp) cleanRight
    refine ⟨List.intercalate [sep] (pre ++ [u]),List.intercalate [sep] (v::post),?_⟩
    apply @splitInjective sep
    rw [splitJoin some outer,splitTouch left (splitTouch middle right),shape]
    simp

end MmRegression
