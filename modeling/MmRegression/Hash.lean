import Mathlib.Data.List.Nodup

/-! Hashes that keep the order in which their keys came, and lists without their repeats. -/
namespace MmRegression

section Hash
variable {α β : Type} [DecidableEq α]

def setEntry (k : α) (v : β) : List (α × β) → List (α × β)
  | [] => [(k,v)]
  | e::es => if e.1 = k then (k,v)::es else e :: setEntry k v es

theorem keysSetEntry (k : α) (v : β) (es : List (α × β)) : (setEntry k v es).map Prod.fst =
    if k ∈ es.map Prod.fst then es.map Prod.fst else es.map Prod.fst ++ [k] := by
  induction es with
  | nil => rfl
  | cons e es ih =>
    by_cases same : e.1 = k
    · simp [setEntry,same]
    · have other : k ≠ e.1 := Ne.symm same
      rw [setEntry,if_neg same,List.map_cons,ih]
      by_cases mem : k ∈ es.map Prod.fst
      · rw [if_pos mem,if_pos (by simp [mem]),List.map_cons]
      · rw [if_neg mem,if_neg (by rw [List.map_cons,List.mem_cons]; exact not_or.mpr ⟨other,mem⟩)]
        rfl

theorem lookupIf (j : α) (e : α × β) (es : List (α × β)) :
    (e::es).lookup j = if j = e.1 then some e.2 else es.lookup j := by
  by_cases same : j = e.1
  · rw [if_pos same,same]
    exact List.lookup_cons_self
  · rw [if_neg same,List.lookup_cons,beq_false_of_ne same]

structure Hash (α β : Type) where
  entries : List (α × β)
  distinct : (entries.map Prod.fst).Nodup

namespace Hash

def keys (h : Hash α β) : List α := h.entries.map Prod.fst

def empty : Hash α β := ⟨[],List.nodup_nil⟩

def get (h : Hash α β) (k : α) : Option β := h.entries.lookup k

def set (h : Hash α β) (k : α) (v : β) : Hash α β where
  entries := setEntry k v h.entries
  distinct := by
    rw [keysSetEntry]
    split
    · exact h.distinct
    · rename_i fresh
      exact List.nodup_append.mpr ⟨h.distinct,List.nodup_singleton k,fun a mem b last => by
        rw [List.mem_singleton.mp last]
        rintro rfl
        exact fresh mem⟩

def setAll (h : Hash α β) (es : List (α × β)) : Hash α β := es.foldl (fun h e => h.set e.1 e.2) h

/- `merge!` -/
def merge (h g : Hash α β) : Hash α β := h.setAll g.entries

theorem getSet (h : Hash α β) (k j : α) (v : β) : (h.set k v).get j = if j = k then some v else h.get j := by
  have entries : ∀ es : List (α × β), (setEntry k v es).lookup j = if j = k then some v else es.lookup j := by
    intro es
    induction es with
    | nil => exact lookupIf j (k,v) []
    | cons e es ih =>
      by_cases own : e.1 = k
      · rw [setEntry,if_pos own,lookupIf,lookupIf,own]
        split <;> rfl
      · rw [setEntry,if_neg own,lookupIf,lookupIf,ih]
        by_cases here : j = e.1
        · rw [if_pos here,if_pos here,if_neg (here ▸ own)]
        · rw [if_neg here,if_neg here]
  exact entries h.entries

theorem memKeysSet (h : Hash α β) (k j : α) (v : β) : j ∈ (h.set k v).keys ↔ j = k ∨ j ∈ h.keys := by
  rw [keys,show (h.set k v).entries = setEntry k v h.entries from rfl,keysSetEntry]
  split
  · rename_i mem
    exact ⟨.inr,fun found => found.elim (fun same => same ▸ mem) id⟩
  · simp [keys,or_comm]

theorem memKeysSetAll (es : List (α × β)) (h : Hash α β) (j : α) :
    j ∈ (h.setAll es).keys ↔ j ∈ es.map Prod.fst ∨ j ∈ h.keys := by
  induction es generalizing h with
  | nil => simp [setAll]
  | cons e es ih =>
    rw [setAll,List.foldl_cons,← setAll,ih,memKeysSet,List.map_cons,List.mem_cons]
    tauto

/- Where the value goes with the key, it does not matter which entry came last. -/
theorem getSetAll {f : α → β} {es : List (α × β)} (values : ∀ e ∈ es, e.2 = f e.1) (h : Hash α β) (j : α) :
    (h.setAll es).get j = if j ∈ es.map Prod.fst then some (f j) else h.get j := by
  induction es generalizing h with
  | nil => rfl
  | cons e es ih =>
    rw [setAll,List.foldl_cons,← setAll,ih (fun x mem => values x (by simp [mem])),getSet,values e (by simp)]
    by_cases later : j ∈ es.map Prod.fst
    · rw [if_pos later,if_pos (by simp [later])]
    · by_cases here : j = e.1
      · simp [here]
      · rw [if_neg later,if_neg here,if_neg (by rw [List.map_cons,List.mem_cons]; exact not_or.mpr ⟨here,later⟩)]

theorem getEntry (h : Hash α β) {e : α × β} (mem : e ∈ h.entries) : h.get e.1 = some e.2 := by
  obtain ⟨entries,distinct⟩ := h
  unfold get
  simp only at mem ⊢
  induction entries with
  | nil => contradiction
  | cons x xs ih =>
    rw [List.map_cons,List.nodup_cons] at distinct
    rcases List.mem_cons.mp mem with rfl | later
    · exact (lookupIf e.1 e xs).trans (if_pos rfl)
    · have other : e.1 ≠ x.1 := by
        intro same
        exact distinct.1 (same ▸ List.mem_map_of_mem later)
      rw [lookupIf,if_neg other]
      exact ih distinct.2 later

end Hash
end Hash

theorem nodupEraseDups {α : Type} [BEq α] [LawfulBEq α] : (l : List α) → l.eraseDups.Nodup
  | [] => by simp
  | a::l => by
    rw [List.eraseDups_cons,List.nodup_cons]
    refine ⟨fun mem => ?_,nodupEraseDups _⟩
    have kept := List.mem_filter.mp (List.mem_eraseDups.mp mem)
    simp at kept
termination_by l => l.length
decreasing_by
  have shorter := List.length_filter_le (fun b => !b == a) l
  simp only [List.length_cons]
  omega

end MmRegression
