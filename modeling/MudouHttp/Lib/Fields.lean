import Mathlib.Logic.Function.Basic

/-!
# Texts of fields

A field is cut at the first of its separators (`cut`), a text is read piece by
piece (`pieces_induction`). Entries assigned to a map
one after the other leave, of each key, the last entry (`assign_iff`).
-/

namespace MudouHttp.Lib

open Function (update update_self update_of_ne)

theorem last_occurrence {α : Type} {a : α} {l : List α} (h : a ∈ l) :
    ∃ before after, l = before ++ a :: after ∧ a ∉ after := by
  obtain ⟨after, before, hl, hafter⟩ := List.eq_append_cons_of_mem (List.mem_reverse.mpr h)
  refine ⟨before.reverse, after.reverse, ?_, fun hmem => hafter (List.mem_reverse.mp hmem)⟩
  have hrev := congrArg List.reverse hl
  rwa [List.reverse_reverse, List.reverse_append, List.reverse_cons, List.append_assoc] at hrev

theorem filterMap_cons_toList {α β : Type} (f : α → Option β) (a : α) (l : List α) :
    (a :: l).filterMap f = (f a).toList ++ l.filterMap f := by
  rw [List.filterMap_cons]
  cases f a <;> rfl

section Cut

variable {α : Type} [DecidableEq α] {sep : α}

/-- What stands before the first separator, and what after it. -/
def cut (sep : α) : List α → Option (List α × List α)
  | [] => none
  | a :: s => if a = sep then some ([], s) else (cut sep s).map fun (k, v) => (a :: k, v)

theorem cut_eq_none : cut sep s = none ↔ sep ∉ s := by
  induction s with
  | nil => exact iff_of_true rfl List.not_mem_nil
  | cons a s ih =>
    rw [cut, List.mem_cons, not_or]
    split
    · rename_i h
      exact iff_of_false (fun hnone => by cases hnone) fun hmem => hmem.1 h.symm
    · rename_i h
      rw [Option.map_eq_none_iff, ih, and_iff_right (Ne.symm h)]

theorem cut_append (h : sep ∉ k) (v : List α) : cut sep (k ++ sep :: v) = some (k, v) := by
  induction k with
  | nil => exact if_pos rfl
  | cons a k ih =>
    obtain ⟨ha, hk⟩ := not_or.mp (mt List.mem_cons.mpr h)
    rw [List.cons_append, cut, if_neg (Ne.symm ha), ih hk]
    rfl

theorem cut_eq_some : cut sep s = some (k, v) ↔ s = k ++ sep :: v ∧ sep ∉ k := by
  constructor
  · intro h
    induction s generalizing k with
    | nil => cases h
    | cons a s ih =>
      rw [cut] at h
      split at h
      · rename_i ha
        cases h
        exact ⟨congrArg (· :: _) ha, List.not_mem_nil⟩
      · rename_i ha
        obtain ⟨⟨k', v'⟩, hcut, heq⟩ := Option.map_eq_some_iff.mp h
        cases heq
        obtain ⟨hs, hk⟩ := ih hcut
        refine ⟨congrArg (a :: ·) hs, fun hmem => ?_⟩
        rcases List.mem_cons.mp hmem with rfl | hmem
        · exact ha rfl
        · exact hk hmem
  · rintro ⟨rfl, hk⟩
    exact cut_append hk v

def cutLast (sep : α) (s : List α) : Option (List α × List α) :=
  (cut sep s.reverse).map fun (v, k) => (k.reverse, v.reverse)

theorem cutLast_append (k : List α) (h : sep ∉ v) : cutLast sep (k ++ sep :: v) = some (k, v) := by
  have hrev : (k ++ sep :: v).reverse = v.reverse ++ sep :: k.reverse := by simp
  rw [cutLast, hrev, cut_append (mt List.mem_reverse.mp h)]
  show some (k.reverse.reverse, v.reverse.reverse) = _
  rw [List.reverse_reverse, List.reverse_reverse]

/-- Piece after piece: the last one, or one that a separator follows. -/
theorem pieces_induction (sep : α) {P : List α → Prop} (last : ∀ piece, sep ∉ piece → P piece)
    (more : ∀ piece rest, sep ∉ piece → P rest → P (piece ++ sep :: rest)) (s : List α) : P s := by
  induction hlen : s.length using Nat.strongRecOn generalizing s with
  | ind n ih =>
    cases h : cut sep s with
    | none => exact last s (cut_eq_none.mp h)
    | some field =>
      obtain ⟨rfl, hk⟩ := cut_eq_some.mp h
      rw [List.length_append, List.length_cons] at hlen
      exact more _ _ hk (ih _ (by omega) field.2 rfl)

end Cut

section Assign

variable {κ ν : Type} [DecidableEq κ] {m : κ → Option ν}

def assign (m : κ → Option ν) (entries : List (κ × ν)) : κ → Option ν :=
  entries.foldl (fun m (k, v) => update m k (some v)) m

theorem assign_append (m : κ → Option ν) (entries entries' : List (κ × ν)) :
    assign m (entries ++ entries') = assign (assign m entries) entries' :=
  List.foldl_append

theorem assign_self (m : κ → Option ν) (e : κ × ν) : assign m [e] e.1 = some e.2 := update_self _ _ _

theorem assign_ne (h : k ≠ e.1) (m : κ → Option ν) : assign m [e] k = m k := update_of_ne h _ _

def LastOf (entries : List (κ × ν)) (k : κ) (v : ν) : Prop :=
  ∃ before after, entries = before ++ (k, v) :: after ∧ k ∉ after.map Prod.fst

theorem assign_of_notMem (h : k ∉ entries.map Prod.fst) : assign m entries k = m k := by
  induction entries generalizing m with
  | nil => rfl
  | cons e entries ih =>
    obtain ⟨hk, htail⟩ := not_or.mp (mt List.mem_cons.mpr h)
    exact (ih htail).trans (update_of_ne hk _ _)

theorem assign_last (h : LastOf entries k v) : assign m entries k = some v := by
  obtain ⟨before, after, rfl, hafter⟩ := h
  rw [assign_append]
  exact (assign_of_notMem hafter).trans (update_self _ _ _)

theorem lastOf_of_mem (h : k ∈ entries.map Prod.fst) : ∃ v, LastOf entries k v := by
  induction entries with
  | nil => cases h
  | cons e entries ih =>
    by_cases htail : k ∈ entries.map Prod.fst
    · obtain ⟨v, before, after, rfl, hafter⟩ := ih htail
      exact ⟨v, e :: before, after, rfl, hafter⟩
    · obtain rfl := (List.mem_cons.mp h).resolve_right htail
      exact ⟨e.2, [], entries, rfl, htail⟩

/-- A key that is assigned to has the same value whatever the map was. -/
theorem assign_start (h : k ∈ entries.map Prod.fst) (m m' : κ → Option ν) :
    assign m entries k = assign m' entries k := by
  obtain ⟨v, hlast⟩ := lastOf_of_mem h
  rw [assign_last hlast, assign_last hlast]

theorem assign_iff {entries : List (κ × ν)} :
    assign (fun _ => none) entries k = some v ↔ LastOf entries k v := by
  constructor
  · intro h
    by_cases hk : k ∈ entries.map Prod.fst
    · obtain ⟨w, hlast⟩ := lastOf_of_mem hk
      cases (assign_last hlast).symm.trans h
      exact hlast
    · cases (assign_of_notMem hk).symm.trans h
  · exact assign_last

end Assign

end MudouHttp.Lib
