import Mathlib.Data.List.Basic

/-!
# Counting the entries of a list that changes in one place
-/

namespace MudouHttp.Lib

theorem countP_set (p : α → Bool) {xs : List α} {i : Nat} (h : xs[i]? = some x) (y : α) :
    (xs.set i y).countP p + (p x).toNat = xs.countP p + (p y).toNat := by
  obtain ⟨hi, rfl⟩ := List.getElem?_eq_some_iff.mp h
  have hle : p xs[i] = true → 0 < xs.countP p := fun hp =>
    List.countP_pos_iff.mpr ⟨_, List.getElem_mem hi, hp⟩
  rw [List.countP_set hi]
  cases hp : p xs[i] <;> cases p y <;> simp_all

theorem mem_set_of_ne {xs : List α} {i : Nat} (h : xs[i]? = some x) (hy : y ∈ xs) (hne : y ≠ x)
    (z : α) : y ∈ xs.set i z := by
  obtain ⟨j, hj⟩ := List.mem_iff_getElem?.mp hy
  have hij : i ≠ j := by
    rintro rfl
    exact hne (Option.some.inj (hj.symm.trans h))
  refine List.mem_of_getElem? (i := j) ?_
  rw [List.getElem?_set_ne hij, hj]

theorem count_cons [BEq α] (x : α) (xs : List α) (y : α) :
    (x :: xs).count y = xs.count y + (x == y).toNat := by
  rw [List.count_cons]
  cases x == y <;> rfl

theorem count_concat [BEq α] [LawfulBEq α] (xs : List α) (x y : α) :
    (xs ++ [x]).count y = xs.count y + (x == y).toNat := by
  cases h : x == y <;> simp [List.count_append, List.count_singleton, h]

theorem countP_concat (p : α → Bool) (xs : List α) (x : α) :
    (xs ++ [x]).countP p = xs.countP p + (p x).toNat := by
  cases h : p x <;> simp [List.countP_append, h]

theorem index_unique {p : α → Bool} {xs : List α} {i j : Nat} (h : xs.countP p ≤ 1)
    (hi : xs[i]? = some x) (hx : p x = true) (hj : xs[j]? = some y) (hy : p y = true) : i = j := by
  induction xs generalizing i j with
  | nil => cases hi
  | cons z xs ih =>
    have hnone : ∀ {k : Nat} {w : α}, p z = true → xs[k]? = some w → p w = true → False := by
      intro k w hz hk hw
      have hpos : 0 < xs.countP p := List.countP_pos_iff.mpr ⟨w, List.mem_of_getElem? hk, hw⟩
      rw [List.countP_cons_of_pos hz] at h
      omega
    have htail : xs.countP p ≤ 1 := Nat.le_trans (List.sublist_cons_self z xs).countP_le h
    cases i with
    | zero =>
      cases j with
      | zero => rfl
      | succ j =>
        cases hi
        exact (hnone hx hj hy).elim
    | succ i =>
      cases j with
      | zero =>
        cases hj
        exact (hnone hy hi hx).elim
      | succ j => exact congrArg Nat.succ (ih htail hi hj)

end MudouHttp.Lib
