import Mathlib.Data.List.Basic
import Mathlib.Data.List.TakeWhile

/-!
# Matching a whole input against repeated classes and literals

The fragment of ECMAScript regular expressions made of literals and of
greedily repeated character classes, some of them captured. `fullMatch` tries
the longest repetition first and backtracks, as the standard prescribes. A
repetition at the end takes all or fails (`fullMatch_many`).
-/

namespace MudouHttp.Lib.Regex

variable {α : Type}

inductive Item (α : Type)
  | lit (c : α)
  | many (least : Nat) (cls : α → Bool) (capture : Bool)

def lits (s : List α) : List (Item α) := s.map .lit

/-- Candidate lengths of a repetition, longest first, none below `least`. -/
def lengths (least : Nat) : Nat → List Nat
  | 0 => if least = 0 then [0] else []
  | n + 1 => if least ≤ n + 1 then (n + 1) :: lengths least n else []

def fullMatch [DecidableEq α] : List (Item α) → List α → Option (List (List α))
  | [], s => if s.isEmpty then some [] else none
  | .lit c :: items, s =>
    match s with
    | [] => none
    | x :: rest => if x = c then fullMatch items rest else none
  | .many least cls capture :: items, s =>
    (lengths least (s.takeWhile cls).length).findSome? fun n =>
      (fullMatch items (s.drop n)).map fun caps => if capture then s.take n :: caps else caps

variable {cls : α → Bool} {items : List (Item α)}

theorem mem_lengths (h : k ∈ lengths least n) : least ≤ k ∧ k ≤ n := by
  induction n with
  | zero =>
    unfold lengths at h
    split at h
    · obtain rfl := List.mem_singleton.mp h
      omega
    · cases h
  | succ n ih =>
    unfold lengths at h
    split at h
    · rcases List.mem_cons.mp h with rfl | h
      · omega
      · have := ih h
        omega
    · cases h

theorem lengths_cons (h : least ≤ n) : ∃ shorter, lengths least n = n :: shorter ∧
    ∀ k ∈ shorter, k < n := by
  cases n with
  | zero => exact ⟨[], by simp [lengths, Nat.le_zero.mp h], by simp⟩
  | succ n =>
    refine ⟨lengths least n, by simp [lengths, h], fun k hk => ?_⟩
    have := (mem_lengths hk).2
    omega

theorem drop_length_takeWhile (s : List α) : s.drop (s.takeWhile cls).length = s.dropWhile cls := by
  induction s with
  | nil => rfl
  | cons x s ih => by_cases h : cls x <;> simp [h, ih]

theorem take_length_takeWhile (s : List α) : s.take (s.takeWhile cls).length = s.takeWhile cls :=
  (List.prefix_iff_eq_take.mp (List.takeWhile_prefix cls)).symm

variable [DecidableEq α]

theorem fullMatch_lits (s t : List α) : fullMatch (lits s ++ items) (s ++ t) = fullMatch items t := by
  induction s with
  | nil => rfl
  | cons c s ih => simpa [lits, fullMatch] using ih

/-- The longest repetition succeeds if what follows it does. -/
theorem fullMatch_many_of_some {caps : List (List α)} (hn : least ≤ (s.takeWhile cls).length)
    (h : fullMatch items (s.dropWhile cls) = some caps) :
    fullMatch (.many least cls capture :: items) s =
      some (if capture then s.takeWhile cls :: caps else caps) := by
  obtain ⟨shorter, hs, -⟩ := lengths_cons hn
  rw [fullMatch, hs, List.findSome?_cons, drop_length_takeWhile, h, take_length_takeWhile]
  rfl

theorem fullMatch_many (s : List α) : fullMatch [.many 0 cls capture] s =
    if s.all cls then some (if capture then [s] else []) else none := by
  by_cases h : s.all cls
  · have ht : s.takeWhile cls = s := List.takeWhile_eq_self_iff.mpr (List.all_eq_true.mp h)
    have hd : s.dropWhile cls = [] := List.dropWhile_eq_nil_iff.mpr (List.all_eq_true.mp h)
    rw [fullMatch_many_of_some (Nat.zero_le _) (by rw [hd]; rfl), ht, if_pos h]
  · rw [if_neg h, fullMatch, List.findSome?_eq_none_iff]
    intro k hk
    have hne : s.drop k ≠ [] := by
      intro he
      have hlen : s.length ≤ k := List.drop_eq_nil_iff.mp he
      have hself : s.takeWhile cls = s := by
        have hp := List.takeWhile_prefix (l := s) cls
        exact hp.eq_of_length_le (Nat.le_trans hlen (mem_lengths hk).2)
      exact h (List.all_eq_true.mpr (List.takeWhile_eq_self_iff.mp hself))
    simp [fullMatch, List.isEmpty_iff, hne]

/-- A skipped repetition before the last one takes the longest prefix it can. -/
theorem fullMatch_skip_many {last : α → Bool} (s : List α) :
    fullMatch [.many 0 cls false, .many 0 last true] s =
      if (s.dropWhile cls).all last then some [s.dropWhile cls] else none := by
  by_cases h : (s.dropWhile cls).all last
  · rw [fullMatch_many_of_some (Nat.zero_le _) ((fullMatch_many _).trans (if_pos h)), if_pos h]
    rfl
  · rw [if_neg h, fullMatch, List.findSome?_eq_none_iff]
    intro k hk
    have hall : ¬(s.drop k).all last := by
      intro ha
      refine h (List.all_eq_true.mpr fun x hx => List.all_eq_true.mp ha x ?_)
      have hsub : s.dropWhile cls <:+ s.drop k := by
        rw [← drop_length_takeWhile, ← Nat.add_sub_cancel' (mem_lengths hk).2, ← List.drop_drop]
        exact List.drop_suffix _ _
      exact hsub.subset hx
    simp [fullMatch_many, hall]

end MudouHttp.Lib.Regex
