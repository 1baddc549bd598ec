import MudouHttp.Cxx.Text
import MudouHttp.Lib.Fields

/-!
# Searching a string

`find` for a character is where `cut` cuts.
-/

namespace MudouHttp

open Lib (cut cut_eq_none cut_eq_some)

theorem findIdx_cut (s : Bytes) (c : UInt8) :
    s.findIdx? (· = c) = (cut c s).map fun (k, _) => k.length := by
  induction s with
  | nil => rfl
  | cons a s ih =>
    rw [List.findIdx?_cons, cut]
    by_cases h : a = c
    · rw [if_pos h, if_pos (decide_eq_true h)]
      rfl
    · rw [if_neg h, if_neg (by simpa using h), ih, Option.map_map, Option.map_map]
      rfl

theorem find_cut (s : Bytes) (c : UInt8) (pos : Nat) :
    find s c pos = (cut c (s.drop pos)).map fun (k, _) => k.length + pos := by
  rw [find, findIdx_cut, Option.map_map]
  rfl

theorem find_none : find s c pos = none ↔ c ∉ s.drop pos := by
  rw [find_cut, Option.map_eq_none_iff, cut_eq_none]

theorem find_some : find s c pos = some i ↔
    ∃ k v, s.drop pos = k ++ c :: v ∧ c ∉ k ∧ i = k.length + pos := by
  rw [find_cut, Option.map_eq_some_iff]
  constructor
  · rintro ⟨⟨k, v⟩, hcut, rfl⟩
    obtain ⟨hs, hk⟩ := cut_eq_some.mp hcut
    exact ⟨k, v, hs, hk, rfl⟩
  · rintro ⟨k, v, hs, hk, rfl⟩
    exact ⟨(k, v), cut_eq_some.mpr ⟨hs, hk⟩, rfl⟩

end MudouHttp
