import Mathlib.Data.List.Infix

/-!
# Lines ended by a pair of symbols

A text of lines, each ended by the same two different symbols, splits in one
way only: where the pair first stands the first line ends. Lines that are not
empty, an empty one and a rest split in one way as well.
-/

namespace MudouHttp.Lib

variable {α : Type} {cr lf : α}

def Line (cr lf : α) (s : List α) : Prop := ¬[cr, lf] <:+: s

theorem Line.of_notMem {s : List α} (h : cr ∉ s) : Line cr lf s :=
  fun hin => h (hin.subset List.mem_cons_self)

theorem pair_inj {rest rest' : List α} (h : cr :: lf :: rest = cr :: lf :: rest') : rest = rest' :=
  (List.cons.inj (List.cons.inj h).2).2

theorem Line.eq_nil {s t x rest rest' : List α} (hne : cr ≠ lf) (ht : Line cr lf t)
    (hsplit : t = s ++ x) (h : cr :: lf :: rest = x ++ cr :: lf :: rest') : x = [] := by
  cases x with
  | nil => rfl
  | cons c x =>
    obtain ⟨hc, h⟩ := List.cons.inj h
    cases x with
    | nil => exact absurd (List.cons.inj h).1.symm hne
    | cons d x =>
      obtain ⟨hd, -⟩ := List.cons.inj h
      exact absurd ⟨s, x, by rw [hsplit, hc, hd, List.append_assoc]; rfl⟩ ht

/-- The first line ends where the pair first stands. -/
theorem Line.inj {s t rest rest' : List α} (hne : cr ≠ lf) (hs : Line cr lf s)
    (ht : Line cr lf t) (h : s ++ cr :: lf :: rest = t ++ cr :: lf :: rest') :
    s = t ∧ rest = rest' := by
  rcases List.append_eq_append_iff.mp h with ⟨x, hsplit, hrest⟩ | ⟨x, hsplit, hrest⟩
  · obtain rfl := ht.eq_nil hne hsplit hrest
    rw [List.append_nil] at hsplit
    exact ⟨hsplit.symm, pair_inj hrest⟩
  · obtain rfl := hs.eq_nil hne hsplit hrest
    rw [List.append_nil] at hsplit
    exact ⟨hsplit, (pair_inj hrest).symm⟩

def lines (cr lf : α) (ls : List (List α)) : List α := ls.flatMap (· ++ [cr, lf])

theorem lines_cons (l : List α) (ls : List (List α)) (rest : List α) :
    lines cr lf (l :: ls) ++ rest = l ++ cr :: lf :: (lines cr lf ls ++ rest) := by
  simp only [lines, List.flatMap_cons, List.append_assoc, List.cons_append, List.nil_append]

theorem lines_inj {ls ls' : List (List α)} {rest rest' : List α} (hne : cr ≠ lf)
    (hls : ∀ l ∈ ls, Line cr lf l ∧ l ≠ []) (hls' : ∀ l ∈ ls', Line cr lf l ∧ l ≠ [])
    (h : lines cr lf ls ++ cr :: lf :: rest = lines cr lf ls' ++ cr :: lf :: rest') :
    ls = ls' ∧ rest = rest' := by
  have hempty : Line cr lf [] := .of_notMem List.not_mem_nil
  induction ls generalizing ls' with
  | nil =>
    cases ls' with
    | nil => exact ⟨rfl, pair_inj h⟩
    | cons l' ls' =>
      obtain ⟨hline, hnonempty⟩ := hls' l' List.mem_cons_self
      rw [lines_cons] at h
      exact absurd (Line.inj hne hempty hline h).1.symm hnonempty
  | cons l ls ih =>
    obtain ⟨hline, hnonempty⟩ := hls l List.mem_cons_self
    rw [lines_cons] at h
    cases ls' with
    | nil => exact absurd (Line.inj hne hline hempty h).1 hnonempty
    | cons l' ls' =>
      rw [lines_cons] at h
      obtain ⟨rfl, htail⟩ := Line.inj hne hline (hls' l' List.mem_cons_self).1 h
      obtain ⟨rfl, hrest⟩ := ih (fun l hl => hls l (List.mem_cons_of_mem _ hl))
        (fun l hl => hls' l (List.mem_cons_of_mem _ hl)) htail
      exact ⟨rfl, hrest⟩

end MudouHttp.Lib
