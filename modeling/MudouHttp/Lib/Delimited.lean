import Mathlib.Data.List.Forall2
import MudouHttp.Lib.Lines

/-!
# Messages one behind the other

A reader takes a message from the front of a stream once it has come whole. A
steady one reads the same when more comes, so that of a stream of messages, cut
off anywhere, it reads those that have come whole (`Steady.reads_prefix`).
-/

namespace MudouHttp.Lib

variable {α β γ : Type}

abbrev Reader (α β : Type) := StateT (List α) Option β

namespace Reader

/-- What is read does not depend on what comes after it. -/
def Steady (r : Reader α β) : Prop :=
  ∀ s m rest more, r.run s = some (m, rest) → r.run (s ++ more) = some (m, rest ++ more)

def Reads (r : Reader α β) (text : List α) (m : β) : Prop := r.run text = some (m, [])

theorem Steady.pure (m : β) : Steady (pure m : Reader α β) := by
  intro s m' rest more h
  cases h
  rfl

theorem Steady.bind {r : Reader α β} {next : β → Reader α γ} (h : r.Steady)
    (hnext : ∀ m, (next m).Steady) : (r >>= next).Steady := by
  intro s m' rest more hrun
  rw [StateT.run_bind] at hrun ⊢
  cases hr : r.run s with
  | none =>
    rw [hr] at hrun
    cases hrun
  | some found =>
    rw [hr] at hrun
    rw [h _ _ _ more hr]
    exact hnext found.1 _ _ _ more hrun

theorem Reads.bind {r : Reader α β} {next : β → Reader α γ} {text text' : List α} {m : β} {m' : γ}
    (hr : r.Steady) (h : r.Reads text m) (h' : (next m).Reads text' m') :
    (r >>= next).Reads (text ++ text') m' := by
  rw [Reads, StateT.run_bind, hr _ _ _ text' h]
  exact h'

def take (n : Nat) : Reader α (List α) :=
  fun s => if n ≤ s.length then some (s.take n, s.drop n) else none

theorem take_steady (n : Nat) : (take n : Reader α (List α)).Steady := by
  intro s m rest more h
  by_cases hn : n ≤ s.length
  · cases (if_pos hn).symm.trans h
    have hlong : n ≤ (s ++ more).length := by
      rw [List.length_append]
      exact Nat.le_add_right_of_le hn
    refine (if_pos hlong).trans ?_
    rw [List.take_append_of_le_length hn, List.drop_append_of_le_length hn]
  · cases (if_neg hn).symm.trans h

theorem take_reads (text : List α) : (take text.length).Reads text text := by
  refine (if_pos (Nat.le_refl _)).trans ?_
  rw [List.take_length, List.drop_length]

-- ---------------------------------------------------------------------------
-- Lines
-- ---------------------------------------------------------------------------

section Lines

variable [DecidableEq α] {cr lf : α}

def line (cr lf : α) : Reader α (List α)
  | c :: d :: rest =>
    if c = cr ∧ d = lf then some ([], rest)
    else (line cr lf (d :: rest)).map fun found => (c :: found.1, found.2)
  | _ => none

theorem line_steady : (line cr lf).Steady := by
  intro s
  induction s with
  | nil =>
    intro m rest more h
    cases h
  | cons c s ih =>
    intro m rest more h
    cases s with
    | nil => cases h
    | cons d s =>
      by_cases hpair : c = cr ∧ d = lf
      · cases (if_pos hpair).symm.trans h
        exact if_pos hpair
      · obtain ⟨⟨m', rest'⟩, hline, hfound⟩ := Option.map_eq_some_iff.mp ((if_neg hpair).symm.trans h)
        cases hfound
        refine (if_neg hpair).trans ?_
        exact Option.map_eq_some_iff.mpr ⟨_, ih _ _ more hline, rfl⟩

theorem line_reads (hne : cr ≠ lf) {s : List α} (h : Line cr lf s) :
    (line cr lf).Reads (s ++ [cr, lf]) s := by
  induction s with
  | nil => exact if_pos ⟨rfl, rfl⟩
  | cons c s ih =>
    have hs : Line cr lf s := fun hin => h (hin.trans (List.suffix_cons c s).isInfix)
    cases s with
    | nil =>
      have hpair : ¬(c = cr ∧ cr = lf) := fun hp => hne hp.2
      exact (if_neg hpair).trans (Option.map_eq_some_iff.mpr ⟨_, ih hs, rfl⟩)
    | cons d s =>
      have hpair : ¬(c = cr ∧ d = lf) := by
        rintro ⟨rfl, rfl⟩
        exact h ⟨[], s, rfl⟩
      exact (if_neg hpair).trans (Option.map_eq_some_iff.mpr ⟨_, ih hs, rfl⟩)

/-- Lines up to an empty one; `l` is the one that is being read. -/
def blockFrom (cr lf : α) (l : List α) : Reader α (List (List α))
  | c :: d :: rest =>
    if c = cr ∧ d = lf then
      if l = [] then some ([], rest)
      else (blockFrom cr lf [] rest).map fun found => (l :: found.1, found.2)
    else blockFrom cr lf (l ++ [c]) (d :: rest)
  | _ => none

def block (cr lf : α) : Reader α (List (List α)) := blockFrom cr lf []

theorem blockFrom_steady (l : List α) : (blockFrom cr lf l).Steady := by
  intro s m rest more h
  replace h : blockFrom cr lf l s = some (m, rest) := h
  fun_induction blockFrom cr lf l s generalizing m with
  | case1 c d s hpair =>
    cases h
    exact (if_pos hpair).trans (if_pos rfl)
  | case2 l c d s hpair hl ih =>
    obtain ⟨⟨m', rest'⟩, hblock, hfound⟩ := Option.map_eq_some_iff.mp h
    cases hfound
    refine (if_pos hpair).trans ((if_neg hl).trans ?_)
    exact Option.map_eq_some_iff.mpr ⟨_, ih _ hblock, rfl⟩
  | case3 l c d s hpair ih => exact (if_neg hpair).trans (ih _ h)
  | case4 => cases h

theorem block_steady : (block cr lf).Steady := blockFrom_steady []

theorem blockFrom_line (hne : cr ≠ lf) {s : List α} (h : Line cr lf s) (l rest : List α) :
    (blockFrom cr lf l).run (s ++ cr :: lf :: rest) =
      if l ++ s = [] then some ([], rest)
      else ((block cr lf).run rest).map fun found => ((l ++ s) :: found.1, found.2) := by
  induction s generalizing l with
  | nil =>
    rw [List.append_nil]
    exact if_pos ⟨rfl, rfl⟩
  | cons c s ih =>
    have hs : Line cr lf s := fun hin => h (hin.trans (List.suffix_cons c s).isInfix)
    have hstep : (blockFrom cr lf l).run (c :: s ++ cr :: lf :: rest) =
        (blockFrom cr lf (l ++ [c])).run (s ++ cr :: lf :: rest) := by
      cases s with
      | nil => exact if_neg fun hp => hne hp.2
      | cons d s =>
        refine if_neg ?_
        rintro ⟨rfl, rfl⟩
        exact h ⟨[], s, rfl⟩
    rw [hstep, ih hs, List.append_assoc, List.singleton_append]

theorem block_reads (hne : cr ≠ lf) {ls : List (List α)} (h : ∀ l ∈ ls, Line cr lf l ∧ l ≠ []) :
    (block cr lf).Reads (lines cr lf ls ++ [cr, lf]) ls := by
  induction ls with
  | nil => exact if_pos ⟨rfl, rfl⟩
  | cons l ls ih =>
    obtain ⟨⟨hline, hnonempty⟩, hls⟩ := List.forall_mem_cons.mp h
    rw [Reads, lines_cons, block, blockFrom_line hne hline, if_neg (by simpa using hnonempty), ih hls]
    rfl

end Lines

-- ---------------------------------------------------------------------------
-- Streams
-- ---------------------------------------------------------------------------

def readsFrom (r : Reader α β) : Nat → List α → List β
  | 0, _ => []
  | n + 1, s =>
    match r.run s with
    | some (m, rest) => m :: readsFrom r n rest
    | none => []

def reads (r : Reader α β) (s : List α) : List β := r.readsFrom s.length s

/-- A part of a message is not read. -/
theorem Steady.part {r : Reader α β} (h : r.Steady) {text s : List α} {m : β} (ht : r.Reads text m)
    (hs : s <+: text) (hne : s ≠ text) : r.run s = none := by
  obtain ⟨more, rfl⟩ := hs
  cases hr : r.run s with
  | none => rfl
  | some found =>
    obtain ⟨hm, hrest⟩ := Prod.mk.inj (Option.some.inj ((h _ _ _ more hr).symm.trans ht))
    rw [(List.append_eq_nil_iff.mp hrest).2, List.append_nil] at hne
    exact absurd rfl hne

theorem readsFrom_none {r : Reader α β} {s : List α} (h : r.run s = none) (n : Nat) :
    r.readsFrom n s = [] := by
  cases n with
  | zero => rfl
  | succ n => rw [readsFrom, h]

theorem Steady.readsFrom_prefix {r : Reader α β} (h : r.Steady) (hempty : r.run [] = none)
    {texts : List (List α)} {ms : List β} (ht : List.Forall₂ r.Reads texts ms) {s : List α}
    (hs : s <+: texts.flatten) (hn : s.length ≤ n) :
    ∃ k ≤ texts.length, r.readsFrom n s = ms.take k ∧ (texts.take k).flatten <+: s ∧
      (k < texts.length → ¬(texts.take (k + 1)).flatten <+: s) := by
  induction ht generalizing s n with
  | nil =>
    cases List.prefix_nil.mp hs
    exact ⟨0, Nat.le_refl _, readsFrom_none hempty n, List.nil_prefix, fun hk => absurd hk (Nat.lt_irrefl 0)⟩
  | @cons text m texts ms hm _ ih =>
    rw [List.flatten_cons] at hs
    by_cases htext : text <+: s
    · obtain ⟨rest, rfl⟩ := htext
      have hne : text ≠ [] := by
        rintro rfl
        cases hempty.symm.trans hm
      have hlen : 0 < text.length := List.length_pos_iff.mpr hne
      rw [List.length_append] at hn
      obtain ⟨n, rfl⟩ := Nat.exists_eq_add_one.mpr (show 0 < n by omega)
      obtain ⟨k, hk, hreads, hcome, hwait⟩ :=
        @ih n rest ((List.prefix_append_right_inj text).mp hs) (by omega)
      refine ⟨k + 1, Nat.succ_le_succ hk, ?_, ?_, fun hlt => ?_⟩
      · rw [readsFrom, h _ _ _ rest hm]
        exact congrArg _ hreads
      · exact (List.prefix_append_right_inj text).mpr hcome
      · exact fun hmore => hwait (Nat.lt_of_succ_lt_succ hlt) ((List.prefix_append_right_inj text).mp hmore)
    · have hpart : s <+: text :=
        (List.prefix_or_prefix_of_prefix hs (List.prefix_append text _)).resolve_right htext
      refine ⟨0, Nat.zero_le _, readsFrom_none (h.part hm hpart ?_) n, List.nil_prefix, fun _ => ?_⟩
      · rintro rfl
        exact htext List.prefix_rfl
      · simpa using htext

/-- However much of the stream has come, the messages read are those that have come whole. -/
theorem Steady.reads_prefix {r : Reader α β} (h : r.Steady) (hempty : r.run [] = none)
    {texts : List (List α)} {ms : List β} (ht : List.Forall₂ r.Reads texts ms) {s : List α}
    (hs : s <+: texts.flatten) :
    ∃ k ≤ texts.length, r.reads s = ms.take k ∧ (texts.take k).flatten <+: s ∧
      (k < texts.length → ¬(texts.take (k + 1)).flatten <+: s) :=
  h.readsFrom_prefix hempty ht hs (Nat.le_refl _)

end Reader

end MudouHttp.Lib
