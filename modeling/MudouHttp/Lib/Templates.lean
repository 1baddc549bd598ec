import Mathlib.Data.List.Infix
import Mathlib.Logic.Function.Basic

/-!
# Templates

Names in brackets stand in a text (`Placeholders`); `substitute` puts a value in
the place of each, all at once. Replacing one name after the other, each where
it first stands, comes to the same while that is the template's own
(`replaceFirst_own`).
-/

namespace MudouHttp.Lib

open Function (update update_self update_of_ne)

variable {α ι : Type} {opening closing : α} {word word' s x x' y y' : List α}

-- ---------------------------------------------------------------------------
-- Words in brackets
-- ---------------------------------------------------------------------------

/-- The brackets are the ends of the word and do not stand in it. -/
def Bracketed (opening closing : α) (word : List α) : Prop :=
  ∃ inner, word = opening :: (inner ++ [closing]) ∧ opening ∉ inner ∧ closing ∉ inner

theorem Bracketed.ne_nil (h : Bracketed opening closing word) : word ≠ [] := by
  obtain ⟨inner, rfl, -⟩ := h
  exact List.cons_ne_nil _ _

theorem append_closing_inj {inner inner' y y' : List α} (h : closing ∉ inner) (h' : closing ∉ inner')
    (heq : inner ++ closing :: y = inner' ++ closing :: y') : inner = inner' ∧ y = y' := by
  induction inner generalizing inner' with
  | nil =>
    cases inner' with
    | nil => exact ⟨rfl, (List.cons.inj heq).2⟩
    | cons c inner' => exact absurd ((List.cons.inj heq).1 ▸ List.mem_cons_self) h'
  | cons c inner ih =>
    cases inner' with
    | nil => exact absurd ((List.cons.inj heq).1 ▸ List.mem_cons_self) h
    | cons d inner' =>
      obtain ⟨rfl, htail⟩ := List.cons.inj heq
      obtain ⟨rfl, rfl⟩ := ih (mt (List.mem_cons_of_mem _) h) (mt (List.mem_cons_of_mem _) h') htail
      exact ⟨rfl, rfl⟩

theorem Bracketed.prefix_inj (h : Bracketed opening closing word) (h' : Bracketed opening closing word')
    (heq : word ++ y = word' ++ y') : word = word' ∧ y = y' := by
  obtain ⟨inner, rfl, -, hclosing⟩ := h
  obtain ⟨inner', rfl, -, hclosing'⟩ := h'
  have htail : inner ++ [closing] ++ y = inner' ++ [closing] ++ y' := (List.cons.inj heq).2
  rw [List.append_assoc, List.append_assoc] at htail
  obtain ⟨rfl, rfl⟩ := append_closing_inj hclosing hclosing' htail
  exact ⟨rfl, rfl⟩

/-- No bracketed word begins within one. -/
theorem Bracketed.not_inside (hne : opening ≠ closing) (h : Bracketed opening closing word)
    (heq : word = d ++ e) (hd : d ≠ []) : e.head? ≠ some opening := by
  obtain ⟨inner, rfl, hopening, -⟩ := h
  cases d with
  | nil => exact absurd rfl hd
  | cons c d =>
    have htail := (List.cons.inj heq).2
    intro hhead
    have hmem : opening ∈ inner ++ [closing] := htail ▸ List.mem_append_right d (List.mem_of_head? hhead)
    rcases List.mem_append.mp hmem with hin | hin
    · exact hopening hin
    · exact hne (List.mem_singleton.mp hin)

theorem Bracketed.head (h : Bracketed opening closing word) (y : List α) :
    (word ++ y).head? = some opening := by
  obtain ⟨inner, rfl, -⟩ := h
  rfl

theorem Bracketed.after (hne : opening ≠ closing) (h : Bracketed opening closing word)
    (h' : Bracketed opening closing word') (heq : word ++ y = d ++ (word' ++ y')) :
    (d = [] ∧ word = word' ∧ y = y') ∨ ∃ m, d = word ++ m ∧ y = m ++ (word' ++ y') := by
  by_cases hd : d = []
  · subst hd
    exact .inl ⟨rfl, h.prefix_inj h' heq⟩
  · rcases List.append_eq_append_iff.mp heq with ⟨m, hm, hy⟩ | ⟨e, he, hy⟩
    · exact .inr ⟨m, hm, hy⟩
    · cases e with
      | nil => exact .inr ⟨[], by rw [he, List.append_nil, List.append_nil], hy.symm⟩
      | cons c e =>
        have hhead : (c :: e).head? = some opening :=
          (congrArg List.head? hy).symm.trans (h'.head y')
        exact absurd hhead (h.not_inside hne he hd)

/-- Two bracketed words in a text stand in one place, or one behind the other. -/
theorem Bracketed.apart (hne : opening ≠ closing) (h : Bracketed opening closing word)
    (h' : Bracketed opening closing word') (heq : x ++ (word ++ y) = x' ++ (word' ++ y')) :
    (x = x' ∧ word = word' ∧ y = y') ∨ (∃ m, x' = x ++ (word ++ m) ∧ y = m ++ (word' ++ y')) ∨
      ∃ m, x = x' ++ (word' ++ m) ∧ y' = m ++ (word ++ y) := by
  rcases List.append_eq_append_iff.mp heq with ⟨d, rfl, htail⟩ | ⟨d, rfl, htail⟩
  · rcases h.after hne h' htail with ⟨rfl, hword, hy⟩ | ⟨m, rfl, hy⟩
    · exact .inl ⟨(List.append_nil _).symm, hword, hy⟩
    · exact .inr (.inl ⟨m, rfl, hy⟩)
  · rcases h'.after hne h htail with ⟨rfl, hword, hy⟩ | ⟨m, rfl, hy⟩
    · exact .inl ⟨List.append_nil _, hword.symm, hy.symm⟩
    · exact .inr (.inr ⟨m, rfl, hy⟩)

theorem absent_parts {name : List α} (h : ¬word <:+: x ++ (name ++ y)) :
    ¬word <:+: x ∧ ¬word <:+: name ∧ ¬word <:+: y :=
  ⟨fun hin => h (hin.trans (List.prefix_append x _).isInfix),
    fun hin => h (hin.trans ⟨x, y, by rw [List.append_assoc]⟩),
    fun hin => h (hin.trans ⟨x ++ name, [], by rw [List.append_nil, List.append_assoc]⟩)⟩

-- ---------------------------------------------------------------------------
-- Pieces of words
-- ---------------------------------------------------------------------------

section Pieces

variable {F L f l a b d e t z : List α}

def Foreign (F L l : List α) : Prop := l ≠ [] ∧ ∀ c ∈ l, c ∉ F ∧ c ∉ L

theorem Foreign.notMem_opening (hl : Foreign F L l) (hF : Bracketed opening closing F) :
    opening ∉ l := by
  obtain ⟨inner, rfl, -⟩ := hF
  exact fun hin => (hl.2 opening hin).1 List.mem_cons_self

theorem Foreign.notMem_closing (hl : Foreign F L l) (hF : Bracketed opening closing F) :
    closing ∉ l := by
  obtain ⟨inner, rfl, -⟩ := hF
  exact fun hin => (hl.2 closing hin).1 (List.mem_cons_of_mem _ (by simp))

theorem Foreign.begins_ne (hl : Foreign F L l) (hd : d ≠ []) (hin : ∀ c ∈ d, c ∈ F ∨ c ∈ L) :
    l ++ t ≠ d ++ y := by
  intro heq
  obtain ⟨hne, hall⟩ := hl
  cases l with
  | nil => exact hne rfl
  | cons c l =>
    cases d with
    | nil => exact hd rfl
    | cons c' d =>
      obtain rfl := (List.cons.inj heq).1
      rcases hin c List.mem_cons_self with hmem | hmem
      · exact (hall c List.mem_cons_self).1 hmem
      · exact (hall c List.mem_cons_self).2 hmem

theorem Bracketed.concat (hF : Bracketed opening closing F) :
    ∃ start, F = start ++ [closing] ∧ (opening ≠ closing → closing ∉ start) := by
  obtain ⟨inner, rfl, -, hclosing⟩ := hF
  refine ⟨opening :: inner, rfl, fun hne hmem => ?_⟩
  rcases List.mem_cons.mp hmem with heq | hin
  · exact hne heq.symm
  · exact hclosing hin

theorem Bracketed.ends_ne (hF : Bracketed opening closing F) (hf : f ≠ []) (hclosing : closing ∉ f) :
    a ++ F ≠ b ++ f := by
  intro heq
  obtain ⟨start, rfl, -⟩ := hF.concat
  obtain ⟨d, c, rfl⟩ := (List.eq_nil_or_concat' f).resolve_left hf
  rw [← List.append_assoc, ← List.append_assoc] at heq
  obtain rfl := List.singleton_inj.mp (List.append_inj_right' heq rfl)
  exact hclosing (List.mem_append_right d List.mem_cons_self)

theorem Bracketed.proper_prefix (hne : opening ≠ closing) (hF : Bracketed opening closing F)
    (hsplit : F = f ++ e) (he : e ≠ []) : closing ∉ f := by
  obtain ⟨start, hstart, hclosing⟩ := hF.concat
  obtain ⟨d, c, rfl⟩ := (List.eq_nil_or_concat' e).resolve_left he
  rw [hstart, ← List.append_assoc] at hsplit
  have hsame := List.append_inj_left' hsplit rfl
  exact fun hmem => hclosing hne (hsame ▸ List.mem_append_left d hmem)

theorem part_of_begins (hf : ¬F <:+: f) (h : ∃ y, f ++ z = F ++ y) : ∃ r, r ≠ [] ∧ F = f ++ r := by
  obtain ⟨y, hy⟩ := h
  rcases List.append_eq_append_iff.mp hy with ⟨r, hF, -⟩ | ⟨r, hF, -⟩
  · refine ⟨r, ?_, hF⟩
    rintro rfl
    rw [List.append_nil] at hF
    exact hf (hF ▸ List.infix_rfl)
  · exact absurd ⟨[], r, hF.symm⟩ hf

end Pieces

-- ---------------------------------------------------------------------------
-- Names in a text
-- ---------------------------------------------------------------------------

structure Placeholders (α ι : Type) where
  fields : List ι
  name : ι → List α
  opening : α
  closing : α
  complete : ∀ i, i ∈ fields
  ne : opening ≠ closing
  bracketed : ∀ i, Bracketed opening closing (name i)
  inj : ∀ i j, name i = name j → i = j

namespace Placeholders

variable (ph : Placeholders α ι) {i : ι}

/-- A text is read name by name, and symbol by symbol where no name begins. -/
theorem induction {P : List α → Prop} (nil : P []) (name : ∀ i s, P s → P (ph.name i ++ s))
    (plain : ∀ c s, (∀ i, ¬ph.name i <+: c :: s) → P s → P (c :: s)) (s : List α) : P s := by
  induction hlen : s.length using Nat.strongRecOn generalizing s with
  | ind n ih =>
    cases s with
    | nil => exact nil
    | cons c s =>
      by_cases h : ∃ i, ph.name i <+: c :: s
      · obtain ⟨i, t, ht⟩ := h
        have hpos := List.length_pos_iff.mpr (ph.bracketed i).ne_nil
        have htotal := congrArg List.length ht
        rw [List.length_append] at htotal
        exact ht ▸ name i t (ih _ (by omega) t rfl)
      · exact plain c s (not_exists.mp h) (ih _ (by rw [← hlen]; exact Nat.lt_succ_self _) s rfl)

def Once (i : ι) (s : List α) : Prop :=
  ∀ x y x' y', s = x ++ (ph.name i ++ y) → s = x' ++ (ph.name i ++ y') → x = x'

theorem once_of_positions (i : ι) {s : List α}
    (h : ∀ k ≤ s.length, ∀ l ≤ s.length, ph.name i <+: s.drop k → ph.name i <+: s.drop l → k = l) :
    ph.Once i s := by
  intro x y x' y' hs hs'
  have hat : ∀ x y, s = x ++ (ph.name i ++ y) → x.length ≤ s.length ∧ ph.name i <+: s.drop x.length ∧
      s.take x.length = x := by
    rintro x y rfl
    exact ⟨by simp, by simp, List.take_left⟩
  obtain ⟨hle, hprefix, htake⟩ := hat x y hs
  obtain ⟨hle', hprefix', htake'⟩ := hat x' y' hs'
  rw [← htake, ← htake', h _ hle _ hle' hprefix hprefix']

theorem once_single (i j : ι) : ph.Once i (ph.name j) := by
  have hstart : ∀ x y, ph.name j = x ++ (ph.name i ++ y) → x = [] := by
    intro x y hs
    have hplace : [] ++ (ph.name j ++ []) = x ++ (ph.name i ++ y) := by
      rw [List.nil_append, List.append_nil, hs]
    rcases (ph.bracketed j).apart ph.ne (ph.bracketed i) hplace with ⟨hx, -⟩ | ⟨m, -, hm⟩ | ⟨m, hm, -⟩
    · exact hx.symm
    · exact absurd (List.append_eq_nil_iff.mp (List.append_eq_nil_iff.mp hm.symm).2).1
        (ph.bracketed i).ne_nil
    · exact (List.append_eq_nil_iff.mp hm.symm).1
  exact fun x y x' y' hs hs' => (hstart x y hs).trans (hstart x' y' hs').symm

theorem Once.around (h : ph.Once i s) (hs : s = x ++ (ph.name i ++ y)) :
    ¬ph.name i <:+: x ∧ ¬ph.name i <:+: y := by
  have hpos := List.length_pos_iff.mpr (ph.bracketed i).ne_nil
  constructor
  · rintro ⟨a, b, rfl⟩
    have heq := h _ y a (b ++ (ph.name i ++ y)) hs (by rw [hs]; simp only [List.append_assoc])
    have hlen := congrArg List.length heq
    simp only [List.length_append] at hlen
    omega
  · rintro ⟨a, b, rfl⟩
    have heq := h x _ (x ++ (ph.name i ++ a)) b hs (by rw [hs]; simp only [List.append_assoc])
    have hlen := congrArg List.length heq
    simp only [List.length_append] at hlen
    omega

end Placeholders

-- ---------------------------------------------------------------------------
-- Replacing a word where it first stands
-- ---------------------------------------------------------------------------

variable [DecidableEq α]

def cutWord (word : List α) : List α → Option (List α × List α)
  | [] => none
  | a :: s =>
    if word.isPrefixOf (a :: s) then some ([], (a :: s).drop word.length)
    else (cutWord word s).map fun (x, y) => (a :: x, y)

def replaceFirst (word new s : List α) : List α :=
  match cutWord word s with
  | some (x, y) => x ++ (new ++ y)
  | none => s

theorem cutWord_none (hword : word ≠ []) : cutWord word s = none ↔ ¬word <:+: s := by
  induction s with
  | nil =>
    refine iff_of_true rfl fun h => hword ?_
    exact List.eq_nil_of_infix_nil h
  | cons a s ih =>
    rw [cutWord, List.infix_cons_iff, not_or]
    split
    · rename_i h
      exact iff_of_false (fun hnone => by cases hnone) fun hnot =>
        hnot.1 (List.isPrefixOf_iff_prefix.mp h)
    · rename_i h
      rw [Option.map_eq_none_iff, ih, and_iff_right (mt List.isPrefixOf_iff_prefix.mpr h)]

theorem cutWord_some (h : cutWord word s = some (x, y)) : s = x ++ (word ++ y) := by
  induction s generalizing x with
  | nil => cases h
  | cons a s ih =>
    rw [cutWord] at h
    split at h
    · rename_i hprefix
      cases h
      obtain ⟨z, hz⟩ := List.isPrefixOf_iff_prefix.mp hprefix
      rw [← hz, List.drop_left]
      rfl
    · obtain ⟨⟨x', y'⟩, hcut, heq⟩ := Option.map_eq_some_iff.mp h
      cases heq
      exact congrArg (a :: ·) (ih hcut)

theorem cutWord_first (h : cutWord word s = some (x, y)) (heq : s = x' ++ (word ++ y')) :
    x.length ≤ x'.length := by
  induction s generalizing x x' with
  | nil => cases h
  | cons a s ih =>
    rw [cutWord] at h
    split at h
    · cases h
      exact Nat.zero_le _
    · rename_i hprefix
      obtain ⟨⟨x'', y''⟩, hcut, hpair⟩ := Option.map_eq_some_iff.mp h
      cases hpair
      cases x' with
      | nil => exact absurd (List.isPrefixOf_iff_prefix.mpr ⟨y', heq.symm⟩) hprefix
      | cons b x' => exact Nat.succ_le_succ (ih hcut (List.cons.inj heq).2)

theorem cutWord_before (hword : word ≠ []) (h : cutWord word s = some (x, y)) : ¬word <:+: x := by
  rintro ⟨a, b, rfl⟩
  have hplace : s = a ++ (word ++ (b ++ (word ++ y))) := by
    rw [cutWord_some h]
    simp only [List.append_assoc]
  have hfirst := cutWord_first h hplace
  have hpos := List.length_pos_iff.mpr hword
  simp only [List.length_append] at hfirst
  omega

theorem replaceFirst_cases (hword : word ≠ []) (new s : List α) :
    (replaceFirst word new s = s ∧ ¬word <:+: s) ∨
      ∃ x y, s = x ++ (word ++ y) ∧ ¬word <:+: x ∧ replaceFirst word new s = x ++ (new ++ y) := by
  cases hcut : cutWord word s with
  | none => exact .inl ⟨by rw [replaceFirst, hcut], (cutWord_none hword).mp hcut⟩
  | some xy =>
    exact .inr ⟨xy.1, xy.2, cutWord_some hcut, cutWord_before hword hcut, by rw [replaceFirst, hcut]⟩

theorem replaceFirst_absent (hword : word ≠ []) (h : ¬word <:+: s) (new : List α) :
    replaceFirst word new s = s := by
  rw [replaceFirst, (cutWord_none hword).mpr h]

/-- The first of a bracketed word's places is the one that no other is before. -/
theorem cutWord_own (hne : opening ≠ closing) (hword : Bracketed opening closing word)
    (hx : ¬word <:+: x) (y : List α) : cutWord word (x ++ (word ++ y)) = some (x, y) := by
  cases hcut : cutWord word (x ++ (word ++ y)) with
  | none => exact absurd ⟨x, y, by rw [List.append_assoc]⟩ ((cutWord_none hword.ne_nil).mp hcut)
  | some xy =>
    obtain ⟨x', y'⟩ := xy
    have hfirst := cutWord_first hcut rfl
    rcases hword.apart hne hword (cutWord_some hcut) with ⟨rfl, -, rfl⟩ | ⟨m, rfl, -⟩ | ⟨m, rfl, -⟩
    · rfl
    · have hpos := List.length_pos_iff.mpr hword.ne_nil
      simp only [List.length_append] at hfirst
      omega
    · exact absurd ⟨x', m, by rw [List.append_assoc]⟩ hx

theorem replaceFirst_own (hne : opening ≠ closing) (hword : Bracketed opening closing word)
    (hx : ¬word <:+: x) (new y : List α) :
    replaceFirst word new (x ++ (word ++ y)) = x ++ (new ++ y) := by
  rw [replaceFirst, cutWord_own hne hword hx]

theorem replaceFirst_within (hne : opening ≠ closing) (hword : Bracketed opening closing word)
    (hin : word <:+: x) (new y : List α) :
    ∃ u w, x = u ++ (word ++ w) ∧ ¬word <:+: u ∧
      replaceFirst word new (x ++ y) = u ++ (new ++ (w ++ y)) := by
  obtain ⟨u, w, hx, hu, -⟩ := (replaceFirst_cases hword.ne_nil new x).resolve_left fun h => h.2 hin
  refine ⟨u, w, hx, hu, ?_⟩
  rw [hx, List.append_assoc, List.append_assoc]
  exact replaceFirst_own hne hword hu new (w ++ y)

theorem replaceFirst_place (hne : opening ≠ closing) (hword : Bracketed opening closing word)
    (new x y : List α) :
    replaceFirst word new (x ++ (word ++ y)) = x ++ (new ++ y) ∨
      ∃ u w, x = u ++ (word ++ w) ∧
        replaceFirst word new (x ++ (word ++ y)) = u ++ (new ++ (w ++ (word ++ y))) := by
  by_cases hx : word <:+: x
  · obtain ⟨u, w, hplace, -, hreplaced⟩ := replaceFirst_within hne hword hx new (word ++ y)
    exact .inr ⟨u, w, hplace, hreplaced⟩
  · exact .inl (replaceFirst_own hne hword hx new y)

-- ---------------------------------------------------------------------------
-- A word replaced in another place
-- ---------------------------------------------------------------------------

section Elsewhere

variable {F L f l b e u w z E : List α}

/-- If the text with `l` in the place of a word `L` begins as if `f` were `F`, it
was so before. -/
theorem begins_of_replaced (hne : opening ≠ closing) (hF : Bracketed opening closing F)
    (hL : Bracketed opening closing L) (hl : Foreign F L l)
    (heq : replaceFirst L l (u ++ (f ++ z)) = E)
    (hE : E = u ++ (F ++ e) ∨ ∃ a m, u = a ++ (L ++ m) ∧ E = a ++ (l ++ (m ++ (F ++ e)))) :
    ∃ y, f ++ z = F ++ y := by
  rcases replaceFirst_cases hL.ne_nil l (u ++ (f ++ z)) with ⟨hsame, habsent⟩ | ⟨s, t, hst, hbefore, hnew⟩
  · rw [hsame] at heq
    rcases hE with rfl | ⟨a, m, rfl, -⟩
    · exact ⟨e, List.append_cancel_left heq⟩
    · exact absurd ⟨a, m ++ (f ++ z), by simp only [List.append_assoc]⟩ habsent
  · rw [hnew] at heq
    rcases hE with rfl | ⟨a, m, rfl, rfl⟩
    · rcases List.append_eq_append_iff.mp heq with ⟨d, rfl, hlt⟩ | ⟨d, rfl, hFe⟩
      · -- `L` begins before `F` does: there `l` begins in the one text
        rw [List.append_assoc] at hst
        have hd := List.append_cancel_left hst
        cases d with
        | nil =>
          rw [List.nil_append] at hlt
          exact absurd hlt (hl.begins_ne hF.ne_nil fun c hc => .inl hc)
        | cons c d =>
          have hc : c ∈ L := by
            obtain ⟨inner, rfl, -⟩ := hL
            exact (List.cons.inj hd).1 ▸ List.mem_cons_self
          exact absurd hlt (hl.begins_ne (d := [c]) (List.cons_ne_nil _ _)
            fun c' hc' => .inr (List.mem_singleton.mp hc' ▸ hc))
      · rw [List.append_assoc] at hst
        have hfz := List.append_cancel_left hst
        rcases List.append_eq_append_iff.mp hFe with ⟨d', rfl, -⟩ | ⟨d', hF', hlt⟩
        · exact ⟨d' ++ (L ++ t), by rw [hfz, List.append_assoc]⟩
        · by_cases hd' : d' = []
          · subst hd'
            exact ⟨L ++ t, by rw [hfz, hF', List.append_nil]⟩
          · exact absurd hlt (hl.begins_ne hd' fun c hc => .inl (hF' ▸ List.mem_append_right d hc))
    · simp only [List.append_assoc] at hst
      rcases hL.apart hne hL hst with ⟨rfl, -, rfl⟩ | ⟨k, rfl, -⟩ | ⟨k, rfl, -⟩
      · exact ⟨e, List.append_cancel_left (List.append_cancel_left (List.append_cancel_left heq))⟩
      · exact absurd ⟨a, k, by rw [List.append_assoc]⟩ hbefore
      · rw [List.append_assoc, List.append_assoc] at heq
        exact absurd (List.append_cancel_left heq) (hl.begins_ne hL.ne_nil fun c hc => .inr hc)

theorem Bracketed.count (hF : Bracketed opening closing F) (hne : opening ≠ closing) :
    F.count opening = 1 := by
  obtain ⟨inner, rfl, hopening, -⟩ := hF
  rw [List.count_cons_self, List.count_append, List.count_eq_zero_of_not_mem hopening,
    List.count_singleton]
  simp [hne.symm]

theorem Bracketed.count_part (hF : Bracketed opening closing F) (hne : opening ≠ closing)
    (hsplit : F = f ++ e) (hf : f ≠ []) : f.count opening = 1 := by
  have hone := hF.count hne
  have hmem : opening ∈ f := by
    obtain ⟨inner, rfl, -⟩ := hF
    cases f with
    | nil => exact absurd rfl hf
    | cons c f => exact (List.cons.inj hsplit).1 ▸ List.mem_cons_self
  have hpos := List.count_pos_iff.mpr hmem
  rw [hsplit, List.count_append] at hone
  omega

section

variable (hne : opening ≠ closing) (hF : Bracketed opening closing F)
  (hL : Bracketed opening closing L) (hFL : F ≠ L) (hl : Foreign F L l) (hf : f ≠ [])
  (hfF : ¬F <:+: f)

include hne hF hL hFL hl hf hfF

theorem replaced_stray
    (hE : E = u ++ (F ++ z) ∨ ∃ p q, u ++ (F ++ z) = p ++ (L ++ q) ∧ E = p ++ (l ++ q)) :
    replaceFirst L l (u ++ (f ++ z)) ≠ E := by
  intro heq
  have hbegins : ∃ y, f ++ z = F ++ y := by
    rcases hE with rfl | ⟨p, q, hpq, rfl⟩
    · exact begins_of_replaced hne hF hL hl heq (.inl rfl)
    · rcases hF.apart hne hL hpq with ⟨-, hsame, -⟩ | ⟨m, rfl, rfl⟩ | ⟨m, rfl, rfl⟩
      · exact absurd hsame hFL
      · exact begins_of_replaced (e := m ++ (l ++ q)) hne hF hL hl heq
          (.inl (by simp only [List.append_assoc]))
      · exact begins_of_replaced hne hF hL hl heq (.inr ⟨p, m, rfl, rfl⟩)
  obtain ⟨r, hr, hpart⟩ := part_of_begins hfF hbegins
  -- `f` has the bracket of `F` but not its length
  have hcount := hF.count_part hne hpart hf
  have hlen : f.length < F.length := by
    rw [hpart, List.length_append]
    have := List.length_pos_iff.mpr hr
    omega
  have hFcount := hF.count hne
  have hLcount := hL.count hne
  have hlcount := List.count_eq_zero_of_not_mem (hl.notMem_opening hF)
  have hcounts := congrArg (List.count opening) heq
  have hlens := congrArg List.length heq
  rcases replaceFirst_cases hL.ne_nil l (u ++ (f ++ z)) with ⟨hsame, -⟩ | ⟨s, t, hst, -, hnew⟩
  · rw [hsame] at hcounts hlens
    rcases hE with rfl | ⟨p, q, hpq, rfl⟩
    · simp only [List.length_append] at hlens
      omega
    · have hpqcount := congrArg (List.count opening) hpq
      simp only [List.count_append] at hcounts hpqcount
      omega
  · have hstcount := congrArg (List.count opening) hst
    have hstlen := congrArg List.length hst
    rw [hnew] at hcounts hlens
    rcases hE with rfl | ⟨p, q, hpq, rfl⟩
    · simp only [List.count_append] at hcounts hstcount
      omega
    · have hpqlen := congrArg List.length hpq
      simp only [List.length_append] at hlens hstlen hpqlen
      omega

theorem replaced_swapped
    (hE : E = u ++ (F ++ (w ++ (f ++ b))) ∨
      (∃ p m, u ++ (F ++ w) = p ++ (L ++ m) ∧ E = p ++ (l ++ (m ++ (f ++ b)))) ∨
      ∃ m q, b = m ++ (L ++ q) ∧ E = u ++ (F ++ (w ++ (f ++ (m ++ (l ++ q)))))) :
    replaceFirst L l (u ++ (f ++ (w ++ (F ++ b)))) ≠ E := by
  intro heq
  have hbegins : ∃ y, f ++ (w ++ (F ++ b)) = F ++ y := by
    rcases hE with rfl | ⟨p, m, hpm, rfl⟩ | ⟨m, q, -, rfl⟩
    · exact begins_of_replaced hne hF hL hl heq (.inl rfl)
    · rcases hF.apart hne hL hpm with ⟨-, hsame, -⟩ | ⟨k, rfl, rfl⟩ | ⟨k, rfl, rfl⟩
      · exact absurd hsame hFL
      · exact begins_of_replaced (e := k ++ (l ++ (m ++ (f ++ b)))) hne hF hL hl heq
          (.inl (by simp only [List.append_assoc]))
      · exact begins_of_replaced (e := w ++ (f ++ b)) hne hF hL hl heq
          (.inr ⟨p, k, rfl, by simp only [List.append_assoc]⟩)
    · exact begins_of_replaced hne hF hL hl heq (.inl rfl)
  obtain ⟨r, hr, hpart⟩ := part_of_begins hfF hbegins
  have hclosing : closing ∉ f := hF.proper_prefix hne hpart hr
  have hends : ∀ x y, x ++ (F ++ b) ≠ y ++ (f ++ b) := fun x y hxy => by
    rw [← List.append_assoc, ← List.append_assoc] at hxy
    exact hF.ends_ne hf hclosing (List.append_cancel_right hxy)
  rcases hE with rfl | ⟨p, m, hpm, rfl⟩ | ⟨m, q, rfl, rfl⟩
  · rcases replaceFirst_cases hL.ne_nil l (u ++ (f ++ (w ++ (F ++ b)))) with
      ⟨hsame, -⟩ | ⟨s, t, hst, -, hnew⟩
    · rw [hsame] at heq
      refine hends (u ++ (f ++ w)) (u ++ (F ++ w)) ?_
      simpa only [List.append_assoc] using heq
    · rw [hnew] at heq
      have hcounts := congrArg (List.count opening) heq
      have hstcount := congrArg (List.count opening) hst
      have hLcount := hL.count hne
      have hlcount := List.count_eq_zero_of_not_mem (hl.notMem_opening hF)
      simp only [List.count_append] at hcounts hstcount
      omega
  · have hown : ∃ p' m', u ++ (f ++ (w ++ (F ++ b))) = p' ++ (L ++ (m' ++ (F ++ b))) := by
      rcases hF.apart hne hL hpm with ⟨-, hsame, -⟩ | ⟨k, rfl, rfl⟩ | ⟨k, rfl, rfl⟩
      · exact absurd hsame hFL
      · exact ⟨u ++ (f ++ k), m, by simp only [List.append_assoc]⟩
      · exact ⟨p, k ++ (f ++ w), by simp only [List.append_assoc]⟩
    obtain ⟨p', m', hplace⟩ := hown
    rw [hplace] at heq
    rcases replaceFirst_place hne hL l p' (m' ++ (F ++ b)) with hnew | ⟨s, k, -, hnew⟩
    · rw [hnew] at heq
      refine hends (p' ++ (l ++ m')) (p ++ (l ++ m)) ?_
      simpa only [List.append_assoc] using heq
    · rw [hnew] at heq
      refine hends (s ++ (l ++ (k ++ (L ++ m')))) (p ++ (l ++ m)) ?_
      simpa only [List.append_assoc] using heq
  · have hplace : u ++ (f ++ (w ++ (F ++ (m ++ (L ++ q))))) =
        u ++ (f ++ (w ++ (F ++ m))) ++ (L ++ q) := by
      simp only [List.append_assoc]
    rw [hplace] at heq
    rcases replaceFirst_place hne hL l (u ++ (f ++ (w ++ (F ++ m)))) q with hnew | ⟨s, k, -, hnew⟩
    · rw [hnew] at heq
      have hsame : u ++ (f ++ w) ++ F ++ (m ++ (l ++ q)) =
          u ++ (F ++ w) ++ f ++ (m ++ (l ++ q)) := by
        simpa only [List.append_assoc] using heq
      exact hF.ends_ne hf hclosing (List.append_cancel_right hsame)
    · rw [hnew] at heq
      have hsame : s ++ (l ++ k) ++ L ++ q = u ++ (F ++ (w ++ (f ++ m))) ++ l ++ q := by
        simpa only [List.append_assoc] using heq
      exact hL.ends_ne hl.1 (hl.notMem_closing hF) (List.append_cancel_right hsame)

end

end Elsewhere

-- ---------------------------------------------------------------------------
-- Substitution
-- ---------------------------------------------------------------------------

namespace Placeholders

variable (ph : Placeholders α ι) {value value' : ι → List α} {i j : ι}

def at? (s : List α) : Option ι := ph.fields.find? fun i => (ph.name i).isPrefixOf s

/-- Past `skip` symbols. -/
def fill (value : ι → List α) : Nat → List α → List α
  | _, [] => []
  | skip + 1, _ :: s => fill value skip s
  | 0, c :: s =>
    match ph.at? (c :: s) with
    | some i => value i ++ fill value ((ph.name i).length - 1) s
    | none => c :: fill value 0 s

/-- A value for each name, all at once. -/
def substitute (value : ι → List α) (s : List α) : List α := ph.fill value 0 s

theorem at?_none (h : ∀ i, ¬ph.name i <+: s) : ph.at? s = none := by
  refine List.find?_eq_none.mpr fun i _ => ?_
  exact mt List.isPrefixOf_iff_prefix.mp (h i)

theorem at?_name (i : ι) (s : List α) : ph.at? (ph.name i ++ s) = some i := by
  cases hfind : ph.at? (ph.name i ++ s) with
  | none =>
    have hnot := List.find?_eq_none.mp hfind i (ph.complete i)
    exact absurd (List.isPrefixOf_iff_prefix.mpr ⟨s, rfl⟩) hnot
  | some j =>
    rw [at?] at hfind
    have hprefix := List.find?_some hfind
    obtain ⟨t, ht⟩ := List.isPrefixOf_iff_prefix.mp hprefix
    rw [ph.inj j i ((ph.bracketed j).prefix_inj (ph.bracketed i) ht).1]

theorem fill_skip (skip : Nat) (s : List α) : ph.fill value skip s = ph.substitute value (s.drop skip) := by
  induction skip generalizing s with
  | zero => rfl
  | succ skip ih =>
    cases s with
    | nil => rfl
    | cons c s => exact ih s

theorem substitute_name (i : ι) (s : List α) :
    ph.substitute value (ph.name i ++ s) = value i ++ ph.substitute value s := by
  have hat := ph.at?_name i s
  obtain ⟨inner, hname, -⟩ := ph.bracketed i
  rw [hname] at hat ⊢
  have hdrop : (inner ++ [ph.closing] ++ s).drop ((ph.name i).length - 1) = s := by
    rw [hname, List.length_cons, Nat.add_sub_cancel, List.drop_left]
  rw [List.cons_append, substitute, fill, ← List.cons_append, hat]
  simp only [fill_skip, hdrop]

theorem substitute_plain (h : ∀ i, ¬ph.name i <+: c :: s) :
    ph.substitute value (c :: s) = c :: ph.substitute value s := by
  rw [substitute, fill, ph.at?_none h]
  rfl

theorem substitute_self (s : List α) : ph.substitute ph.name s = s := by
  induction s using ph.induction with
  | nil => rfl
  | name i s ih => rw [substitute_name, ih]
  | plain c s h ih => rw [ph.substitute_plain h, ih]

theorem substitute_append (s : List α) (i : ι) (t : List α) :
    ph.substitute value (s ++ (ph.name i ++ t)) =
      ph.substitute value s ++ (value i ++ ph.substitute value t) := by
  induction s using ph.induction with
  | nil => exact ph.substitute_name i t
  | name j s ih => rw [List.append_assoc, substitute_name, substitute_name, ih, List.append_assoc]
  | plain c s h ih =>
    have hplain : ∀ j, ¬ph.name j <+: c :: (s ++ (ph.name i ++ t)) := by
      rintro j ⟨y, hy⟩
      rcases (ph.bracketed j).after ph.ne (ph.bracketed i) (d := c :: s) hy with ⟨hnil, -⟩ | ⟨m, hm, -⟩
      · cases hnil
      · exact h j ⟨m, hm.symm⟩
    rw [List.cons_append, ph.substitute_plain hplain, ph.substitute_plain h, ih, List.cons_append]

theorem substitute_congr (h : ∀ i, ph.name i <:+: s → value i = value' i) :
    ph.substitute value s = ph.substitute value' s := by
  induction s using ph.induction with
  | nil => rfl
  | name i s ih =>
    rw [substitute_name, substitute_name, h i ⟨[], s, rfl⟩,
      ih fun j hj => h j (hj.trans ⟨ph.name i, [], by rw [List.append_nil]⟩)]
  | plain c s hplain ih =>
    rw [ph.substitute_plain hplain, ph.substitute_plain hplain,
      ih fun j hj => h j (hj.trans (List.suffix_cons c s).isInfix)]

-- ---------------------------------------------------------------------------
-- One name after the other
-- ---------------------------------------------------------------------------

/-- The name's first place in the text filled in is its own. -/
def OwnFirst (value : ι → List α) (i : ι) (s : List α) : Prop :=
  (∀ x y, s = x ++ (ph.name i ++ y) → ¬ph.name i <:+: ph.substitute value x) ∧
    (¬ph.name i <:+: s → ¬ph.name i <:+: ph.substitute value s)

theorem substitute_update [DecidableEq ι] (h : ¬ph.name i <:+: s) (new : List α) :
    ph.substitute (update value i new) s = ph.substitute value s := by
  refine ph.substitute_congr fun j hj => ?_
  have hne : j ≠ i := by
    rintro rfl
    exact h hj
  exact update_of_ne hne new value

theorem replaceFirst_fill [DecidableEq ι] (honce : ph.Once i s) (hown : ph.OwnFirst value i s)
    (hi : value i = ph.name i) (new : List α) :
    replaceFirst (ph.name i) new (ph.substitute value s) =
      ph.substitute (update value i new) s := by
  by_cases hin : ph.name i <:+: s
  · obtain ⟨x, y, hs⟩ := hin
    rw [List.append_assoc] at hs
    obtain ⟨hx, hy⟩ := honce.around ph hs.symm
    rw [← hs, substitute_append, substitute_append, hi, update_self, ph.substitute_update hx,
      ph.substitute_update hy]
    exact replaceFirst_own ph.ne (ph.bracketed i) (hown.1 x y hs.symm) new _
  · rw [replaceFirst_absent (ph.bracketed i).ne_nil (hown.2 hin), ph.substitute_update hin]

/-- A text that makes no name, wherever it is put. -/
structure Inert (v : List α) : Prop where
  opening : ph.opening ∉ v
  closing : ph.closing ∉ v
  apart : ∀ i, ¬v <:+: ph.name i

theorem ending_own (hvalue : ∀ i, value i = ph.name i ∨ ph.Inert (value i))
    (ht : ∃ j d, ph.name j = d ++ (t ++ [ph.closing])) (hopening : ph.opening ∉ t)
    (h : t ++ [ph.closing] <+: ph.substitute value s) : t ++ [ph.closing] <+: s := by
  induction s using ph.induction generalizing t with
  | nil => exact h
  | name i s _ =>
    rw [substitute_name] at h
    obtain ⟨z, hz⟩ := h
    rw [List.append_assoc] at hz
    rcases hvalue i with hname | hinert
    · -- the bracket that opens the name is not in `t` and does not close it
      have hhead : (t ++ ([ph.closing] ++ z)).head? = some ph.opening := by
        rw [hz, hname]
        exact (ph.bracketed i).head _
      cases t with
      | nil => exact absurd (Option.some.inj hhead).symm ph.ne
      | cons c t => exact absurd ((Option.some.inj hhead) ▸ List.mem_cons_self) hopening
    · obtain ⟨j, d, hj⟩ := ht
      have hnot : ∀ y, t = value i ++ y → False := fun y hy =>
        hinert.apart j ⟨d, y ++ [ph.closing], by rw [hj, hy]; simp only [List.append_assoc]⟩
      rcases List.append_eq_append_iff.mp hz with ⟨y, hv, hy⟩ | ⟨y, hv, -⟩
      · cases y with
        | nil => exact (hnot [] (by rw [hv, List.append_nil, List.append_nil])).elim
        | cons c y =>
          obtain rfl := (List.cons.inj hy).1
          exact absurd (hv ▸ List.mem_append_right t List.mem_cons_self) hinert.closing
      · exact (hnot y hv).elim
  | plain c s hplain ih =>
    rw [ph.substitute_plain hplain] at h
    obtain ⟨z, hz⟩ := h
    cases t with
    | nil => exact ⟨s, congrArg (· :: s) (List.cons.inj hz).1⟩
    | cons e t =>
      obtain ⟨rfl, hrest⟩ := List.cons.inj hz
      obtain ⟨j, d, hj⟩ := ht
      obtain ⟨y, hy⟩ := ih ⟨j, d ++ [e], by rw [hj]; simp⟩
        (mt (List.mem_cons_of_mem _) hopening) ⟨z, hrest⟩
      exact ⟨y, congrArg (e :: ·) hy⟩

/-- Inert values make no names. -/
theorem names_own (hvalue : ∀ i, value i = ph.name i ∨ ph.Inert (value i))
    (h : ph.name j <:+: ph.substitute value s) : value j = ph.name j ∧ ph.name j <:+: s := by
  induction s using ph.induction with
  | nil => exact absurd (List.eq_nil_of_infix_nil h) (ph.bracketed j).ne_nil
  | name i s ih =>
    have hrest : ph.name j <:+: ph.substitute value s →
        value j = ph.name j ∧ ph.name j <:+: ph.name i ++ s := fun hin =>
      ⟨(ih hin).1, (ih hin).2.trans ⟨ph.name i, [], by rw [List.append_nil]⟩⟩
    rw [substitute_name] at h
    obtain ⟨a, b, hab⟩ := h
    rw [List.append_assoc] at hab
    rcases hvalue i with hname | hinert
    · replace hab : a ++ (ph.name j ++ b) = [] ++ (ph.name i ++ ph.substitute value s) := hname ▸ hab
      rcases (ph.bracketed j).apart ph.ne (ph.bracketed i) hab with
        ⟨-, heq, -⟩ | ⟨m, hm, -⟩ | ⟨m, -, hm⟩
      · obtain rfl := ph.inj j i heq
        exact ⟨hname, [], s, rfl⟩
      · exact absurd (List.append_eq_nil_iff.mp (List.append_eq_nil_iff.mp hm.symm).2).1
          (ph.bracketed j).ne_nil
      · exact hrest ⟨m, b, by rw [hm, List.append_assoc]⟩
    · rcases List.append_eq_append_iff.mp hab with ⟨y, hv, hy⟩ | ⟨y, -, hy⟩
      · cases y with
        | nil => exact hrest ⟨[], b, hy⟩
        | cons c y =>
          have hhead := (ph.bracketed j).head b
          rw [hy] at hhead
          obtain rfl := Option.some.inj hhead
          exact absurd (hv ▸ List.mem_append_right a List.mem_cons_self) hinert.opening
      · exact hrest ⟨y, b, by rw [hy, List.append_assoc]⟩
  | plain c s hplain ih =>
    rw [ph.substitute_plain hplain] at h
    rcases List.infix_cons_iff.mp h with ⟨z, hz⟩ | hin
    · obtain ⟨inner, hname, hopening, -⟩ := ph.bracketed j
      rw [hname] at hz
      obtain ⟨rfl, hrest⟩ := List.cons.inj hz
      obtain ⟨y, hy⟩ := ph.ending_own hvalue ⟨j, [ph.opening], hname⟩ hopening ⟨z, hrest⟩
      exact absurd ⟨y, by rw [hname, List.cons_append, hy]⟩ (hplain j)
    · exact ⟨(ih hin).1, (ih hin).2.trans (List.suffix_cons c s).isInfix⟩

/-- Where all values so far are inert, every name is replaced in its own place. -/
theorem ownFirst_inert (hvalue : ∀ i, value i = ph.name i ∨ ph.Inert (value i))
    (honce : ph.Once i s) : ph.OwnFirst value i s :=
  ⟨fun _ _ hs hin => (honce.around ph hs).1 (ph.names_own hvalue hin).2,
    fun hnot hin => hnot (ph.names_own hvalue hin).2⟩

/-- A value that does not begin with a bracket shows where it was put. -/
theorem ownFirst_of_replaceFirst [DecidableEq ι] (honce : ph.Once i s)
    (hi : value i = ph.name i) (hnew : new ≠ []) (hopening : ph.opening ∉ new)
    (heq : replaceFirst (ph.name i) new (ph.substitute value s) =
      ph.substitute (update value i new) s) : ph.OwnFirst value i s := by
  -- otherwise a bracket stands in the one text where `new` begins in the other
  have hshow : ∀ u t z, u ++ (new ++ t) ≠ u ++ (ph.name i ++ z) := by
    intro u t z h
    have hhead := (ph.bracketed i).head z
    rw [← List.append_cancel_left h] at hhead
    cases new with
    | nil => exact hnew rfl
    | cons c new => exact hopening ((Option.some.inj hhead) ▸ List.mem_cons_self)
  constructor
  · rintro x y rfl hin
    obtain ⟨hx, hy⟩ := honce.around ph rfl
    obtain ⟨u, w, ht, -, hreplace⟩ :=
      replaceFirst_within ph.ne (ph.bracketed i) hin new (ph.name i ++ ph.substitute value y)
    rw [substitute_append, substitute_append, hi, update_self, hreplace, ph.substitute_update hx, ht,
      List.append_assoc, List.append_assoc] at heq
    exact hshow _ _ _ heq
  · intro hnot hin
    obtain ⟨u, w, ht, -, hreplace⟩ := replaceFirst_within ph.ne (ph.bracketed i) hin new []
    rw [List.append_nil] at hreplace
    rw [hreplace, ph.substitute_update hnot, ht] at heq
    exact hshow _ _ _ heq

end Placeholders

end MudouHttp.Lib
