import Mathlib.Data.List.Nodup
import Mathlib.Logic.Function.Basic

/-!
# Linked lists in a memory, and who holds which node

`Segment mem nil head l stop`: from `head` the links of `mem` lead through the
nodes `l`, in order, to `stop`. `Apart lists`: no node is held twice, in one
list or in two. `moved` takes nodes from one holder to another; `Apart.move`
is the rule for it.
-/

namespace MudouHttp.Lib

open Function (update update_self update_of_ne)

variable {α P : Type} {mem mem' : α → α} {nil head stop : α}

def Segment (mem : α → α) (nil head : α) : List α → α → Prop
  | [], stop => head = stop
  | a :: l, stop => head = a ∧ a ≠ nil ∧ Segment mem nil (mem a) l stop

def Chain (mem : α → α) (nil head : α) (l : List α) : Prop := Segment mem nil head l nil

theorem Segment.frame (h : Segment mem nil head l stop) (hm : ∀ a ∈ l, mem' a = mem a) :
    Segment mem' nil head l stop := by
  induction l generalizing head with
  | nil => exact h
  | cons a l ih =>
    obtain ⟨rfl, ha, hl⟩ := h
    refine ⟨rfl, ha, ?_⟩
    rw [hm head List.mem_cons_self]
    exact ih hl fun b hb => hm b (List.mem_cons_of_mem _ hb)

theorem segment_append : Segment mem nil head (l ++ l') stop ↔
    ∃ mid, Segment mem nil head l mid ∧ Segment mem nil mid l' stop := by
  induction l generalizing head with
  | nil => exact ⟨fun h => ⟨head, rfl, h⟩, fun ⟨mid, hm, h⟩ => (show head = mid from hm) ▸ h⟩
  | cons a l ih =>
    constructor
    · rintro ⟨rfl, ha, h⟩
      obtain ⟨mid, hl, hr⟩ := ih.mp h
      exact ⟨mid, ⟨rfl, ha, hl⟩, hr⟩
    · rintro ⟨mid, ⟨rfl, ha, hl⟩, hr⟩
      exact ⟨rfl, ha, ih.mpr ⟨mid, hl, hr⟩⟩

theorem Segment.ne_nil (h : Segment mem nil head l stop) (ha : a ∈ l) : a ≠ nil := by
  induction l generalizing head with
  | nil => cases ha
  | cons b l ih =>
    obtain ⟨rfl, hb, hl⟩ := h
    rcases List.mem_cons.mp ha with rfl | ha
    · exact hb
    · exact ih hl ha

theorem Chain.unique (h : Chain mem nil head l) (h' : Chain mem nil head l') : l = l' := by
  induction l generalizing head l' with
  | nil =>
    cases l' with
    | nil => rfl
    | cons a l' =>
      obtain ⟨rfl, ha, -⟩ := h'
      exact absurd h ha
  | cons a l ih =>
    obtain ⟨rfl, ha, hl⟩ := h
    cases l' with
    | nil => exact absurd h' ha
    | cons b l' =>
      obtain ⟨rfl, -, hl'⟩ := h'
      rw [ih hl hl']

theorem Chain.of_nil (h : Chain mem nil nil l) : l = [] :=
  h.unique (show Chain mem nil nil [] from rfl)

theorem Chain.cons_of_ne (h : Chain mem nil head l) (hne : head ≠ nil) :
    ∃ rest, l = head :: rest ∧ Chain mem nil (mem head) rest := by
  cases l with
  | nil => exact absurd h hne
  | cons a rest =>
    obtain ⟨rfl, -, hrest⟩ := h
    exact ⟨rest, rfl, hrest⟩

theorem Chain.head_ne (h : Chain mem nil head l) (hne : l ≠ []) : head ≠ nil := by
  cases l with
  | nil => exact absurd rfl hne
  | cons a l => exact h.1 ▸ h.2.1

/-- The last node of a segment can be linked to another place. -/
theorem Segment.relink [DecidableEq α] (h : Segment mem nil head (l ++ [a]) stop) (ha : a ∉ l) (stop' : α) :
    Segment (update mem a stop') nil head (l ++ [a]) stop' := by
  obtain ⟨mid, hl, rfl, hne, -⟩ := segment_append.mp h
  have hframe : ∀ b ∈ l, update mem mid stop' b = mem b := by
    intro b hb
    refine update_of_ne ?_ _ _
    rintro rfl
    exact ha hb
  exact segment_append.mpr ⟨mid, hl.frame hframe, rfl, hne, update_self _ _ _⟩

-- ---------------------------------------------------------------------------
-- Holders
-- ---------------------------------------------------------------------------

variable [DecidableEq P]

structure Apart (lists : P → List α) : Prop where
  nodup : ∀ p, (lists p).Nodup
  once : ∀ p q a, a ∈ lists p → a ∈ lists q → p = q

/-- `p` and `q` hold `l` and `l'` from now on. -/
def moved (lists : P → List α) (p : P) (l : List α) (q : P) (l' : List α) : P → List α :=
  update (update lists p l) q l'

variable {lists : P → List α} {p q : P}

theorem moved_left (hpq : p ≠ q) : moved lists p l q l' p = l :=
  (update_of_ne hpq _ _).trans (update_self _ _ _)

theorem moved_right : moved lists p l q l' q = l' := update_self _ _ _

theorem moved_other (hp : r ≠ p) (hq : r ≠ q) : moved lists p l q l' r = lists r :=
  (update_of_ne hq _ _).trans (update_of_ne hp _ _)

theorem moved_twice {p' q' : P} (hp : r ≠ p) (hq : r ≠ q) (hp' : r ≠ p') (hq' : r ≠ q') :
    moved (moved lists p l q l') p' m q' m' r = lists r := by
  rw [moved_other hp' hq', moved_other hp hq]

theorem Apart.move (h : Apart lists) (hpq : p ≠ q) (hn : (l ++ l').Nodup)
    (hold : ∀ a ∈ l ++ l', (a ∈ lists p ∨ a ∈ lists q) ∨ ∀ r, a ∉ lists r) :
    Apart (moved lists p l q l') := by
  obtain ⟨hl, hl', hdisjoint⟩ := List.nodup_append.mp hn
  have hmem : ∀ r a, a ∈ moved lists p l q l' r →
      (r = p ∧ a ∈ l) ∨ (r = q ∧ a ∈ l') ∨ (r ≠ p ∧ r ≠ q ∧ a ∈ lists r) := by
    intro r a ha
    by_cases hp : r = p
    · subst hp
      rw [moved_left hpq] at ha
      exact .inl ⟨rfl, ha⟩
    · by_cases hq : r = q
      · subst hq
        rw [moved_right] at ha
        exact .inr (.inl ⟨rfl, ha⟩)
      · rw [moved_other hp hq] at ha
        exact .inr (.inr ⟨hp, hq, ha⟩)
  have hother : ∀ r a, a ∈ l ++ l' → r ≠ p → r ≠ q → a ∉ lists r := by
    intro r a ha hp hq har
    rcases hold a ha with (hap | haq) | hnew
    · exact hp (h.once r p a har hap)
    · exact hq (h.once r q a har haq)
    · exact hnew r har
  refine ⟨fun r => ?_, fun r r' a hr hr' => ?_⟩
  · by_cases hp : r = p
    · subst hp
      rwa [moved_left hpq]
    · by_cases hq : r = q
      · subst hq
        rwa [moved_right]
      · rw [moved_other hp hq]
        exact h.nodup r
  · rcases hmem r a hr with ⟨rfl, ha⟩ | ⟨rfl, ha⟩ | ⟨hp, hq, ha⟩ <;>
      rcases hmem r' a hr' with ⟨rfl, ha'⟩ | ⟨rfl, ha'⟩ | ⟨hp', hq', ha'⟩
    · rfl
    · exact absurd rfl (hdisjoint a ha a ha')
    · exact absurd ha' (hother r' a (List.mem_append_left _ ha) hp' hq')
    · exact absurd rfl (hdisjoint a ha' a ha)
    · rfl
    · exact absurd ha' (hother r' a (List.mem_append_right _ ha) hp' hq')
    · exact absurd ha (hother r a (List.mem_append_left _ ha') hp hq)
    · exact absurd ha (hother r a (List.mem_append_right _ ha') hp hq)
    · exact h.once r r' a ha ha'

/-- Nothing is lost and nothing new where two holders share out what they had. -/
theorem Apart.share (h : Apart lists) (hpq : p ≠ q) (hperm : (l ++ l').Perm (lists p ++ lists q)) :
    Apart (moved lists p l q l') := by
  have hn : (lists p ++ lists q).Nodup := List.nodup_append.mpr ⟨h.nodup p, h.nodup q, by
    rintro a ha b hb rfl
    exact hpq (h.once p q a ha hb)⟩
  exact h.move hpq (hperm.nodup_iff.mpr hn) fun a ha =>
    .inl (List.mem_append.mp (hperm.mem_iff.mp ha))

theorem Apart.set (h : Apart lists) (hn : l.Nodup)
    (hold : ∀ a ∈ l, a ∈ lists p ∨ ∀ r, a ∉ lists r) : Apart (update lists p l) := by
  have hother : ∀ r a, r ≠ p → a ∈ lists r → a ∉ l := by
    intro r a hr ha hl
    rcases hold a hl with hp | hnew
    · exact hr (h.once r p a ha hp)
    · exact hnew r ha
  refine ⟨fun r => ?_, fun r r' a hr hr' => ?_⟩
  · by_cases hp : r = p
    · subst hp
      rwa [update_self]
    · rw [update_of_ne hp]
      exact h.nodup r
  · by_cases hp : r = p <;> by_cases hp' : r' = p
    · exact hp.trans hp'.symm
    · subst hp
      rw [update_self] at hr
      rw [update_of_ne hp'] at hr'
      exact absurd hr (hother r' a hp' hr')
    · subst hp'
      rw [update_of_ne hp] at hr
      rw [update_self] at hr'
      exact absurd hr' (hother r a hp hr)
    · rw [update_of_ne hp] at hr
      rw [update_of_ne hp'] at hr'
      exact h.once r r' a hr hr'

theorem held_moved (hpq : p ≠ q) (hkeep : a ∈ lists p ∨ a ∈ lists q → a ∈ l ∨ a ∈ l')
    (h : ∃ r, a ∈ lists r) : ∃ r, a ∈ moved lists p l q l' r := by
  have hnew : a ∈ l ∨ a ∈ l' → ∃ r, a ∈ moved lists p l q l' r := by
    rintro (ha | ha)
    · exact ⟨p, by rwa [moved_left hpq]⟩
    · exact ⟨q, by rwa [moved_right]⟩
  obtain ⟨r, hr⟩ := h
  by_cases hp : r = p
  · exact hnew (hkeep (.inl (hp ▸ hr)))
  · by_cases hq : r = q
    · exact hnew (hkeep (.inr (hq ▸ hr)))
    · exact ⟨r, by rwa [moved_other hp hq]⟩

/-- What two holders have after they have shared out what they had and taken in what is new. -/
theorem held_taken_iff (hpq : p ≠ q)
    (hshare : a ∈ l ∨ a ∈ l' ↔ (a ∈ lists p ∨ a ∈ lists q) ∨ new) :
    (∃ r, a ∈ moved lists p l q l' r) ↔ (∃ r, a ∈ lists r) ∨ new := by
  have htaken : a ∈ l ∨ a ∈ l' → ∃ r, a ∈ moved lists p l q l' r := by
    rintro (ha | ha)
    · exact ⟨p, by rwa [moved_left hpq]⟩
    · exact ⟨q, by rwa [moved_right]⟩
  constructor
  · rintro ⟨r, hr⟩
    by_cases hp : r = p
    · subst hp
      rw [moved_left hpq] at hr
      exact (hshare.mp (.inl hr)).imp_left (Or.elim · (⟨_, ·⟩) (⟨_, ·⟩))
    · by_cases hq : r = q
      · subst hq
        rw [moved_right] at hr
        exact (hshare.mp (.inr hr)).imp_left (Or.elim · (⟨_, ·⟩) (⟨_, ·⟩))
      · rw [moved_other hp hq] at hr
        exact .inl ⟨r, hr⟩
  · rintro (hold | hnew)
    · exact held_moved hpq (fun ha => hshare.mpr (.inl ha)) hold
    · exact htaken (hshare.mpr (.inr hnew))

end MudouHttp.Lib
