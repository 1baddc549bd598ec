import Mathlib.Order.Lattice

/-!
# Binary heaps

A complete binary tree in an array: the children of position `i` are `2 * i + 1`
and `2 * i + 2`. What stands at a position counts by its key only. One key may
be out of order while it sinks (`Sinking`) or rises (`Rising`); every exchange
moves it on, and where it stops the order is whole.
-/

namespace MudouHttp.Lib.Heaps

-- ---------------------------------------------------------------------------
-- The tree
-- ---------------------------------------------------------------------------

def parent (c : Nat) : Nat := (c - 1) / 2

theorem parent_left (i : Nat) : parent (2 * i + 1) = i := by
  unfold parent
  omega

theorem parent_right (i : Nat) : parent (2 * i + 2) = i := by
  unfold parent
  omega

theorem parent_lt (h : 0 < c) : parent c < c := by
  unfold parent
  omega

theorem child_cases (h : 0 < c) : c = 2 * parent c + 1 ∨ c = 2 * parent c + 2 := by
  unfold parent
  omega

inductive Within (a : Nat) : Nat → Prop
  | root : Within a a
  | child : 0 < c → Within a (parent c) → Within a c

theorem Within.le (h : Within a d) : a ≤ d := by
  induction h with
  | root => exact Nat.le_refl a
  | child hc _ ih => exact Nat.le_trans ih (Nat.le_of_lt (parent_lt hc))

theorem Within.of_parent (hc : 0 < c) (ha : parent c = a) : Within a c :=
  .child hc (ha ▸ .root)

theorem Within.up (h : Within a d) (hne : d ≠ a) : 0 < d ∧ Within a (parent d) := by
  cases h with
  | root => exact absurd rfl hne
  | child hc hp => exact ⟨hc, hp⟩

theorem Within.trans (h : Within a b) (h' : Within b d) : Within a d := by
  induction h' with
  | root => exact h
  | child hc _ ih => exact .child hc ih

theorem within_zero (d : Nat) : Within 0 d := by
  induction d using Nat.strongRecOn with
  | ind d ih =>
    rcases Nat.eq_zero_or_pos d with rfl | hd
    · exact .root
    · exact .child hd (ih _ (parent_lt hd))

-- ---------------------------------------------------------------------------
-- The order
-- ---------------------------------------------------------------------------

variable {β : Type} [LinearOrder β] {key key' : Nat → β}

/-- Among the first `n` positions each parent with the property comes before its children. -/
def Ordered (key : Nat → β) (n : Nat) (P : Nat → Prop) : Prop :=
  ∀ c, 0 < c → c < n → P (parent c) → key (parent c) ≤ key c

def MinHeap (key : Nat → β) (n : Nat) : Prop := Ordered key n fun _ => True

theorem MinHeap.pair (h : MinHeap key n) (hc : 0 < c) (hn : c < n) : key (parent c) ≤ key c :=
  h c hc hn trivial

theorem MinHeap.within (h : MinHeap key n) (hw : Within a d) (hn : d < n) : key a ≤ key d := by
  induction hw with
  | root => exact le_refl _
  | child hc _ ih => exact (ih (Nat.lt_trans (parent_lt hc) hn)).trans (h.pair hc hn)

theorem MinHeap.root_le (h : MinHeap key n) (hn : d < n) : key 0 ≤ key d := h.within (within_zero d) hn

theorem MinHeap.congr (h : MinHeap key n) (hsame : ∀ p, p < n → key' p = key p) : MinHeap key' n := by
  intro c hc hcn _
  rw [hsame c hcn, hsame _ (Nat.lt_trans (parent_lt hc) hcn)]
  exact h.pair hc hcn

/-- A heap, but for the key at `i` and those above it. -/
def ExceptAbove (key : Nat → β) (n i : Nat) : Prop :=
  ∀ a d, Within a d → d < n → d ≠ i → key a ≤ key d

/-- A heap, but for the key at `i`. -/
def Loose (key : Nat → β) (n i : Nat) : Prop :=
  ∀ a d, Within a d → d < n → a ≠ i → d ≠ i → key a ≤ key d

theorem MinHeap.loose (h : MinHeap key n) (hsame : ∀ p, p ≠ i → p < n → key' p = key p) :
    Loose key' n i := by
  intro a d hw hd ha hne
  rw [hsame a ha (Nat.lt_of_le_of_lt hw.le hd), hsame d hne hd]
  exact h.within hw hd

theorem Loose.below (h : Loose key n i) : Ordered key n fun p => Within i p ∧ p ≠ i := by
  rintro c hc hn ⟨hw, hne⟩
  have hlt := parent_lt hc
  have hle := hw.le
  exact h _ c (.of_parent hc rfl) hn hne (by omega)

theorem MinHeap.push (h : MinHeap key n) : ExceptAbove key (n + 1) n := fun _ _ hw hd hne =>
  h.within hw (Nat.lt_of_le_of_ne (Nat.le_of_lt_succ hd) hne)

/-- A subtree in order, below a parent that comes before its root. -/
theorem MinHeap.of_subtree (hsub : Ordered key n (Within a))
    (hout : ∀ c, 0 < c → c < n → ¬Within a c → key (parent c) ≤ key c)
    (htop : 0 < a → key (parent a) ≤ key a) : MinHeap key n := by
  intro c hc hn _
  by_cases hw : Within a c
  · by_cases hca : c = a
    · subst hca
      exact htop hc
    · exact hsub c hc hn (hw.up hca).2
  · exact hout c hc hn hw

structure Swapped (key key' : Nat → β) (i j : Nat) : Prop where
  left : key' i = key j
  right : key' j = key i
  other : ∀ p, p ≠ i → p ≠ j → key' p = key p

-- ---------------------------------------------------------------------------
-- Sinking
-- ---------------------------------------------------------------------------

structure LeastChild (key : Nat → β) (n i j : Nat) : Prop where
  pos : 0 < j
  lt : j < n
  parent : parent j = i
  least : ∀ c, 0 < c → c < n → Heaps.parent c = i → key j ≤ key c

/-- In the subtree of `a` only the key at `i` may come behind one of its children. -/
structure Sinking (key : Nat → β) (n a i : Nat) : Prop where
  within : Within a i
  ordered : Ordered key n fun p => Within a p ∧ p ≠ i
  across : i ≠ a → ∀ c, 0 < c → c < n → parent c = i → key (parent i) ≤ key c

theorem Sinking.start (h : Ordered key n fun p => Within a p ∧ p ≠ a) : Sinking key n a a :=
  ⟨.root, h, fun hne => absurd rfl hne⟩

theorem Sinking.stop (h : Sinking key n a i)
    (hi : ∀ c, 0 < c → c < n → parent c = i → key i ≤ key c) : Ordered key n (Within a) := by
  intro c hc hn hw
  by_cases hp : parent c = i
  · rw [hp]
    exact hi c hc hn hp
  · exact h.ordered c hc hn ⟨hw, hp⟩

theorem Sinking.swap (h : Sinking key n a i) (hj : LeastChild key n i j) (hle : key j ≤ key i)
    (hs : Swapped key key' i j) : Sinking key' n a j := by
  have hij : i < j := hj.parent ▸ parent_lt hj.pos
  have hwj : Within a j := .child hj.pos (hj.parent ▸ h.within)
  refine ⟨hwj, ?_, ?_⟩
  · rintro c hc hn ⟨hw, hpj⟩
    have hlt := parent_lt hc
    by_cases hpi : parent c = i
    · -- the child that went up comes before the one that stayed
      rw [hpi, hs.left]
      by_cases hcj : c = j
      · rw [hcj, hs.right]
        exact hle
      · rw [hs.other c (by omega) hcj]
        exact hj.least c hc hn hpi
    · rw [hs.other _ hpi hpj]
      by_cases hci : c = i
      · subst hci
        rw [hs.left]
        have hwle := hw.le
        exact h.across (by omega) j hj.pos hj.lt hj.parent
      · have hcj : c ≠ j := fun hcj => hpi (hcj ▸ hj.parent)
        rw [hs.other c hci hcj]
        exact h.ordered c hc hn ⟨hw, hpi⟩
  · intro _ c hc hn hpc
    have hjc : j < c := hpc ▸ parent_lt hc
    rw [hj.parent, hs.left, hs.other c (by omega) (by omega), ← hpc]
    exact h.ordered c hc hn ⟨hpc ▸ hwj, by omega⟩

-- ---------------------------------------------------------------------------
-- Rising
-- ---------------------------------------------------------------------------

/-- Only the key at `i` may come before its parent. -/
structure Rising (key : Nat → β) (n i : Nat) : Prop where
  ordered : ∀ c, 0 < c → c < n → c ≠ i → key (parent c) ≤ key c
  across : 0 < i → ∀ c, 0 < c → c < n → parent c = i → key (parent i) ≤ key c

theorem ExceptAbove.rising (h : ExceptAbove key n i) : Rising key n i where
  ordered := fun _ hc hn hne => h _ _ (.of_parent hc rfl) hn hne
  across := fun hi c hc hn hp => by
    have hlt := parent_lt hc
    have hw : Within (parent i) c := .child hc (hp.symm ▸ .of_parent hi rfl)
    exact h _ c hw hn (by omega)

theorem Loose.rising (h : Loose key n i)
    (hi : ∀ c, 0 < c → c < n → parent c = i → key i ≤ key c) : Rising key n i where
  ordered := fun c hc hn hne => by
    by_cases hp : parent c = i
    · rw [hp]
      exact hi c hc hn hp
    · exact h _ c (.of_parent hc rfl) hn hp hne
  across := fun hpos c hc hn hp => by
    have hlt := parent_lt hpos
    have hclt := parent_lt hc
    exact h _ c (.child hc (hp.symm ▸ .of_parent hpos rfl)) hn (by omega) (by omega)

theorem Rising.stop (h : Rising key n i) (hi : key (parent i) ≤ key i) : MinHeap key n := by
  intro c hc hn _
  by_cases hci : c = i
  · rw [hci]
    exact hi
  · exact h.ordered c hc hn hci

theorem Rising.swap (h : Rising key n i) (hi : 0 < i) (hle : key i ≤ key (parent i))
    (hs : Swapped key key' i (parent i)) : Rising key' n (parent i) := by
  have hlt := parent_lt hi
  constructor
  · intro c hc hn hne
    by_cases hci : c = i
    · rw [hci, hs.right, hs.left]
      exact hle
    · rw [hs.other c hci hne]
      by_cases hpi : parent c = i
      · rw [hpi, hs.left]
        exact h.across hi c hc hn hpi
      · by_cases hpp : parent c = parent i
        · rw [hpp, hs.right]
          exact hle.trans (hpp ▸ h.ordered c hc hn hci)
        · rw [hs.other _ hpi hpp]
          exact h.ordered c hc hn hci
  · intro hj c hc hn hp
    have hpc := parent_lt hc
    have hjlt := parent_lt hj
    have hgrand := h.ordered _ hj (by omega) (Nat.ne_of_lt hlt)
    rw [hs.other (parent (parent i)) (by omega) (by omega)]
    by_cases hci : c = i
    · rw [hci, hs.left]
      exact hgrand
    · rw [hs.other c hci (by omega)]
      exact hgrand.trans (hp ▸ h.ordered c hc hn hci)

/-- What is above the position is in order. -/
theorem Rising.root_le (h : Rising key n i) (hn : i < n) (hp : p < i) : key 0 ≤ key p := by
  induction p using Nat.strongRecOn with
  | ind p ih =>
    rcases Nat.eq_zero_or_pos p with rfl | hpos
    · exact le_refl _
    · have hlt := parent_lt hpos
      exact (ih _ hlt (by omega)).trans (h.ordered p hpos (by omega) (by omega))

end MudouHttp.Lib.Heaps
