import MudouHttp.Pool.FreeSpans

/-!
# The spans tile the mapped pages

`Tiles pc`: the spans that exist are page ranges apart from each other, their
union is what was mapped, and `spanMap_` leads to spans that start where it
says. Cutting a span, merging two neighbours and mapping a new range keep this.
-/

namespace MudouHttp.PageCache

open Function (update update_self update_of_ne)
open SpanHeap (Maps)

structure Tiles (pc : PageCache) : Prop where
  entries : ∀ a i, pc.spanMap a = some i → ∃ n, pc.place (some i) = some (a, n)
  shape : ∀ p (a n : Nat), pc.place p = some (a, n) → 1 ≤ n ∧ 0 < a ∧ pageSize ∣ a
  apart : ∀ p q (a n b m : Nat), p ≠ q → pc.place p = some (a, n) → pc.place q = some (b, m) →
    (pages a n).Apart (pages b m)
  union : ∀ x : Nat, (∃ p a n, pc.place p = some (a, n) ∧ (pages a n).Has x) ↔ ∃ r ∈ pc.mapped, r.Has x
  bounded : ∀ r ∈ pc.mapped, r.stop < 2 ^ 64

theorem pages_stop (a n : Nat) : (pages a n).stop = a + 4096 * n :=
  congrArg (a + ·) (Nat.mul_comm n 4096)

theorem has_pages {a n x : Nat} : (pages a n).Has x ↔ a ≤ x ∧ x < a + 4096 * n := by
  rw [← pages_stop]
  rfl

theorem pages_apart {a n b m : Nat} :
    (pages a n).Apart (pages b m) ↔ a + 4096 * n ≤ b ∨ b + 4096 * m ≤ a := by
  rw [← pages_stop, ← pages_stop]
  rfl

variable {pc pc' : PageCache}

theorem Tiles.congr (h : Tiles pc) (hplace : pc'.place = pc.place) (hmap : pc'.spanMap = pc.spanMap)
    (hmapped : pc'.mapped = pc.mapped) : Tiles pc' := by
  refine ⟨?_, ?_, ?_, ?_, ?_⟩
  · rw [hplace, hmap]
    exact h.entries
  · rw [hplace]
    exact h.shape
  · rw [hplace]
    exact h.apart
  · rw [hplace, hmapped]
    exact h.union
  · rw [hmapped]
    exact h.bounded

theorem Tiles.stop {a n : Nat} (h : Tiles pc) (hp : pc.place p = some (a, n)) : a + 4096 * n < 2 ^ 64 := by
  obtain ⟨hn, -, -⟩ := h.shape p a n hp
  obtain ⟨r, hr, hlast⟩ := (h.union (a + 4096 * n - 1)).mp ⟨p, a, n, hp, has_pages.mpr (by omega)⟩
  have hstop := h.bounded r hr
  have hlt := hlast.2
  omega

/-- A span is known by where it starts. -/
theorem Tiles.unique {a n m : Nat} (h : Tiles pc) (hp : pc.place p = some (a, n))
    (hq : pc.place q = some (a, m)) :
    p = q := by
  refine Classical.byContradiction fun hne => ?_
  obtain ⟨hn, -, -⟩ := h.shape p a n hp
  obtain ⟨hm, -, -⟩ := h.shape q a m hq
  have hapart := pages_apart.mp (h.apart p q a n a m hne hp hq)
  omega

/-- An entry may be made for any span, where it starts. -/
theorem Tiles.enter (h : Tiles pc) (hp : pc.place (some i) = some (a, n)) :
    Tiles { pc with spanMap := update pc.spanMap a (some i) } := by
  refine ⟨fun x j hj => ?_, h.shape, h.apart, h.union, h.bounded⟩
  by_cases hx : x = a
  · subst hx
    have hji : some i = some j := (update_self x (some i) pc.spanMap).symm.trans hj
    rw [← hji]
    exact ⟨n, hp⟩
  · exact h.entries x j ((update_of_ne hx (some i) pc.spanMap).symm.trans hj)

theorem apart_of_fresh {start n a m : Nat} (h : Tiles pc)
    (hfresh : ∀ r ∈ pc.mapped, (pages start n).Apart r) (hn : 1 ≤ n)
    (hq : pc.place q = some (a, m)) : (pages start n).Apart (pages a m) := by
  obtain ⟨hm, -, -⟩ := h.shape q a m hq
  refine Classical.byContradiction fun hnot => ?_
  rw [pages_apart] at hnot
  -- a byte of both
  obtain ⟨r, hr, hx⟩ := (h.union (max start a)).mp ⟨q, a, m, hq, has_pages.mpr (by omega)⟩
  have hr' : start + 4096 * n ≤ r.start ∨ r.stop ≤ start := pages_stop start n ▸ hfresh r hr
  have hx' : r.start ≤ max start a ∧ max start a < r.stop := hx
  omega

theorem Tiles.grow {start n : Nat} (h : Tiles pc) (hold : pc.place p = none)
    (hplace : ∀ q, pc'.place q = if q = p then some (start, n) else pc.place q)
    (hmap : pc'.spanMap = pc.spanMap) (hmapped : pc'.mapped = pages start n :: pc.mapped)
    (hn : 1 ≤ n) (hmaps : Maps pc.mapped (pages start n)) : Tiles pc' := by
  have hfar : ∀ q a m, pc.place q = some (a, m) → (pages start n).Apart (pages a m) :=
    fun q a m hq => apart_of_fresh h hmaps.fresh hn hq
  refine ⟨fun a i hi => ?_, fun q a m hq => ?_, fun q r a m b k hne hq hr => ?_, fun x => ?_,
    fun r hr => ?_⟩
  · rw [hmap] at hi
    obtain ⟨m, hm⟩ := h.entries a i hi
    have hne : some i ≠ p := by
      rintro rfl
      rw [hold] at hm
      cases hm
    exact ⟨m, by rw [hplace, if_neg hne]; exact hm⟩
  · rw [hplace] at hq
    split at hq
    · cases hq
      exact ⟨hn, hmaps.start, hmaps.aligned⟩
    · exact h.shape q a m hq
  · rw [hplace] at hq hr
    split at hq
    · rename_i hqp
      rw [if_neg (fun hrp => hne (hqp.trans hrp.symm))] at hr
      cases hq
      exact hfar r b k hr
    · split at hr
      · cases hr
        exact (hfar q a m hq).symm
      · exact h.apart q r a m b k hne hq hr
  · rw [hmapped]
    constructor
    · rintro ⟨q, a, m, hq, hx⟩
      rw [hplace] at hq
      split at hq
      · cases hq
        exact ⟨_, List.mem_cons_self, hx⟩
      · obtain ⟨r, hr, hrx⟩ := (h.union x).mp ⟨q, a, m, hq, hx⟩
        exact ⟨r, List.mem_cons_of_mem _ hr, hrx⟩
    · rintro ⟨r, hr, hx⟩
      rcases List.mem_cons.mp hr with rfl | hr
      · exact ⟨p, start, n, by rw [hplace, if_pos rfl], hx⟩
      · obtain ⟨q, a, m, hq, hqx⟩ := (h.union x).mpr ⟨r, hr, hx⟩
        refine ⟨q, a, m, ?_, hqx⟩
        rw [hplace, if_neg, hq]
        rintro rfl
        rw [hold] at hq
        cases hq
  · rw [hmapped] at hr
    rcases List.mem_cons.mp hr with rfl | hr
    · exact hmaps.stop
    · exact h.bounded r hr

/-- The heap `pc'` is `pc` with the span `p` cut in two: its last `m` pages are the
span `p'`. -/
structure Cut (pc pc' : PageCache) (p p' : Option Nat) (a n m : Nat) : Prop where
  whole : pc.place p = some (a, n + m)
  unused : pc.place p' = none
  first : pc'.place p = some (a, n)
  second : pc'.place p' = some (a + 4096 * n, m)
  others : ∀ q, q ≠ p → q ≠ p' → pc'.place q = pc.place q

namespace Cut

variable {a n m : Nat}

theorem whole_cases {b k : Nat} (h : Cut pc pc' p p' a n m) (hq : pc.place q = some (b, k)) :
    (q = p ∧ b = a ∧ k = n + m) ∨ (q ≠ p ∧ q ≠ p' ∧ pc'.place q = some (b, k)) := by
  by_cases hp : q = p
  · rw [hp, h.whole] at hq
    cases hq
    exact .inl ⟨hp, rfl, rfl⟩
  · have hp' : q ≠ p' := by
      rintro rfl
      rw [h.unused] at hq
      cases hq
    exact .inr ⟨hp, hp', h.others q hp hp' ▸ hq⟩

theorem part_cases {b k : Nat} (h : Cut pc pc' p p' a n m) (hq : pc'.place q = some (b, k)) :
    (q = p ∧ b = a ∧ k = n) ∨ (q = p' ∧ b = a + 4096 * n ∧ k = m) ∨
      (q ≠ p ∧ q ≠ p' ∧ pc.place q = some (b, k)) := by
  by_cases hp : q = p
  · rw [hp, h.first] at hq
    cases hq
    exact .inl ⟨hp, rfl, rfl⟩
  · by_cases hp' : q = p'
    · rw [hp', h.second] at hq
      cases hq
      exact .inr (.inl ⟨hp', rfl, rfl⟩)
    · exact .inr (.inr ⟨hp, hp', h.others q hp hp' ▸ hq⟩)

theorem union (h : Cut pc pc' p p' a n m) (x : Nat) :
    (∃ q b k, pc'.place q = some (b, k) ∧ (pages b k).Has x) ↔
      ∃ q b k, pc.place q = some (b, k) ∧ (pages b k).Has x := by
  constructor
  · rintro ⟨q, b, k, hq, hx⟩
    rw [has_pages] at hx
    rcases h.part_cases hq with ⟨-, rfl, rfl⟩ | ⟨-, rfl, rfl⟩ | ⟨-, -, hq⟩
    · exact ⟨p, b, k + m, h.whole, has_pages.mpr (by omega)⟩
    · exact ⟨p, a, n + k, h.whole, has_pages.mpr (by omega)⟩
    · exact ⟨q, b, k, hq, has_pages.mpr hx⟩
  · rintro ⟨q, b, k, hq, hx⟩
    rw [has_pages] at hx
    rcases h.whole_cases hq with ⟨-, rfl, rfl⟩ | ⟨-, -, hq⟩
    · by_cases hcut : x < b + 4096 * n
      · exact ⟨p, b, n, h.first, has_pages.mpr (by omega)⟩
      · exact ⟨p', b + 4096 * n, m, h.second, has_pages.mpr (by omega)⟩
    · exact ⟨q, b, k, hq, has_pages.mpr hx⟩

end Cut

theorem Tiles.split {a n m : Nat} (h : Tiles pc) (hp : pc.place p = some (a, m))
    (hnew : pc.place p' = none) (hn : 1 ≤ n) (hlt : n < m)
    (hplace : ∀ q, pc'.place q = if q = p then some (a, n)
      else if q = p' then some (a + 4096 * n, m - n) else pc.place q)
    (hmap : pc'.spanMap = pc.spanMap) (hmapped : pc'.mapped = pc.mapped) : Tiles pc' := by
  obtain ⟨rest, rfl⟩ := Nat.exists_eq_add_of_le (Nat.le_of_lt hlt)
  rw [Nat.add_sub_cancel_left] at hplace
  have hne : p' ≠ p := by
    rintro rfl
    rw [hp] at hnew
    cases hnew
  have hcut : Cut pc pc' p p' a n rest :=
    ⟨hp, hnew, by rw [hplace, if_pos rfl], by rw [hplace, if_neg hne, if_pos rfl],
      fun q hqp hqp' => by rw [hplace, if_neg hqp, if_neg hqp']⟩
  have hfar : ∀ q (b k : Nat), q ≠ p → pc.place q = some (b, k) →
      a + 4096 * (n + rest) ≤ b ∨ b + 4096 * k ≤ a :=
    fun q b k hqp hq => pages_apart.mp (h.apart p q a (n + rest) b k (Ne.symm hqp) hp hq)
  refine ⟨fun x i hi => ?_, fun q b k hq => ?_, fun q r b k c l hqr hq hr => ?_, fun x => ?_,
    fun r hr => h.bounded r (hmapped ▸ hr)⟩
  · rw [hmap] at hi
    obtain ⟨k, hk⟩ := h.entries x i hi
    rcases hcut.whole_cases hk with ⟨hip, rfl, -⟩ | ⟨-, -, hk⟩
    · exact ⟨n, hip ▸ hcut.first⟩
    · exact ⟨k, hk⟩
  · rcases hcut.part_cases hq with ⟨-, rfl, rfl⟩ | ⟨-, rfl, rfl⟩ | ⟨-, -, hq⟩
    · exact ⟨hn, (h.shape p b _ hp).2⟩
    · obtain ⟨-, ha, hdvd⟩ := h.shape p a _ hp
      exact ⟨Nat.lt_add_right_iff_pos.mp hlt, Nat.add_pos_left ha _,
        Nat.dvd_add hdvd (Nat.dvd_mul_right _ _)⟩
    · exact h.shape q b k hq
  · rw [pages_apart]
    rcases hcut.part_cases hq with ⟨rfl, rfl, rfl⟩ | ⟨rfl, rfl, rfl⟩ | ⟨hqp, -, hq⟩ <;>
      rcases hcut.part_cases hr with ⟨rfl, rfl, rfl⟩ | ⟨rfl, rfl, rfl⟩ | ⟨hrp, -, hr⟩
    · exact absurd rfl hqr
    · exact .inl (Nat.le_refl _)
    · have := hfar r c l hrp hr
      omega
    · exact .inr (Nat.le_refl _)
    · exact absurd rfl hqr
    · have := hfar r c l hrp hr
      omega
    · have := hfar q b k hqp hq
      omega
    · have := hfar q b k hqp hq
      omega
    · exact pages_apart.mp (h.apart q r b k c l hqr hq hr)
  · rw [hmapped, ← h.union]
    exact hcut.union x

theorem Tiles.merge {a n m : Nat} (h : Tiles pc) (hp : pc.place p = some (a, n))
    (hnext : pc.place p' = some (a + 4096 * n, m))
    (hplace : ∀ q, pc'.place q = if q = p then some (a, n + m)
      else if q = p' then none else pc.place q)
    (hmap : pc'.spanMap = update pc.spanMap (a + 4096 * n) none)
    (hmapped : pc'.mapped = pc.mapped) : Tiles pc' := by
  obtain ⟨hn, -⟩ := h.shape p a n hp
  obtain ⟨hm, -⟩ := h.shape p' (a + 4096 * n) m hnext
  have hne : p' ≠ p := by
    rintro rfl
    have hsame := hp.symm.trans hnext
    simp only [Option.some.injEq, Prod.mk.injEq] at hsame
    omega
  have hcut : Cut pc' pc p p' a n m :=
    ⟨by rw [hplace, if_pos rfl], by rw [hplace, if_neg hne, if_pos rfl], hp, hnext,
      fun q hqp hqp' => by rw [hplace, if_neg hqp, if_neg hqp']⟩
  -- other spans lie before both or behind both
  have hfar : ∀ q (b k : Nat), q ≠ p → q ≠ p' → pc.place q = some (b, k) →
      a + 4096 * (n + m) ≤ b ∨ b + 4096 * k ≤ a := by
    intro q b k hqp hqp' hq
    have h1 := pages_apart.mp (h.apart p q a n b k (Ne.symm hqp) hp hq)
    have h2 := pages_apart.mp (h.apart p' q (a + 4096 * n) m b k (Ne.symm hqp') hnext hq)
    obtain ⟨hk, -⟩ := h.shape q b k hq
    omega
  refine ⟨fun x i hi => ?_, fun q b k hq => ?_, fun q r b k c l hqr hq hr => ?_, fun x => ?_,
    fun r hr => h.bounded r (hmapped ▸ hr)⟩
  · rw [hmap] at hi
    have hx : x ≠ a + 4096 * n := by
      rintro rfl
      rw [update_self] at hi
      cases hi
    rw [update_of_ne hx] at hi
    obtain ⟨k, hk⟩ := h.entries x i hi
    rcases hcut.part_cases hk with ⟨hip, rfl, -⟩ | ⟨-, hsecond, -⟩ | ⟨hip, hip', hk⟩
    · exact ⟨n + m, hip ▸ hcut.whole⟩
    · exact absurd hsecond hx
    · exact ⟨k, hk⟩
  · rcases hcut.whole_cases hq with ⟨-, rfl, rfl⟩ | ⟨-, -, hq⟩
    · exact ⟨Nat.le_add_right_of_le hn, (h.shape p b n hp).2⟩
    · exact h.shape q b k hq
  · rw [pages_apart]
    rcases hcut.whole_cases hq with ⟨rfl, rfl, rfl⟩ | ⟨hqp, hqp', hq⟩ <;>
      rcases hcut.whole_cases hr with ⟨rfl, rfl, rfl⟩ | ⟨hrp, hrp', hr⟩
    · exact absurd rfl hqr
    · exact hfar r c l hrp hrp' hr
    · exact (hfar q b k hqp hqp' hq).symm
    · exact pages_apart.mp (h.apart q r b k c l hqr hq hr)
  · rw [hmapped, ← h.union]
    exact (hcut.union x).symm

end MudouHttp.PageCache
