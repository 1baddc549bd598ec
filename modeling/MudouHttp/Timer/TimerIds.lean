import Mathlib.Data.Finset.Card
import MudouHttp.Timer.Dispatches

/-!
# The ids that stay in the map

Only `cancel` takes an id out of `tm_id_state_map`. A timer that is dispatched
for the last time leaves its id behind.
-/

namespace MudouHttp.Timer

/-- Every id in the map is that of a queued timer, so that there are no more of them. -/
structure Kept (t : Timer) : Prop where
  queued : ∀ id ∈ t.tmIdStateMap, ∃ x ∈ t.tmQueue, x.tnId = id
  size : t.tmIdStateMap.card ≤ t.tmQueue.length

theorem kept_of_queued {t : Timer} (h : ∀ id ∈ t.tmIdStateMap, ∃ x ∈ t.tmQueue, x.tnId = id) : t.Kept := by
  have hsub : t.tmIdStateMap ⊆ (t.tmQueue.map TimerNode.tnId).toFinset := by
    intro id hid
    obtain ⟨x, hx, rfl⟩ := h id hid
    exact List.mem_toFinset.mpr (List.mem_map_of_mem hx)
  refine ⟨h, (Finset.card_le_card hsub).trans ?_⟩
  rw [← List.length_map TimerNode.tnId]
  exact List.toFinset_card_le _

namespace Run

variable {r r' : Run}

/-- The event dispatches a timer that does not go back into the queue, and
leaves none there with its id. -/
def LastOfId (r : Run) : Event → Prop
  | .iterate top now _ => top ∈ r.timer.tmQueue ∧ Due top now ∧ top.tnId ∈ r.timer.tmIdStateMap ∧
    ¬top.Requeues ∧ ∀ x ∈ r.timer.tmQueue.erase top, x.tnId ≠ top.tnId
  | _ => False

theorem iterate_kept_iff (hk : r.timer.Kept) (hi : Iteration r.timer s now t ran)
    (hmem : r.timer.tmQueue ≠ [] → s ∈ r.timer.tmQueue) :
    t.Kept ↔ ¬r.LastOfId (.iterate s now later) := by
  have hothers : ∀ id ∈ r.timer.tmIdStateMap, id ≠ s.tnId →
      ∃ x ∈ r.timer.tmQueue.erase s, x.tnId = id := by
    intro id hid hne
    obtain ⟨x, hx, rfl⟩ := hk.queued id hid
    exact ⟨x, (List.mem_erase_of_ne fun hxs => hne (congrArg TimerNode.tnId hxs)).mpr hx, rfl⟩
  cases hi with
  | wait hwait =>
    refine iff_of_true hk fun hlast => ?_
    rcases hwait with hnil | hnot
    · exact List.ne_nil_of_mem hlast.1 hnil
    · exact hnot hlast.2.1
  | drop _ _ hout =>
    refine iff_of_true (kept_of_queued fun id hid => ?_) fun hlast => hout hlast.2.2.1
    exact hothers id hid fun heq => hout (heq ▸ hid)
  | again _ _ _ hagain hx =>
    refine iff_of_true (kept_of_queued fun id hid => ?_) fun hlast => hlast.2.2.2.1 hagain
    by_cases hids : id = s.tnId
    · exact ⟨_, List.mem_cons_self, hx.id.trans hids.symm⟩
    · obtain ⟨x, hx, hxid⟩ := hothers id hid hids
      exact ⟨x, List.mem_cons_of_mem _ hx, hxid⟩
  | last hne hdue hin hlast =>
    constructor
    · intro hkept hno
      obtain ⟨x, hx, hxid⟩ := hkept.queued s.tnId hin
      exact hno.2.2.2.2 x hx hxid
    · intro hno
      refine kept_of_queued fun id hid => ?_
      by_cases hids : id = s.tnId
      · subst hids
        by_contra hnone
        exact hno ⟨hmem hne, hdue, hin, hlast, fun x hx hxid => hnone ⟨x, hx, hxid⟩⟩
      · exact hothers id hid hids

theorem step_kept_iff (hk : r.timer.Kept) (ha : r.Admits e) (h : r.step e = .ok r') :
    r'.timer.Kept ↔ ¬r.LastOfId e := by
  cases e with
  | call c now =>
    obtain ⟨s, hmade, rfl⟩ := step_call h
    refine iff_of_true (kept_of_queued fun id hid => ?_) id
    rcases Finset.mem_insert.mp hid with rfl | hid
    · exact ⟨s, List.mem_cons_self, rfl⟩
    · obtain ⟨x, hx, hxid⟩ := hk.queued id hid
      exact ⟨x, List.mem_cons_of_mem _ hx, hxid⟩
  | cancel id =>
    cases h
    refine iff_of_true ?_ fun hno => hno
    show (r.timer.cancel id).Kept
    unfold Timer.cancel
    split
    · exact kept_of_queued fun other hother => hk.queued other (Finset.mem_of_mem_erase hother)
    · exact hk
  | iterate s now later =>
    obtain ⟨t, ran, hi, rfl⟩ := step_iterate h
    exact iterate_kept_iff hk hi fun hne => (ha.2.2 hne).1

theorem start_kept (clock : Int) : (start clock).timer.Kept :=
  kept_of_queued fun id hid => absurd hid (Finset.notMem_empty id)

/-- As long as no iteration dispatches a timer for the last time and leaves no
other one with its id, every id in the map is that of a queued timer; the first
iteration that does leaves an id behind. -/
theorem ids_queued_iff (clock : Int)
    (h : Lib.Reach step (fun r e => r.Admits e ∧ ¬r.LastOfId e) (start clock) r) :
    r.timer.Kept ∧ ∀ e r', r.Admits e → r.step e = .ok r' → (r'.timer.Kept ↔ ¬r.LastOfId e) := by
  have hk := h.invariant (P := fun r : Run => r.timer.Kept)
    (fun _ _ _ hk he hs => (step_kept_iff hk he.1 hs).mpr he.2) (start_kept clock)
  exact ⟨hk, fun e r' ha hs => step_kept_iff hk ha hs⟩

/-- A timer that is dispatched and queued again. -/
theorem ids_queued_iff_example : ∃ r, Lib.runs step (start 0)
      [.call (.runAfter 1 true) 0, .iterate ⟨1000000, 0, 0, 0, true, false, 1⟩ 1000000 1000000] = .ok r ∧
    r.dispatched.length = 1 ∧ r.timer.Kept := by
  have hview : (Lib.runs step (start 0)
      [.call (.runAfter 1 true) 0, .iterate ⟨1000000, 0, 0, 0, true, false, 1⟩ 1000000 1000000]).toOption.map
        (fun r => r.dispatched.length) = some 1 := by decide +kernel
  obtain ⟨r, hrun, hlen⟩ := view_ok _ hview
  have hmeets : Lib.AllMeet step (fun r e => r.Admits e ∧ ¬r.LastOfId e) (start 0)
      [.call (.runAfter 1 true) 0, .iterate ⟨1000000, 0, 0, 0, true, false, 1⟩ 1000000 1000000] := by
    refine ⟨⟨by decide, id⟩, ⟨by decide +kernel, fun hlast => ?_⟩, ?_⟩
    · exact hlast.2.2.2.1 (.inl rfl)
    · split <;> trivial
  exact ⟨r, hrun, hlen, (ids_queued_iff 0 (Lib.Reach.start.runs _ hmeets hrun)).1⟩

theorem id_left_behind : ¬∀ clock r, Lib.Reach step Admits (start clock) r → r.timer.Kept := by
  intro hall
  have hview : (Lib.checked step (fun r e => decide (r.Admits e)) (start 0)
      [.call (.runAt 5) 0, .iterate ⟨5, 0, 0, 0, false, false, 0⟩ 10 10]).map
        (fun r => (r.timer.tmIdStateMap.card, r.timer.tmQueue.length)) = some (1, 0) := by
    decide
  obtain ⟨r, hchecked, hsizes⟩ := Option.map_eq_some_iff.mp hview
  have hrun := Lib.Reach.start.checked _ (fun _ _ => of_decide_eq_true) hchecked
  have hsize := (hall 0 r hrun).size
  rw [Prod.mk.injEq] at hsizes
  omega

end Run

end MudouHttp.Timer
