import MudouHttp.Lib.Counting
import MudouHttp.Lib.Reach
import MudouHttp.Timer.Timer

/-!
# What run_local dispatches

Each timer has a number of dispatches it may still make. What it has made and
what is left stays the same until its id is cancelled, and never grows
(`Counted`, `Whole`). An id that is not in the map is not dispatched.
-/

namespace MudouHttp.Timer

namespace TimerNode

/-- It goes back into the queue when it is dispatched. -/
def Requeues (s : TimerNode) : Prop :=
  s.tnIsPeriod = true ∨ s.tnIsRepeated = true ∧ s.tnRepeatedNum > 0

def left (s : TimerNode) : Nat := if s.tnIsRepeated then s.tnRepeatedNum.toNat + 1 else 1

def share (k : Nat) (s : TimerNode) : Nat := if s.tnCallback = k then s.left else 0

end TimerNode

def remaining (queue : List TimerNode) (k : Nat) : Nat := (queue.map (TimerNode.share k)).sum

theorem remaining_cons (s : TimerNode) (queue : List TimerNode) (k : Nat) :
    remaining (s :: queue) k = s.share k + remaining queue k := rfl

theorem remaining_erase (h : s ∈ queue) (k : Nat) :
    remaining queue k = s.share k + remaining (queue.erase s) k :=
  ((List.perm_cons_erase h).map (TimerNode.share k)).sum_nat

theorem remaining_none (h : ∀ x ∈ queue, x.tnCallback ≠ k) : remaining queue k = 0 := by
  refine List.sum_eq_zero_iff_forall_eq_nat.mpr fun n hn => ?_
  obtain ⟨x, hx, rfl⟩ := List.mem_map.mp hn
  exact if_neg (h x hx)

-- ---------------------------------------------------------------------------
-- Iterations
-- ---------------------------------------------------------------------------

/-- A millisecond is left at most. -/
def Due (s : TimerNode) (now : Int) : Prop := (s.tnTmPoint - now).tdiv 1000000 ≤ 0

theorem Due.point (h : Due s now) : s.tnTmPoint < now + 1000000 := by
  by_contra hlt
  have hone : (1000000 : Int).tdiv 1000000 ≤ (s.tnTmPoint - now).tdiv 1000000 :=
    Int.tdiv_le_tdiv (by decide) (by omega)
  exact absurd (Int.le_trans hone h) (by decide)

structure Again (s x : TimerNode) : Prop where
  callback : x.tnCallback = s.tnCallback
  id : x.tnId = s.tnId
  isPeriod : x.tnIsPeriod = s.tnIsPeriod
  left : s.tnIsPeriod = false → x.left + 1 = s.left

inductive Iteration (t : Timer) (s : TimerNode) (now : Int) : Timer → Option TimerNode → Prop
  | wait : t.tmQueue = [] ∨ ¬Due s now → Iteration t s now t none
  | drop : t.tmQueue ≠ [] → Due s now → s.tnId ∉ t.tmIdStateMap →
    Iteration t s now { t with tmQueue := t.tmQueue.erase s } none
  | again : t.tmQueue ≠ [] → Due s now → s.tnId ∈ t.tmIdStateMap → s.Requeues → Again s x →
    Iteration t s now { t with tmQueue := x :: t.tmQueue.erase s } (some s)
  | last : t.tmQueue ≠ [] → Due s now → s.tnId ∈ t.tmIdStateMap → ¬s.Requeues →
    Iteration t s now { t with tmQueue := t.tmQueue.erase s } (some s)

theorem runLocal_ok {t : Timer} (h : t.runLocal s now later = .ok (t', ran)) :
    Iteration t s now t' ran := by
  unfold runLocal at h
  split at h
  · rename_i hnil
    cases h
    exact .wait (.inl hnil)
  · rename_i hne
    obtain ⟨diff, hdiff, h⟩ := bind_ok h
    have hval : diff = s.tnTmPoint - now := by
      unfold nanoOf at hdiff
      split at hdiff <;> cases hdiff
      rfl
    split at h
    · rename_i hwait
      cases h
      exact .wait (.inr fun hdue => absurd hwait (Int.not_lt.mpr (hval ▸ hdue)))
    · rename_i hpast
      have hdue : Due s now := by
        rw [hval] at hpast
        exact Int.not_lt.mp hpast
      dsimp only at h
      split at h
      · rename_i hout
        cases h
        exact .drop hne hdue hout
      · rename_i hin
        have hin := Decidable.not_not.mp hin
        split at h
        · rename_i hperiod
          obtain ⟨tmPoint, -, h⟩ := bind_ok h
          cases h
          exact .again hne hdue hin (.inl hperiod)
            ⟨rfl, rfl, rfl, fun hnot => absurd (hperiod.symm.trans hnot) (by decide)⟩
        · rename_i hperiod
          split at h
          · rename_i hrep
            obtain ⟨tmPoint, -, h⟩ := bind_ok h
            cases h
            refine .again hne hdue hin (.inr hrep) ⟨rfl, rfl, rfl, fun _ => ?_⟩
            obtain ⟨hrep, hnum⟩ := hrep
            unfold TimerNode.left
            rw [if_pos hrep, if_pos hrep]
            dsimp only
            omega
          · rename_i hrep
            cases h
            exact .last hne hdue hin (not_or.mpr ⟨hperiod, hrep⟩)

theorem Iteration.dispatched {t : Timer} (hi : Iteration t s now t' ran) (hran : ran = some x) :
    x = s ∧ t.tmQueue ≠ [] ∧ Due s now ∧ s.tnId ∈ t.tmIdStateMap := by
  cases hi with
  | wait => cases hran
  | drop => cases hran
  | again hne hdue hin _ _ => exact ⟨(Option.some.inj hran).symm, hne, hdue, hin⟩
  | last hne hdue hin _ => exact ⟨(Option.some.inj hran).symm, hne, hdue, hin⟩

theorem TimerNode.left_last {s : TimerNode} (h : ¬s.Requeues) : s.tnIsPeriod = false ∧ s.left = 1 := by
  obtain ⟨hperiod, hrep⟩ := not_or.mp h
  refine ⟨Bool.eq_false_iff.mpr hperiod, ?_⟩
  unfold TimerNode.left
  split
  · rename_i hset
    have hnum : ¬s.tnRepeatedNum > 0 := fun hnum => hrep ⟨hset, hnum⟩
    omega
  · rfl

-- ---------------------------------------------------------------------------
-- Calls
-- ---------------------------------------------------------------------------

namespace Call

def isPeriod : Call → Bool
  | .runAfter _ isPeriod => isPeriod
  | .runAt _ => false
  | .runRepeated _ _ => false

def allowed : Call → Nat
  | .runAfter _ _ => 1
  | .runAt _ => 1
  | .runRepeated _ repeatedNum => repeatedNum.toNat + 1

end Call

structure Made (t : Timer) (callback : Nat) (c : Call) (s : TimerNode) : Prop where
  callback : s.tnCallback = callback
  id : s.tnId = t.tmId
  isPeriod : s.tnIsPeriod = c.isPeriod
  left : s.left = c.allowed

theorem perform_ok {t : Timer} {id : Int32} (h : t.perform k now c = .ok (t', id)) :
    ∃ s, Made t k c s ∧ t.enter s = (t', id) := by
  cases c with
  | runAfter msTime isPeriod =>
    obtain ⟨tmPoint, -, h⟩ := bind_ok h
    refine ⟨_, ?_, Except.ok.inj h⟩
    exact ⟨rfl, rfl, rfl, rfl⟩
  | runAt timePoint =>
    refine ⟨_, ?_, Except.ok.inj h⟩
    exact ⟨rfl, rfl, rfl, rfl⟩
  | runRepeated msTime repeatedNum =>
    obtain ⟨tmPoint, -, h⟩ := bind_ok h
    refine ⟨_, ?_, Except.ok.inj h⟩
    exact ⟨rfl, rfl, rfl, rfl⟩

-- ---------------------------------------------------------------------------
-- What is left to a timer
-- ---------------------------------------------------------------------------

def countOf (k : Nat) (ran : List TimerNode) : Nat := ran.countP fun s => s.tnCallback = k

theorem countOf_single (k : Nat) (s : TimerNode) : countOf k [s] = if s.tnCallback = k then 1 else 0 := by
  rw [countOf, List.countP_singleton]
  simp only [decide_eq_true_eq]

/-- An iteration takes from what is left to the timers of a callback what it
dispatches of them, and more only when it drops one. -/
theorem Iteration.balance {t : Timer} (hi : Iteration t s now t' ran)
    (hmem : t.tmQueue ≠ [] → s ∈ t.tmQueue)
    (hk : s ∈ t.tmQueue → s.tnCallback = k → s.tnIsPeriod = false) :
    countOf k ran.toList + remaining t'.tmQueue k ≤ remaining t.tmQueue k ∧
      ((s ∈ t.tmQueue → s.tnCallback = k → s.tnId ∈ t.tmIdStateMap) →
        countOf k ran.toList + remaining t'.tmQueue k = remaining t.tmQueue k) := by
  cases hi with
  | wait => exact ⟨Nat.le_of_eq (Nat.zero_add _), fun _ => Nat.zero_add _⟩
  | drop hne _ hout =>
    show countOf k [] + remaining (t.tmQueue.erase s) k ≤ remaining t.tmQueue k ∧
      (_ → countOf k [] + remaining (t.tmQueue.erase s) k = remaining t.tmQueue k)
    have hnone : countOf k [] = 0 := rfl
    rw [remaining_erase (hmem hne), hnone]
    refine ⟨by omega, fun hin => ?_⟩
    have hother : s.share k = 0 := if_neg fun hcb => hout (hin (hmem hne) hcb)
    omega
  | @again x hne _ _ _ hx =>
    show countOf k [s] + remaining (x :: t.tmQueue.erase s) k ≤ remaining t.tmQueue k ∧
      (_ → countOf k [s] + remaining (x :: t.tmQueue.erase s) k = remaining t.tmQueue k)
    have hshare : countOf k [s] + x.share k = s.share k := by
      unfold TimerNode.share
      rw [countOf_single, hx.callback]
      split
      · rename_i hcb
        rw [Nat.add_comm, hx.left (hk (hmem hne) hcb)]
      · rfl
    rw [remaining_erase (hmem hne), remaining_cons]
    omega
  | last hne _ _ hlast =>
    show countOf k [s] + remaining (t.tmQueue.erase s) k ≤ remaining t.tmQueue k ∧
      (_ → countOf k [s] + remaining (t.tmQueue.erase s) k = remaining t.tmQueue k)
    have hshare : countOf k [s] = s.share k := by
      rw [countOf_single, TimerNode.share, (TimerNode.left_last hlast).2]
    rw [remaining_erase (hmem hne)]
    omega

namespace Run

variable {r r' : Run} {id : Int32}

def times (r : Run) (k : Nat) : Nat := countOf k r.dispatched

def Reachable (r : Run) : Prop := ∃ clock, Lib.Reach step Admits (start clock) r

theorem step_call (h : r.step (.call c now) = .ok r') :
    ∃ s, Made r.timer r.calls.length c s ∧
      r' = { timer := (r.timer.enter s).1, clock := now, calls := r.calls ++ [(c, r.timer.tmId)]
             dispatched := r.dispatched } := by
  obtain ⟨⟨t, id⟩, hperform, h⟩ := bind_ok h
  cases h
  obtain ⟨s, hmade, henter⟩ := perform_ok hperform
  refine ⟨s, hmade, ?_⟩
  have hid : r.timer.tmId = id := hmade.id.symm.trans (congrArg Prod.snd henter)
  rw [henter, hid]

theorem step_iterate (h : r.step (.iterate s now later) = .ok r') :
    ∃ t ran, Iteration r.timer s now t ran ∧
      r' = { r with timer := t, clock := later, dispatched := r.dispatched ++ ran.toList } := by
  obtain ⟨⟨t, ran⟩, hrun, h⟩ := bind_ok h
  cases h
  exact ⟨t, ran, runLocal_ok hrun, rfl⟩

theorem times_append (r : Run) (ran : List TimerNode) (k : Nat) :
    countOf k (r.dispatched ++ ran) = r.times k + countOf k ran := List.countP_append

/-- Every queued timer is one of a call, and what it has had and has left is
no more than the call allows. -/
structure Counted (r : Run) : Prop where
  known : ∀ x ∈ r.timer.tmQueue,
    ∃ c, r.calls[x.tnCallback]? = some (c, x.tnId) ∧ x.tnIsPeriod = c.isPeriod
  past : ∀ x ∈ r.dispatched, x.tnCallback < r.calls.length
  within : ∀ k c id, r.calls[k]? = some (c, id) → c.isPeriod = false →
    r.times k + remaining r.timer.tmQueue k ≤ c.allowed

theorem Counted.bound (hc : r.Counted) (hx : x ∈ r.timer.tmQueue) : x.tnCallback < r.calls.length := by
  obtain ⟨c, hcall, -⟩ := hc.known x hx
  exact (List.getElem?_eq_some_iff.mp hcall).1

theorem Counted.isPeriod (hc : r.Counted) (hx : x ∈ r.timer.tmQueue)
    (hk : r.calls[k]? = some (c, id)) (hcb : x.tnCallback = k) : x.tnId = id ∧ x.tnIsPeriod = c.isPeriod := by
  obtain ⟨c', hcall, hperiod⟩ := hc.known x hx
  rw [hcb, hk] at hcall
  cases hcall
  exact ⟨rfl, hperiod⟩

theorem Counted.unused (hc : r.Counted) :
    r.times r.calls.length = 0 ∧ remaining r.timer.tmQueue r.calls.length = 0 := by
  constructor
  · refine List.countP_eq_zero.mpr fun x hx => ?_
    rw [decide_eq_true_eq]
    exact Nat.ne_of_lt (hc.past x hx)
  · exact remaining_none fun x hx => Nat.ne_of_lt (hc.bound hx)

theorem Counted.entered (hc : r.Counted) (hmade : Made r.timer r.calls.length c s) :
    Counted { timer := (r.timer.enter s).1, clock := now, calls := r.calls ++ [(c, r.timer.tmId)]
              dispatched := r.dispatched } := by
  have hend : (r.calls ++ [(c, r.timer.tmId)])[r.calls.length]? = some (c, r.timer.tmId) := by
    rw [List.getElem?_append_right (Nat.le_refl _), Nat.sub_self]
    rfl
  constructor
  · intro x hx
    rcases List.mem_cons.mp hx with rfl | hx
    · exact ⟨c, by rw [hmade.callback, hmade.id]; exact hend, hmade.isPeriod⟩
    · obtain ⟨c', hcall, hperiod⟩ := hc.known x hx
      exact ⟨c', (List.getElem?_append_left (hc.bound hx)).trans hcall, hperiod⟩
  · intro x hx
    have hlt := hc.past x hx
    rw [List.length_append]
    exact Nat.lt_add_right _ hlt
  · intro k c' id hk hperiod
    show r.times k + remaining (s :: r.timer.tmQueue) k ≤ c'.allowed
    rw [remaining_cons]
    by_cases hlt : k < r.calls.length
    · have hother : s.share k = 0 := if_neg fun hcb => by
        have := hmade.callback
        omega
      rw [List.getElem?_append_left hlt] at hk
      have hle := hc.within k c' id hk hperiod
      omega
    · obtain ⟨hbound, -⟩ := List.getElem?_eq_some_iff.mp hk
      rw [List.length_append, List.length_singleton] at hbound
      obtain rfl : k = r.calls.length := by omega
      cases hend.symm.trans hk
      obtain ⟨htimes, hnone⟩ := hc.unused
      have hshare : s.share r.calls.length = c.allowed := by
        rw [TimerNode.share, if_pos hmade.callback, hmade.left]
      omega

theorem Counted.iterated (hc : r.Counted) (hi : Iteration r.timer s now t ran)
    (hmem : r.timer.tmQueue ≠ [] → s ∈ r.timer.tmQueue) :
    Counted { r with timer := t, clock := later, dispatched := r.dispatched ++ ran.toList } := by
  constructor
  · intro x hx
    cases hi with
    | wait => exact hc.known x hx
    | drop => exact hc.known x (List.mem_of_mem_erase hx)
    | again hne _ _ _ hagain =>
      rcases List.mem_cons.mp hx with rfl | hx
      · obtain ⟨c, hcall, hperiod⟩ := hc.known s (hmem hne)
        rw [hagain.callback, hagain.id, hagain.isPeriod]
        exact ⟨c, hcall, hperiod⟩
      · exact hc.known x (List.mem_of_mem_erase hx)
    | last => exact hc.known x (List.mem_of_mem_erase hx)
  · intro x hx
    rcases List.mem_append.mp hx with hold | hran
    · exact hc.past x hold
    · obtain ⟨rfl, hne, -⟩ := hi.dispatched (Option.mem_toList.mp hran)
      exact hc.bound (hmem hne)
  · intro k c id hk hperiod
    show countOf k (r.dispatched ++ ran.toList) + remaining t.tmQueue k ≤ c.allowed
    have hbal := (hi.balance hmem fun hs hcb => (hc.isPeriod hs hk hcb).2.trans hperiod).1
    have hle := hc.within k c id hk hperiod
    rw [times_append]
    omega

theorem Counted.step (hc : r.Counted) (ha : r.Admits e) (h : r.step e = .ok r') : r'.Counted := by
  cases e with
  | call c now =>
    obtain ⟨s, hmade, rfl⟩ := step_call h
    exact hc.entered hmade
  | cancel id =>
    cases h
    have hqueue : (r.timer.cancel id).tmQueue = r.timer.tmQueue := by
      unfold Timer.cancel
      split <;> rfl
    exact ⟨fun x hx => hc.known x (hqueue ▸ hx), hc.past, fun k c id hk hperiod => by
      rw [hqueue]
      exact hc.within k c id hk hperiod⟩
  | iterate s now later =>
    obtain ⟨t, ran, hi, rfl⟩ := step_iterate h
    exact hc.iterated hi fun hne => (ha.2.2 hne).1

theorem start_counted (clock : Int) : (start clock).Counted :=
  ⟨nofun, nofun, nofun⟩

theorem Reachable.counted (h : r.Reachable) : r.Counted := by
  obtain ⟨clock, h⟩ := h
  exact h.invariant (fun _ _ _ hc ha hs => hc.step ha hs) (start_counted clock)

-- ---------------------------------------------------------------------------
-- Timers that are not cancelled
-- ---------------------------------------------------------------------------

/-- The timer of call `k` has its id in the map, and what it has had and has
left is what the call allows. -/
structure Whole (k : Nat) (c : Call) (id : Int32) (r : Run) : Prop where
  call : r.calls[k]? = some (c, id)
  running : id ∈ r.timer.tmIdStateMap
  stays : c.isPeriod = true → ∃ x ∈ r.timer.tmQueue, x.tnCallback = k
  balance : c.isPeriod = false → r.times k + remaining r.timer.tmQueue k = c.allowed

theorem Counted.whole (hc : r.Counted) (hmade : Made r.timer r.calls.length c s) :
    Whole r.calls.length c r.timer.tmId
      { timer := (r.timer.enter s).1, clock := now, calls := r.calls ++ [(c, r.timer.tmId)]
        dispatched := r.dispatched } where
  call := by
    rw [List.getElem?_append_right (Nat.le_refl _), Nat.sub_self]
    rfl
  running := hmade.id ▸ Finset.mem_insert_self _ _
  stays := fun _ => ⟨s, List.mem_cons_self, hmade.callback⟩
  balance := fun _ => by
    obtain ⟨htimes, hnone⟩ := hc.unused
    show r.times r.calls.length + remaining (s :: r.timer.tmQueue) r.calls.length = c.allowed
    rw [remaining_cons, TimerNode.share, if_pos hmade.callback, hmade.left, htimes, hnone]
    omega

theorem Whole.entered (hw : Whole k c id r) (hmade : Made r.timer r.calls.length c' s) :
    Whole k c id { timer := (r.timer.enter s).1, clock := now, calls := r.calls ++ [(c', r.timer.tmId)]
                   dispatched := r.dispatched } := by
  obtain ⟨hlt, -⟩ := List.getElem?_eq_some_iff.mp hw.call
  refine ⟨(List.getElem?_append_left hlt).trans hw.call, Finset.mem_insert_of_mem hw.running, ?_, ?_⟩
  · intro hperiod
    obtain ⟨x, hx, hcb⟩ := hw.stays hperiod
    exact ⟨x, List.mem_cons_of_mem _ hx, hcb⟩
  · intro hperiod
    have hother : s.share k = 0 := if_neg fun hcb => by
      have := hmade.callback
      omega
    have hbal := hw.balance hperiod
    show r.times k + remaining (s :: r.timer.tmQueue) k = c.allowed
    rw [remaining_cons]
    omega

theorem Whole.iterated (hw : Whole k c id r) (hc : r.Counted) (hi : Iteration r.timer s now t ran)
    (hmem : r.timer.tmQueue ≠ [] → s ∈ r.timer.tmQueue) :
    Whole k c id { r with timer := t, clock := later, dispatched := r.dispatched ++ ran.toList } := by
  have hown : ∀ {x}, x ∈ r.timer.tmQueue → x.tnCallback = k →
      x.tnId ∈ r.timer.tmIdStateMap ∧ x.tnIsPeriod = c.isPeriod := fun hx hcb => by
    obtain ⟨hid, hperiod⟩ := hc.isPeriod hx hw.call hcb
    exact ⟨hid ▸ hw.running, hperiod⟩
  refine ⟨hw.call, ?_, fun hperiod => ?_, fun hperiod => ?_⟩
  · cases hi <;> exact hw.running
  · obtain ⟨x, hx, hcb⟩ := hw.stays hperiod
    by_cases hxs : x = s
    · -- a periodic timer that is not cancelled goes back into the queue
      subst hxs
      obtain ⟨hin, hperiodic⟩ := hown hx hcb
      cases hi with
      | wait => exact ⟨x, hx, hcb⟩
      | drop _ _ hout => exact absurd hin hout
      | again _ _ _ _ hagain => exact ⟨_, List.mem_cons_self, hagain.callback.trans hcb⟩
      | last _ _ _ hlast => exact absurd (.inl (hperiodic.trans hperiod)) hlast
    · have hkept : x ∈ r.timer.tmQueue.erase s := (List.mem_erase_of_ne hxs).mpr hx
      cases hi with
      | wait => exact ⟨x, hx, hcb⟩
      | drop => exact ⟨x, hkept, hcb⟩
      | again => exact ⟨x, List.mem_cons_of_mem _ hkept, hcb⟩
      | last => exact ⟨x, hkept, hcb⟩
  · show countOf k (r.dispatched ++ ran.toList) + remaining t.tmQueue k = c.allowed
    have hbal := (hi.balance hmem fun hs hcb => (hown hs hcb).2.trans hperiod).2 fun hs hcb =>
      (hown hs hcb).1
    have hsame := hw.balance hperiod
    rw [times_append]
    omega

theorem Whole.step (hw : Whole k c id r) (hc : r.Counted) (ha : r.Admits e) (hne : e ≠ .cancel id)
    (h : r.step e = .ok r') : Whole k c id r' := by
  cases e with
  | call c' now =>
    obtain ⟨s, hmade, rfl⟩ := step_call h
    exact hw.entered hmade
  | cancel other =>
    cases h
    have hid : id ≠ other := fun hid => hne (hid ▸ rfl)
    show Whole k c id { r with timer := r.timer.cancel other }
    unfold Timer.cancel
    split
    · exact ⟨hw.call, Finset.mem_erase.mpr ⟨hid, hw.running⟩, hw.stays, hw.balance⟩
    · exact hw
  | iterate s now later =>
    obtain ⟨t, ran, hi, rfl⟩ := step_iterate h
    exact hw.iterated hc hi fun hne => (ha.2.2 hne).1

-- ---------------------------------------------------------------------------
-- Timers that are cancelled
-- ---------------------------------------------------------------------------

def Gives (r : Run) (id : Int32) : Event → Prop
  | .call _ _ => r.timer.tmId = id
  | _ => False

theorem out_of_cancel (h : r.step (.cancel id) = .ok r') : id ∉ r'.timer.tmIdStateMap := by
  cases h
  show id ∉ (r.timer.cancel id).tmIdStateMap
  unfold Timer.cancel
  split
  · exact Finset.notMem_erase id _
  · assumption

theorem out_step (hout : id ∉ r.timer.tmIdStateMap) (hgives : ¬r.Gives id e) (h : r.step e = .ok r') :
    id ∉ r'.timer.tmIdStateMap := by
  cases e with
  | call c now =>
    obtain ⟨s, hmade, rfl⟩ := step_call h
    intro hin
    rcases Finset.mem_insert.mp hin with hid | hin
    · exact hgives (hmade.id.symm.trans hid.symm)
    · exact hout hin
  | cancel other =>
    cases h
    show id ∉ (r.timer.cancel other).tmIdStateMap
    unfold Timer.cancel
    split
    · exact fun hin => hout (Finset.mem_of_mem_erase hin)
    · exact hout
  | iterate s now later =>
    obtain ⟨t, ran, hi, rfl⟩ := step_iterate h
    cases hi <;> exact hout

/-- What an iteration dispatches is `top`, which is due and has its id in the map. -/
theorem dispatched_top (h : r.step (.iterate s now later) = .ok r') (hne : r'.dispatched ≠ r.dispatched) :
    r'.dispatched = r.dispatched ++ [s] ∧ r.timer.tmQueue ≠ [] ∧
     Due s now ∧ s.tnId ∈ r.timer.tmIdStateMap := by
  obtain ⟨t, ran, hi, rfl⟩ := step_iterate h
  cases ran with
  | none => exact absurd (List.append_nil _) hne
  | some x =>
    obtain ⟨rfl, hrest⟩ := hi.dispatched rfl
    exact ⟨rfl, hrest⟩

/-- Over every run: what is dispatched is due within a millisecond and first of
the queue; a timer that is not periodic is not dispatched more often than its
call allows; as long as nobody cancels its id it is dispatched exactly that
often before it has left the queue, and a periodic one does not leave it; and
an id that is cancelled is not dispatched until a call returns it again. -/
theorem dispatches_counted :
    (∀ r, Reachable r → ∀ top now later r', r.Admits (.iterate top now later) →
      r.step (.iterate top now later) = .ok r' → r'.dispatched ≠ r.dispatched →
      r'.dispatched = r.dispatched ++ [top] ∧ top.tnTmPoint < now + 1000000 ∧
        top ∈ r.timer.tmQueue ∧ ∀ x ∈ r.timer.tmQueue, top.tnTmPoint ≤ x.tnTmPoint) ∧
    (∀ r, Reachable r → ∀ k c id, r.calls[k]? = some (c, id) → c.isPeriod = false →
      r.times k ≤ c.allowed) ∧
    (∀ r₀, Reachable r₀ → ∀ c now r₁, r₀.Admits (.call c now) → r₀.step (.call c now) = .ok r₁ →
      ∀ r, Lib.Reach step (fun r e => r.Admits e ∧ e ≠ .cancel r₀.timer.tmId) r₁ r →
        (c.isPeriod = true → ∃ x ∈ r.timer.tmQueue, x.tnCallback = r₀.calls.length) ∧
        (c.isPeriod = false → (∀ x ∈ r.timer.tmQueue, x.tnCallback ≠ r₀.calls.length) →
          r.times r₀.calls.length = c.allowed)) ∧
    (∀ r₀, Reachable r₀ → ∀ id r₁, r₀.step (.cancel id) = .ok r₁ →
      ∀ r, Lib.Reach step (fun r e => r.Admits e ∧ ¬r.Gives id e) r₁ r → ∀ top now later r',
        r.step (.iterate top now later) = .ok r' → r'.dispatched ≠ r.dispatched →
        r'.dispatched = r.dispatched ++ [top] ∧ top.tnId ≠ id) := by
  refine ⟨fun r _ top now later r' ha h hne => ?_, fun r hr k c id hk hperiod => ?_,
    fun r₀ hr₀ c now r₁ ha h r hrun => ?_, fun r₀ _ id r₁ h r hrun top now later r' hstep hne => ?_⟩
  · obtain ⟨hran, hqueue, hdue, -⟩ := dispatched_top h hne
    obtain ⟨hmem, hmin⟩ := ha.2.2 hqueue
    exact ⟨hran, hdue.point, hmem, fun x hx => Int.not_lt.mp (hmin x hx)⟩
  · exact Nat.le_trans (Nat.le_add_right _ _) (hr.counted.within k c id hk hperiod)
  · have hc₁ : r₁.Counted := hr₀.counted.step ha h
    obtain ⟨s, hmade, rfl⟩ := step_call h
    have hinv := hrun.invariant (P := fun r => r.Counted ∧ Whole r₀.calls.length c r₀.timer.tmId r)
      (fun r e r' hp he hs => ⟨hp.1.step he.1 hs, hp.2.step hp.1 he.1 he.2 hs⟩)
      ⟨hc₁, hr₀.counted.whole hmade⟩
    refine ⟨hinv.2.stays, fun hperiod hgone => ?_⟩
    have hbal := hinv.2.balance hperiod
    rw [remaining_none hgone, Nat.add_zero] at hbal
    exact hbal
  · have hout := hrun.invariant (P := fun r => id ∉ r.timer.tmIdStateMap)
      (fun r e r' hp he hs => out_step hp he.2 hs) (out_of_cancel h)
    obtain ⟨hran, -, -, hin⟩ := dispatched_top hstep hne
    exact ⟨hran, fun hid => hout (hid ▸ hin)⟩

/-- A timer with one repetition, in a run of two iterations. -/
theorem dispatches_counted_example : ∃ r₁ r, (start 0).step (.call (.runRepeated 1 1) 0) = .ok r₁ ∧
    Lib.Reach step (fun r e => r.Admits e ∧ e ≠ .cancel 0) r₁ r ∧ r.times 0 = 2 := by
  have hcall : (start 0).step (.call (.runRepeated 1 1) 0) = .ok
      { timer := { tmQueue := [⟨1000000, 0, 0, 1, false, true, 1⟩], tmId := 1, tmIdStateMap := {0} }
        clock := 0, calls := [(.runRepeated 1 1, 0)], dispatched := [] } := rfl
  have hview : (Lib.checked step (fun r e => decide (r.Admits e ∧ e ≠ .cancel 0))
      { timer := { tmQueue := [⟨1000000, 0, 0, 1, false, true, 1⟩], tmId := 1, tmIdStateMap := {0} }
        clock := 0, calls := [(.runRepeated 1 1, 0)], dispatched := [] }
      [.iterate ⟨1000000, 0, 0, 1, false, true, 1⟩ 1000000 1000000,
        .iterate ⟨2000000, 0, 0, 0, false, true, 1⟩ 2000000 2000000]).map (·.timer.tmQueue) = some [] := by
    decide
  obtain ⟨r, hchecked, hgone⟩ := Option.map_eq_some_iff.mp hview
  have hrun := Lib.Reach.start.checked _ (fun _ _ => of_decide_eq_true) hchecked
  refine ⟨_, r, hcall, hrun, (dispatches_counted.2.2.1 (start 0) ⟨0, .start⟩ _ 0 _ (Int.le_refl 0) hcall r
    hrun).2 rfl ?_⟩
  rw [hgone]
  exact nofun

/-- An id can be cancelled before it is given. -/
theorem cancelled_id_dispatched : ¬∀ r₀, Reachable r₀ → ∀ id r₁, r₀.step (.cancel id) = .ok r₁ →
    ∀ r, Lib.Reach step Admits r₁ r → ∀ top now later r', r.Admits (.iterate top now later) →
      r.step (.iterate top now later) = .ok r' → r'.dispatched ≠ r.dispatched → top.tnId ≠ id := by
  intro hall
  have hcall : (start 0).step (.call (.runAt 5) 0) = .ok
      { timer := { tmQueue := [⟨5, 0, 0, 0, false, false, 0⟩], tmId := 1, tmIdStateMap := {0} }
        clock := 0, calls := [(.runAt 5, 0)], dispatched := [] } := rfl
  have hnow : (start 0).Admits (.call (.runAt 5) 0) := by decide
  exact hall (start 0) ⟨0, .start⟩ 0 (start 0) rfl _ (.next .start hnow hcall)
    ⟨5, 0, 0, 0, false, false, 0⟩ 10 10 _ (by decide) rfl (List.cons_ne_nil _ _) rfl

end Run

end MudouHttp.Timer
