import MudouHttp.Lib.Counting
import MudouHttp.Reactor.ThreadPool

/-!
# Tasks run once and in order

Every task is taken in the order of the pushes and executed at most once. A
worker that finds `stop_` set at the top of its loop returns whatever the queue
holds, so after `stop` each worker takes at most one more task, and only the
workers between that test and the `pop` do. `tasks_run_once`: what was added
before `stop` is executed exactly if those workers are enough for it.
-/

namespace MudouHttp

/-- Between the test of the loop and the `pop`. -/
def Worker.poised : Worker → Bool
  | .locking => true
  | .testing => true
  | .parking => true
  | .sleeping => true
  | .leaving => true
  | .taking => true
  | _ => false

def Worker.holds (task : Nat) : Worker → Bool
  | .starting t => t == task
  | .running t => t == task
  | _ => false

def Worker.owns : Worker → Bool
  | .testing => true
  | .parking => true
  | .leaving => true
  | .taking => true
  | _ => false

namespace ThreadPool

def poised (s : ThreadPool) : Nat := s.workers.countP Worker.poised

-- ---------------------------------------------------------------------------
-- What a step can do
-- ---------------------------------------------------------------------------

inductive Turn (s : ThreadPool) : Worker → Worker → ThreadPool → Prop
  | enter : s.stopFlag = false → Turn s .looping .locking s
  | quit : s.stopFlag = true → Turn s .looping .returned s
  | lock : s.locked = false → Turn s .locking .testing { s with locked := true }
  | ready : s.taskqueue ≠ [] ∨ s.stopFlag = true → Turn s .testing .leaving s
  | park : Turn s .testing .parking s
  | sleep : Turn s .parking .sleeping { s with locked := false }
  | wake : Turn s .sleeping .locking s
  | exit : s.stopFlag = true → s.taskqueue = [] →
    Turn s .leaving .returned { s with locked := false }
  | stay : s.stopFlag = false ∨ s.taskqueue ≠ [] → Turn s .leaving .taking s
  | take : s.taskqueue = task :: rest →
    Turn s .taking (.starting task)
      { s with taskqueue := rest, locked := false, taken := s.taken ++ [task] }
  | start : Turn s (.starting task) (.running task) { s with idle := s.idle - 1 }
  | execute : Turn s (.running task) .finishing { s with executed := s.executed ++ [task] }
  | finish : Turn s .finishing .looping { s with idle := s.idle + 1 }

theorem workerStep_ok (h : s.workerStep i w = .ok s') :
    ∃ w' m, Turn s w w' m ∧ s' = m.move i w' := by
  cases w with
  | looping =>
    cases h
    cases hf : s.stopFlag with
    | false => exact ⟨_, _, .enter hf, by simp⟩
    | true => exact ⟨_, _, .quit hf, by simp⟩
  | locking =>
    simp only [workerStep] at h
    split at h
    · cases h
    · rename_i hl
      cases h
      exact ⟨_, _, .lock (by simpa using hl), rfl⟩
  | testing =>
    cases h
    by_cases hready : s.taskqueue ≠ [] ∨ s.stopFlag = true
    · exact ⟨_, _, .ready hready, by rw [if_pos hready]⟩
    · exact ⟨_, _, .park, by rw [if_neg hready]⟩
  | parking =>
    cases h
    exact ⟨_, _, .sleep, rfl⟩
  | sleeping =>
    cases h
    exact ⟨_, _, .wake, rfl⟩
  | leaving =>
    simp only [workerStep] at h
    split at h
    · rename_i hexit
      cases h
      exact ⟨_, _, .exit hexit.1 hexit.2, rfl⟩
    · rename_i hstay
      cases h
      refine ⟨_, _, .stay ?_, rfl⟩
      cases hf : s.stopFlag with
      | false => exact .inl rfl
      | true => exact .inr fun hq => hstay ⟨hf, hq⟩
  | taking =>
    simp only [workerStep] at h
    split at h
    · cases h
    · rename_i hq
      cases h
      exact ⟨_, _, .take hq, rfl⟩
  | starting task =>
    cases h
    exact ⟨_, _, .start, rfl⟩
  | running task =>
    cases h
    exact ⟨_, _, .execute, rfl⟩
  | finishing =>
    cases h
    exact ⟨_, _, .finish, rfl⟩
  | returned => cases h

theorem Turn.workers (h : Turn s w w' m) : m.workers = s.workers := by
  cases h <;> rfl

theorem Turn.mem (h : Turn s w w' m) (hv : v ∈ (m.move i w').workers) : v ∈ s.workers ∨ v = w' := by
  rw [move, h.workers] at hv
  exact List.mem_or_eq_of_mem_set hv

theorem Turn.countP (h : Turn s w w' m) (hw : s.workers[i]? = some w) (p : Worker → Bool) :
    (m.move i w').workers.countP p + (p w).toNat = s.workers.countP p + (p w').toNat := by
  rw [move, h.workers]
  exact Lib.countP_set p hw w'

inductive Change (s : ThreadPool) : Event → ThreadPool → Prop
  | turn : s.workers[i]? = some w → Turn s w w' m → Change s (.worker i) (m.move i w')
  | push : s.locked = false → Change s .addtask { s with
      taskqueue := s.taskqueue ++ [s.added], added := s.added + 1, adding := s.added :: s.adding }
  | noted : Change s (.notifyOne task none) { s with adding := s.adding.erase task }
  | notified : s.workers[i]? = some .sleeping → Change s (.notifyOne task (some i))
      ({ s with adding := s.adding.erase task }.move i .locking)
  | again : s.stopper = .idle → s.stopFlag = true → Change s .stop { s with stopper := .done }
  | enter : s.stopper = .idle → s.stopFlag = false → Change s .stop { s with
      stopper := .entered, due := (List.range s.added).filter fun task => task ∉ s.adding }
  | set : s.stopper = .entered → Change s .stop { s with stopFlag := true, stopper := .set }
  | notifyAll : s.stopper = .set →
    Change s .stop { s with workers := s.workers.map wakeUp, stopper := .joining 0 }
  | join : s.stopper = .joining joined → s.workers[joined]? = some .returned →
    Change s .stop { s with stopper := .joining (joined + 1) }
  | joined : s.stopper = .joining joined → s.workers[joined]? = none →
    Change s .stop { s with stopper := .done }

theorem notifyOne_ok (h : s.notifyOne task woken = .ok s') :
    Change s (.notifyOne task woken) s' := by
  simp only [notifyOne] at h
  split at h
  · cases woken with
    | none =>
      simp only at h
      split at h
      · cases h
      · cases h
        exact .noted
    | some i =>
      simp only at h
      split at h
      · rename_i hi
        cases h
        exact .notified hi
      · cases h
  · cases h

theorem stopStep_ok (h : s.stopStep = .ok s') : Change s .stop s' := by
  simp only [stopStep] at h
  split at h
  · rename_i hidle
    split at h
    · rename_i hf
      cases h
      exact .again hidle hf
    · rename_i hf
      cases h
      exact .enter hidle (by simpa using hf)
  · rename_i hentered
    cases h
    exact .set hentered
  · rename_i hset
    cases h
    exact .notifyAll hset
  · rename_i joined hjoining
    split at h
    · rename_i hnone
      cases h
      exact .joined hjoining hnone
    · rename_i w hw
      split at h
      · rename_i hreturned
        cases h
        exact .join hjoining (hw.trans (congrArg some hreturned))
      · cases h
  · cases h

theorem step_ok (h : s.step e = .ok s') : Change s e s' := by
  cases e with
  | worker i =>
    simp only [step] at h
    split at h
    · cases h
    · rename_i w hw
      obtain ⟨w', m, hturn, rfl⟩ := workerStep_ok h
      exact .turn hw hturn
  | addtask =>
    simp only [step, addtask] at h
    split at h
    · cases h
    · rename_i hl
      cases h
      exact .push (by simpa using hl)
  | notifyOne task woken => exact notifyOne_ok h
  | stop => exact stopStep_ok h

-- ---------------------------------------------------------------------------
-- The workers after notify_all
-- ---------------------------------------------------------------------------

theorem mem_wakeUp {workers : List Worker} (h : w ∈ workers.map wakeUp) (hne : w ≠ .locking) :
    w ∈ workers ∧ w ≠ .sleeping := by
  obtain ⟨v, hv, rfl⟩ := List.mem_map.mp h
  unfold wakeUp at hne ⊢
  split at hne
  · exact absurd rfl hne
  · rename_i hawake
    rw [if_neg hawake]
    exact ⟨hv, hawake⟩

theorem countP_wakeUp (p : Worker → Bool) (h : p .locking = p .sleeping) (workers : List Worker) :
    (workers.map wakeUp).countP p = workers.countP p := by
  rw [List.countP_map]
  refine List.countP_congr fun w _ => ?_
  simp only [Function.comp, wakeUp]
  split
  · rename_i hw
    rw [hw, h]
  · exact Iff.rfl

-- ---------------------------------------------------------------------------
-- Each task once and in order
-- ---------------------------------------------------------------------------

structure Numbered (s : ThreadPool) : Prop where
  order : s.taken ++ s.taskqueue = List.range s.added
  once : ∀ task, s.executed.count task + s.workers.countP (Worker.holds task) = s.taken.count task
  due : ∀ task ∈ s.due, task < s.added

theorem Numbered.turn (h : Numbered s) (hw : s.workers[i]? = some w) (ht : Turn s w w' m) :
    Numbered (m.move i w') := by
  refine ⟨?_, fun task => ?_, ?_⟩
  · cases ht with
    | take hq => simpa [move, hq] using h.order
    | _ => exact h.order
  · have hone := h.once task
    have hmoved := ht.countP hw (Worker.holds task)
    cases ht with
    | @take t rest hq =>
      simp only [move, Worker.holds, Bool.toNat_false, Lib.count_concat] at hmoved ⊢
      omega
    | @execute t =>
      simp only [move, Worker.holds, Bool.toNat_false, Lib.count_concat] at hmoved ⊢
      omega
    | _ =>
      simp only [move, Worker.holds] at hmoved ⊢
      omega
  · cases ht <;> exact h.due

theorem Numbered.change (h : Numbered s) (hc : Change s e s') : Numbered s' := by
  cases hc with
  | turn hw ht => exact h.turn hw ht
  | push _ =>
    refine ⟨?_, h.once, fun task ht => Nat.lt_succ_of_lt (h.due task ht)⟩
    rw [← List.append_assoc, h.order, List.range_succ]
  | noted => exact ⟨h.order, h.once, h.due⟩
  | @notified i task hw =>
    have hnoted : Numbered { s with adding := s.adding.erase task } := ⟨h.order, h.once, h.due⟩
    exact hnoted.turn hw .wake
  | again _ _ => exact ⟨h.order, h.once, h.due⟩
  | enter _ _ =>
    refine ⟨h.order, h.once, fun task ht => ?_⟩
    exact List.mem_range.mp (List.mem_filter.mp ht).1
  | set _ => exact ⟨h.order, h.once, h.due⟩
  | notifyAll _ =>
    refine ⟨h.order, fun task => ?_, h.due⟩
    rw [countP_wakeUp _ rfl]
    exact h.once task
  | join _ _ => exact ⟨h.order, h.once, h.due⟩
  | joined _ _ => exact ⟨h.order, h.once, h.due⟩

theorem new_numbered (threadnum : Nat) : Numbered (new threadnum) := by
  refine ⟨rfl, fun task => ?_, nofun⟩
  simp [new, List.countP_replicate, Worker.holds]

theorem Numbered.taken_eq (h : Numbered s) : s.taken = List.range s.taken.length := by
  have hprefix : s.taken <+: List.range s.added := ⟨_, h.order⟩
  have hlen := hprefix.length_le
  rw [List.length_range] at hlen
  rw [List.prefix_iff_eq_take.mp hprefix, List.take_range, List.length_range,
    Nat.min_eq_left hlen]

theorem Numbered.nodup (h : Numbered s) : s.executed.Nodup := by
  refine List.nodup_iff_count.mpr fun task => ?_
  have htaken : s.taken.Nodup := h.taken_eq ▸ List.nodup_range
  have hone := h.once task
  have hle := List.nodup_iff_count.mp htaken task
  omega

theorem Numbered.mem_taken (h : Numbered s) : task ∈ s.taken ↔ task < s.taken.length := by
  rw [h.taken_eq, List.mem_range, List.length_range]

theorem Numbered.mem_drop (h : Numbered s) (ht : task < s.added) :
    task ∈ s.taskqueue.drop k ↔ s.taken.length + k ≤ task := by
  have hdrop : s.taskqueue.drop k = (List.range s.added).drop (s.taken.length + k) := by
    rw [← h.order, List.drop_length_add_append]
  rw [hdrop, List.range_eq_range', List.drop_range', List.mem_range'_1]
  omega

-- ---------------------------------------------------------------------------
-- The lock
-- ---------------------------------------------------------------------------

structure Guarded (s : ThreadPool) : Prop where
  owner : s.workers.countP Worker.owns = s.locked.toNat
  leaving : Worker.leaving ∈ s.workers → s.taskqueue ≠ [] ∨ s.stopFlag = true
  taking : Worker.taking ∈ s.workers → s.taskqueue ≠ []

theorem Guarded.turn (h : Guarded s) (hw : s.workers[i]? = some w) (ht : Turn s w w' m) :
    Guarded (m.move i w') := by
  have hmoved : (m.move i w').workers.countP Worker.owns + w.owns.toNat =
      s.locked.toNat + w'.owns.toNat := by
    rw [← h.owner]
    exact ht.countP hw Worker.owns
  have hmem : ∀ v ∈ (m.move i w').workers, v ∈ s.workers ∨ v = w' := fun _ hv => ht.mem hv
  have hunlocked : w.owns = true → w'.owns = false →
      (m.move i w').workers.countP Worker.owns = 0 := by
    intro hown hleft
    have hle := Bool.toNat_le s.locked
    rw [hown, hleft, Bool.toNat_true, Bool.toNat_false] at hmoved
    omega
  cases ht with
  | lock hl =>
    rw [hl] at hmoved
    refine ⟨hmoved, fun hv => ?_, fun hv => ?_⟩
    · exact h.leaving ((hmem _ hv).resolve_right nofun)
    · exact h.taking ((hmem _ hv).resolve_right nofun)
  | ready hready =>
    refine ⟨Nat.add_right_cancel hmoved, fun _ => hready, fun hv => ?_⟩
    exact h.taking ((hmem _ hv).resolve_right nofun)
  | stay hstay =>
    have hne : s.taskqueue ≠ [] := by
      rcases hstay with hf | hq
      · exact (h.leaving (List.mem_of_getElem? hw)).resolve_right (by simp [hf])
      · exact hq
    exact ⟨Nat.add_right_cancel hmoved, fun _ => .inl hne, fun _ => hne⟩
  | take _ =>
    have hnone := List.countP_eq_zero.mp (hunlocked rfl rfl)
    exact ⟨hunlocked rfl rfl, fun hv => absurd rfl (hnone _ hv), fun hv => absurd rfl (hnone _ hv)⟩
  | sleep =>
    refine ⟨hunlocked rfl rfl, fun hv => ?_, fun hv => ?_⟩
    · exact h.leaving ((hmem _ hv).resolve_right nofun)
    · exact h.taking ((hmem _ hv).resolve_right nofun)
  | exit _ _ =>
    refine ⟨hunlocked rfl rfl, fun hv => ?_, fun hv => ?_⟩
    · exact h.leaving ((hmem _ hv).resolve_right nofun)
    · exact h.taking ((hmem _ hv).resolve_right nofun)
  | _ =>
    refine ⟨Nat.add_right_cancel hmoved, fun hv => ?_, fun hv => ?_⟩
    · exact h.leaving ((hmem _ hv).resolve_right nofun)
    · exact h.taking ((hmem _ hv).resolve_right nofun)

theorem Guarded.change (h : Guarded s) (hc : Change s e s') : Guarded s' := by
  cases hc with
  | turn hw ht => exact h.turn hw ht
  | push _ => exact ⟨h.owner, fun hv => .inl (by simp), fun hv => by simp⟩
  | @notified i task hw =>
    have hnoted : Guarded { s with adding := s.adding.erase task } := ⟨h.owner, h.leaving, h.taking⟩
    exact hnoted.turn hw .wake
  | set _ => exact ⟨h.owner, fun _ => .inr rfl, h.taking⟩
  | notifyAll _ =>
    refine ⟨(countP_wakeUp _ rfl _).trans h.owner, fun hv => ?_, fun hv => ?_⟩
    · exact h.leaving (mem_wakeUp hv nofun).1
    · exact h.taking (mem_wakeUp hv nofun).1
  | _ => exact ⟨h.owner, h.leaving, h.taking⟩

theorem new_guarded (threadnum : Nat) : Guarded (new threadnum) := by
  refine ⟨by simp [new, List.countP_replicate, Worker.owns], fun hv => ?_, fun hv => ?_⟩
  · exact absurd (List.eq_of_mem_replicate hv) nofun
  · exact absurd (List.eq_of_mem_replicate hv) nofun

-- ---------------------------------------------------------------------------
-- How far stop is
-- ---------------------------------------------------------------------------

structure Staged (s : ThreadPool) : Prop where
  flag : s.stopFlag = true ↔ s.stopper ≠ .idle ∧ s.stopper ≠ .entered
  joining : s.stopper = .joining joined → ∀ i, i < joined → s.workers[i]? = some .returned
  done : s.stopper = .done → ∀ i, i < s.workers.length → s.workers[i]? = some .returned

theorem move_returned {s m : ThreadPool} {i j : Nat} (hw : s.workers[i]? = some w)
    (ht : Turn s w w' m) (hj : s.workers[j]? = some .returned) :
    (m.move i w').workers[j]? = some .returned := by
  have hne : i ≠ j := by
    rintro rfl
    rw [hw] at hj
    cases hj
    cases ht
  rw [move, ht.workers, List.getElem?_set_ne hne]
  exact hj

theorem Staged.turn (h : Staged s) (hw : s.workers[i]? = some w) (ht : Turn s w w' m) :
    Staged (m.move i w') := by
  have hstopper : m.stopper = s.stopper := by cases ht <;> rfl
  have hflag : m.stopFlag = s.stopFlag := by cases ht <;> rfl
  refine ⟨?_, fun hjoining j hj => ?_, fun hdone j hj => ?_⟩
  · simpa only [move, hstopper, hflag] using h.flag
  · exact move_returned hw ht (h.joining (hstopper.symm.trans hjoining) j hj)
  · refine move_returned hw ht (h.done (hstopper.symm.trans hdone) j ?_)
    simpa only [move, ht.workers, List.length_set] using hj

theorem Staged.change (h : Staged s) (hc : Change s e s') : Staged s' := by
  cases hc with
  | turn hw ht => exact h.turn hw ht
  | push _ => exact ⟨h.flag, h.joining, h.done⟩
  | noted => exact ⟨h.flag, h.joining, h.done⟩
  | @notified i task hw =>
    have hnoted : Staged { s with adding := s.adding.erase task } := ⟨h.flag, h.joining, h.done⟩
    exact hnoted.turn hw .wake
  | again hidle hf => exact absurd hidle (h.flag.mp hf).1
  | enter _ hf => exact ⟨by simp [hf], nofun, nofun⟩
  | set _ => exact ⟨by simp, nofun, nofun⟩
  | notifyAll hset =>
    have hf := h.flag.mpr ⟨by simp [hset], by simp [hset]⟩
    refine ⟨by simp [hf], fun hjoining i hi => ?_, nofun⟩
    cases hjoining
    cases hi
  | @join joined hjoining hw =>
    have hf := h.flag.mpr ⟨by simp [hjoining], by simp [hjoining]⟩
    refine ⟨by simp [hf], fun hnext i hi => ?_, nofun⟩
    cases hnext
    rcases Nat.lt_succ_iff_lt_or_eq.mp hi with hi | rfl
    · exact h.joining hjoining i hi
    · exact hw
  | @joined joined hjoining hnone =>
    have hf := h.flag.mpr ⟨by simp [hjoining], by simp [hjoining]⟩
    refine ⟨by simp [hf], nofun, fun _ i hi => h.joining hjoining i ?_⟩
    exact Nat.lt_of_lt_of_le hi (List.getElem?_eq_none_iff.mp hnone)

theorem new_staged (threadnum : Nat) : Staged (new threadnum) :=
  ⟨by simp [new], nofun, nofun⟩

theorem Staged.countP_done (h : Staged s) (hd : s.stopper = .done) (p : Worker → Bool)
    (hp : p .returned = false) : s.workers.countP p = 0 := by
  refine List.countP_eq_zero.mpr fun w hw => ?_
  obtain ⟨i, hi, rfl⟩ := List.getElem_of_mem hw
  have hr := h.done hd i hi
  rw [List.getElem?_eq_getElem hi] at hr
  simp [Option.some.inj hr, hp]

-- ---------------------------------------------------------------------------
-- After stop_ is set
-- ---------------------------------------------------------------------------

/-- `s₀` is the state in which `stop_` is set. Each worker poised there takes a
task, unless it finds all that was added by then taken. -/
structure Closing (s₀ s : ThreadPool) : Prop where
  flag : s.stopFlag = true
  due : s.due = s₀.due
  added : s₀.added ≤ s.added
  atMost : s.taken.length + s.poised ≤ s₀.taken.length + s₀.poised
  emptied : s.taken.length + s.poised < s₀.taken.length + s₀.poised → s₀.added ≤ s.taken.length

/-- Nothing but the return of a poised worker changes what is left to take. -/
theorem Closing.keep (h : Closing s₀ s) (hflag : s'.stopFlag = s.stopFlag) (hdue : s'.due = s.due)
    (hadded : s.added ≤ s'.added) (htaken : s.taken.length ≤ s'.taken.length)
    (hsum : s'.taken.length + s'.poised = s.taken.length + s.poised) : Closing s₀ s' := by
  refine ⟨hflag.trans h.flag, hdue.trans h.due, Nat.le_trans h.added hadded, hsum ▸ h.atMost, ?_⟩
  exact fun hlt => Nat.le_trans (h.emptied (hsum ▸ hlt)) htaken

theorem Closing.turn (h : Closing s₀ s) (hn : Numbered s) (hw : s.workers[i]? = some w)
    (ht : Turn s w w' m) : Closing s₀ (m.move i w') := by
  have hmoved : (m.move i w').poised + w.poised.toNat = s.poised + w'.poised.toNat :=
    ht.countP hw Worker.poised
  have hlen : s.taken.length + s.taskqueue.length = s.added := by
    simpa using congrArg List.length hn.order
  cases ht with
  | enter hf => exact absurd (h.flag.symm.trans hf) (by simp)
  | exit _ hq =>
    have hall : s.added = s.taken.length := by simpa [hq] using hlen.symm
    have hpoised : ({ s with locked := false }.move i .returned).poised + 1 = s.poised := hmoved
    refine ⟨h.flag, h.due, h.added, ?_, fun _ => hall ▸ h.added⟩
    exact Nat.le_trans (Nat.add_le_add_left (Nat.le_of_succ_le (Nat.le_of_eq hpoised)) _) h.atMost
  | @take task rest hq =>
    refine h.keep rfl rfl (Nat.le_refl _) (by simp [move]) ?_
    simp only [move, List.length_append, List.length_singleton]
    exact (Nat.add_assoc ..).trans (congrArg _ ((Nat.add_comm ..).trans hmoved))
  | _ => exact h.keep rfl rfl (Nat.le_refl _) (Nat.le_refl _) (congrArg _ (Nat.add_right_cancel hmoved))

theorem Closing.change (h : Closing s₀ s) (hn : Numbered s) (hs : Staged s) (hc : Change s e s') :
    Closing s₀ s' := by
  cases hc with
  | turn hw ht => exact h.turn hn hw ht
  | push _ => exact h.keep rfl rfl (Nat.le_succ _) (Nat.le_refl _) rfl
  | noted => exact h.keep rfl rfl (Nat.le_refl _) (Nat.le_refl _) rfl
  | @notified i task hw =>
    have hnoted : Closing s₀ { s with adding := s.adding.erase task } :=
      h.keep rfl rfl (Nat.le_refl _) (Nat.le_refl _) rfl
    exact hnoted.turn ⟨hn.order, hn.once, hn.due⟩ hw .wake
  | again _ _ => exact h.keep rfl rfl (Nat.le_refl _) (Nat.le_refl _) rfl
  | enter _ hf => exact absurd (h.flag.symm.trans hf) (by simp)
  | set hentered => exact absurd hentered (hs.flag.mp h.flag).2
  | notifyAll _ =>
    exact h.keep rfl rfl (Nat.le_refl _) (Nat.le_refl _) (congrArg _ (countP_wakeUp _ rfl _))
  | join _ _ => exact h.keep rfl rfl (Nat.le_refl _) (Nat.le_refl _) rfl
  | joined _ _ => exact h.keep rfl rfl (Nat.le_refl _) (Nat.le_refl _) rfl

theorem set_closing (hs : s.stopper = .entered) (h : s.step .stop = .ok s') : Closing s s' := by
  simp only [step, stopStep, hs] at h
  cases h
  exact ⟨rfl, rfl, Nat.le_refl _, Nat.le_refl _, fun hlt => absurd hlt (Nat.lt_irrefl _)⟩

-- ---------------------------------------------------------------------------
-- Runs
-- ---------------------------------------------------------------------------

/-- The poised workers are enough for every task added before `stop`. -/
def Covered (s : ThreadPool) : Prop := ∀ task ∈ s.due, task ∉ s.taskqueue.drop s.poised

def Meets (s : ThreadPool) (e : Event) : Prop := e = .stop → s.stopper = .entered → Covered s

def Sound (s : ThreadPool) : Prop := Numbered s ∧ Staged s

theorem sound_preserved (meets : ThreadPool → Event → Prop) : Lib.Preserves step meets Sound :=
  fun _ _ _ h _ hs => ⟨h.1.change (step_ok hs), h.2.change (step_ok hs)⟩

theorem sound_of_reach (h : Lib.Reach step meets (new n) s) : Sound s :=
  h.invariant (sound_preserved meets) ⟨new_numbered n, new_staged n⟩

theorem closing_preserved (s₀ : ThreadPool) :
    Lib.Preserves step (fun _ _ => True) fun s => Sound s ∧ Closing s₀ s :=
  fun _ _ _ h _ hs =>
    ⟨sound_preserved (fun _ _ => True) _ _ _ h.1 trivial hs, h.2.change h.1.1 h.1.2 (step_ok hs)⟩

/-- Once all workers have returned, what was taken has been executed. -/
theorem executed_iff (h : Sound s) (hd : s.stopper = .done) : task ∈ s.executed ↔ task ∈ s.taken := by
  have hone := h.1.once task
  rw [h.2.countP_done hd _ rfl] at hone
  rw [← List.count_pos_iff, ← List.count_pos_iff, ← hone]
  rfl

theorem executed_iff_covered (h₀ : Sound s₀) (h : Sound s) (hc : Closing s₀ s)
    (hd : s.stopper = .done) : (∀ task ∈ s.due, task ∈ s.executed) ↔ Covered s₀ := by
  have hpoised : s.poised = 0 := h.2.countP_done hd _ rfl
  have hmost := hc.atMost
  have hemptied := hc.emptied
  rw [hpoised, Nat.add_zero] at hmost hemptied
  rw [hc.due]
  refine forall₂_congr fun task ht => ?_
  have hadded := h₀.1.due task ht
  rw [executed_iff h hd, h.1.mem_taken, h₀.1.mem_drop hadded]
  omega

theorem Change.flag (hc : Change s e s') (hf : s.stopFlag = false) (hf' : s'.stopFlag = true) :
    e = .stop ∧ s.stopper = .entered := by
  cases hc with
  | set hentered => exact ⟨rfl, hentered⟩
  | turn _ ht => cases ht <;> exact absurd (hf.symm.trans hf') (by simp)
  | _ => exact absurd (hf.symm.trans hf') (by simp)

/-- A run whose steps meet the condition set `stop_` in a covered state. -/
theorem covered_of_reach (h : Lib.Reach step Meets (new n) s) (hf : s.stopFlag = true) :
    ∃ s₀, Sound s₀ ∧ Covered s₀ ∧ Closing s₀ s := by
  induction h with
  | start => cases hf
  | @next s e s' hr hm hs ih =>
    have hsound := sound_of_reach hr
    cases hold : s.stopFlag with
    | true =>
      obtain ⟨s₀, h₀, hcovered, hclosing⟩ := ih hold
      exact ⟨s₀, h₀, hcovered, hclosing.change hsound.1 hsound.2 (step_ok hs)⟩
    | false =>
      obtain ⟨rfl, hentered⟩ := (step_ok hs).flag hold hf
      exact ⟨s, hsound, hm rfl hentered, set_closing hentered hs⟩

/-- Tasks are taken in order and executed at most once in every run. What was
added before `stop` is executed in every run that sets `stop_` only while the
poised workers are enough for it, and in no other run that joins them all. -/
theorem tasks_run_once (threadnum : Nat) :
    (∀ s, Lib.Reach step (fun _ _ => True) (new threadnum) s →
      s.taken ++ s.taskqueue = List.range s.added ∧ s.executed.Nodup) ∧
    (∀ s, Lib.Reach step Meets (new threadnum) s → s.stopper = .done →
      ∀ task ∈ s.due, task ∈ s.executed) ∧
    ∀ s₀ s₁ s, Lib.Reach step (fun _ _ => True) (new threadnum) s₀ → s₀.stopper = .entered →
      s₀.step .stop = .ok s₁ → Lib.Reach step (fun _ _ => True) s₁ s → s.stopper = .done →
      ((∀ task ∈ s.due, task ∈ s.executed) ↔ Covered s₀) := by
  refine ⟨fun s h => ?_, fun s h hd => ?_, fun s₀ s₁ s h₀ hentered hset h hd => ?_⟩
  · have hsound := sound_of_reach h
    exact ⟨hsound.1.order, hsound.1.nodup⟩
  · have hsound := sound_of_reach h
    have hf := hsound.2.flag.mpr ⟨by simp [hd], by simp [hd]⟩
    obtain ⟨s₀, h₀, hcovered, hclosing⟩ := covered_of_reach h hf
    exact (executed_iff_covered h₀ hsound hclosing hd).mpr hcovered
  · have hsound₀ := sound_of_reach h₀
    have hsound₁ := sound_preserved (fun _ _ => True) _ _ _ hsound₀ trivial hset
    obtain ⟨hsound, hclosing⟩ :=
      h.invariant (closing_preserved s₀) ⟨hsound₁, set_closing hentered hset⟩
    exact executed_iff_covered hsound₀ hsound hclosing hd

/-- The worker is past the test of its loop when `stop_` is set. -/
theorem tasks_run_once_example :
    ∃ s, Lib.Reach step Meets (new 1) s ∧ s.due = [0] ∧
      (∀ task ∈ s.due, task ∈ s.executed) ∧ s.executed.Nodup := by
  obtain ⟨hall, hcovered, hiff⟩ := tasks_run_once 1
  have hrun : ∃ s₀ s₁ s, Lib.runs step (new 1) [.addtask, .notifyOne 0 none, .worker 0, .stop] =
      .ok s₀ ∧ s₀.stopper = .entered ∧ s₀.poised = 1 ∧ s₀.taskqueue = [0] ∧
      s₀.step .stop = .ok s₁ ∧
      Lib.runs step s₁ (.stop :: List.replicate 8 (.worker 0) ++ [.stop, .stop]) = .ok s ∧
      Lib.AllMeet step Meets s₁ (.stop :: List.replicate 8 (.worker 0) ++ [.stop, .stop]) ∧
      s.stopper = .done ∧ s.due = [0] :=
    ⟨_, _, _, rfl, rfl, rfl, rfl, rfl, rfl,
      ⟨nofun, nofun, nofun, nofun, nofun, nofun, nofun, nofun, nofun, nofun, nofun, trivial⟩,
      rfl, rfl⟩
  obtain ⟨s₀, s₁, s, h₀, hentered, hpoised, hqueue, hset, h, hmeets, hdone, hdue⟩ := hrun
  have hmeets₀ : Lib.AllMeet step Meets (new 1) [.addtask, .notifyOne 0 none, .worker 0, .stop] :=
    ⟨nofun, nofun, nofun, nofun, trivial⟩
  have hs₀ : Covered s₀ := fun task _ => by simp [hpoised, hqueue]
  have hreach₀ := Lib.Reach.start.runs _ hmeets₀ h₀
  have hreach := (hreach₀.next (fun _ _ => hs₀) hset).runs _ hmeets h
  have hexecuted := hcovered s hreach hdone
  exact ⟨s, hreach, hdue, hexecuted, (hall s (hreach.mono fun _ _ _ => trivial)).2⟩

/-- The worker gets to the test of its loop after `stop_` is set. -/
theorem late_worker_returns :
    ¬∀ threadnum s, 1 ≤ threadnum →
      Lib.Reach step (fun _ _ => True) (new threadnum) s → s.stopper = .done →
      ∀ task ∈ s.due, task ∈ s.executed := by
  intro h
  have hrun : ∃ s, Lib.runs step (new 1)
      [.addtask, .notifyOne 0 none, .stop, .stop, .worker 0, .stop, .stop, .stop] = .ok s ∧
      s.stopper = .done ∧ s.due = [0] ∧ s.executed = [] := ⟨_, rfl, rfl, rfl, rfl⟩
  obtain ⟨s, hs, hdone, hdue, hexecuted⟩ := hrun
  have hreach := Lib.Reach.start.runs _ (.of_all (fun _ _ => trivial) _ _) hs
  have hmem := h 1 s (Nat.le_refl 1) hreach hdone 0 (by simp [hdue])
  rw [hexecuted] at hmem
  cases hmem

end ThreadPool

end MudouHttp
