import MudouHttp.Lib.Notify
import MudouHttp.Reactor.Tasks

/-!
# The workers wake up for stop

`stop` sets `stop_` without the mutex, so its `notify_all` may come between a
worker's test of the queue and its sleep. Such a worker sleeps on, and `stop`
waits for it (`notifyAll`).
-/

namespace MudouHttp

namespace ThreadPool

variable {s s' : ThreadPool}

/-- `stop` joins while a worker sleeps and no call is going to wake it up. -/
def Hung (s : ThreadPool) : Prop :=
  (∃ joined, s.stopper = .joining joined) ∧ .sleeping ∈ s.workers ∧ s.taskqueue = [] ∧ s.adding = []

/-- A sleeping worker wakes up for a notification only. -/
def Notified (s : ThreadPool) : Event → Prop
  | .worker i => s.workers[i]? ≠ some .sleeping
  | _ => True

/-- `notify_all` finds no worker between the test of the queue and the sleep. -/
def Seen (s : ThreadPool) : Event → Prop
  | .stop => s.stopper = .set → .parking ∉ s.workers
  | e => Notified s e

instance (s : ThreadPool) : (e : Event) → Decidable (Notified s e)
  | .worker i => inferInstanceAs (Decidable (s.workers[i]? ≠ some .sleeping))
  | .addtask | .notifyOne _ _ | .stop => inferInstanceAs (Decidable True)

instance (s : ThreadPool) : (e : Event) → Decidable (Seen s e)
  | .stop => inferInstanceAs (Decidable (s.stopper = .set → .parking ∉ s.workers))
  | .worker i => inferInstanceAs (Decidable (Notified s (.worker i)))
  | .addtask | .notifyOne _ _ => inferInstanceAs (Decidable True)

def Resting (w : Worker) : Prop := w = .parking ∨ w = .sleeping

-- ---------------------------------------------------------------------------
-- Nobody goes to sleep after stop_ is set
-- ---------------------------------------------------------------------------

theorem testing_ok (h : s.step (.worker i) = .ok s') (hw : s.workers[i]? = some .testing) :
    s' = s.move i (if s.taskqueue ≠ [] ∨ s.stopFlag then .leaving else .parking) := by
  simp only [step, hw, workerStep, Except.ok.injEq] at h
  exact h.symm

theorem turn_resting (h : s.step (.worker i) = .ok s') (hw : s.workers[i]? = some w)
    (ht : Turn s w w' m) (hs : s' = m.move i w') (hrest : Resting w') :
    w = .parking ∨ w = .testing ∧ s.taskqueue = [] ∧ s.stopFlag = false := by
  cases ht with
  | sleep => exact .inl rfl
  | park =>
    refine .inr ⟨rfl, ?_⟩
    have hi := (List.getElem?_eq_some_iff.mp hw).1
    have hmoved := congrArg (·.workers[i]?) ((testing_ok h hw).symm.trans hs)
    simp only [move, List.getElem?_set_self hi, Option.some.injEq] at hmoved
    split at hmoved
    · cases hmoved
    · rename_i hnot
      simpa using hnot
  | _ => exact absurd hrest (by simp [Resting])

theorem parking_of_resting {workers : List Worker} (h : w ∈ workers.map wakeUp)
    (hrest : Resting w) : .parking ∈ workers := by
  rcases hrest with rfl | rfl
  · exact (mem_wakeUp h nofun).1
  · exact absurd rfl (mem_wakeUp h nofun).2

structure Awake (s : ThreadPool) : Prop where
  flag : s.stopFlag = true
  awake : ∀ w ∈ s.workers, ¬Resting w

theorem Awake.step (h : Awake s) (hs : s.step e = .ok s') : Awake s' := by
  cases hc : step_ok hs with
  | @turn i w w' m hw ht =>
    have hflag : m.stopFlag = s.stopFlag := by cases ht <;> rfl
    refine ⟨hflag.trans h.flag, fun v hv hrest => ?_⟩
    rcases ht.mem hv with hv | rfl
    · exact h.awake v hv hrest
    · rcases turn_resting hs hw ht rfl hrest with rfl | ⟨_, _, hunset⟩
      · exact h.awake _ (List.mem_of_getElem? hw) (.inl rfl)
      · exact absurd (h.flag.symm.trans hunset) nofun
  | notified hi => exact absurd (.inr rfl) (h.awake _ (List.mem_of_getElem? hi))
  | set _ => exact ⟨rfl, h.awake⟩
  | notifyAll _ =>
    exact ⟨h.flag, fun v hv hrest => h.awake _ (parking_of_resting hv hrest) (.inl rfl)⟩
  | _ => exact ⟨h.flag, h.awake⟩

theorem Awake.not_hung (h : Awake s) : ¬s.Hung :=
  fun hhung => h.awake _ hhung.2.1 (.inr rfl)

theorem notifyAll_awake (hf : s.stopFlag = true) (hset : s.stopper = .set)
    (hnone : .parking ∉ s.workers) (hs : s.step .stop = .ok s') : Awake s' := by
  simp only [step, stopStep, hset, Except.ok.injEq] at hs
  subst hs
  exact ⟨hf, fun v hv hrest => hnone (parking_of_resting hv hrest)⟩

-- ---------------------------------------------------------------------------
-- A worker that notify_all finds before its sleep
-- ---------------------------------------------------------------------------

/-- The queue a parking worker has found empty stays empty: it holds the mutex. -/
structure Parked (s : ThreadPool) : Prop where
  guarded : Guarded s
  empty : .parking ∈ s.workers → s.taskqueue = []

theorem Parked.step (h : Parked s) (hs : s.step e = .ok s') : Parked s' := by
  refine ⟨h.guarded.change (step_ok hs), fun hparking => ?_⟩
  cases hc : step_ok hs with
  | @turn i w w' m hw ht =>
    have hempty : s.taskqueue = [] := by
      rcases ht.mem hparking with hmem | rfl
      · exact h.empty hmem
      · rcases turn_resting hs hw ht rfl (.inl rfl) with rfl | ⟨_, hempty, _⟩
        · exact h.empty (List.mem_of_getElem? hw)
        · exact hempty
    cases ht with
    | take hq => cases hempty.symm.trans hq
    | _ => exact hempty
  | push hl =>
    have hpos : 0 < s.workers.countP Worker.owns := List.countP_pos_iff.mpr ⟨_, hparking, rfl⟩
    rw [h.guarded.owner, hl] at hpos
    cases hpos
  | notified _ => exact h.empty ((List.mem_or_eq_of_mem_set hparking).resolve_right nofun)
  | notifyAll _ =>
    exact h.empty (mem_wakeUp hparking nofun).1
  | _ => exact h.empty hparking

theorem new_parked (threadnum : Nat) : Parked (new threadnum) :=
  ⟨new_guarded threadnum, fun hparking => absurd (List.eq_of_mem_replicate hparking) nofun⟩

/-- With nobody asleep the calls of `addtask` return without waking anyone up. -/
theorem drain (adding : List Nat) (h : .sleeping ∉ s.workers) :
    Lib.Reach step Notified { s with adding := adding } { s with adding := [] } := by
  induction adding with
  | nil => exact .start
  | cons task rest ih =>
    have hfirst : ({ s with adding := task :: rest } : ThreadPool).step (.notifyOne task none) =
        .ok { s with adding := rest } := by
      simp [step, notifyOne, h]
    exact (Lib.Reach.start.next trivial hfirst).trans ih

/-- The worker goes to sleep after the last notification. -/
theorem hung_of_parking {i : Nat} (hjoining : s.stopper = .joining joined) (hq : s.taskqueue = [])
    (hawake : .sleeping ∉ s.workers) (hi : s.workers[i]? = some .parking) :
    ∃ s', Lib.Reach step Notified s s' ∧ s'.Hung := by
  have hquiet : Lib.Reach step Notified s { s with adding := [] } := drain s.adding hawake
  have hlast : ({ s with adding := [] } : ThreadPool).step (.worker i) =
      .ok (({ s with adding := [], locked := false } : ThreadPool).move i .sleeping) := by
    simp only [step, hi, workerStep]
  have hnotified : Notified { s with adding := [] } (.worker i) := by
    show s.workers[i]? ≠ some .sleeping
    rw [hi]
    simp
  have hlen := (List.getElem?_eq_some_iff.mp hi).1
  exact ⟨_, hquiet.next hnotified hlast, ⟨joined, hjoining⟩, List.mem_set hlen _, hq, rfl⟩

theorem begins_joining (hs : s.step e = .ok s') (hjoining : ∃ joined, s'.stopper = .joining joined) :
    (∃ joined, s.stopper = .joining joined) ∨ s.stopper = .set ∧ e = .stop := by
  obtain ⟨joined, hjoining⟩ := hjoining
  cases hc : step_ok hs with
  | @turn i w w' m _ ht =>
    have hstopper : m.stopper = s.stopper := by cases ht <;> rfl
    exact .inl ⟨joined, hstopper.symm.trans hjoining⟩
  | notifyAll hset => exact .inr ⟨hset, rfl⟩
  | join hk _ => exact .inl ⟨_, hk⟩
  | again _ _ => cases hjoining
  | enter _ _ => cases hjoining
  | set _ => cases hjoining
  | joined _ _ => cases hjoining
  | _ => exact .inl ⟨joined, hjoining⟩

/-- `notify_all` of `stop`, and the workers that it may find before their sleep. -/
def notifyAll : Lib.NotifyAll step Notified .stop where
  Sound s := Staged s ∧ Parked s
  Due s := s.stopper = .set
  Ending s := ∃ joined, s.stopper = .joining joined
  Gap s := .parking ∈ s.workers
  Awake := Awake
  Hung := Hung
  sound h hs := ⟨h.1.change (step_ok hs), h.2.step hs⟩
  begins := begins_joining
  roused h hset hnone hs := by
    have hf := h.1.flag.mpr ⟨by simp [hset], by simp [hset]⟩
    exact notifyAll_awake hf hset hnone hs
  stays _ h hs := h.step hs
  awake h := h.not_hung
  ending h := h.1
  missed h hset hparking hs := by
    simp only [step, stopStep, hset, Except.ok.injEq] at hs
    subst hs
    have hstill : .parking ∈ List.map wakeUp _ := List.mem_map.mpr ⟨_, hparking, rfl⟩
    obtain ⟨i, hi⟩ := List.mem_iff_getElem?.mp hstill
    exact hung_of_parking rfl (h.2.empty hparking) (fun hmem => (mem_wakeUp hmem (by simp)).2 rfl) hi

theorem new_sound (threadnum : Nat) : notifyAll.Sound (new threadnum) :=
  ⟨new_staged threadnum, new_parked threadnum⟩

/-- Unless `addtask` is called again, `stop` waits for ever. -/
theorem Hung.step (h : s.Hung) (hstaged : Staged s) (hm : Notified s e) (he : e ≠ .addtask)
    (hs : s.step e = .ok s') : s'.Hung := by
  obtain ⟨⟨joined, hjoining⟩, hsleeping, hq, hadding⟩ := h
  cases hc : step_ok hs with
  | @turn i w w' m hw ht =>
    have hstill : .sleeping ∈ (m.move i w').workers := by
      rw [move, ht.workers]
      exact Lib.mem_set_of_ne hw hsleeping (fun heq => hm (heq ▸ hw)) w'
    cases ht with
    | take htake => cases hq.symm.trans htake
    | _ => exact ⟨⟨joined, hjoining⟩, hstill, hq, hadding⟩
  | push _ => exact absurd rfl he
  | noted => simp [step, notifyOne, hadding] at hs
  | notified _ => simp [step, notifyOne, hadding] at hs
  | join hk _ => exact ⟨⟨_, rfl⟩, hsleeping, hq, hadding⟩
  | joined hk hnone =>
    obtain ⟨j, hj⟩ := List.mem_iff_getElem?.mp hsleeping
    have hlt : j < s.workers.length := (List.getElem?_eq_some_iff.mp hj).1
    have hlen := List.getElem?_eq_none_iff.mp hnone
    cases hj.symm.trans (hstaged.joining hk j (Nat.lt_of_lt_of_le hlt hlen))
  | again hidle _ => cases hjoining.symm.trans hidle
  | enter hidle _ => cases hjoining.symm.trans hidle
  | set hentered => cases hjoining.symm.trans hentered
  | notifyAll hset => cases hjoining.symm.trans hset

end ThreadPool

end MudouHttp
