import MudouHttp.Cxx.Machine
import MudouHttp.Lib.Counting
import MudouHttp.Reactor.EventLoop

/-!
# Queued tasks of a loop

The tasks executed, the one in hand and those in the queue are, in this order,
the tasks pushed. `handlewakeup` holds `mutex_` while a task runs, so that a task
that calls `queueinloop` on its own loop locks it again (`relock_iff`); while
none does, every task queued is executed once and in order (`tasks_in_order`).
-/

namespace MudouHttp

/-- Between the lock of `handlewakeup` and its return. -/
def LoopThread.owns : LoopThread → Bool
  | .waiting => false
  | .reading => false
  | .locking => false
  | _ => true

def LoopThread.nests : LoopThread → Bool
  | .queueing _ => true
  | .waking _ => true
  | _ => false

def LoopThread.inHand : LoopThread → List Nat
  | .running task => [task]
  | .queueing task => [task]
  | .waking task => [task]
  | _ => []

namespace EventLoop

-- ---------------------------------------------------------------------------
-- What a step can do
-- ---------------------------------------------------------------------------

inductive Change (s : EventLoop) : Event → EventLoop → Prop
  | lock : s.queuers[i]? = some .outside → s.holder = none → Change s (.queueinloop i)
      { s with holder := some (.queuer i), queuers := s.queuers.set i .pushing }
  | push : s.queuers[i]? = some .pushing → Change s (.queueinloop i)
      { s.push with holder := none, queuers := s.queuers.set i .waking }
  | wake : s.queuers[i]? = some .waking → Change s (.queueinloop i)
      { s.wakeup with queuers := s.queuers.set i .outside }
  | report : s.thread = .waiting → Change s .loop { s with thread := .reading }
  | read : s.thread = .reading → Change s .loop { s with wakeups := 0, thread := .locking }
  | enter : s.thread = .locking → s.holder = none →
      Change s .loop { s with holder := some .loop, thread := .testing }
  | leave : s.thread = .testing → s.taskqueue = [] →
      Change s .loop { s with holder := none, thread := .waiting }
  | pop : s.thread = .testing → s.taskqueue = task :: rest →
      Change s .loop { s with taskqueue := rest, thread := .running task }
  | finish : s.thread = .running task →
      Change s .loop { s with executed := s.executed ++ [task], thread := .testing }
  | queue : s.thread = .queueing task → s.holder = none →
      Change s .loop { s.push with holder := none, thread := .waking task }
  | nestedWake : s.thread = .waking task →
      Change s .loop { s.wakeup with thread := .running task }
  | nested : s.thread = .running task → Change s .nested { s with thread := .queueing task }

theorem lock_ok {s : EventLoop} (h : s.lock self = .ok s') :
    s.holder = none ∧ s' = { s with holder := some self } := by
  unfold lock at h
  split at h
  · rename_i hholder
    exact ⟨hholder, (Except.ok.inj h).symm⟩
  · cases h

theorem queueinloop_ok {s : EventLoop} (h : s.queueinloop i = .ok s') :
    Change s (.queueinloop i) s' := by
  unfold queueinloop at h
  split at h
  · rename_i hi
    obtain ⟨m, hlock, hm⟩ := bind_ok h
    obtain ⟨hholder, rfl⟩ := lock_ok hlock
    cases hm
    exact .lock hi hholder
  · rename_i hi
    cases h
    exact .push hi
  · rename_i hi
    cases h
    exact .wake hi
  · cases h

theorem handlewakeup_ok {s : EventLoop} (h : s.handlewakeup = .ok s') : Change s .loop s' := by
  unfold handlewakeup at h
  split at h
  · rename_i hthread
    split at h
    · cases h
    · cases h
      exact .report hthread
  · rename_i hthread
    cases h
    exact .read hthread
  · rename_i hthread
    obtain ⟨m, hlock, hm⟩ := bind_ok h
    obtain ⟨hholder, rfl⟩ := lock_ok hlock
    cases hm
    exact .enter hthread hholder
  · rename_i hthread
    split at h
    · rename_i hqueue
      cases h
      exact .leave hthread hqueue
    · rename_i task rest hqueue
      cases h
      exact .pop hthread hqueue
  · rename_i hthread
    cases h
    exact .finish hthread
  · rename_i hthread
    obtain ⟨m, hlock, hm⟩ := bind_ok h
    obtain ⟨hholder, rfl⟩ := lock_ok hlock
    cases hm
    exact .queue hthread hholder
  · rename_i hthread
    cases h
    exact .nestedWake hthread

theorem step_ok {s : EventLoop} (h : s.step e = .ok s') : Change s e s' := by
  cases e with
  | queueinloop i => exact queueinloop_ok h
  | loop => exact handlewakeup_ok h
  | nested =>
    simp only [step] at h
    split at h
    · rename_i hthread
      cases h
      exact .nested hthread
    · cases h

variable {s s' : EventLoop}

-- ---------------------------------------------------------------------------
-- The order of the tasks
-- ---------------------------------------------------------------------------

def Ordered (s : EventLoop) : Prop :=
  s.executed ++ s.thread.inHand ++ s.taskqueue = List.range s.queued

theorem Ordered.push {hand : List Nat} (h : s.executed ++ hand ++ s.taskqueue = List.range s.queued) :
    s.executed ++ hand ++ s.push.taskqueue = List.range s.push.queued := by
  simp only [EventLoop.push]
  rw [← List.append_assoc, h, List.range_succ]

theorem Ordered.change (h : Ordered s) (hc : Change s e s') : Ordered s' := by
  unfold Ordered at h
  cases hc with
  | push _ => exact Ordered.push h
  | queue hthread _ =>
    rw [hthread] at h
    exact Ordered.push h
  | pop hthread hqueue => simpa [Ordered, hthread, hqueue, LoopThread.inHand] using h
  | finish hthread => simpa [Ordered, hthread, LoopThread.inHand] using h
  | lock _ _ => exact h
  | wake _ => exact h
  | report hthread => simpa [Ordered, hthread, LoopThread.inHand] using h
  | read hthread => simpa [Ordered, hthread, LoopThread.inHand] using h
  | enter hthread _ => simpa [Ordered, hthread, LoopThread.inHand] using h
  | leave hthread _ => simpa [Ordered, hthread, LoopThread.inHand] using h
  | nestedWake hthread =>
    rw [hthread] at h
    exact h
  | nested hthread => simpa [Ordered, hthread, LoopThread.inHand] using h

-- ---------------------------------------------------------------------------
-- Who holds the mutex
-- ---------------------------------------------------------------------------

/-- The mutex is held by the loop while tasks run, and by a thread that pushes. -/
structure Held (s : EventLoop) : Prop where
  loop : s.holder = some .loop ↔ s.thread.owns = true
  queuer : ∀ i, s.holder = some (.queuer i) ↔ s.queuers[i]? = some .pushing

/-- The loop and a thread that pushes exclude each other, and so do two threads. -/
theorem Held.unlocked (h : Held s) (hfree : s.holder ≠ some .loop) : s.thread.owns = false := by
  cases howns : s.thread.owns with
  | true => exact absurd (h.loop.mpr howns) hfree
  | false => rfl

theorem Held.set (h : Held s) (hi : s.queuers[i]? = some q) (q' : Queuer)
    (hfree : ∀ j ≠ i, s.holder ≠ some (.queuer j)) :
    ∀ j, (if q' = .pushing then some (Holder.queuer i) else none) = some (.queuer j) ↔
      (s.queuers.set i q')[j]? = some .pushing := by
  intro j
  have hlen := (List.getElem?_eq_some_iff.mp hi).1
  by_cases hj : j = i
  · subst hj
    simp only [List.getElem?_set_self hlen, Option.some.injEq]
    split
    · simp_all
    · simp_all
  · rw [List.getElem?_set_ne (Ne.symm hj), ← h.queuer j]
    have hnot := hfree j hj
    split
    · simp [hnot, Ne.symm hj]
    · simp [hnot]

theorem init_held (threads : Nat) : Held (init threads) := by
  refine ⟨by simp [init, LoopThread.owns], fun i => ?_⟩
  simp [init, List.getElem?_replicate]

theorem Held.loops (h : Held s) (hfree : ∀ i, s.holder ≠ some (.queuer i))
    (hholder : ∀ i, s'.holder ≠ some (.queuer i)) (hqueuers : s'.queuers = s.queuers)
    (howns : s'.holder = some .loop ↔ s'.thread.owns = true) : Held s' := by
  refine ⟨howns, fun i => ⟨fun hi => absurd hi (hholder i), fun hi => ?_⟩⟩
  rw [hqueuers] at hi
  exact absurd ((h.queuer i).mpr hi) (hfree i)

theorem Held.change (h : Held s) (hc : Change s e s') : Held s' := by
  have howned : s.thread.owns = true → s.holder = some .loop := h.loop.mpr
  cases hc with
  | @lock i hi hholder =>
    refine ⟨?_, h.set hi .pushing (by simp [hholder])⟩
    simp [h.unlocked (by simp [hholder])]
  | @push i hi =>
    have hholder := (h.queuer i).mpr hi
    refine ⟨?_, h.set hi .waking (by simp [hholder, eq_comm])⟩
    simp [EventLoop.push, h.unlocked (by simp [hholder])]
  | @wake i hi =>
    refine ⟨h.loop, fun j => ?_⟩
    by_cases hj : j = i
    · subst hj
      have hlen := (List.getElem?_eq_some_iff.mp hi).1
      have hnot : s.holder ≠ some (.queuer j) := fun hh => by simp [(h.queuer j).mp hh] at hi
      simpa [EventLoop.wakeup, List.getElem?_set_self hlen] using hnot
    · rw [List.getElem?_set_ne (Ne.symm hj)]
      exact h.queuer j
  | report hthread => exact ⟨by simpa [hthread, LoopThread.owns] using h.loop, h.queuer⟩
  | read hthread => exact ⟨by simpa [hthread, LoopThread.owns] using h.loop, h.queuer⟩
  | enter hthread hholder =>
    exact h.loops (by simp [hholder]) (by simp) rfl (by simp [LoopThread.owns])
  | leave hthread _ =>
    have hholder := howned (by simp [hthread, LoopThread.owns])
    exact h.loops (by simp [hholder]) (by simp) rfl (by simp [LoopThread.owns])
  | pop hthread _ => exact ⟨by simpa [hthread, LoopThread.owns] using h.loop, h.queuer⟩
  | finish hthread => exact ⟨by simpa [hthread, LoopThread.owns] using h.loop, h.queuer⟩
  | queue hthread hholder =>
    have howned := howned (by simp [hthread, LoopThread.owns])
    simp [hholder] at howned
  | nestedWake hthread =>
    have howns := h.loop
    rw [hthread] at howns
    exact ⟨howns, h.queuer⟩
  | nested hthread => exact ⟨by simpa [hthread, LoopThread.owns] using h.loop, h.queuer⟩

-- ---------------------------------------------------------------------------
-- Locking again
-- ---------------------------------------------------------------------------

theorem lock_relock {s : EventLoop} (h : s.lock self = .error .relock) : s.holder = some self := by
  unfold lock at h
  split at h
  · cases h
  · rename_i holder hholder
    split at h
    · rename_i hself
      rw [hholder, hself]
    · cases h

theorem lock_held {s : EventLoop} (h : s.holder = some self) : s.lock self = .error .relock := by
  simp [lock, h]

/-- The thread that locks `mutex_` while it holds it is that of the loop, in a
task that has called `queueinloop`. -/
theorem Held.relock_iff (h : Held s) :
    s.step e = .error .relock ↔ e = .loop ∧ ∃ task, s.thread = .queueing task := by
  constructor
  · intro hs
    cases e with
    | queueinloop i =>
      simp only [step, queueinloop] at hs
      split at hs
      · rename_i hi
        rcases bind_error hs with hlock | ⟨m, -, hm⟩
        · exact absurd (((h.queuer i).mp (lock_relock hlock)).symm.trans hi) (by simp)
        · cases hm
      all_goals cases hs
    | loop =>
      refine ⟨rfl, ?_⟩
      simp only [step, handlewakeup] at hs
      split at hs
      · split at hs <;> cases hs
      · cases hs
      · rename_i hthread
        rcases bind_error hs with hlock | ⟨m, -, hm⟩
        · exact absurd (h.loop.mp (lock_relock hlock)) (by simp [hthread, LoopThread.owns])
        · cases hm
      · split at hs <;> cases hs
      · cases hs
      · rename_i task hthread
        exact ⟨task, hthread⟩
      · cases hs
    | nested =>
      simp only [step] at hs
      split at hs <;> cases hs
  · rintro ⟨rfl, task, hthread⟩
    have hlock := lock_held (h.loop.mpr (by simp [hthread, LoopThread.owns]))
    simp only [step, handlewakeup, hthread, hlock]
    rfl

def Stuck (past : List Nat) (s : EventLoop) : Prop :=
  Held s ∧ (∃ task, s.thread = .queueing task) ∧ s.executed = past

theorem Stuck.change (h : Stuck past s) (hc : Change s e s') : Stuck past s' := by
  obtain ⟨hh, ⟨task, hthread⟩, hexecuted⟩ := h
  refine ⟨hh.change hc, ?_⟩
  cases hc with
  | lock _ _ => exact ⟨⟨task, hthread⟩, hexecuted⟩
  | push _ => exact ⟨⟨task, hthread⟩, hexecuted⟩
  | wake _ => exact ⟨⟨task, hthread⟩, hexecuted⟩
  | queue _ hholder =>
    have howned := hh.loop.mpr (by simp [hthread, LoopThread.owns])
    simp [hholder] at howned
  | report h => cases hthread.symm.trans h
  | read h => cases hthread.symm.trans h
  | enter h _ => cases hthread.symm.trans h
  | leave h _ => cases hthread.symm.trans h
  | pop h _ => cases hthread.symm.trans h
  | finish h => cases hthread.symm.trans h
  | nestedWake h => cases hthread.symm.trans h
  | nested h => cases hthread.symm.trans h

theorem Held.stuck (h : Held s) (hs : s.step .nested = .ok s') : Stuck s.executed s' := by
  have hc := step_ok hs
  have hh := h.change hc
  cases hc with
  | nested _ => exact ⟨hh, ⟨_, rfl⟩, rfl⟩

-- ---------------------------------------------------------------------------
-- Tasks that leave their loop alone
-- ---------------------------------------------------------------------------

/-- No task that `handlewakeup` calls queues another one in the same loop. -/
def Flat (_ : EventLoop) (e : Event) : Prop := e ≠ .nested

structure Pending (s : EventLoop) : Prop where
  flat : s.thread.nests = false
  waiting : s.thread = .waiting → s.taskqueue ≠ [] → 0 < s.wakeups ∨ .waking ∈ s.queuers

theorem init_pending (threads : Nat) : Pending (init threads) :=
  ⟨rfl, fun _ hq => absurd rfl hq⟩

theorem wakeup_pos (s : EventLoop) : 0 < s.wakeup.wakeups := by
  simp only [EventLoop.wakeup]
  split <;> omega

theorem Pending.change (h : Pending s) (hf : Flat s e) (hc : Change s e s') : Pending s' := by
  have hflat := h.flat
  cases hc with
  | lock hi _ =>
    refine ⟨h.flat, fun hw hq => (h.waiting hw hq).imp id fun hmem => ?_⟩
    exact Lib.mem_set_of_ne hi hmem nofun _
  | push hi =>
    have hlen := (List.getElem?_eq_some_iff.mp hi).1
    exact ⟨h.flat, fun _ _ => .inr (List.mem_set hlen _)⟩
  | wake _ => exact ⟨h.flat, fun _ _ => .inl (wakeup_pos s)⟩
  | leave _ hqueue => exact ⟨rfl, fun _ hq => absurd hqueue hq⟩
  | report _ => exact ⟨rfl, nofun⟩
  | read _ => exact ⟨rfl, nofun⟩
  | enter _ _ => exact ⟨rfl, nofun⟩
  | pop _ _ => exact ⟨rfl, nofun⟩
  | finish _ => exact ⟨rfl, nofun⟩
  | queue hthread _ => simp [hthread, LoopThread.nests] at hflat
  | nestedWake hthread => simp [hthread, LoopThread.nests] at hflat
  | nested _ => exact absurd rfl hf

-- ---------------------------------------------------------------------------
-- Every task gets its turn
-- ---------------------------------------------------------------------------

/-- A run without further calls executes every task queued so far. -/
def Drains (s : EventLoop) : Prop :=
  ∃ s', Lib.Reach step Flat s s' ∧ s.queued ≤ s'.queued ∧ s'.executed = List.range s'.queued

theorem Drains.before (h : Drains s') (hs : s.step e = .ok s') (hf : Flat s e)
    (hq : s.queued ≤ s'.queued) : Drains s := by
  obtain ⟨t, hreach, hle, hexecuted⟩ := h
  exact ⟨t, (Lib.Reach.start.next hf hs).trans hreach, Nat.le_trans hq hle, hexecuted⟩

theorem drains_of_empty (ho : Ordered s) (hhand : s.thread.inHand = []) (hq : s.taskqueue = []) :
    Drains s := by
  refine ⟨s, .start, Nat.le_refl _, ?_⟩
  simpa [Ordered, hhand, hq] using ho

theorem drains_of_testing {s : EventLoop} (ho : Ordered s) (hthread : s.thread = .testing) : Drains s := by
  cases hqueue : s.taskqueue with
  | nil => exact drains_of_empty ho (by simp [hthread, LoopThread.inHand]) hqueue
  | cons task rest =>
    have hpop : s.step .loop = .ok { s with taskqueue := rest, thread := .running task } := by
      simp only [step, handlewakeup, hthread, hqueue]
    have hfinish : ({ s with taskqueue := rest, thread := .running task } : EventLoop).step .loop =
        .ok { s with taskqueue := rest, executed := s.executed ++ [task], thread := .testing } := by
      simp only [step, handlewakeup]
    have ho' := (ho.change (step_ok hpop)).change (step_ok hfinish)
    have hrest := drains_of_testing ho' rfl
    exact (hrest.before hfinish nofun (Nat.le_refl _)).before hpop nofun (Nat.le_refl _)
termination_by s.taskqueue.length
decreasing_by simp [hqueue]

/-- A thread that pushes unlocks `mutex_` before the loop locks it. -/
theorem drains_of_locking (ho : Ordered s) (hh : Held s) (hthread : s.thread = .locking) :
    Drains s := by
  have henter : ∀ {m : EventLoop}, Ordered m → m.thread = .locking → m.holder = none →
      Drains m := by
    intro m ho hthread hholder
    have hs : m.step .loop = .ok { m with holder := some .loop, thread := .testing } := by
      simp only [step, handlewakeup, hthread, lock, hholder]
      rfl
    exact (drains_of_testing (ho.change (step_ok hs)) rfl).before hs nofun (Nat.le_refl _)
  cases hholder : s.holder with
  | none => exact henter ho hthread hholder
  | some holder =>
    cases holder with
    | loop => exact absurd (hh.loop.mp hholder) (by simp [hthread, LoopThread.owns])
    | queuer i =>
      have hi := (hh.queuer i).mp hholder
      have hs : s.step (.queueinloop i) =
          .ok { s.push with holder := none, queuers := s.queuers.set i .waking } := by
        simp only [step, queueinloop, hi]
      exact (henter (ho.change (step_ok hs)) hthread rfl).before hs nofun (Nat.le_succ _)

theorem drains_of_reading (ho : Ordered s) (hh : Held s) (hthread : s.thread = .reading) :
    Drains s := by
  have hs : s.step .loop = .ok { s with wakeups := 0, thread := .locking } := by
    simp only [step, handlewakeup, hthread]
  have hread := step_ok hs
  exact (drains_of_locking (ho.change hread) (hh.change hread) rfl).before hs nofun (Nat.le_refl _)

theorem drains_of_waiting (ho : Ordered s) (hh : Held s) (hp : Pending s)
    (hthread : s.thread = .waiting) : Drains s := by
  have hreport : ∀ {m : EventLoop}, Ordered m → Held m → m.thread = .waiting → 0 < m.wakeups →
      Drains m := by
    intro m ho hh hthread hpos
    have hs : m.step .loop = .ok { m with thread := .reading } := by
      simp only [step, handlewakeup, hthread, Nat.ne_of_gt hpos, if_false]
    have hreport := step_ok hs
    exact (drains_of_reading (ho.change hreport) (hh.change hreport) rfl).before hs nofun
      (Nat.le_refl _)
  by_cases hqueue : s.taskqueue = []
  · exact drains_of_empty ho (by simp [hthread, LoopThread.inHand]) hqueue
  · rcases hp.waiting hthread hqueue with hpos | hmem
    · exact hreport ho hh hthread hpos
    · obtain ⟨i, hi⟩ := List.mem_iff_getElem?.mp hmem
      have hs : s.step (.queueinloop i) =
          .ok { s.wakeup with queuers := s.queuers.set i .outside } := by
        simp only [step, queueinloop, hi]
      have hwake := step_ok hs
      exact (hreport (ho.change hwake) (hh.change hwake) hthread (wakeup_pos s)).before hs nofun
        (Nat.le_refl _)

theorem drains (ho : Ordered s) (hh : Held s) (hp : Pending s) : Drains s := by
  have hflat := hp.flat
  cases hthread : s.thread with
  | waiting => exact drains_of_waiting ho hh hp hthread
  | reading => exact drains_of_reading ho hh hthread
  | locking => exact drains_of_locking ho hh hthread
  | testing => exact drains_of_testing ho hthread
  | running task =>
    have hs : s.step .loop =
        .ok { s with executed := s.executed ++ [task], thread := .testing } := by
      simp only [step, handlewakeup, hthread]
    exact (drains_of_testing (ho.change (step_ok hs)) rfl).before hs nofun (Nat.le_refl _)
  | queueing task => simp [hthread, LoopThread.nests] at hflat
  | waking task => simp [hthread, LoopThread.nests] at hflat

end EventLoop

-- ---------------------------------------------------------------------------
-- Whole runs
-- ---------------------------------------------------------------------------

/-- In every run the tasks are executed in the order of their pushes, and a task
that queues another one in its own loop is the last thing the loop does. While
none does, nobody locks `mutex_` twice, and the loop goes back to wait for good
only when every task has been executed. -/
theorem tasks_in_order (threads : Nat) :
    (∀ s, Lib.Reach EventLoop.step (fun _ _ => True) (.init threads) s →
      s.executed ++ s.thread.inHand ++ s.taskqueue = List.range s.queued ∧
      ∀ s₁, s.step .nested = .ok s₁ → ∀ t, Lib.Reach EventLoop.step (fun _ _ => True) s₁ t →
        t.executed = s.executed ∧ t.step .loop = .error .relock) ∧
    ∀ s, Lib.Reach EventLoop.step EventLoop.Flat (.init threads) s →
      (∀ e, s.step e ≠ .error .relock) ∧
      (s.thread = .waiting → s.wakeups = 0 → (∀ q ∈ s.queuers, q = .outside) →
        s.executed = List.range s.queued) ∧
      s.Drains := by
  have hordered : ∀ {meets s}, Lib.Reach EventLoop.step meets (.init threads) s →
      s.Ordered ∧ s.Held := fun h =>
    h.invariant (P := fun s => s.Ordered ∧ s.Held)
      (fun _ _ _ h _ hs => ⟨h.1.change (EventLoop.step_ok hs), h.2.change (EventLoop.step_ok hs)⟩)
      ⟨rfl, EventLoop.init_held threads⟩
  constructor
  · intro s h
    obtain ⟨ho, hh⟩ := hordered h
    refine ⟨ho, fun s₁ hs t ht => ?_⟩
    obtain ⟨hh', hthread, hexecuted⟩ := ht.invariant
      (fun _ _ _ h _ hs => EventLoop.Stuck.change h (EventLoop.step_ok hs)) (hh.stuck hs)
    exact ⟨hexecuted, hh'.relock_iff.mpr ⟨rfl, hthread⟩⟩
  · intro s h
    obtain ⟨ho, hh⟩ := hordered h
    have hp := h.invariant (fun _ _ _ h hf hs => EventLoop.Pending.change h hf (EventLoop.step_ok hs))
      (EventLoop.init_pending threads)
    refine ⟨fun e hrelock => ?_, fun hthread hwakeups houtside => ?_, EventLoop.drains ho hh hp⟩
    · obtain ⟨-, task, hthread⟩ := hh.relock_iff.mp hrelock
      have hflat := hp.flat
      simp [hthread, LoopThread.nests] at hflat
    · have hempty : s.taskqueue = [] := by
        by_contra hqueue
        rcases hp.waiting hthread hqueue with hpos | hmem
        · omega
        · exact absurd (houtside _ hmem) nofun
      simpa [EventLoop.Ordered, hthread, hempty, LoopThread.inHand] using ho

/-- Two threads push before the loop wakes up. -/
theorem tasks_in_order_example :
    ∃ s, Lib.Reach EventLoop.step EventLoop.Flat (.init 2) s ∧ s.taskqueue = [0, 1] ∧
      (∀ e, s.step e ≠ .error .relock) ∧ s.Drains := by
  have hrun : ∃ s, Lib.checked EventLoop.step (fun _ e => e != .nested) (.init 2)
      [.queueinloop 0, .queueinloop 0, .queueinloop 1, .queueinloop 1] = some s ∧
      s.taskqueue = [0, 1] := ⟨_, rfl, rfl⟩
  obtain ⟨s, hs, hqueue⟩ := hrun
  have hreach : Lib.Reach EventLoop.step EventLoop.Flat (.init 2) s :=
    Lib.Reach.start.checked _ (fun _ _ => by simp [EventLoop.Flat]) hs
  obtain ⟨-, hflat⟩ := tasks_in_order 2
  obtain ⟨hrelock, -, hdrains⟩ := hflat s hreach
  exact ⟨s, hreach, hqueue, hrelock, hdrains⟩

/-- A task that calls `queueinloop` waits for the lock that `handlewakeup` holds
while it runs. -/
theorem task_locks_again :
    ¬∀ threads s, Lib.Reach EventLoop.step (fun _ _ => True) (.init threads) s →
      ∀ e, s.step e ≠ .error .relock := by
  intro h
  have hrun : ∃ s, Lib.checked EventLoop.step (fun _ _ => true) (.init 1)
      (List.replicate 3 (.queueinloop 0) ++ List.replicate 4 .loop ++ [.nested]) = some s ∧
      s.step .loop = .error .relock := ⟨_, rfl, rfl⟩
  obtain ⟨s, hs, hrelock⟩ := hrun
  exact h 1 s (Lib.Reach.start.checked _ (fun _ _ _ => trivial) hs) .loop hrelock

end MudouHttp
