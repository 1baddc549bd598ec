import MudouHttp.Reactor.LoopTasks

/-!
# Stopping a loop

`run` and `stop` of `reactor/Eventloop.cpp` around `handlewakeup`: `run` tests `stop_`
before each `epoll_wait`, `stop` sets it in another thread and writes to the eventfd.
A loop that has been stopped is never left waiting, and it returns without the ten
seconds of `epoll_wait` passing, unless a task has called `queueinloop` on its own loop
(`stop_returns`).
-/

namespace MudouHttp

/-- Where the loop thread is in `run`: at the test of `stop_`, in the body of the loop,
or back from it. -/
inductive RunThread
  | testing
  | inside
  | returned
  deriving DecidableEq

inductive LoopStopper
  | idle
  | set
  | done
  deriving DecidableEq

structure RunningLoop where
  loop : EventLoop
  run : RunThread
  stopFlag : Bool
  stopper : LoopStopper

namespace RunningLoop

def start (threads : Nat) : RunningLoop :=
  { loop := .init threads, run := .testing, stopFlag := false, stopper := .idle }

/-- The next statement of the loop thread. When `handlewakeup` returns, the loop goes on
to the test. -/
def runStep (s : RunningLoop) : Except EventLoop.Halt RunningLoop :=
  match s.run with
  | .testing => .ok { s with run := if s.stopFlag then .returned else .inside }
  | .inside => do
    let loop ← s.loop.step .loop
    pure { s with loop := loop, run := if loop.thread = .waiting then .testing else .inside }
  | .returned => .error .disabled

/-- `epoll_wait` returns for other descriptors, or because ten seconds have passed. -/
def otherwise (s : RunningLoop) : Except EventLoop.Halt RunningLoop :=
  if s.run = .inside ∧ s.loop.thread = .waiting then .ok { s with run := .testing }
  else .error .disabled

def stop (s : RunningLoop) : Except EventLoop.Halt RunningLoop :=
  match s.stopper with
  | .idle => .ok { s with stopFlag := true, stopper := .set }
  | .set => .ok { s with loop := s.loop.wakeup, stopper := .done }
  | .done => .error .disabled

inductive Event
  | queueinloop (i : Nat)
  | run
  /-- The task that runs calls `queueinloop`. -/
  | nested
  | otherwise
  | stop
  deriving DecidableEq

def step (s : RunningLoop) : Event → Except EventLoop.Halt RunningLoop
  | .queueinloop i => do
    let loop ← s.loop.step (.queueinloop i)
    pure { s with loop := loop }
  | .run => s.runStep
  | .nested => do
    let loop ← s.loop.step .nested
    pure { s with loop := loop }
  | .otherwise => s.otherwise
  | .stop => s.stop

/-- Neither does another descriptor become ready nor do ten seconds pass. -/
def Quiet (_ : RunningLoop) (e : Event) : Prop := e ≠ .otherwise

-- ---------------------------------------------------------------------------
-- What holds in every state
-- ---------------------------------------------------------------------------

/-- `handlewakeup` is left before the test of `stop_`; what `stop` has written is read
by a loop that then tests `stop_`. -/
structure Sound (s : RunningLoop) : Prop where
  ordered : s.loop.Ordered
  held : s.loop.Held
  relocks : ∀ task, s.loop.thread ≠ .waking task
  outside : s.run ≠ .inside → s.loop.thread = .waiting
  flag : s.stopper ≠ .idle ↔ s.stopFlag = true
  returned : s.run = .returned → s.stopFlag = true
  awake : s.stopper = .done → s.run = .inside → s.loop.thread = .waiting → 0 < s.loop.wakeups

theorem start_sound (threads : Nat) : (start threads).Sound where
  ordered := rfl
  held := EventLoop.init_held threads
  relocks := by simp [start, EventLoop.init]
  outside := fun _ => rfl
  flag := by simp [start]
  returned := fun h => by cases h
  awake := fun h => by cases h

variable {s s' : RunningLoop}

theorem queueinloop_keeps {l l' : EventLoop} (h : l.Change (.queueinloop i) l') :
    l'.thread = l.thread ∧ (0 < l.wakeups → 0 < l'.wakeups) := by
  cases h with
  | lock _ _ => exact ⟨rfl, id⟩
  | push _ => exact ⟨rfl, id⟩
  | wake _ => exact ⟨rfl, fun _ => EventLoop.wakeup_pos l⟩

theorem Sound.queued (h : Sound s) (hc : s.loop.Change (.queueinloop i) l) :
    Sound { s with loop := l } := by
  obtain ⟨hthread, hpos⟩ := queueinloop_keeps hc
  exact {
    ordered := h.ordered.change hc
    held := h.held.change hc
    relocks := hthread ▸ h.relocks
    outside := fun hrun => hthread.trans (h.outside hrun)
    flag := h.flag
    returned := h.returned
    awake := fun hstop hrun hwait => hpos (h.awake hstop hrun (hthread.symm.trans hwait)) }

theorem Sound.looped (h : Sound s) (hc : s.loop.Change .loop l) :
    Sound { s with loop := l, run := if l.thread = .waiting then .testing else .inside } where
  ordered := h.ordered.change hc
  held := h.held.change hc
  relocks := fun task => by
    cases hc with
    | queue hthread hholder =>
      -- the loop thread has `mutex_` while a task runs
      have howned := h.held.loop.mpr (by simp [hthread, LoopThread.owns])
      simp [hholder] at howned
    | report _ => simp
    | read _ => simp
    | enter _ _ => simp
    | leave _ _ => simp
    | pop _ _ => simp
    | finish _ => simp
    | nestedWake _ => simp
  outside := fun hne => by
    by_contra hwait
    exact hne (if_neg hwait)
  flag := h.flag
  returned := fun hret => by
    dsimp only at hret
    split at hret <;> cases hret
  awake := fun _ hin hwait => by
    dsimp only at hin hwait
    simp [hwait] at hin

theorem Sound.nested (h : Sound s) (hc : s.loop.Change .nested l) : Sound { s with loop := l } := by
  have hordered := h.ordered.change hc
  have hheld := h.held.change hc
  cases hc with
  | nested hthread =>
    have hin : s.run = .inside := by
      by_contra hout
      cases hthread.symm.trans (h.outside hout)
    exact {
      ordered := hordered
      held := hheld
      relocks := by simp
      outside := fun hout => absurd hin hout
      flag := h.flag
      returned := h.returned
      awake := fun _ _ hwait => by cases hwait }

/-- The test of `stop_`, which a loop that enters again has found unset. -/
theorem Sound.tested (h : Sound s) (hrun : s.run = .testing) :
    Sound { s with run := if s.stopFlag then .returned else .inside } where
  ordered := h.ordered
  held := h.held
  relocks := h.relocks
  outside := fun _ => h.outside (by simp [hrun])
  flag := h.flag
  returned := fun hret => by
    cases hflag : s.stopFlag with
    | true => rfl
    | false => simp [hflag] at hret
  awake := fun hstop hin _ => by
    dsimp only at hstop hin
    have hflag : s.stopFlag = true := h.flag.mp (by simp [hstop])
    simp [hflag] at hin

theorem Sound.stopped (h : Sound s) (hs : s.stop = .ok s') : Sound s' := by
  unfold stop at hs
  split at hs
  · cases hs
    exact { h with
      flag := by simp
      returned := fun _ => rfl
      awake := fun hstop => by cases hstop }
  · rename_i hset
    cases hs
    exact {
      ordered := h.ordered
      held := ⟨h.held.loop, h.held.queuer⟩
      relocks := h.relocks
      outside := h.outside
      flag := by simpa [hset] using h.flag
      returned := h.returned
      awake := fun _ _ _ => EventLoop.wakeup_pos s.loop }
  · cases hs

theorem Sound.step (h : Sound s) (hs : s.step e = .ok s') : Sound s' := by
  cases e with
  | queueinloop i =>
    obtain ⟨l, hl, hs⟩ := bind_ok hs
    cases hs
    exact h.queued (EventLoop.step_ok hl)
  | run =>
    simp only [RunningLoop.step, runStep] at hs
    split at hs
    · rename_i hrun
      cases hs
      exact h.tested hrun
    · obtain ⟨l, hl, hs⟩ := bind_ok hs
      cases hs
      exact h.looped (EventLoop.step_ok hl)
    · cases hs
  | nested =>
    obtain ⟨l, hl, hs⟩ := bind_ok hs
    cases hs
    exact h.nested (EventLoop.step_ok hl)
  | otherwise =>
    simp only [RunningLoop.step, RunningLoop.otherwise] at hs
    split at hs
    · rename_i hwait
      cases hs
      exact { h with
        outside := fun _ => hwait.2
        returned := fun hret => by cases hret
        awake := fun _ hin => by cases hin }
    · cases hs
  | stop => exact h.stopped hs

-- ---------------------------------------------------------------------------
-- The loop comes back
-- ---------------------------------------------------------------------------

/-- `run` returns although no descriptor but the eventfd becomes ready. -/
def Returns (s : RunningLoop) : Prop :=
  ∃ t, Lib.Reach RunningLoop.step Quiet s t ∧ t.run = .returned

theorem Returns.before (h : Returns s') (hq : Quiet s e) (hs : s.step e = .ok s') : Returns s := by
  obtain ⟨t, hreach, hret⟩ := h
  exact ⟨t, (Lib.Reach.start.next hq hs).trans hreach, hret⟩

theorem Quiet.run : Quiet s .run := by simp [Quiet]

theorem returns_of_testing (hflag : s.stopFlag = true) (hrun : s.run = .testing) : Returns s := by
  have hs : s.step .run = .ok { s with run := .returned } := by
    simp only [RunningLoop.step, runStep, hrun, hflag, if_true]
  exact ⟨_, Lib.Reach.start.next Quiet.run hs, rfl⟩

def Stuck (s : RunningLoop) : Prop := ∃ task, s.loop.thread = .queueing task

theorem Returns.inside {s : RunningLoop} (h : Returns { s with loop := l, run := .inside })
    (hrun : s.run = .inside) (hs : s.loop.step .loop = .ok l) (hl : l.thread ≠ .waiting) :
    Returns s := by
  refine h.before Quiet.run ?_
  simp only [RunningLoop.step, runStep, hrun, hs, bind, Except.bind, pure, Except.pure, if_neg hl]

theorem returns_of_draining {s : RunningLoop} (hflag : s.stopFlag = true) (hrun : s.run = .inside)
    (hthread : s.loop.thread = .testing) : Returns s := by
  cases hqueue : s.loop.taskqueue with
  | nil =>
    have hs : s.step .run =
        .ok { s with loop := { s.loop with holder := none, thread := .waiting }, run := .testing } := by
      simp only [RunningLoop.step, runStep, hrun, EventLoop.step, EventLoop.handlewakeup, hthread,
        hqueue, bind, Except.bind, pure, Except.pure, if_true]
    have htest : Returns { s with
        loop := { s.loop with holder := none, thread := .waiting }, run := .testing } :=
      returns_of_testing hflag rfl
    exact htest.before Quiet.run hs
  | cons task rest =>
    have hpop : s.loop.step .loop =
        .ok { s.loop with taskqueue := rest, thread := .running task } := by
      simp only [EventLoop.step, EventLoop.handlewakeup, hthread, hqueue]
    have hfinish : ({ s.loop with taskqueue := rest, thread := .running task } : EventLoop).step .loop =
        .ok { s.loop with
          taskqueue := rest, executed := s.loop.executed ++ [task], thread := .testing } := by
      simp only [EventLoop.step, EventLoop.handlewakeup]
    have hrest : Returns { s with
        loop := { s.loop with
          taskqueue := rest, executed := s.loop.executed ++ [task], thread := .testing },
        run := .inside } := returns_of_draining hflag rfl rfl
    refine Returns.inside ?_ hrun hpop (by simp)
    exact Returns.inside hrest rfl hfinish (by simp)
termination_by s.loop.taskqueue.length
decreasing_by simp [hqueue]

theorem returns_of_locking (hflag : s.stopFlag = true) (hrun : s.run = .inside)
    (hheld : s.loop.Held) (hthread : s.loop.thread = .locking) : Returns s := by
  have henter : ∀ {l : EventLoop}, l.thread = .locking → l.holder = none →
      Returns { s with loop := l } := by
    intro l hthread hholder
    have hs : l.step .loop = .ok { l with holder := some .loop, thread := .testing } := by
      simp only [EventLoop.step, EventLoop.handlewakeup, hthread, EventLoop.lock, hholder]
      rfl
    have hdrain : Returns { s with
        loop := { l with holder := some .loop, thread := .testing }, run := .inside } :=
      returns_of_draining hflag rfl rfl
    exact Returns.inside hdrain hrun hs (by simp)
  cases hholder : s.loop.holder with
  | none => exact henter hthread hholder
  | some holder =>
    cases holder with
    | loop => exact absurd (hheld.loop.mp hholder) (by simp [hthread, LoopThread.owns])
    | queuer i =>
      -- the thread that pushes unlocks `mutex_` first
      have hi := (hheld.queuer i).mp hholder
      have hs : s.step (.queueinloop i) = .ok { s with
          loop := { s.loop.push with
            holder := none, queuers := s.loop.queuers.set i .waking } } := by
        simp only [RunningLoop.step, EventLoop.step, EventLoop.queueinloop, hi, bind, Except.bind,
          pure, Except.pure]
      have hquiet : Quiet s (.queueinloop i) := by simp [Quiet]
      refine Returns.before ?_ hquiet hs
      exact henter hthread rfl

theorem returns_of_reading (hflag : s.stopFlag = true) (hrun : s.run = .inside)
    (hheld : s.loop.Held) (hthread : s.loop.thread = .reading) : Returns s := by
  have hs : s.loop.step .loop = .ok { s.loop with wakeups := 0, thread := .locking } := by
    simp only [EventLoop.step, EventLoop.handlewakeup, hthread]
  have hlock : Returns { s with
      loop := { s.loop with wakeups := 0, thread := .locking }, run := .inside } :=
    returns_of_locking hflag rfl (hheld.change (EventLoop.step_ok hs)) rfl
  exact hlock.inside hrun hs (by simp)

theorem returns_of_waiting (hflag : s.stopFlag = true) (hrun : s.run = .inside)
    (hheld : s.loop.Held) (hthread : s.loop.thread = .waiting) (hpos : 0 < s.loop.wakeups) :
    Returns s := by
  have hs : s.loop.step .loop = .ok { s.loop with thread := .reading } := by
    simp only [EventLoop.step, EventLoop.handlewakeup, hthread, Nat.ne_of_gt hpos, if_false]
  have hread : Returns { s with loop := { s.loop with thread := .reading }, run := .inside } :=
    returns_of_reading hflag rfl (hheld.change (EventLoop.step_ok hs)) rfl
  exact hread.inside hrun hs (by simp)

theorem Sound.returns (h : Sound s) (hstop : s.stopper = .done) (hgoes : ¬s.Stuck) : Returns s := by
  have hflag : s.stopFlag = true := h.flag.mp (by simp [hstop])
  cases hrun : s.run with
  | testing => exact returns_of_testing hflag hrun
  | returned => exact ⟨s, .start, hrun⟩
  | inside =>
    cases hthread : s.loop.thread with
    | waiting => exact returns_of_waiting hflag hrun h.held hthread (h.awake hstop hrun hthread)
    | reading => exact returns_of_reading hflag hrun h.held hthread
    | locking => exact returns_of_locking hflag hrun h.held hthread
    | testing => exact returns_of_draining hflag hrun hthread
    | running task =>
      have hs : s.loop.step .loop =
          .ok { s.loop with executed := s.loop.executed ++ [task], thread := .testing } := by
        simp only [EventLoop.step, EventLoop.handlewakeup, hthread]
      have hdrain : Returns { s with
          loop := { s.loop with executed := s.loop.executed ++ [task], thread := .testing },
          run := .inside } := returns_of_draining hflag rfl rfl
      exact hdrain.inside hrun hs (by simp)
    | queueing task => exact absurd ⟨task, hthread⟩ hgoes
    | waking task => exact absurd hthread (h.relocks task)

-- ---------------------------------------------------------------------------
-- How long it takes
-- ---------------------------------------------------------------------------

def left (s : RunningLoop) : Nat :=
  match s.run with
  | .returned => 0
  | .testing => 1
  | .inside => 2 * s.loop.taskqueue.length + match s.loop.thread with
    | .waiting => 5
    | .reading => 4
    | .locking => 3
    | .testing => 2
    | .running _ | .queueing _ | .waking _ => 3

theorem left_le (s : RunningLoop) : s.left ≤ 5 + 2 * s.loop.taskqueue.length := by
  unfold left
  split
  · omega
  · omega
  · split <;> omega

theorem left_queued (hc : s.loop.Change (.queueinloop i) l) :
    left { s with loop := l } + 2 * s.loop.queued ≤ s.left + 2 * l.queued := by
  cases hc with
  | lock _ _ => exact Nat.le_refl _
  | wake _ => exact Nat.le_refl _
  | push _ =>
    simp only [left, EventLoop.push, List.length_append, List.length_singleton]
    split
    · omega
    · omega
    · omega

theorem left_looped (h : Sound s) (hin : s.run = .inside) (hc : s.loop.Change .loop l) :
    1 + left { s with loop := l, run := if l.thread = .waiting then .testing else .inside } +
      2 * s.loop.queued ≤ s.left + 2 * l.queued := by
  cases hc with
  | report hthread => simp [left, hin, hthread]; omega
  | read hthread => simp [left, hin, hthread]; omega
  | enter hthread _ => simp [left, hin, hthread]; omega
  | leave hthread hqueue => simp [left, hin, hthread, hqueue]
  | pop hthread hqueue => simp [left, hin, hthread, hqueue]; omega
  | finish hthread => simp [left, hin, hthread]; omega
  | queue hthread hholder =>
    have howned := h.held.loop.mpr (by simp [hthread, LoopThread.owns])
    simp [hholder] at howned
  | nestedWake hthread => exact absurd hthread (h.relocks _)

/-- Of the loop's own statements each is one less that is left. -/
theorem left_step (h : Sound s) (hstop : s.stopper = .done) (hs : s.step e = .ok s') :
    s'.stopper = .done ∧
      [e].count .run + s'.left + 2 * s.loop.queued ≤ s.left + 2 * s'.loop.queued := by
  have hflag : s.stopFlag = true := h.flag.mp (by simp [hstop])
  cases e with
  | queueinloop i =>
    obtain ⟨l, hl, hs⟩ := bind_ok hs
    cases hs
    refine ⟨hstop, ?_⟩
    simpa using left_queued (EventLoop.step_ok hl)
  | run =>
    simp only [RunningLoop.step, runStep] at hs
    split at hs
    · rename_i hrun
      cases hs
      exact ⟨hstop, by simp [left, hrun, hflag]⟩
    · rename_i hin
      obtain ⟨l, hl, hs⟩ := bind_ok hs
      cases hs
      refine ⟨hstop, ?_⟩
      simpa using left_looped h hin (EventLoop.step_ok hl)
    · cases hs
  | nested =>
    obtain ⟨l, hl, hs⟩ := bind_ok hs
    cases hs
    refine ⟨hstop, ?_⟩
    cases EventLoop.step_ok hl with
    | nested hthread => simp [left, hthread]
  | otherwise =>
    simp only [RunningLoop.step, RunningLoop.otherwise] at hs
    split at hs
    · rename_i hwait
      cases hs
      refine ⟨hstop, ?_⟩
      simp [left, hwait.1, hwait.2]
    · cases hs
  | stop => simp [RunningLoop.step, RunningLoop.stop, hstop] at hs

theorem left_runs (h : Sound s) (hstop : s.stopper = .done) (hs : Lib.runs RunningLoop.step s es = .ok t) :
    Sound t ∧ t.stopper = .done ∧
      es.count .run + t.left + 2 * s.loop.queued ≤ s.left + 2 * t.loop.queued := by
  induction es generalizing s with
  | nil =>
    cases hs
    exact ⟨h, hstop, by simp⟩
  | cons e es ih =>
    unfold Lib.runs at hs
    cases he : s.step e with
    | error halt =>
      rw [he] at hs
      cases hs
    | ok s' =>
      rw [he] at hs
      obtain ⟨hstop', hleft⟩ := left_step h hstop he
      obtain ⟨ht, hdone, hleft'⟩ := ih (h.step he) hstop' hs
      refine ⟨ht, hdone, ?_⟩
      rw [← List.singleton_append, List.count_append]
      omega

/-- The loop thread goes on, or waits for a thread that unlocks `mutex_` next. -/
def GoesOn (s : RunningLoop) : Prop :=
  (∃ s', s.step .run = .ok s') ∨
    ∃ i s', s.loop.holder = some (.queuer i) ∧ s.step (.queueinloop i) = .ok s' ∧ s'.loop.holder = none

theorem Sound.goesOn (h : Sound s) (hstop : s.stopper = .done) (hrun : s.run ≠ .returned)
    (hgoes : ¬s.Stuck) : s.GoesOn := by
  have hloop : ∀ l, s.run = .inside → s.loop.step .loop = .ok l → s.GoesOn := by
    intro l hin hl
    refine .inl ⟨{ s with loop := l, run := if l.thread = .waiting then .testing else .inside }, ?_⟩
    simp only [RunningLoop.step, runStep, hin, hl, bind, Except.bind, pure, Except.pure]
  cases hin : s.run with
  | testing => exact .inl ⟨_, by simp only [RunningLoop.step, runStep, hin]; rfl⟩
  | returned => exact absurd hin hrun
  | inside =>
    cases hthread : s.loop.thread with
    | waiting =>
      have hpos := Nat.ne_of_gt (h.awake hstop hin hthread)
      exact hloop _ hin (by simp only [EventLoop.step, EventLoop.handlewakeup, hthread, hpos, if_false]; rfl)
    | reading => exact hloop _ hin (by simp only [EventLoop.step, EventLoop.handlewakeup, hthread]; rfl)
    | locking =>
      cases hholder : s.loop.holder with
      | none =>
        refine hloop { s.loop with holder := some .loop, thread := .testing } hin ?_
        simp only [EventLoop.step, EventLoop.handlewakeup, hthread, EventLoop.lock, hholder]
        rfl
      | some holder =>
        cases holder with
        | loop => exact absurd (h.held.loop.mp hholder) (by simp [hthread, LoopThread.owns])
        | queuer i =>
          have hi := (h.held.queuer i).mp hholder
          refine .inr ⟨i, { s with loop := { s.loop.push with
            holder := none, queuers := s.loop.queuers.set i .waking } }, hholder, ?_, rfl⟩
          simp only [RunningLoop.step, EventLoop.step, EventLoop.queueinloop, hi, bind, Except.bind,
            pure, Except.pure]
    | testing =>
      cases hqueue : s.loop.taskqueue with
      | nil =>
        exact hloop _ hin (by simp only [EventLoop.step, EventLoop.handlewakeup, hthread, hqueue]; rfl)
      | cons task rest =>
        exact hloop _ hin (by simp only [EventLoop.step, EventLoop.handlewakeup, hthread, hqueue]; rfl)
    | running task =>
      exact hloop _ hin (by simp only [EventLoop.step, EventLoop.handlewakeup, hthread]; rfl)
    | queueing task => exact absurd ⟨task, hthread⟩ hgoes
    | waking task => exact absurd hthread (h.relocks task)

theorem Stuck.step (h : Sound s) (hs : s.Stuck) (hstep : s.step e = .ok s') :
    s'.Stuck ∧ s'.loop.executed = s.loop.executed := by
  obtain ⟨task, hthread⟩ := hs
  have hstuck : EventLoop.Stuck s.loop.executed s.loop := ⟨h.held, ⟨task, hthread⟩, rfl⟩
  have hin : s.run = .inside := by
    by_contra hout
    cases hthread.symm.trans (h.outside hout)
  have hchanged : ∀ {l e}, s.loop.step e = .ok l →
      Stuck { s with loop := l } ∧ l.executed = s.loop.executed := by
    intro l e hl
    obtain ⟨-, hqueueing, hexecuted⟩ := hstuck.change (EventLoop.step_ok hl)
    exact ⟨hqueueing, hexecuted⟩
  cases e with
  | queueinloop i =>
    obtain ⟨l, hl, hstep⟩ := bind_ok hstep
    cases hstep
    exact hchanged hl
  | run =>
    simp only [RunningLoop.step, runStep, hin] at hstep
    obtain ⟨l, hl, hstep⟩ := bind_ok hstep
    cases hstep
    exact hchanged hl
  | nested =>
    obtain ⟨l, hl, hstep⟩ := bind_ok hstep
    cases hstep
    exact hchanged hl
  | otherwise => simp [RunningLoop.step, RunningLoop.otherwise, hthread] at hstep
  | stop =>
    simp only [RunningLoop.step, RunningLoop.stop] at hstep
    split at hstep
    · cases hstep
      exact ⟨⟨task, hthread⟩, rfl⟩
    · cases hstep
      exact ⟨⟨task, hthread⟩, rfl⟩
    · cases hstep

theorem Stuck.runs (h : Sound s) (hs : s.Stuck) (ht : Lib.Reach RunningLoop.step meets s t) :
    t.Stuck ∧ t.loop.executed = s.loop.executed ∧ t.step .run = .error .relock := by
  obtain ⟨hsound, ⟨task, hthread⟩, hexecuted⟩ := ht.invariant
    (P := fun t => Sound t ∧ t.Stuck ∧ t.loop.executed = s.loop.executed)
    (fun t e t' hp _ hstep => by
      obtain ⟨hsound, hstuck, hexecuted⟩ := hp
      obtain ⟨hstuck', hsame⟩ := hstuck.step hsound hstep
      exact ⟨hsound.step hstep, hstuck', hsame.trans hexecuted⟩)
    ⟨h, hs, rfl⟩
  refine ⟨⟨task, hthread⟩, hexecuted, ?_⟩
  have hin : t.run = .inside := by
    by_contra hout
    cases hthread.symm.trans (hsound.outside hout)
  have hrelock : t.loop.step .loop = .error .relock := hsound.held.relock_iff.mpr ⟨rfl, task, hthread⟩
  simp only [RunningLoop.step, runStep, hin, hrelock]
  rfl

/-- `run` returns exactly if no task has called `queueinloop` on its own loop. -/
theorem Sound.returns_iff (h : Sound s) (hstop : s.stopper = .done) : s.Returns ↔ ¬s.Stuck := by
  refine ⟨fun hreturns hstuck => ?_, h.returns hstop⟩
  obtain ⟨t, ht, hret⟩ := hreturns
  obtain ⟨-, -, hrelock⟩ := hstuck.runs h ht
  simp [RunningLoop.step, runStep, hret] at hrelock

/-- Nothing runs a task when `run` has returned. -/
theorem returned_step (h : s.run = .returned) (hs : s.step e = .ok s') :
    s'.run = .returned ∧ s'.loop.executed = s.loop.executed := by
  cases e with
  | queueinloop i =>
    obtain ⟨l, hl, hs⟩ := bind_ok hs
    cases hs
    cases EventLoop.step_ok hl with
    | lock _ _ => exact ⟨h, rfl⟩
    | push _ => exact ⟨h, rfl⟩
    | wake _ => exact ⟨h, rfl⟩
  | run => simp [RunningLoop.step, runStep, h] at hs
  | nested =>
    obtain ⟨l, hl, hs⟩ := bind_ok hs
    cases hs
    cases EventLoop.step_ok hl with
    | nested _ => exact ⟨h, rfl⟩
  | otherwise => simp [RunningLoop.step, RunningLoop.otherwise, h] at hs
  | stop =>
    simp only [RunningLoop.step, RunningLoop.stop] at hs
    split at hs
    · cases hs
      exact ⟨h, rfl⟩
    · cases hs
      exact ⟨h, rfl⟩
    · cases hs

-- ---------------------------------------------------------------------------
-- Whole runs
-- ---------------------------------------------------------------------------

/-- Once `stop` has returned, the loop does not wait with nothing to wake it. Its thread
executes at most five more statements and two for each task pushed; until it is back from
`run` it goes on, or waits for a thread that unlocks `mutex_` next, unless a task has
called `queueinloop` on its own loop. Then it never goes on. `run` returns only after
`stop` has set the flag, outside `handlewakeup`: the tasks executed and those left in the
queue are those pushed, in order, and what is left is never executed. -/
theorem stop_returns (threads : Nat) :
    ∀ s, Lib.Reach RunningLoop.step (fun _ _ => True) (start threads) s →
      (s.stopper = .done →
        (s.run = .inside → s.loop.thread = .waiting → 0 < s.loop.wakeups) ∧
        (s.Returns ↔ ¬s.Stuck) ∧
        ∀ es t, Lib.runs RunningLoop.step s es = .ok t →
          es.count .run ≤ 5 + 2 * t.loop.queued ∧ (t.run = .returned ∨ t.Stuck ∨ t.GoesOn)) ∧
      (s.Stuck → ∀ t, Lib.Reach RunningLoop.step (fun _ _ => True) s t →
        t.step .run = .error .relock ∧ t.loop.executed = s.loop.executed) ∧
      (s.run = .returned → s.stopFlag = true ∧
        s.loop.executed ++ s.loop.taskqueue = List.range s.loop.queued ∧
        ∀ t, Lib.Reach RunningLoop.step (fun _ _ => True) s t →
          t.run = .returned ∧ t.loop.executed = s.loop.executed) := by
  intro s hreach
  have hsound : Sound s := hreach.invariant (fun _ _ _ h _ hs => h.step hs) (start_sound threads)
  refine ⟨fun hstop => ⟨hsound.awake hstop, hsound.returns_iff hstop, fun es t ht => ?_⟩,
    fun hstuck t ht => ?_, fun hret => ?_⟩
  · obtain ⟨htsound, hdone, hleft⟩ := left_runs hsound hstop ht
    refine ⟨?_, ?_⟩
    · have hqueue : s.loop.taskqueue.length ≤ s.loop.queued := by
        have hlength := congrArg List.length hsound.ordered
        rw [List.length_append, List.length_range] at hlength
        omega
      have hfirst := s.left_le
      omega
    · by_cases hret : t.run = .returned
      · exact .inl hret
      · by_cases hstuck : t.Stuck
        · exact .inr (.inl hstuck)
        · exact .inr (.inr (htsound.goesOn hdone hret hstuck))
  · obtain ⟨-, hexecuted, hrelock⟩ := hstuck.runs hsound ht
    exact ⟨hrelock, hexecuted⟩
  · have hthread := hsound.outside (by simp [hret])
    refine ⟨hsound.returned hret, ?_, fun t ht => ?_⟩
    · simpa [EventLoop.Ordered, hthread, LoopThread.inHand] using hsound.ordered
    · refine ht.invariant (P := fun t => t.run = .returned ∧ t.loop.executed = s.loop.executed)
        (fun _ _ _ h _ hs => ?_) ⟨hret, rfl⟩
      obtain ⟨hrun, hexecuted⟩ := returned_step h.1 hs
      exact ⟨hrun, hexecuted.trans h.2⟩

/-- A loop stopped while it waits. -/
theorem stop_returns_example : ∃ s,
    Lib.Reach RunningLoop.step (fun _ _ => True) (start 1) s ∧ s.stopper = .done ∧
      s.run = .inside ∧ s.Returns := by
  have hrun : ∃ s, Lib.checked RunningLoop.step (fun _ _ => true) (start 1)
      [.run, .queueinloop 0, .stop, .queueinloop 0, .stop] = some s ∧
      s.stopper = .done ∧ s.run = .inside ∧ s.loop.thread = .waiting := ⟨_, rfl, rfl, rfl, rfl⟩
  obtain ⟨s, hs, hstop, hin, hthread⟩ := hrun
  have hgoes : ¬s.Stuck := by
    rintro ⟨task, hqueueing⟩
    cases hthread.symm.trans hqueueing
  have hreach : Lib.Reach RunningLoop.step (fun _ _ => True) (start 1) s :=
    Lib.Reach.start.checked _ (fun _ _ _ => trivial) hs
  obtain ⟨hreturns, -⟩ := stop_returns 1 s hreach
  obtain ⟨-, hiff, -⟩ := hreturns hstop
  exact ⟨s, hreach, hstop, hin, hiff.mpr hgoes⟩

end RunningLoop

end MudouHttp
