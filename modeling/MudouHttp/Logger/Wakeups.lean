import MudouHttp.Logger.Messages
import MudouHttp.Reactor.Wakeups

/-!
# The log worker wakes up for the destructor

`~Logger` stops its worker as `ThreadPool::stop` does, with the same gap. A
call of `Write` that still has its message to push wakes the worker up after
all (`notifyAll`). `missed_wakeup_iff` is the result about both threads.
-/

namespace MudouHttp

namespace Logger

/-- The destructor joins while the worker sleeps and no call of `Write` is
going to wake it up. -/
def Hung (s : Logger) : Prop :=
  s.destroyer = .joining ∧ s.worker = .sleeping ∧ s.workqueue = [] ∧ ∀ w ∈ s.writers, w = .outside

/-- The sleeping worker wakes up for a notification only. -/
def Notified (s : Logger) : Event → Prop
  | .worker => s.worker ≠ .sleeping
  | _ => True

/-- A call of `Write` has formatted its message and waits for the mutex. -/
def Coming (s : Logger) : Prop := ∃ call text, .pushing call text ∈ s.writers

/-- `notify_all` finds the worker between the test of the queue and the sleep
only if a message is coming. -/
def Seen (s : Logger) : Event → Prop
  | .destroy => s.destroyer = .set → s.worker = .parking → s.Coming
  | e => Notified s e

instance (s : Logger) : (e : Event) → Decidable (Notified s e)
  | .worker => inferInstanceAs (Decidable (s.worker ≠ .sleeping))
  | .write _ _ _ | .addWorkLog _ | .destroy => inferInstanceAs (Decidable True)

variable {format : LogFormat} {s s' : Logger}

-- ---------------------------------------------------------------------------
-- A worker on its way to sleep
-- ---------------------------------------------------------------------------

/-- From the test of the queue to its sleep the worker holds the mutex. -/
structure Parked (s : Logger) : Prop where
  flag : s.destroyer ≠ .idle → s.thStop = true
  locked : s.worker = .testing ∨ s.worker = .parking → s.locked = true
  empty : s.worker = .parking → s.workqueue = []

theorem of_wakeUp_or (h : Logger.wakeUp w = .testing ∨ Logger.wakeUp w = .parking) :
    w = .testing ∨ w = .parking :=
  h.imp (fun h => of_wakeUp h nofun) fun h => of_wakeUp h nofun

theorem Parked.change (h : Parked s) (hc : Change format s e s') : Parked s' := by
  cases hc with
  | ignored _ _ => exact ⟨h.flag, h.locked, h.empty⟩
  | format _ _ _ => exact ⟨h.flag, h.locked, h.empty⟩
  | direct _ => exact ⟨h.flag, h.locked, h.empty⟩
  | push _ hl =>
    exact ⟨h.flag, h.locked, fun hw => absurd (hl.symm.trans (h.locked (.inr hw))) nofun⟩
  | notify _ =>
    exact ⟨h.flag, fun hw => h.locked (of_wakeUp_or hw), fun hw => h.empty (of_wakeUp hw nofun)⟩
  | lock _ _ => exact ⟨h.flag, fun _ => rfl, nofun⟩
  | park hw _ hq => exact ⟨h.flag, fun _ => h.locked (.inl hw), fun _ => hq⟩
  | set _ => exact ⟨fun _ => rfl, h.locked, h.empty⟩
  | notifyAll hset =>
    exact ⟨fun _ => h.flag (by simp [hset]), fun hw => h.locked (of_wakeUp_or hw),
      fun hw => h.empty (of_wakeUp hw nofun)⟩
  | join hjoining _ => exact ⟨fun _ => h.flag (by simp [hjoining]), h.locked, h.empty⟩
  | _ => exact ⟨h.flag, by simp, nofun⟩

theorem init_parked (level : Xlog) (threads : Nat) : Parked (init level threads) :=
  ⟨fun hd => absurd rfl hd, by simp [init], nofun⟩

-- ---------------------------------------------------------------------------
-- After notify_all
-- ---------------------------------------------------------------------------

/-- `th_stop_` is set, and a worker that has missed it will be notified. -/
structure Awake (s : Logger) : Prop where
  flag : s.thStop = true
  parking : s.worker = .parking → s.Coming
  sleeping : s.worker = .sleeping → ∃ w ∈ s.writers, w ≠ .outside

theorem Coming.inside (h : Coming s) : ∃ w ∈ s.writers, w ≠ .outside := by
  obtain ⟨call, text, hmem⟩ := h
  exact ⟨_, hmem, nofun⟩

theorem not_sleeping_wakeUp (w : LogWorker) : Logger.wakeUp w ≠ .sleeping := by
  unfold Logger.wakeUp
  split
  · nofun
  · assumption

theorem Awake.change (h : Awake s) (hp : Parked s) (hc : Change format s e s') : Awake s' := by
  cases hc with
  | ignored _ _ => exact ⟨h.flag, h.parking, h.sleeping⟩
  | @format i call now hi _ _ =>
    have hlen := (List.getElem?_eq_some_iff.mp hi).1
    have hcoming : Coming { s with
        calls := s.calls ++ [call]
        writers := s.writers.set i (.pushing call (formatted format now call)) } :=
      ⟨_, _, List.mem_set hlen _⟩
    exact ⟨h.flag, fun _ => hcoming, fun _ => hcoming.inside⟩
  | direct _ => exact ⟨h.flag, h.parking, h.sleeping⟩
  | push hi hl =>
    have hlen := (List.getElem?_eq_some_iff.mp hi).1
    refine ⟨h.flag, fun hw => ?_, fun _ => ⟨.notifying, List.mem_set hlen _, nofun⟩⟩
    exact absurd (hl.symm.trans (hp.locked (.inr hw))) nofun
  | notify hi =>
    refine ⟨h.flag, fun hw => ?_, fun hw => absurd hw (not_sleeping_wakeUp _)⟩
    obtain ⟨call, text, hmem⟩ := h.parking (of_wakeUp hw nofun)
    exact ⟨call, text, Lib.mem_set_of_ne hi hmem nofun _⟩
  | park _ hunset _ => exact absurd (h.flag.symm.trans hunset) nofun
  | sleep hw => exact ⟨h.flag, nofun, fun _ => (h.parking hw).inside⟩
  | set _ => exact ⟨rfl, h.parking, h.sleeping⟩
  | notifyAll _ =>
    exact ⟨h.flag, fun hw => h.parking (of_wakeUp hw nofun),
      fun hw => absurd hw (not_sleeping_wakeUp _)⟩
  | join _ _ => exact ⟨h.flag, h.parking, h.sleeping⟩
  | _ => exact ⟨h.flag, nofun, nofun⟩

theorem Awake.not_hung (h : Awake s) : ¬s.Hung := by
  intro hhung
  obtain ⟨w, hmem, hne⟩ := h.sleeping hhung.2.1
  exact hne (hhung.2.2.2 w hmem)

theorem notifyAll_awake (hp : Parked s) (hset : s.destroyer = .set)
    (hcoming : s.worker = .parking → s.Coming) (hs : s.step format .destroy = .ok s') : Awake s' := by
  simp only [step, destroyStep, hset, Except.ok.injEq] at hs
  subst hs
  exact ⟨hp.flag (by simp [hset]), fun hw => hcoming (of_wakeUp hw (by simp)),
    fun hw => absurd hw (not_sleeping_wakeUp _)⟩

-- ---------------------------------------------------------------------------
-- A worker that notify_all finds before its sleep
-- ---------------------------------------------------------------------------

/-- With the worker parking, the calls of `Write` that have pushed return
without waking it up. -/
theorem drain (format : LogFormat) {writers : List Writer}
    (hpushed : ∀ call text, .pushing call text ∉ writers) (hw : s.worker = .parking) :
    ∃ quiet, (∀ w ∈ quiet, w = .outside) ∧
      Lib.Reach (step format) Notified { s with writers := writers } { s with writers := quiet } := by
  cases hn : writers.count .notifying with
  | zero =>
    refine ⟨writers, fun w hmem => ?_, .start⟩
    cases w with
    | outside => rfl
    | pushing call text => exact absurd hmem (hpushed call text)
    | notifying => exact absurd hmem (List.count_eq_zero.mp hn)
  | succ n =>
    have hmem : .notifying ∈ writers := List.count_pos_iff.mp (by omega)
    obtain ⟨i, hi⟩ := List.mem_iff_getElem?.mp hmem
    have hcount : (writers.set i .outside).count .notifying + 1 = writers.count .notifying :=
      Lib.countP_set (· == Writer.notifying) hi .outside
    have hreturn : ({ s with writers := writers } : Logger).step format (.addWorkLog i) =
        .ok { s with writers := writers.set i .outside } := by
      simp [step, addWorkLog, hi, hw, Logger.wakeUp]
    have hpushed' : ∀ call text, .pushing call text ∉ writers.set i .outside := fun call text hset =>
      hpushed call text ((List.mem_or_eq_of_mem_set hset).resolve_right (by simp))
    obtain ⟨quiet, houtside, hreach⟩ := drain format hpushed' hw
    exact ⟨quiet, houtside, (Lib.Reach.start.next trivial hreturn).trans hreach⟩
termination_by writers.count .notifying
decreasing_by omega

theorem hung_of_parking (hjoining : s.destroyer = .joining) (hq : s.workqueue = [])
    (hw : s.worker = .parking) (hcoming : ¬s.Coming) :
    ∃ s', Lib.Reach (step format) Notified s s' ∧ s'.Hung := by
  have hpushed : ∀ call text, .pushing call text ∉ s.writers := fun call text hmem =>
    hcoming ⟨call, text, hmem⟩
  obtain ⟨quiet, houtside, hreach⟩ := drain format hpushed hw
  have hlast : ({ s with writers := quiet } : Logger).step format .worker =
      .ok { s with writers := quiet, locked := false, worker := .sleeping } := by
    simp only [step, workerStep, hw]
  have hnotified : Notified { s with writers := quiet } .worker := by simp [Notified, hw]
  exact ⟨_, hreach.next hnotified hlast, hjoining, rfl, hq, houtside⟩

theorem begins_joining (hs : s.step format e = .ok s') (hjoining : s'.destroyer = .joining) :
    s.destroyer = .joining ∨ s.destroyer = .set ∧ e = .destroy := by
  cases hc : step_ok hs with
  | set _ => cases hjoining
  | notifyAll hset => exact .inr ⟨hset, rfl⟩
  | join _ _ => cases hjoining
  | _ => exact .inl hjoining

/-- `notify_all` of the destructor, and the worker that it may find before its sleep. -/
def notifyAll (format : LogFormat) : Lib.NotifyAll (step format) Notified .destroy where
  Sound := Parked
  Due s := s.destroyer = .set
  Ending s := s.destroyer = .joining
  Gap s := s.worker = .parking ∧ ¬s.Coming
  Awake := Awake
  Hung := Hung
  sound h hs := h.change (step_ok hs)
  begins := begins_joining
  roused h hset hnone hs := notifyAll_awake h hset (fun hw => not_not.mp fun hc => hnone ⟨hw, hc⟩) hs
  stays h hawake hs := hawake.change h (step_ok hs)
  awake h := h.not_hung
  ending h := h.1
  missed h hset hgap hs := by
    obtain ⟨hw, hcoming⟩ := hgap
    simp only [step, destroyStep, hset, Except.ok.injEq] at hs
    subst hs
    exact hung_of_parking rfl (h.empty hw) (by simp [hw, Logger.wakeUp]) hcoming

end Logger

-- ---------------------------------------------------------------------------
-- Both threads
-- ---------------------------------------------------------------------------

/-- No run hangs whose `notify_all` finds no worker between the test of the queue
and the sleep; for the logger a coming message will do. After any other
`notify_all` there is a run that hangs. -/
theorem missed_wakeup_iff (threadnum : Nat) (format : LogFormat) (level : Xlog) (threads : Nat) :
    (∀ s, Lib.Reach ThreadPool.step ThreadPool.Seen (.new threadnum) s → ¬s.Hung) ∧
    (∀ s s₁, Lib.Reach ThreadPool.step ThreadPool.Notified (.new threadnum) s →
      s.stopper = .set → s.step .stop = .ok s₁ →
      ((∃ s', Lib.Reach ThreadPool.step ThreadPool.Notified s₁ s' ∧ s'.Hung) ↔
        .parking ∈ s.workers)) ∧
    (∀ s, Lib.Reach (Logger.step format) Logger.Seen (.init level threads) s → ¬s.Hung) ∧
    ∀ s s₁, Lib.Reach (Logger.step format) Logger.Notified (.init level threads) s →
      s.destroyer = .set → s.step format .destroy = .ok s₁ →
      ((∃ s', Lib.Reach (Logger.step format) Logger.Notified s₁ s' ∧ s'.Hung) ↔
        s.worker = .parking ∧ ¬s.Coming) := by
  refine ⟨fun s h => ?_, fun s _ h hset hs => ?_, fun s h => ?_, fun s _ h hset hs => ?_⟩
  · refine ThreadPool.notifyAll.never_hung (fun s e hseen he hset => ?_) (ThreadPool.new_sound threadnum)
      (by rintro ⟨_, hjoining⟩; cases hjoining) h
    subst he
    exact hseen hset
  · have hsound := h.invariant (fun _ _ _ h _ hs => ThreadPool.notifyAll.sound h hs)
      (ThreadPool.new_sound threadnum)
    exact ThreadPool.notifyAll.hung_iff hsound hset hs
  · refine (Logger.notifyAll format).never_hung (fun s e hseen he hset hgap => ?_)
      (Logger.init_parked level threads) (by rintro ⟨⟩) h
    subst he
    exact hgap.2 (hseen hset hgap.1)
  · have hsound := h.invariant (fun _ _ _ h _ hs => (Logger.notifyAll format).sound h hs)
      (Logger.init_parked level threads)
    exact (Logger.notifyAll format).hung_iff hsound hset hs

/-- A worker that is asleep before `stop_` is set is woken up. -/
theorem missed_wakeup_iff_example :
    ∃ s : ThreadPool, Lib.Reach ThreadPool.step ThreadPool.Seen (.new 1) s ∧
      s.stopper = .joining 0 ∧ s.workers = [.locking] ∧ ¬s.Hung := by
  have hrun : ∃ s, Lib.checked ThreadPool.step (fun s e => decide (ThreadPool.Seen s e)) (.new 1)
      (List.replicate 4 (.worker 0) ++ [.stop, .stop, .stop]) = some s ∧
      s.stopper = .joining 0 ∧ s.workers = [.locking] := ⟨_, rfl, rfl, rfl⟩
  obtain ⟨s, hs, hjoining, hworkers⟩ := hrun
  have hreach := Lib.Reach.start.checked _ (fun _ _ => of_decide_eq_true) hs
  obtain ⟨hnone, -⟩ := missed_wakeup_iff 1 (fun _ _ log _ _ => log) .info 1
  exact ⟨s, hreach, hjoining, hworkers, hnone s hreach⟩

/-- The flag and `notify_all` come between the test of the queue and the sleep. -/
theorem gap_before_sleep :
    (¬∀ threadnum s,
      Lib.Reach ThreadPool.step ThreadPool.Notified (.new threadnum) s → ¬s.Hung) ∧
    ¬∀ format level threads s,
      Lib.Reach (Logger.step format) Logger.Notified (.init level threads) s → ¬s.Hung := by
  constructor
  · intro h
    have hrun : ∃ s, Lib.checked ThreadPool.step (fun s e => decide (ThreadPool.Notified s e))
        (.new 1) (List.replicate 3 (.worker 0) ++ [.stop, .stop, .stop, .worker 0]) = some s ∧
        s.stopper = .joining 0 ∧ s.workers = [.sleeping] ∧ s.taskqueue = [] ∧ s.adding = [] :=
      ⟨_, rfl, rfl, rfl, rfl, rfl⟩
    obtain ⟨s, hs, hjoining, hworkers, hqueue, hadding⟩ := hrun
    have hreach := Lib.Reach.start.checked _ (fun _ _ => of_decide_eq_true) hs
    exact h 1 s hreach ⟨⟨0, hjoining⟩, by simp [hworkers], hqueue, hadding⟩
  · intro h
    have hrun : ∃ s, Lib.checked (Logger.step fun _ _ log _ _ => log)
        (fun s e => decide (Logger.Notified s e)) (.init .info 1)
        (List.replicate 2 .worker ++ [.destroy, .destroy, .worker]) = some s ∧
        s.destroyer = .joining ∧ s.worker = .sleeping ∧ s.workqueue = [] ∧ s.writers = [.outside] :=
      ⟨_, rfl, rfl, rfl, rfl, rfl⟩
    obtain ⟨s, hs, hjoining, hworker, hqueue, hwriters⟩ := hrun
    have hreach := Lib.Reach.start.checked _ (fun _ _ => of_decide_eq_true) hs
    exact h _ .info 1 s hreach ⟨hjoining, hworker, hqueue, by simp [hwriters]⟩

end MudouHttp
