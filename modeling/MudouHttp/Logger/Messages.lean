import MudouHttp.Lib.Counting
import MudouHttp.Logger.Logger

/-!
# No message is lost

What has been given to `Output`, what the worker has in hand and what is in the
queue are, in this order, what was pushed. The worker returns only from an
empty queue, so that nothing pushed before `th_stop_` was set is left behind
(`nothing_lost`).
-/

namespace MudouHttp

def LogWorker.inHand : LogWorker → List Bytes
  | .writing text => [text]
  | _ => []

def Writer.carries (call : LogCall) : Writer → Bool
  | .pushing c _ => c == call
  | _ => false

namespace Logger

-- ---------------------------------------------------------------------------
-- What a step can do
-- ---------------------------------------------------------------------------

inductive Change (format : LogFormat) (s : Logger) : Event → Logger → Prop
  | ignored : s.writers[i]? = some .outside → call.level.toNat < s.logLevel.toNat →
    Change format s (.write i call now) { s with calls := s.calls ++ [call] }
  | format : s.writers[i]? = some .outside → s.logLevel.toNat ≤ call.level.toNat →
    s.isasync = true →
    Change format s (.write i call now) { s with
      calls := s.calls ++ [call]
      writers := s.writers.set i (.pushing call (formatted format now call)) }
  | direct : s.isasync = false →
    Change format s (.write i call now) { s with
      calls := s.calls ++ [call], outputs := s.outputs ++ [formatted format now call] }
  | push : s.writers[i]? = some (.pushing call text) → s.locked = false →
    Change format s (.addWorkLog i) { s with
      workqueue := s.workqueue ++ [text], pushed := s.pushed ++ [(call, text)]
      writers := s.writers.set i .notifying }
  | notify : s.writers[i]? = some .notifying →
    Change format s (.addWorkLog i)
      { s with worker := wakeUp s.worker, writers := s.writers.set i .outside }
  | lock : s.worker = .locking → s.locked = false →
    Change format s .worker { s with locked := true, worker := .testing }
  | ready : s.worker = .testing → s.thStop = true ∨ s.workqueue ≠ [] →
    Change format s .worker { s with worker := .leaving }
  | park : s.worker = .testing → s.thStop = false → s.workqueue = [] →
    Change format s .worker { s with worker := .parking }
  | sleep : s.worker = .parking →
    Change format s .worker { s with locked := false, worker := .sleeping }
  | wake : s.worker = .sleeping → Change format s .worker { s with worker := .locking }
  | exit : s.worker = .leaving → s.thStop = true → s.workqueue = [] →
    Change format s .worker { s with locked := false, worker := .returned }
  | stay : s.worker = .leaving → s.thStop = false ∨ s.workqueue ≠ [] →
    Change format s .worker { s with worker := .taking }
  | take : s.worker = .taking → s.workqueue = text :: rest →
    Change format s .worker { s with workqueue := rest, locked := false, worker := .writing text }
  | output : s.worker = .writing text →
    Change format s .worker { s with outputs := s.outputs ++ [text], worker := .locking }
  | set : s.destroyer = .idle → Change format s .destroy
      { s with thStop := true, destroyer := .set, due := s.pushed.map Prod.snd }
  | notifyAll : s.destroyer = .set →
    Change format s .destroy { s with worker := wakeUp s.worker, destroyer := .joining }
  | join : s.destroyer = .joining → s.worker = .returned →
    Change format s .destroy { s with destroyer := .done }

variable {format : LogFormat} {s s' : Logger}

theorem write_ok (h : s.write format i call now = .ok s') :
    Change format s (.write i call now) s' := by
  simp only [write] at h
  split at h
  · rename_i hi
    split at h
    · rename_i hlevel
      cases h
      exact .ignored hi hlevel
    · rename_i hlevel
      split at h
      · rename_i hasync
        cases h
        exact .format hi (Nat.le_of_not_lt hlevel) hasync
      · rename_i hasync
        cases h
        exact .direct (Bool.eq_false_iff.mpr hasync)
  · cases h

theorem addWorkLog_ok (h : s.addWorkLog i = .ok s') : Change format s (.addWorkLog i) s' := by
  simp only [addWorkLog] at h
  split at h
  · rename_i hi
    split at h
    · cases h
    · rename_i hl
      cases h
      exact .push hi (Bool.eq_false_iff.mpr hl)
  · rename_i hi
    cases h
    exact .notify hi
  · cases h

theorem workerStep_ok (h : s.workerStep = .ok s') : Change format s .worker s' := by
  simp only [workerStep] at h
  split at h
  · rename_i hw
    split at h
    · cases h
    · rename_i hl
      cases h
      exact .lock hw (Bool.eq_false_iff.mpr hl)
  · rename_i hw
    cases h
    by_cases hready : s.thStop = true ∨ s.workqueue ≠ []
    · rw [if_pos hready]
      exact .ready hw hready
    · rw [if_neg hready]
      obtain ⟨hstop, hq⟩ := not_or.mp hready
      exact .park hw (Bool.eq_false_iff.mpr hstop) (not_not.mp hq)
  · rename_i hw
    cases h
    exact .sleep hw
  · rename_i hw
    cases h
    exact .wake hw
  · rename_i hw
    split at h
    · rename_i hexit
      cases h
      exact .exit hw hexit.1 hexit.2
    · rename_i hstay
      cases h
      refine .stay hw ?_
      cases hstop : s.thStop with
      | false => exact .inl rfl
      | true => exact .inr fun hq => hstay ⟨hstop, hq⟩
  · rename_i hw
    split at h
    · cases h
    · rename_i hq
      cases h
      exact .take hw hq
  · rename_i hw
    cases h
    exact .output hw
  · cases h

theorem step_ok (h : s.step format e = .ok s') : Change format s e s' := by
  cases e with
  | write i call now => exact write_ok h
  | addWorkLog i => exact addWorkLog_ok h
  | worker => exact workerStep_ok h
  | destroy =>
    simp only [step, destroyStep] at h
    split at h
    · rename_i hd
      cases h
      exact .set hd
    · rename_i hd
      cases h
      exact .notifyAll hd
    · rename_i hd
      split at h
      · rename_i hw
        cases h
        exact .join hd hw
      · cases h
    · cases h

-- ---------------------------------------------------------------------------
-- The order of the messages
-- ---------------------------------------------------------------------------

theorem inHand_wakeUp (w : LogWorker) : (wakeUp w).inHand = w.inHand := by
  cases w <;> rfl

theorem of_wakeUp (h : wakeUp w = v) (hv : v ≠ .locking) : w = v := by
  unfold wakeUp at h
  split at h
  · exact absurd h.symm hv
  · exact h

structure Ordered (s : Logger) : Prop where
  async : s.isasync = true
  order : s.outputs ++ s.worker.inHand ++ s.workqueue = s.pushed.map Prod.snd
  leaving : s.worker = .leaving → s.thStop = true ∨ s.workqueue ≠ []
  taking : s.worker = .taking → s.workqueue ≠ []
  exited : s.worker = .returned → s.thStop = true ∧ s.due <+: s.outputs
  stopped : s.thStop = true → s.destroyer ≠ .idle ∧ s.due <+: s.pushed.map Prod.snd

theorem Ordered.goOn (h : Ordered s) (w : LogWorker) (hhand : w.inHand = s.worker.inHand)
    (hw : w ≠ .leaving ∧ w ≠ .taking ∧ w ≠ .returned) (locked : Bool) :
    Ordered { s with locked := locked, worker := w } :=
  { async := h.async
    order := by rw [← h.order]; exact congrArg (s.outputs ++ · ++ s.workqueue) hhand
    leaving := fun he => absurd he hw.1
    taking := fun he => absurd he hw.2.1
    exited := fun he => absurd he hw.2.2
    stopped := h.stopped }

theorem Ordered.wakeUp (h : Ordered s) : Ordered { s with worker := wakeUp s.worker } :=
  { async := h.async
    order := by rw [← h.order]; exact congrArg (s.outputs ++ · ++ s.workqueue) (inHand_wakeUp _)
    leaving := fun he => h.leaving (of_wakeUp he nofun)
    taking := fun he => h.taking (of_wakeUp he nofun)
    exited := fun he => h.exited (of_wakeUp he nofun)
    stopped := h.stopped }

theorem Ordered.change (h : Ordered s) (hc : Change format s e s') : Ordered s' := by
  cases hc with
  | ignored _ _ => exact ⟨h.async, h.order, h.leaving, h.taking, h.exited, h.stopped⟩
  | format _ _ _ => exact ⟨h.async, h.order, h.leaving, h.taking, h.exited, h.stopped⟩
  | direct hasync => cases h.async.symm.trans hasync
  | @push i text call _ _ =>
    refine ⟨h.async, ?_, fun _ => .inr (by simp), fun _ => by simp, h.exited, fun hstop => ?_⟩
    · show s.outputs ++ s.worker.inHand ++ (s.workqueue ++ [text]) = _
      rw [List.map_append, ← h.order, List.append_assoc, List.append_assoc, List.append_assoc]
      rfl
    · obtain ⟨hidle, hdue⟩ := h.stopped hstop
      exact ⟨hidle, hdue.trans (by simp)⟩
  | notify _ =>
    have hwoken := h.wakeUp
    exact ⟨hwoken.async, hwoken.order, hwoken.leaving, hwoken.taking, hwoken.exited, hwoken.stopped⟩
  | lock hw _ => exact h.goOn .testing (by rw [hw]; rfl) ⟨nofun, nofun, nofun⟩ true
  | ready hw hready =>
    exact ⟨h.async, by rw [← h.order, hw]; rfl, fun _ => hready, nofun, nofun, h.stopped⟩
  | park hw _ _ => exact h.goOn .parking (by rw [hw]; rfl) ⟨nofun, nofun, nofun⟩ s.locked
  | sleep hw => exact h.goOn .sleeping (by rw [hw]; rfl) ⟨nofun, nofun, nofun⟩ false
  | wake hw => exact h.goOn .locking (by rw [hw]; rfl) ⟨nofun, nofun, nofun⟩ s.locked
  | exit hw hstop hq =>
    have horder := h.order
    rw [hw, hq, List.append_nil] at horder
    have hall : s.outputs = s.pushed.map Prod.snd := (List.append_nil _).symm.trans horder
    refine ⟨h.async, by rw [← h.order, hw]; rfl, nofun, nofun, fun _ => ⟨hstop, ?_⟩, h.stopped⟩
    show s.due <+: s.outputs
    rw [hall]
    exact (h.stopped hstop).2
  | stay hw hstay =>
    have hne : s.workqueue ≠ [] := by
      rcases hstay with hstop | hne
      · exact (h.leaving hw).resolve_left (by simp [hstop])
      · exact hne
    exact ⟨h.async, by rw [← h.order, hw]; rfl, nofun, fun _ => hne, nofun, h.stopped⟩
  | @take text rest hw hq =>
    refine ⟨h.async, ?_, nofun, nofun, nofun, h.stopped⟩
    rw [← h.order, hw, hq]
    show s.outputs ++ [text] ++ rest = s.outputs ++ [] ++ text :: rest
    simp
  | @output text hw =>
    refine ⟨h.async, ?_, nofun, nofun, nofun, h.stopped⟩
    rw [← h.order, hw]
    show s.outputs ++ [text] ++ [] ++ s.workqueue = s.outputs ++ [text] ++ s.workqueue
    rw [List.append_nil]
  | set hidle =>
    refine ⟨h.async, h.order, fun _ => .inl rfl, h.taking, fun hw => ?_, fun _ => ⟨nofun, ?_⟩⟩
    · exact absurd hidle (h.stopped (h.exited hw).1).1
    · exact List.prefix_rfl
  | notifyAll hset =>
    have hwoken := h.wakeUp
    exact ⟨hwoken.async, hwoken.order, hwoken.leaving, hwoken.taking, hwoken.exited,
      fun hstop => ⟨nofun, (hwoken.stopped hstop).2⟩⟩
  | join hjoining _ =>
    exact ⟨h.async, h.order, h.leaving, h.taking, h.exited,
      fun hstop => ⟨nofun, (h.stopped hstop).2⟩⟩

theorem init_ordered (level : Xlog) (threads : Nat) : Ordered (init level threads) :=
  ⟨rfl, rfl, nofun, nofun, nofun, nofun⟩

/-- The worker never pops an empty queue. -/
theorem Ordered.no_emptyQueue (h : Ordered s) : s.step format e ≠ .error .emptyQueue := by
  intro he
  cases e with
  | write i call now =>
    simp only [step, write] at he
    repeat' split at he
    all_goals cases he
  | addWorkLog i =>
    simp only [step, addWorkLog] at he
    repeat' split at he
    all_goals cases he
  | worker =>
    cases hw : s.worker with
    | taking =>
      obtain ⟨text, rest, hq⟩ := List.exists_cons_of_ne_nil (h.taking hw)
      simp [step, workerStep, hw, hq] at he
    | locking =>
      simp only [step, workerStep, hw] at he
      split at he <;> cases he
    | leaving =>
      simp only [step, workerStep, hw] at he
      split at he <;> cases he
    | _ => simp [step, workerStep, hw] at he
  | destroy =>
    simp only [step, destroyStep] at he
    repeat' split at he
    all_goals cases he

-- ---------------------------------------------------------------------------
-- Every call
-- ---------------------------------------------------------------------------

def Formatted (format : LogFormat) (level : Xlog) (message : LogCall × Bytes) : Prop :=
  level.toNat ≤ message.1.level.toNat ∧ ∃ now, message.2 = formatted format now message.1

structure Accounted (format : LogFormat) (level : Xlog) (s : Logger) : Prop where
  logLevel : s.logLevel = level
  pushed : ∀ message ∈ s.pushed, Formatted format level message
  pushing : .pushing call text ∈ s.writers → Formatted format level (call, text)
  once : ∀ call, level.toNat ≤ call.level.toNat →
    s.calls.count call = (s.pushed.map Prod.fst).count call + s.writers.countP (Writer.carries call)

theorem Accounted.keep (h : Accounted format level s) (hlevel : s'.logLevel = s.logLevel)
    (hpushed : s'.pushed = s.pushed) (hwriters : s'.writers = s.writers)
    (hcalls : s'.calls = s.calls) : Accounted format level s' := by
  refine ⟨hlevel.trans h.logLevel, hpushed ▸ h.pushed, hwriters ▸ h.pushing, fun call hcall => ?_⟩
  rw [hcalls, hpushed, hwriters]
  exact h.once call hcall

theorem Accounted.change (h : Accounted format level s) (ha : s.isasync = true)
    (hc : Change format s e s') : Accounted format level s' := by
  cases hc with
  | @ignored i call now _ hlow =>
    refine ⟨h.logLevel, h.pushed, h.pushing, fun c hcall => ?_⟩
    have hother : (call == c) = false := by
      refine beq_eq_false_iff_ne.mpr ?_
      rintro rfl
      rw [h.logLevel] at hlow
      omega
    rw [Lib.count_concat, hother]
    exact h.once c hcall
  | @format i call now hi hhigh _ =>
    have hformatted : Formatted format level (call, formatted format now call) :=
      ⟨h.logLevel ▸ hhigh, now, rfl⟩
    refine ⟨h.logLevel, h.pushed, fun hmem => ?_, fun c hcall => ?_⟩
    · rcases List.mem_or_eq_of_mem_set hmem with hmem | heq
      · exact h.pushing hmem
      · cases heq
        exact hformatted
    · have hmoved := Lib.countP_set (Writer.carries c) hi (.pushing call (formatted format now call))
      have hone := h.once c hcall
      simp only [Writer.carries, Bool.toNat_false, Lib.count_concat] at hmoved ⊢
      omega
  | direct hasync => cases ha.symm.trans hasync
  | @push i text call hi _ =>
    refine ⟨h.logLevel, fun message hmem => ?_, fun hmem => ?_, fun c hcall => ?_⟩
    · rcases List.mem_append.mp hmem with hmem | hmem
      · exact h.pushed message hmem
      · rw [List.mem_singleton.mp hmem]
        exact h.pushing (List.mem_of_getElem? hi)
    · exact h.pushing ((List.mem_or_eq_of_mem_set hmem).resolve_right nofun)
    · have hmoved := Lib.countP_set (Writer.carries c) hi .notifying
      have hone := h.once c hcall
      simp only [Writer.carries, Bool.toNat_false, List.map_append, List.map_singleton,
        Lib.count_concat] at hmoved ⊢
      omega
  | notify hi =>
    refine ⟨h.logLevel, h.pushed, fun hmem => ?_, fun c hcall => ?_⟩
    · exact h.pushing ((List.mem_or_eq_of_mem_set hmem).resolve_right nofun)
    · have hmoved := Lib.countP_set (Writer.carries c) hi .outside
      exact (h.once c hcall).trans (congrArg _ (Nat.add_right_cancel hmoved).symm)
  | _ => exact h.keep rfl rfl rfl rfl

theorem init_accounted (format : LogFormat) (level : Xlog) (threads : Nat) :
    Accounted format level (init level threads) := by
  refine ⟨rfl, nofun, fun hmem => ?_, fun call _ => ?_⟩
  · exact absurd (List.eq_of_mem_replicate hmem) nofun
  · simp [init, List.countP_replicate, Writer.carries]

-- ---------------------------------------------------------------------------
-- Runs
-- ---------------------------------------------------------------------------

def Sound (format : LogFormat) (level : Xlog) (s : Logger) : Prop :=
  Ordered s ∧ Accounted format level s

theorem sound_of_reach (h : Lib.Reach (step format) meets (init level threads) s) :
    Sound format level s :=
  h.invariant (fun _ _ _ h _ hs => ⟨h.1.change (step_ok hs), h.2.change h.1.async (step_ok hs)⟩)
    ⟨init_ordered level threads, init_accounted format level threads⟩

/-- What reaches `Output` is, text by text, what was pushed: the calls of
sufficient level, each once. The worker returns after all that was pushed
before `th_stop_` was set. -/
theorem nothing_lost (h : Lib.Reach (step format) (fun _ _ => True) (init level threads) s) :
    s.outputs <+: s.pushed.map Prod.snd ∧
    (∀ message ∈ s.pushed, Formatted format level message) ∧
    (∀ call, level.toNat ≤ call.level.toNat →
      s.calls.count call =
        (s.pushed.map Prod.fst).count call + s.writers.countP (Writer.carries call)) ∧
    (s.worker = .returned → s.due <+: s.outputs) ∧
    ∀ e, s.step format e ≠ .error .emptyQueue := by
  obtain ⟨hordered, haccounted⟩ := sound_of_reach h
  refine ⟨?_, haccounted.pushed, haccounted.once, fun hw => (hordered.exited hw).2,
    fun e => hordered.no_emptyQueue⟩
  rw [← hordered.order, List.append_assoc]
  exact List.prefix_append _ _

/-- Both messages are in the queue when `th_stop_` is set. -/
theorem nothing_lost_example :
    ∃ s, Lib.Reach (step fun _ _ log _ _ => log) (fun _ _ => True) (init .info 2) s ∧
      s.worker = .returned ∧ s.due = [[2], [1]] ∧ s.due <+: s.outputs := by
  have hrun : ∃ s, Lib.runs (step fun _ _ log _ _ => log) (init .info 2)
      ([.write 0 ⟨.info, [1], [], 1⟩ 0, .write 1 ⟨.error, [2], [], 2⟩ 0, .addWorkLog 1, .addWorkLog 0,
        .destroy] ++ List.replicate 13 .worker) = .ok s ∧
      s.worker = .returned ∧ s.due = [[2], [1]] := ⟨_, rfl, rfl, rfl⟩
  obtain ⟨s, hs, hw, hdue⟩ := hrun
  have hreach := Lib.Reach.start.runs _ (.of_all (fun _ _ => trivial) _ _) hs
  exact ⟨s, hreach, hw, hdue, (nothing_lost hreach).2.2.2.1 hw⟩

end Logger

end MudouHttp
