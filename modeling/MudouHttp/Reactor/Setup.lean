import MudouHttp.Cxx.Machine
import MudouHttp.Reactor.Lifecycle

/-!
# Setting a connection up

The constructor of Connection registers the channel before
`TcpServer::newconnection` has done anything else, so the event loop can call
a callback that is not set, on an object no `shared_ptr` owns, or take out of
the maps what is put in later. `set_up_first`: neither happens in a run in
which the loop executes no statement before the set-up statement it relies on.
-/

namespace MudouHttp

open Function (update update_self update_of_ne)

/-- The set-up statements a statement of the event loop relies on. -/
def relies : Action → List Action
  | .callback c => [.own, .setCallback c]
  | .removeTimer => [.addTimer]
  | .eraseConns => [.insertConns]
  | _ => []

def Action.loops : Action → Bool
  | .updatechannel => true
  | .setDisconnect => true
  | .disableall => true
  | .removechannel => true
  | .callback _ => true
  | .updateTimer => true
  | .removeTimer => true
  | .eraseConns => true
  | .drop => true
  | _ => false

/-- A teardown of the program goes on to the close handling. -/
def GoesOn : List Action → Prop
  | [] => True
  | .setDisconnect :: p => (.callback .close ∈ p ∨ .callback .error ∈ p) ∧ GoesOn p
  | _ :: p => GoesOn p

theorem handleevent_loops (ev : ChannelEvent) :
    (∀ a ∈ handleevent ev, a.loops = true) ∧ GoesOn (handleevent ev) := by
  cases ev with
  | readable parsed => cases parsed <;> exact ⟨by decide, by simp [handleevent, GoesOn]⟩
  | writeAll keepAlive =>
    cases keepAlive <;> exact ⟨by decide, by simp [handleevent, teardown, GoesOn]⟩
  | _ => exact ⟨by decide, by simp [handleevent, teardown, GoesOn]⟩

theorem handler_loops (c : Callback) : ∀ a ∈ handler c, a.loops = true := by
  cases c <;> decide

theorem GoesOn.tail (h : GoesOn (a :: p)) : GoesOn p := by
  cases a with
  | setDisconnect => exact h.2
  | _ => exact h

theorem GoesOn.called (h : GoesOn p) (c : Callback) : GoesOn (handler c ++ p) := by
  cases c <;> exact h

def Stop.bad (stop : Stop) : Prop := stop = .badFunctionCall ∨ stop = .badWeakPtr

namespace Server

/-- The runs of the main thread and the event loop alone. -/
def NoTick (_ : Server) (e : Event) : Prop := e ≠ .tick

def SetUp (s : Server) : Event → Prop
  | .run .loop => match s.program .loop with
    | [] => True
    | a :: _ => ∀ b ∈ relies a, b ∉ s.program .main
  | .tick => False
  | _ => True

-- ---------------------------------------------------------------------------
-- What one statement can do
-- ---------------------------------------------------------------------------

variable {s s' : Server}

theorem updatechannel_frame (h : s.updatechannel = .ok s') :
    ∃ m i, s' = { s with member := m, inEpoll := i } := by
  unfold Server.updatechannel at h
  split at h
  · split at h
    · cases h
      exact ⟨_, _, rfl⟩
    · cases h
  · split at h
    · cases h
    · cases h
      exact ⟨_, _, rfl⟩

theorem removechannel_frame (h : s.removechannel = .ok s') :
    ∃ m n, s' = { s with member := m, removals := n } := by
  unfold Server.removechannel at h
  split at h
  · split at h
    · cases h
      exact ⟨_, _, rfl⟩
    · cases h
  · cases h
    exact ⟨_, _, rfl⟩

theorem settle_frame (s : Server) : ∃ m, s.settle = { s with member := m } := by
  unfold settle
  split
  · exact ⟨_, rfl⟩
  · exact ⟨_, rfl⟩

structure Built (s : Server) (a : Action) (s' : Server) : Prop where
  program : s'.program = s.program
  disconnect : s'.disconnect = s.disconnect
  owned : s.owned = true ∨ a = .own → s'.owned = true
  set : ∀ c, c ∈ s.set ∨ a = .setCallback c → c ∈ s'.set
  wheel : a ≠ .addTimer → s'.wheel = s.wheel
  conns : a ≠ .insertConns → s'.conns = s.conns

theorem act_built (ha : a ∈ newconnection) (h : s.act a = .ok (s', called)) :
    called = [] ∧ Built s a s' := by
  cases a with
  | enablereading =>
    obtain ⟨s₁, hu, hs⟩ := bind_ok h
    cases hs
    obtain ⟨m, i, rfl⟩ := updatechannel_frame hu
    exact ⟨rfl, rfl, rfl, by simp, by simp, by simp, by simp⟩
  | own =>
    cases h
    exact ⟨rfl, rfl, rfl, by simp, by simp, by simp, by simp⟩
  | setCallback c =>
    cases h
    refine ⟨rfl, rfl, rfl, by simp, ?_, by simp, by simp⟩
    rintro d (hd | hd)
    · exact List.mem_cons_of_mem _ hd
    · cases hd
      exact List.mem_cons_self
  | addTimer =>
    cases h
    exact ⟨rfl, rfl, rfl, by simp, by simp, by simp, by simp⟩
  | insertConns =>
    cases h
    exact ⟨rfl, rfl, rfl, by simp, by simp, by simp, by simp⟩
  | drop =>
    cases h
    exact ⟨rfl, rfl, rfl, by simp, by simp, by simp, by simp⟩
  | _ => simp [newconnection] at ha

structure Handled (s : Server) (a : Action) (s' : Server) (called : List Action) : Prop where
  program : s'.program = s.program
  owned : s'.owned = s.owned
  set : s'.set = s.set
  disconnect : s'.disconnect = s.disconnect ∨ a = .setDisconnect
  wheel : s'.wheel = if a = .removeTimer then false else s.wheel
  conns : s'.conns = if a = .eraseConns then false else s.conns
  called_eq : called = match a with
    | .callback c => handler c
    | _ => []

theorem act_handled (ha : a.loops = true) (h : s.act a = .ok (s', called)) :
    Handled s a s' called := by
  cases a with
  | updatechannel | disableall =>
    obtain ⟨s₁, hu, hs⟩ := bind_ok h
    cases hs
    obtain ⟨m, i, rfl⟩ := updatechannel_frame hu
    exact ⟨rfl, rfl, rfl, .inl rfl, rfl, rfl, rfl⟩
  | removechannel =>
    obtain ⟨s₁, hu, hs⟩ := bind_ok h
    cases hs
    obtain ⟨m, n, rfl⟩ := removechannel_frame hu
    exact ⟨rfl, rfl, rfl, .inl rfl, rfl, rfl, rfl⟩
  | callback c =>
    simp only [act, call] at h
    split at h
    · cases h
    · split at h
      · cases h
        exact ⟨rfl, rfl, rfl, .inl rfl, rfl, rfl, rfl⟩
      · cases h
  | setDisconnect =>
    cases h
    exact ⟨rfl, rfl, rfl, .inr rfl, rfl, rfl, rfl⟩
  | updateTimer =>
    cases h
    exact ⟨rfl, rfl, rfl, .inl rfl, rfl, rfl, rfl⟩
  | removeTimer =>
    cases h
    exact ⟨rfl, rfl, rfl, .inl rfl, rfl, rfl, rfl⟩
  | eraseConns =>
    cases h
    exact ⟨rfl, rfl, rfl, .inl rfl, rfl, rfl, rfl⟩
  | drop =>
    cases h
    exact ⟨rfl, rfl, rfl, .inl rfl, rfl, rfl, rfl⟩
  | _ => cases ha

/-- A thread's statement, without what `settle` does to the epoll set. -/
theorem run_step (h : s.step (.run t) = .ok s') :
    ∃ a rest s₁ called, s.program t = a :: rest ∧ (s.leave t rest).act a = .ok (s₁, called) ∧
      ∃ m, s' = { s₁.leave t (called ++ rest) with member := m } := by
  cases hprog : s.program t with
  | nil => simp only [step, hprog, reduceCtorEq] at h
  | cons a rest =>
    simp only [step, hprog] at h
    split at h
    · cases h
    · obtain ⟨⟨s₁, called⟩, hact, hs⟩ := bind_ok h
      cases hs
      exact ⟨a, rest, s₁, called, rfl, hact, settle_frame _⟩

-- ---------------------------------------------------------------------------
-- What holds while the connection is set up
-- ---------------------------------------------------------------------------

/-- The close handling is to come, or the clean-up that it calls, or the entry
is gone for good. -/
def Cleans (s : Server) (clean build : Action) (entry : Bool) : Prop :=
  (.callback .close ∈ s.program .loop ∨ .callback .error ∈ s.program .loop) ∨
    clean ∈ s.program .loop ∨ (entry = false ∧ build ∉ s.program .main)

structure Assembled (s : Server) : Prop where
  main : ∀ a ∈ s.program .main, a ∈ newconnection
  loop : ∀ a ∈ s.program .loop, a.loops = true
  goesOn : GoesOn (s.program .loop)
  timer : s.program .timer = []
  owned : .own ∉ s.program .main → s.owned = true
  set : ∀ c, .setCallback c ∉ s.program .main → c ∈ s.set
  wheel : s.disconnect = true → Cleans s .removeTimer .addTimer s.wheel
  conns : s.disconnect = true → Cleans s .eraseConns .insertConns s.conns

theorem accepted_assembled : Assembled accepted := by
  refine ⟨?_, ?_, trivial, rfl, ?_, ?_, ?_, ?_⟩
  · exact fun a ha => ha
  · exact fun a ha => absurd ha List.not_mem_nil
  · exact fun h => absurd (by decide) h
  · intro c h
    refine absurd ?_ h
    cases c <;> decide
  · rintro ⟨⟩
  · rintro ⟨⟩

theorem main_preserved (h : Assembled s) (hs : s.step (.run .main) = .ok s') : Assembled s' := by
  obtain ⟨a, rest, s₁, called, hprog, hact, m, rfl⟩ := run_step hs
  obtain ⟨rfl, hbuilt⟩ := act_built (h.main a (hprog ▸ List.mem_cons_self)) hact
  have hmem : ∀ b, b ∈ rest → b ∈ s.program .main := fun b hb => hprog ▸ List.mem_cons_of_mem a hb
  have hmain : (s₁.leave .main ([] ++ rest)).program .main = rest := leave_same ..
  have hother : ∀ t, t ≠ .main → (s₁.leave .main ([] ++ rest)).program t = s.program t := by
    intro t ht
    rw [leave_other _ _ ht, hbuilt.program, leave_other _ _ ht]
  -- a statement no longer to come was done before or just now
  have hdone : ∀ b, b ∉ rest → b ∉ s.program .main ∨ a = b := by
    intro b hb
    rw [hprog, List.mem_cons, not_or]
    by_cases he : a = b
    · exact .inr he
    · exact .inl ⟨fun hba => he hba.symm, hb⟩
  have hcleans : ∀ {clean build} {entry entry' : Bool}, (a ≠ build → entry' = entry) →
      Cleans s clean build entry →
      Cleans (s₁.leave .main ([] ++ rest)) clean build entry' := by
    rintro clean build entry entry' he (hclose | hclean | ⟨hgone, hbuild⟩)
    · exact .inl (by rwa [hother _ (by decide)])
    · exact .inr (.inl (by rwa [hother _ (by decide)]))
    · refine .inr (.inr ⟨(he ?_).trans hgone, fun hin => hbuild (hmem _ (hmain ▸ hin))⟩)
      rintro rfl
      exact hbuild (hprog ▸ List.mem_cons_self)
  refine ⟨?_, ?_, ?_, ?_, ?_, ?_, ?_, ?_⟩
  · intro b hb
    exact h.main b (hmem b (hmain ▸ hb))
  · exact (hother .loop (by decide)).symm ▸ h.loop
  · exact (hother .loop (by decide)).symm ▸ h.goesOn
  · exact (hother .timer (by decide)).trans h.timer
  · intro hown
    rcases hdone _ (hmain ▸ hown) with hb | rfl
    · exact hbuilt.owned (.inl (h.owned hb))
    · exact hbuilt.owned (.inr rfl)
  · intro c hset
    rcases hdone _ (hmain ▸ hset) with hb | rfl
    · exact hbuilt.set c (.inl (h.set c hb))
    · exact hbuilt.set c (.inr rfl)
  · intro hd
    exact hcleans hbuilt.wheel (h.wheel (hbuilt.disconnect.symm.trans hd))
  · intro hd
    exact hcleans hbuilt.conns (h.conns (hbuilt.disconnect.symm.trans hd))

theorem loop_preserved (h : Assembled s) (hm : SetUp s (.run .loop))
    (hs : s.step (.run .loop) = .ok s') : Assembled s' := by
  obtain ⟨a, rest, s₁, called, hprog, hact, m, rfl⟩ := run_step hs
  have hloops := h.loop
  have hgoes := h.goesOn
  rw [hprog] at hloops hgoes
  have hhandled := act_handled (hloops a List.mem_cons_self) hact
  have hrelies : ∀ b ∈ relies a, b ∉ s.program .main := by simpa only [SetUp, hprog] using hm
  have hloop : (s₁.leave .loop (called ++ rest)).program .loop = called ++ rest := leave_same ..
  have hother : ∀ t, t ≠ .loop → (s₁.leave .loop (called ++ rest)).program t = s.program t := by
    intro t ht
    rw [leave_other _ _ ht, hhandled.program, leave_other _ _ ht]
  have hcalled : (∀ b ∈ called, b.loops = true) ∧ GoesOn (called ++ rest) := by
    rw [hhandled.called_eq]
    split
    · exact ⟨handler_loops _, hgoes.tail.called _⟩
    · exact ⟨by simp, hgoes.tail⟩
  have hcleans : ∀ {clean build} {entry entry' : Bool}, build ∈ relies clean →
      clean ∈ handler .close → clean ∈ handler .error →
      entry' = (if a = clean then false else entry) →
      (s.disconnect = true → Cleans s clean build entry) → s₁.disconnect = true →
      Cleans (s₁.leave .loop (called ++ rest)) clean build entry' := by
    intro clean build entry entry' hbuild hclose herror hentry hold hd
    unfold Cleans
    rw [hloop, hother .main (by decide)]
    rcases hhandled.disconnect with hsame | rfl
    · have hcall : ∀ c, clean ∈ handler c → .callback c ∈ a :: rest →
          .callback c ∈ rest ∨ clean ∈ called := by
        intro c hc hin
        rcases List.mem_cons.mp hin with rfl | hin
        · rw [hhandled.called_eq]
          exact .inr hc
        · exact .inl hin
      rcases hold (hsame.symm.trans hd) with (hin | hin) | hin | ⟨hgone, hmain⟩
      · rcases hcall _ hclose (hprog ▸ hin) with hin | hin
        · exact .inl (.inl (List.mem_append_right _ hin))
        · exact .inr (.inl (List.mem_append_left _ hin))
      · rcases hcall _ herror (hprog ▸ hin) with hin | hin
        · exact .inl (.inr (List.mem_append_right _ hin))
        · exact .inr (.inl (List.mem_append_left _ hin))
      · rcases List.mem_cons.mp (hprog ▸ hin) with rfl | hin
        · exact .inr (.inr ⟨hentry.trans (if_pos rfl), hrelies _ hbuild⟩)
        · exact .inr (.inl (List.mem_append_right _ hin))
      · refine .inr (.inr ⟨?_, hmain⟩)
        rw [hentry, hgone, ite_self]
    · exact .inl (hgoes.1.imp (List.mem_append_right _) (List.mem_append_right _))
  refine ⟨?_, ?_, ?_, ?_, ?_, ?_, ?_, ?_⟩
  · exact (hother .main (by decide)).symm ▸ h.main
  · intro b hb
    rcases List.mem_append.mp (hloop ▸ hb) with hb | hb
    · exact hcalled.1 b hb
    · exact hloops b (List.mem_cons_of_mem _ hb)
  · exact hloop.symm ▸ hcalled.2
  · exact (hother .timer (by decide)).trans h.timer
  · intro hown
    exact hhandled.owned.trans (h.owned ((hother .main (by decide)) ▸ hown))
  · intro c hset
    have hc := h.set c ((hother .main (by decide)) ▸ hset)
    exact hhandled.set.symm ▸ hc
  · exact hcleans (by simp [relies]) (by simp [handler]) (by simp [handler]) hhandled.wheel h.wheel
  · exact hcleans (by simp [relies]) (by simp [handler]) (by simp [handler]) hhandled.conns h.conns

theorem assembled_preserved : Lib.Preserves step SetUp Assembled := by
  intro s e s' h hm hs
  cases e with
  | run t =>
    cases t with
    | main => exact main_preserved h hs
    | loop => exact loop_preserved h hm hs
    | timer => simp only [step, h.timer, reduceCtorEq] at hs
  | wait =>
    simp only [step] at hs
    split at hs
    · cases hs
      exact ⟨h.main, h.loop, h.goesOn, h.timer, h.owned, h.set, h.wheel, h.conns⟩
    · cases hs
  | handle ev =>
    simp only [step] at hs
    split at hs
    · rename_i hidle
      split at hs
      · cases hs
      · cases hs
        obtain ⟨hloops, hgoes⟩ := handleevent_loops ev
        -- with nothing to execute, only the last alternative of `Cleans` was left
        have hcleans : ∀ {clean build entry}, Cleans s clean build entry →
            entry = false ∧ build ∉ s.program .main := by
          rintro clean build entry ((hin | hin) | hin | hgone)
          · rw [hidle.1] at hin
            cases hin
          · rw [hidle.1] at hin
            cases hin
          · rw [hidle.1] at hin
            cases hin
          · exact hgone
        exact ⟨h.main, hloops, hgoes, h.timer, h.owned, h.set,
          fun hd => .inr (.inr (hcleans (h.wheel hd))), fun hd => .inr (.inr (hcleans (h.conns hd)))⟩
    · cases hs
  | tick => cases hm

theorem act_bad (h : s.act a = .error stop) (hb : stop.bad) :
    ∃ c, a = .callback c ∧ (s.owned = false ∨ c ∉ s.set) := by
  have hexit : ∀ {x : Except Stop Server}, (∀ stop, x = .error stop → stop = .exit) →
      (x >>= fun s' => pure (s', ([] : List Action))) = .error stop → False := by
    intro x hx he
    cases x with
    | ok s' => cases he
    | error stop' =>
      cases he
      rw [hx stop rfl] at hb
      rcases hb with hb | hb <;> cases hb
  have hupdate : ∀ stop, s.updatechannel = .error stop → stop = .exit := by
    intro stop hu
    unfold Server.updatechannel at hu
    split at hu
    · split at hu
      · cases hu
      · cases hu
        rfl
    · split at hu
      · cases hu
        rfl
      · cases hu
  have hremove : ∀ stop, s.removechannel = .error stop → stop = .exit := by
    intro stop hr
    unfold Server.removechannel at hr
    split at hr
    · split at hr
      · cases hr
      · cases hr
        rfl
    · cases hr
  cases a with
  | enablereading => exact (hexit hupdate h).elim
  | updatechannel => exact (hexit hupdate h).elim
  | disableall => exact (hexit hupdate h).elim
  | removechannel => exact (hexit hremove h).elim
  | callback c =>
    refine ⟨c, rfl, ?_⟩
    cases ho : s.owned with
    | false => exact .inl rfl
    | true =>
      refine .inr fun hc => ?_
      simp only [act, call, ho, Bool.not_true, Bool.false_eq_true, if_false, if_pos hc,
        reduceCtorEq] at h
  | _ => cases h

/-- Nothing that relies on set-up statements already executed fails for want
of them. -/
theorem step_bad (h : Assembled s) (hm : SetUp s e) (hb : stop.bad) : s.step e ≠ .error stop := by
  intro hs
  cases e with
  | run t =>
    cases hprog : s.program t with
    | nil =>
      simp only [step, hprog, Except.error.injEq] at hs
      subst hs
      rcases hb with hb | hb <;> cases hb
    | cons a rest =>
      simp only [step, hprog] at hs
      split at hs
      · cases hs
        rcases hb with hb | hb <;> cases hb
      · cases hact : (s.leave t rest).act a with
        | ok r =>
          rw [hact] at hs
          cases hs
        | error stop' =>
          rw [hact] at hs
          cases hs
          obtain ⟨c, rfl, hc⟩ := act_bad hact hb
          cases t with
          | main =>
            have hin := h.main _ (hprog ▸ List.mem_cons_self)
            simp [newconnection] at hin
          | loop =>
            have hrelies : ∀ b ∈ relies (.callback c), b ∉ s.program .main := by
              simpa only [SetUp, hprog] using hm
            rcases hc with hc | hc
            · exact absurd ((h.owned (hrelies _ (by simp [relies]))).symm.trans hc) (by simp)
            · exact hc (h.set c (hrelies _ (by simp [relies])))
          | timer =>
            rw [h.timer] at hprog
            cases hprog
  | wait =>
    simp only [step] at hs
    split at hs
    · cases hs
    · cases hs
      rcases hb with hb | hb <;> cases hb
  | handle ev =>
    simp only [step] at hs
    split at hs
    · split at hs
      · cases hs
        rcases hb with hb | hb <;> cases hb
      · cases hs
    · cases hs
      rcases hb with hb | hb <;> cases hb
  | tick => cases hm

/-- When both threads are done, a connection that was closed is in neither
map. -/
def Forgotten (s : Server) : Prop :=
  s.program .main = [] → s.program .loop = [] → s.disconnect = true →
    s.conns = false ∧ s.wheel = false

theorem Assembled.forgotten (h : Assembled s) : Forgotten s := by
  intro _ hloop hd
  have hgone : ∀ {clean build entry}, Cleans s clean build entry → entry = false := by
    rintro clean build entry ((hin | hin) | hin | hgone)
    · rw [hloop] at hin
      cases hin
    · rw [hloop] at hin
      cases hin
    · rw [hloop] at hin
      cases hin
    · exact hgone.1
  exact ⟨hgone (h.conns hd), hgone (h.wheel hd)⟩

/-- In every run of the two threads in which the loop executes a statement
only after the set-up statements it relies on, no callback is called unset or
on an object that is not owned, and a closed connection is in neither map when
both threads are done. -/
theorem set_up_first (h : Lib.Reach step SetUp accepted s) :
    (∀ e, SetUp s e → ∀ stop, stop.bad → s.step e ≠ .error stop) ∧ Forgotten s := by
  have hassembled : Assembled s := h.invariant assembled_preserved accepted_assembled
  exact ⟨fun e hm stop hb => step_bad hassembled hm hb, hassembled.forgotten⟩

theorem set_up_first_example :
    ∃ s, Lib.Reach step SetUp accepted s ∧ s.disconnect = true ∧ s.conns = false ∧
      s.wheel = false := by
  have hrun : ∃ s, Lib.runs step accepted (.replicate 10 (.run .main) ++
      [.wait, .handle .readEnd] ++ .replicate 7 (.run .loop)) = .ok s ∧
      s.program .main = [] ∧ s.program .loop = [] ∧ s.disconnect = true := ⟨_, rfl, rfl, rfl, rfl⟩
  obtain ⟨s, hs, hmain, hloop, hd⟩ := hrun
  have hmeets : Lib.AllMeet step SetUp accepted (.replicate 10 (.run .main) ++
      [.wait, .handle .readEnd] ++ .replicate 7 (.run .loop)) := by
    refine ⟨trivial, trivial, trivial, trivial, trivial, trivial, trivial, trivial, trivial, trivial,
      trivial, trivial, ?_, ?_, ?_, ?_, ?_, ?_, ?_, trivial⟩ <;>
      exact fun _ _ => List.not_mem_nil
  have hreach := Lib.Reach.start.runs _ hmeets hs
  exact ⟨s, hreach, hd, (set_up_first hreach).2 hmain hloop hd⟩

theorem noTick_runs (es : List Event) (h : ∀ e ∈ es, e ≠ .tick) (s : Server) :
    Lib.AllMeet step NoTick s es := by
  induction es generalizing s with
  | nil => trivial
  | cons e es ih =>
    refine ⟨h e List.mem_cons_self, ?_⟩
    cases step s e with
    | error stop => trivial
    | ok s' => exact ih (fun e' he => h e' (List.mem_cons_of_mem _ he)) s'

/-- The peer closes before anything owns the connection; and it closes before
the timer node and the map entry are put in. -/
theorem early_close_fails :
    (¬∀ s, Lib.Reach step NoTick accepted s →
      ∀ e, NoTick s e → ∀ stop, stop.bad → s.step e ≠ .error stop) ∧
    ¬∀ s, Lib.Reach step NoTick accepted s → Forgotten s := by
  constructor
  · intro h
    have hrun : ∃ s, Lib.runs step accepted
        [.run .main, .wait, .handle .readEnd, .run .loop, .run .loop, .run .loop] = .ok s ∧
        s.step (.run .loop) = .error .badWeakPtr := ⟨_, rfl, rfl⟩
    obtain ⟨s, hs, hbad⟩ := hrun
    have hreach := Lib.Reach.start.runs _ (noTick_runs _ (by simp) _) hs
    exact h s hreach (.run .loop) (by simp [NoTick]) _ (.inr rfl) hbad
  · intro h
    have hrun : ∃ s, Lib.runs step accepted (.replicate 3 (.run .main) ++
        [.wait, .handle .readEnd] ++ .replicate 7 (.run .loop) ++ .replicate 7 (.run .main)) =
          .ok s ∧
        s.program .main = [] ∧ s.program .loop = [] ∧ s.disconnect = true ∧ s.conns = true :=
      ⟨_, rfl, rfl, rfl, rfl, rfl⟩
    obtain ⟨s, hs, hmain, hloop, hd, hconns⟩ := hrun
    have hreach := Lib.Reach.start.runs _ (noTick_runs _ (by simp) _) hs
    have hgone := (h s hreach hmain hloop hd).1
    rw [hconns] at hgone
    cases hgone

end Server

end MudouHttp
