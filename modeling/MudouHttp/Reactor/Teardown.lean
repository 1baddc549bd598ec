import MudouHttp.Cxx.Machine
import MudouHttp.Reactor.Lifecycle

/-!
# Tearing a connection down

No step tests `disconnect_` and nothing resets `inepoll_`, so a second
teardown, or a late change of the write event, sends `epoll_ctl` a descriptor
that is gone and the server exits. `torn_down_once`: the flag agrees with the
epoll set exactly until the channel is removed, and no `epoll_ctl` fails and
the close handling runs once as long as teardowns do not overlap and no other
change of the write event is pending or taken up once one has begun.
-/

namespace MudouHttp

open Function (update update_self update_of_ne update_idem update_eq_self)

def Callback.closes (c : Callback) : Bool := c = .close ∨ c = .error

def Action.calm : Action → Bool
  | .updatechannel => true
  | .callback c => !c.closes
  | .updateTimer => true
  | .removeTimer => true
  | .eraseConns => true
  | .collect => true
  | .lock => true
  | .drop => true
  | _ => false

/-- No teardown has begun in the thread; later ones are whole. -/
inductive Calm : List Action → Prop
  | done : Calm []
  | teardown : c.closes = true → Calm p → Calm (teardown c ++ p)
  | other : a.calm = true → Calm p → Calm (a :: p)

/-- No change of the write event follows a teardown in a thread, or the `lock`
that may turn out to be one. -/
def Action.Precedes (a b : Action) : Prop :=
  a = .setDisconnect ∨ a = .lock → b ≠ .updatechannel

inductive Stage
  | calm
  | removing
  | calling
  deriving DecidableEq

inductive Stage.Fits : Stage → List Action → Prop
  | calm : Calm p → Fits .calm p
  | disabling : c.closes = true → Calm p →
    Fits .removing (.disableall :: .removechannel :: .callback c :: p)
  | removing : c.closes = true → Calm p → Fits .removing (.removechannel :: .callback c :: p)
  | calling : c.closes = true → Calm p → Fits .calling (.callback c :: p)

theorem Calm.append (hp : Calm p) (hq : Calm q) : Calm (p ++ q) := by
  induction hp with
  | done => exact hq
  | teardown hc _ ih => exact .teardown hc ih
  | other ha _ ih => exact .other ha ih

theorem Calm.of_all (h : ∀ a ∈ p, a.calm = true) : Calm p := by
  induction p with
  | nil => exact .done
  | cons a p ih => exact .other (h a (by simp)) (ih fun b hb => h b (List.mem_cons_of_mem _ hb))

theorem handler_calm (c : Callback) : Calm (handler c) := by
  refine .of_all ?_
  cases c <;> decide

theorem handleevent_calm (ev : ChannelEvent) : Calm (handleevent ev) := by
  have hclose : Calm (teardown .close) := .teardown rfl .done
  have herror : Calm (teardown .error) := .teardown rfl .done
  cases ev with
  | hangup => exact hclose
  | readable parsed => cases parsed <;> exact .of_all (by decide)
  | readEnd => exact hclose
  | writeNothing => exact .of_all (by decide)
  | writePartly => exact .done
  | writeAll keepAlive =>
    cases keepAlive with
    | true => exact .of_all (by decide)
    | false => exact .other rfl (.other rfl hclose)
  | writeFailed => exact herror
  | error => exact herror

/-- A thread that is calm either begins a teardown or does something else. -/
theorem Calm.cases_cons (h : Calm (a :: p)) :
    (∃ c q, a = .setDisconnect ∧ c.closes = true ∧ Calm q ∧
      p = .disableall :: .removechannel :: .callback c :: q) ∨ (a.calm = true ∧ Calm p) := by
  cases h with
  | teardown hc hq => exact .inl ⟨_, _, rfl, hc, hq, rfl⟩
  | other ha hp => exact .inr ⟨ha, hp⟩

namespace Server

-- ---------------------------------------------------------------------------
-- What one statement can do
-- ---------------------------------------------------------------------------

/-- What a thread does to the rest of the state, from one stage to the next
and with `p` left to execute. Only `eraseConns` takes the entry out of
`conns_`. -/
inductive Move (s : Server) (t : Thread) : Stage → Stage → List Action → Server → Prop
  | calm (r w k l : Bool) : (.eraseConns ∈ p ∨ k ≠ s.conns → .eraseConns ∈ s.program t) →
    Move s t .calm .calm p { s with ready := r, wheel := w, conns := k, collected := l }
  | begins : s.program t = .setDisconnect :: p → Move s t .calm .removing p { s with disconnect := true }
  | disables : s.member = true → s.program t = .disableall :: p → Move s t .removing .removing p s
  | removes : s.member = true → s.program t = .removechannel :: p →
    Move s t .removing .calling p { s with member := false, removals := s.removals + 1 }
  | calls : Move s t .calling .calm p { s with closes := s.closes + 1 }

/-- The flag is set and every thread is where its stage says. -/
structure Planned (s : Server) (stage : Thread → Stage) : Prop where
  flag : s.inEpoll = true
  fits : ∀ t, (stage t).Fits (s.program t)

variable {s : Server} {stage : Thread → Stage}

theorem updatechannel_ok (hflag : s.inEpoll = true) (h : s.updatechannel = .ok s') :
    s.member = true ∧ s' = s := by
  unfold Server.updatechannel at h
  cases hm : s.member with
  | false => simp [hflag, hm] at h
  | true =>
    simp only [hflag, hm, if_true, Except.ok.injEq] at h
    exact ⟨rfl, h.symm⟩

theorem removechannel_ok (hflag : s.inEpoll = true) (h : s.removechannel = .ok s') :
    s.member = true ∧ s' = { s with member := false, removals := s.removals + 1 } := by
  unfold Server.removechannel at h
  cases hm : s.member with
  | false => simp [hflag, hm] at h
  | true =>
    rw [if_pos hflag, hm] at h
    cases h
    exact ⟨rfl, rfl⟩

theorem call_ok (h : s.call c = .ok (s', called)) : called = handler c ∧
    s' = { s with closes := if c.closes then s.closes + 1 else s.closes } := by
  unfold call at h
  split at h
  · cases h
  · split at h
    · cases h
      simp [Callback.closes]
    · cases h

theorem eraseConns_handler : .eraseConns ∈ handler c → c.closes = true := by
  cases c <;> simp [handler, Callback.closes]

theorem eraseConns_handleevent (ev : ChannelEvent) : .eraseConns ∉ handleevent ev := by
  cases ev with
  | readable parsed => cases parsed <;> decide
  | writeAll keepAlive => cases keepAlive <;> decide
  | _ => decide

theorem act_calm (hflag : s.inEpoll = true) (ha : a.calm = true) (h : s.act a = .ok (s', called)) :
    ∃ w k l, s' = { s with wheel := w, conns := k, collected := l } ∧ Calm called ∧
      .eraseConns ∉ called ∧ (k ≠ s.conns → a = .eraseConns) := by
  cases a with
  | updatechannel =>
    obtain ⟨s₁, hu, hs⟩ := bind_ok h
    cases hs
    obtain ⟨-, rfl⟩ := updatechannel_ok hflag hu
    exact ⟨_, _, _, rfl, .done, by simp, by simp⟩
  | callback c =>
    have hc : c.closes = false := by simpa [Action.calm] using ha
    obtain ⟨rfl, rfl⟩ := call_ok h
    refine ⟨s.wheel, s.conns, s.collected, by rw [hc]; rfl, handler_calm c, ?_, by simp⟩
    intro he
    rw [eraseConns_handler he] at hc
    cases hc
  | updateTimer =>
    cases h
    exact ⟨_, _, _, rfl, .done, by simp, by simp⟩
  | removeTimer =>
    cases h
    exact ⟨_, _, _, rfl, .done, by simp, by simp⟩
  | eraseConns =>
    cases h
    exact ⟨_, _, _, rfl, .done, by simp, fun _ => rfl⟩
  | collect =>
    cases h
    exact ⟨_, _, _, rfl, .done, by simp, by simp⟩
  | lock =>
    cases h
    refine ⟨_, _, _, rfl, ?_, ?_, by simp⟩
    · split
      · exact .teardown rfl (.other rfl .done)
      · exact .done
    · split <;> simp [teardown]
  | drop =>
    cases h
    exact ⟨_, _, _, rfl, .done, by simp, by simp⟩
  | _ => cases ha

/-- One statement of a thread, by the stage the thread is in. -/
theorem act_ok (hp : Planned s stage) (hprog : s.program t = a :: rest)
    (h : (s.leave t rest).act a = .ok (s', called)) :
    ∃ next s₁, next.Fits (called ++ rest) ∧ Move s t (stage t) next (called ++ rest) s₁ ∧
      s'.leave t (called ++ rest) = s₁.leave t (called ++ rest) := by
  have hfits := hp.fits t
  rw [hprog] at hfits
  have hleave : ∀ p, (s.leave t rest).leave t p = s.leave t p := by
    intro p
    simp only [leave, update_idem]
  have hflag : (s.leave t rest).inEpoll = true := hp.flag
  cases hst : stage t with
  | calm =>
    rw [hst] at hfits
    obtain ⟨hcalm⟩ := hfits
    rcases hcalm.cases_cons with ⟨c, q, rfl, hc, hq, rfl⟩ | ⟨ha, hrest⟩
    · cases h
      exact ⟨.removing, _, .disabling hc hq, .begins hprog,
        congrArg (fun u : Server => { u with disconnect := true }) (hleave _)⟩
    · obtain ⟨w, k, l, rfl, hcalled, hno, hk⟩ := act_calm hflag ha h
      refine ⟨.calm, _, .calm (hcalled.append hrest), .calm s.ready w k l ?_,
        congrArg (fun u : Server => { u with wheel := w, conns := k, collected := l }) (hleave _)⟩
      rintro (hmem | hne)
      · rcases List.mem_append.mp hmem with hmem | hmem
        · exact absurd hmem hno
        · exact hprog ▸ List.mem_cons_of_mem _ hmem
      · rw [hprog, hk hne]
        exact List.mem_cons_self
  | removing =>
    rw [hst] at hfits
    cases hfits with
    | disabling hc hq =>
      obtain ⟨s₁, hu, hs⟩ := bind_ok h
      cases hs
      obtain ⟨hm, rfl⟩ := updatechannel_ok hflag hu
      exact ⟨.removing, _, .removing hc hq, .disables hm hprog, hleave _⟩
    | removing hc hq =>
      obtain ⟨s₁, hu, hs⟩ := bind_ok h
      cases hs
      obtain ⟨hm, rfl⟩ := removechannel_ok hflag hu
      exact ⟨.calling, _, .calling hc hq, .removes hm hprog,
        congrArg (fun u : Server => { u with member := false, removals := s.removals + 1 })
          (hleave _)⟩
  | calling =>
    rw [hst] at hfits
    cases hfits with
    | @calling _ c hc hq =>
      obtain ⟨rfl, rfl⟩ := call_ok h
      refine ⟨.calm, _, .calm ((handler_calm c).append hq), .calls, ?_⟩
      rw [hc]
      exact congrArg (fun u : Server => { u with closes := s.closes + 1 }) (hleave _)

theorem act_called (h : s.act a = .ok (s', called)) :
    s'.program = s.program ∧ (a ≠ .setDisconnect → s'.disconnect = s.disconnect) ∧
      .updatechannel ∉ called ∧ (a ≠ .lock → .setDisconnect ∉ called ∧ .lock ∉ called) := by
  cases a with
  | callback c =>
    obtain ⟨rfl, rfl⟩ := call_ok h
    exact ⟨rfl, fun _ => rfl, by cases c <;> decide, fun _ => by cases c <;> decide⟩
  | lock =>
    cases h
    refine ⟨rfl, fun _ => rfl, ?_, fun hne => absurd rfl hne⟩
    split <;> decide
  | setDisconnect =>
    cases h
    exact ⟨rfl, fun hne => absurd rfl hne, by simp, fun _ => by simp⟩
  | removechannel =>
    obtain ⟨s₁, hu, hs⟩ := bind_ok h
    cases hs
    unfold Server.removechannel at hu
    split at hu
    · split at hu
      · cases hu
        exact ⟨rfl, fun _ => rfl, by simp, fun _ => by simp⟩
      · cases hu
    · cases hu
      exact ⟨rfl, fun _ => rfl, by simp, fun _ => by simp⟩
  | updatechannel | enablereading | disableall =>
    obtain ⟨s₁, hu, hs⟩ := bind_ok h
    cases hs
    unfold Server.updatechannel at hu
    split at hu
    · split at hu
      · cases hu
        exact ⟨rfl, fun _ => rfl, by simp, fun _ => by simp⟩
      · cases hu
    · split at hu
      · cases hu
      · cases hu
        exact ⟨rfl, fun _ => rfl, by simp, fun _ => by simp⟩
  | _ =>
    cases h
    exact ⟨rfl, fun _ => rfl, by simp, fun _ => by simp⟩

theorem step_run (h : s.step (.run t) = .ok s') :
    ∃ a rest s₁ called, s.program t = a :: rest ∧ (s.leave t rest).act a = .ok (s₁, called) ∧
      s' = (s₁.leave t (called ++ rest)).settle := by
  unfold step at h
  cases hprog : s.program t with
  | nil => simp only [hprog, reduceCtorEq] at h
  | cons a rest =>
    simp only [hprog] at h
    split at h
    · cases h
    · obtain ⟨⟨s₁, called⟩, hact, hs⟩ := bind_ok h
      cases hs
      exact ⟨a, rest, s₁, called, rfl, hact, rfl⟩

/-- One step of the system, as the move of one thread. -/
theorem step_ok (hp : Planned s stage) (h : s.step e = .ok s') :
    ∃ t next p s₁, next.Fits p ∧ Move s t (stage t) next p s₁ ∧
      (e = .run t ∨ s.program t = []) ∧ (s' = s₁.leave t p ∨ s' = (s₁.leave t p).settle) := by
  -- a thread with nothing left to do starts on a calm program
  have hstart : ∀ t p r, s.program t = [] → Calm p → .eraseConns ∉ p →
      ∃ next, next.Fits p ∧ Move s t (stage t) next p { s with ready := r } := by
    intro t p r hnil hcalm hno
    have hst : stage t = .calm := by
      have hfits := hp.fits t
      rw [hnil] at hfits
      cases hst : stage t with
      | calm => rfl
      | removing =>
        rw [hst] at hfits
        cases hfits
      | calling =>
        rw [hst] at hfits
        cases hfits
    rw [hst]
    refine ⟨.calm, .calm hcalm, .calm r s.wheel s.conns s.collected ?_⟩
    rintro (hmem | hne)
    · exact absurd hmem hno
    · exact absurd rfl hne
  cases e with
  | run t =>
    obtain ⟨a, rest, s₁, called, hprog, hact, rfl⟩ := step_run h
    obtain ⟨next, s₂, hf, hmove, heq⟩ := act_ok hp hprog hact
    exact ⟨t, next, _, s₂, hf, hmove, .inl rfl, .inr (congrArg settle heq)⟩
  | wait =>
    simp only [step] at h
    split at h
    · rename_i hw
      cases h
      obtain ⟨next, hf, hmove⟩ := hstart .loop [] true hw.1 .done (by simp)
      refine ⟨.loop, next, [], _, hf, hmove, .inr hw.1, .inl ?_⟩
      simp only [leave, ← hw.1, update_eq_self]
    · cases h
  | handle ev =>
    simp only [step] at h
    split at h
    · rename_i hw
      split at h
      · cases h
      · cases h
        obtain ⟨next, hf, hmove⟩ := hstart .loop (handleevent ev) false hw.1 (handleevent_calm ev)
          (eraseConns_handleevent ev)
        exact ⟨.loop, next, _, _, hf, hmove, .inr hw.1, .inl rfl⟩
    · cases h
  | tick =>
    simp only [step] at h
    split at h
    · rename_i hnil
      cases h
      obtain ⟨next, hf, hmove⟩ := hstart .timer tickActions s.ready hnil (.of_all (by decide))
        (by decide)
      exact ⟨.timer, next, _, _, hf, hmove, .inr hnil, .inl rfl⟩
    · cases h

theorem act_exit (hflag : s.inEpoll = true) (h : s.act a = .error .exit) :
    s.member = false ∧ (a = .updatechannel ∨ a.calm = false) := by
  have hupdate : s.updatechannel = .error .exit → s.member = false := by
    intro hu
    cases hm : s.member with
    | false => rfl
    | true => simp [Server.updatechannel, hflag, hm] at hu
  have hfail : ∀ {x : Except Stop Server},
      (x >>= fun s' => pure (s', ([] : List Action))) = .error .exit → x = .error .exit := by
    intro x hx
    cases x with
    | error stop =>
      cases hx
      rfl
    | ok s' => cases hx
  cases a with
  | updatechannel => exact ⟨hupdate (hfail h), .inl rfl⟩
  | enablereading => exact ⟨hupdate (hfail h), .inr rfl⟩
  | disableall => exact ⟨hupdate (hfail h), .inr rfl⟩
  | removechannel =>
    refine ⟨?_, .inr rfl⟩
    have hr := hfail h
    cases hm : s.member with
    | false => rfl
    | true => simp [Server.removechannel, hflag, hm] at hr
  | callback c =>
    simp only [act, call] at h
    split at h
    · cases h
    · split at h <;> cases h
  | _ => cases h

/-- The only statements that can end the server. -/
theorem run_exit (hp : Planned s stage) (h : s.step (.run t) = .error .exit) :
    s.member = false ∧
      ((∃ rest, s.program t = .updatechannel :: rest) ∨ stage t = .removing) := by
  have hfits := hp.fits t
  cases hprog : s.program t with
  | nil =>
    simp only [step, hprog] at h
    cases h
  | cons a rest =>
    rw [hprog] at hfits
    simp only [step, hprog] at h
    split at h
    · cases h
    · cases hact : (s.leave t rest).act a with
      | ok r =>
        rw [hact] at h
        cases h
      | error stop =>
        rw [hact] at h
        cases h
        have hflag : (s.leave t rest).inEpoll = true := hp.flag
        obtain ⟨hm, ha⟩ := act_exit hflag hact
        refine ⟨hm, ?_⟩
        cases hst : stage t with
        | calm =>
          rw [hst] at hfits
          obtain ⟨hcalm⟩ := hfits
          rcases ha with rfl | ha
          · exact .inl ⟨rest, rfl⟩
          · rcases hcalm.cases_cons with ⟨c, q, rfl, -⟩ | ⟨hc, -⟩
            · cases hact
            · rw [ha] at hc
              cases hc
        | removing => exact .inr rfl
        | calling =>
          rw [hst] at hfits
          cases hfits with
          | calling hc hq =>
            simp only [act, call] at hact
            split at hact
            · cases hact
            · split at hact <;> cases hact

-- ---------------------------------------------------------------------------
-- The flag and the epoll set
-- ---------------------------------------------------------------------------

/-- In every run: before the first removal the descriptor is in the set and
nothing has been closed; after it the descriptor is gone. -/
structure Flagged (s : Server) (stage : Thread → Stage) : Prop extends Planned s stage where
  removed : s.removals ≠ 0 → s.member = false
  before : s.removals = 0 → s.member = true ∧ s.closes = 0 ∧ s.conns = true ∧
    ∀ t, stage t ≠ .calling ∧ .eraseConns ∉ s.program t

/-- A run whose teardown is never repeated or overtaken. -/
structure Single (s : Server) (stage : Thread → Stage) : Prop extends Flagged s stage where
  alone : ∀ t u, stage t ≠ .calm → stage u ≠ .calm → t = u
  connected : s.disconnect = false → s.removals = 0 ∧ ∀ t, stage t = .calm
  removing : ∀ t, stage t = .removing → s.removals = 0
  calling : ∀ t, stage t = .calling → s.closes = 0
  once : s.closes ≤ 1

theorem Move.frame (h : Move s t now next p s₁) :
    s₁.inEpoll = s.inEpoll ∧ s₁.program = s.program := by
  cases h <;> exact ⟨rfl, rfl⟩

theorem settled_frame {u s' : Server} (h : s' = u ∨ s' = u.settle) :
    s'.inEpoll = u.inEpoll ∧ s'.program = u.program ∧ s'.closes = u.closes ∧
      s'.removals = u.removals ∧ s'.disconnect = u.disconnect ∧ s'.conns = u.conns ∧
      (u.member = false → s'.member = false) ∧ (u.conns = true → s'.member = u.member) := by
  rcases h with rfl | rfl
  · exact ⟨rfl, rfl, rfl, rfl, rfl, rfl, id, fun _ => rfl⟩
  · unfold settle
    split
    · rename_i hd
      refine ⟨rfl, rfl, rfl, rfl, rfl, rfl, fun _ => rfl, fun hc => ?_⟩
      simp [destroyed, strong, hc] at hd
    · exact ⟨rfl, rfl, rfl, rfl, rfl, rfl, id, fun _ => rfl⟩

theorem Planned.move {s₁ : Server} (hp : Planned s stage) (hf : next.Fits p)
    (hm : Move s t (stage t) next p s₁) (hs : s' = s₁.leave t p ∨ s' = (s₁.leave t p).settle) :
    Planned s' (update stage t next) := by
  obtain ⟨hin, hprog, -⟩ := settled_frame hs
  refine ⟨hin.trans (hm.frame.1.trans hp.flag), fun u => ?_⟩
  rw [hprog]
  show (update stage t next u).Fits (update s₁.program t p u)
  rw [hm.frame.2]
  by_cases hu : u = t
  · subst hu
    rwa [update_self, update_self]
  · rw [update_of_ne hu, update_of_ne hu]
    exact hp.fits u

theorem Flagged.move {s₁ : Server} (h : Flagged s stage) (hf : next.Fits p)
    (hm : Move s t (stage t) next p s₁) (hs : s' = s₁.leave t p ∨ s' = (s₁.leave t p).settle) :
    Flagged s' (update stage t next) := by
  obtain ⟨-, hprog, hcloses, hremovals, -, hconns, hgone, hstays⟩ := settled_frame hs
  have hplanned := h.toPlanned.move hf hm hs
  -- before a removal: no thread has `eraseConns` to do unless `t` had it
  have hbefore : next ≠ .calling → (.eraseConns ∈ p → .eraseConns ∈ s.program t) →
      s₁.removals = s.removals → s₁.member = s.member → s₁.closes = s.closes →
      (s₁.conns ≠ s.conns → .eraseConns ∈ s.program t) → s'.removals = 0 →
      s'.member = true ∧ s'.closes = 0 ∧ s'.conns = true ∧
        ∀ u, update stage t next u ≠ .calling ∧ .eraseConns ∉ s'.program u := by
    intro hnext hno hr hmem hc hk hzero
    obtain ⟨hmember, hcl, hcon, hthreads⟩ := h.before (hr ▸ hremovals ▸ hzero)
    have hcon' : s₁.conns = true := by
      refine Classical.byContradiction fun hne => (hthreads t).2 (hk ?_)
      rwa [hcon]
    refine ⟨(hstays hcon').trans (hmem.trans hmember), hcloses.trans (hc.trans hcl),
      hconns.trans hcon', fun u => ?_⟩
    rw [hprog, show (s₁.leave t p).program = update s₁.program t p from rfl, hm.frame.2]
    by_cases hu : u = t
    · subst hu
      rw [update_self, update_self]
      exact ⟨hnext, fun hmem => (hthreads u).2 (hno hmem)⟩
    · rw [update_of_ne hu, update_of_ne hu]
      exact hthreads u
  cases hst : stage t with
  | calm =>
    rw [hst] at hm
    cases hm with
    | calm r w k l hk =>
      exact ⟨hplanned, fun hr => hgone (h.removed (hremovals ▸ hr)),
        hbefore (by simp) (fun hp => hk (.inl hp)) rfl rfl rfl fun hne => hk (.inr hne)⟩
    | begins hp =>
      exact ⟨hplanned, fun hr => hgone (h.removed (hremovals ▸ hr)),
        hbefore (by simp) (fun hmem => hp ▸ List.mem_cons_of_mem _ hmem) rfl rfl rfl (by simp)⟩
  | removing =>
    rw [hst] at hm
    cases hm with
    | disables hmem hp =>
      exact ⟨hplanned, fun hr => hgone (h.removed (hremovals ▸ hr)),
        hbefore (by simp) (fun hmem => hp ▸ List.mem_cons_of_mem _ hmem) rfl rfl rfl (by simp)⟩
    | removes hmem hp =>
      refine ⟨hplanned, fun _ => hgone rfl, fun hr => ?_⟩
      rw [hremovals] at hr
      cases hr
  | calling =>
    have hr : s.removals ≠ 0 := fun hz => ((h.before hz).2.2.2 t).1 hst
    rw [hst] at hm
    cases hm with
    | calls =>
      exact ⟨hplanned, fun _ => hgone (h.removed hr), fun hz => absurd (hremovals ▸ hz) hr⟩

/-- A teardown begins while `disconnect_` is false and no other thread is on
its way to change the write event, and once it has begun the loop takes up no
event that changes it. -/
def Orderly (s : Server) : Event → Prop
  | .run t => match s.program t with
    | .setDisconnect :: _ => s.disconnect = false ∧ ∀ u, u ≠ t → .updatechannel ∉ s.program u
    | _ => True
  | .handle ev => s.disconnect = true → .updatechannel ∉ handleevent ev
  | _ => True

/-- Where every other thread is calm, no two threads are in a teardown. -/
theorem only_mover (hothers : ∀ u, u ≠ t → stage u = .calm) (hu : update stage t next u ≠ .calm) :
    u = t := by
  refine Classical.byContradiction fun hne => hu ?_
  rw [update_of_ne hne]
  exact hothers u hne

theorem Single.disconnected (h : Single s stage) (ht : stage t ≠ .calm) : s.disconnect = true := by
  cases hd : s.disconnect with
  | true => rfl
  | false => exact absurd ((h.connected hd).2 t) ht

theorem Single.move {s₁ : Server} (h : Single s stage) (hf : next.Fits p)
    (hm : Move s t (stage t) next p s₁)
    (hbegin : ∀ rest, s.program t = .setDisconnect :: rest → s.disconnect = false)
    (hs : s' = s₁.leave t p ∨ s' = (s₁.leave t p).settle) :
    Single s' (update stage t next) := by
  obtain ⟨-, -, hcloses, hremovals, hdisconnect, -, -, -⟩ := settled_frame hs
  have hflagged := h.toFlagged.move hf hm hs
  -- `t` is the only thread that can be in a teardown
  have hothers : stage t ≠ .calm → ∀ u, u ≠ t → stage u = .calm := by
    intro ht u hu
    refine Classical.byContradiction fun hne => hu (h.alone u t hne ht)
  cases hst : stage t with
  | calm =>
    rw [hst] at hm
    cases hm with
    | calm r w k l hk =>
      have hsame : update stage t .calm = stage := by rw [← hst, update_eq_self]
      rw [hsame] at hflagged ⊢
      refine ⟨hflagged, h.alone, ?_, ?_, ?_, hcloses ▸ h.once⟩
      · intro hd
        rw [hremovals]
        exact h.connected (hdisconnect ▸ hd)
      · intro u hu
        rw [hremovals]
        exact h.removing u hu
      · intro u hu
        rw [hcloses]
        exact h.calling u hu
    | begins hp =>
      obtain ⟨hr, hcalm⟩ := h.connected (hbegin _ hp)
      have honly : ∀ u, update stage t .removing u ≠ .calm → u = t :=
        fun u => only_mover fun u _ => hcalm u
      refine ⟨hflagged, fun u v hu hv => (honly u hu).trans (honly v hv).symm, ?_, ?_, ?_,
        hcloses ▸ h.once⟩
      · intro hd
        rw [hdisconnect] at hd
        cases hd
      · intro u _
        exact hremovals.trans hr
      · intro u _
        exact hcloses.trans (h.before hr).2.1
  | removing =>
    have hr := h.removing t hst
    have hcl := (h.before hr).2.1
    have hdis : s.disconnect = true := h.disconnected (t := t) (by simp [hst])
    have honly : ∀ u, update stage t next u ≠ .calm → u = t :=
      fun u => only_mover (hothers (by simp [hst]))
    have halone : ∀ u v, update stage t next u ≠ .calm → update stage t next v ≠ .calm → u = v :=
      fun u v hu hv => (honly u hu).trans (honly v hv).symm
    rw [hst] at hm
    cases hm with
    | disables hmem hp =>
      refine ⟨hflagged, halone, ?_, fun u _ => hremovals.trans hr, fun u _ => hcloses.trans hcl,
        hcloses ▸ h.once⟩
      intro hd
      rw [hdisconnect, show (s.leave t p).disconnect = true from hdis] at hd
      cases hd
    | removes hmem hp =>
      refine ⟨hflagged, halone, ?_, ?_, fun u _ => hcloses.trans hcl, hcloses ▸ h.once⟩
      · intro hd
        rw [hdisconnect] at hd
        exact absurd (hdis.symm.trans hd) (by simp)
      · intro u hu
        obtain rfl := honly u (by simp [hu])
        rw [update_self] at hu
        cases hu
  | calling =>
    have hcl := h.calling t hst
    rw [hst] at hm
    cases hm with
    | calls =>
      have hcalm : ∀ u, update stage t .calm u = .calm := by
        intro u
        by_cases hu : u = t
        · rw [hu, update_self]
        · rw [update_of_ne hu]
          exact hothers (by simp [hst]) u hu
      refine ⟨hflagged, fun u v hu => absurd (hcalm u) hu, ?_, ?_, ?_, ?_⟩
      · intro hd
        rw [hdisconnect] at hd
        exact absurd ((h.disconnected (t := t) (by simp [hst])).symm.trans hd) (by simp)
      · intro u hu
        rw [hcalm u] at hu
        cases hu
      · intro u hu
        rw [hcalm u] at hu
        cases hu
      · rw [hcloses]
        exact Nat.succ_le_succ (Nat.le_of_eq hcl)

/-- Once a teardown has begun no thread is left with a change of the write
event to make. -/
structure Quiet (s : Server) : Prop where
  order : ∀ t, (s.program t).Pairwise Action.Precedes
  updates : s.disconnect = true → ∀ t, .updatechannel ∉ s.program t

theorem handleevent_order (ev : ChannelEvent) : (handleevent ev).Pairwise Action.Precedes := by
  cases ev with
  | readable parsed => cases parsed <;> simp [handleevent, Action.Precedes]
  | writeAll keepAlive => cases keepAlive <;> simp [handleevent, teardown, Action.Precedes]
  | _ => simp [handleevent, teardown, Action.Precedes]

theorem Quiet.leave (h : Quiet s) (hprog : s'.program = update s.program t p)
    (horder : p.Pairwise Action.Precedes)
    (hupdates : s'.disconnect = true → .updatechannel ∉ p ∧ ∀ u, u ≠ t → .updatechannel ∉ s.program u) :
    Quiet s' := by
  constructor
  · intro u
    rw [hprog]
    by_cases hu : u = t
    · rw [hu, update_self]
      exact horder
    · rw [update_of_ne hu]
      exact h.order u
  · intro hd u
    rw [hprog]
    by_cases hu : u = t
    · rw [hu, update_self]
      exact (hupdates hd).1
    · rw [update_of_ne hu]
      exact (hupdates hd).2 u hu

theorem Quiet.run (h : Quiet s) (ho : Orderly s (.run t)) (hs : s.step (.run t) = .ok s') :
    Quiet s' := by
  obtain ⟨a, rest, s₁, called, hprog, hact, hset⟩ := step_run hs
  obtain ⟨hprog₁, hdis, hcalled, hbegins⟩ := act_called hact
  obtain ⟨-, hp, -, -, hd, -⟩ := settled_frame (.inr hset)
  have horder := h.order t
  rw [hprog, List.pairwise_cons] at horder
  refine h.leave (t := t) (p := called ++ rest) ?_ ?_ ?_
  · rw [hp]
    simp only [Server.leave, hprog₁, update_idem]
  · -- what is called comes before the rest of the thread
    refine List.pairwise_append.mpr ⟨?_, horder.2, ?_⟩
    · exact List.pairwise_iff_forall_sublist.mpr fun hsub _ heq =>
        hcalled (heq ▸ hsub.subset (List.mem_cons_of_mem _ List.mem_cons_self))
    · intro b hb c hc hbc
      by_cases ha : a = .lock
      · exact horder.1 c hc (.inr ha)
      · rcases hbc with rfl | rfl
        · exact absurd hb (hbegins ha).1
        · exact absurd hb (hbegins ha).2
  · intro hd'
    have hrest : .updatechannel ∉ rest ∧ ∀ u, u ≠ t → .updatechannel ∉ s.program u := by
      by_cases ha : a = .setDisconnect
      · -- a teardown begins: nothing is pending elsewhere, nor after it
        simp only [Orderly, hprog, ha] at ho
        exact ⟨fun hmem => horder.1 _ hmem (.inl ha) rfl, ho.2⟩
      · have hold : s.disconnect = true := (hdis ha).symm.trans (hd.symm.trans hd')
        refine ⟨fun hmem => h.updates hold t ?_, fun u _ => h.updates hold u⟩
        rw [hprog]
        exact List.mem_cons_of_mem _ hmem
    refine ⟨fun hmem => ?_, hrest.2⟩
    exact (List.mem_append.mp hmem).elim hcalled hrest.1

theorem quiet_preserved : Lib.Preserves step Orderly Quiet := by
  intro s e s' h ho hs
  cases e with
  | run t => exact h.run ho hs
  | wait =>
    simp only [step] at hs
    split at hs
    · cases hs
      exact ⟨h.order, h.updates⟩
    · cases hs
  | handle ev =>
    simp only [step] at hs
    split at hs
    · split at hs
      · cases hs
      · cases hs
        exact h.leave rfl (handleevent_order ev) fun hd => ⟨ho hd, fun u _ => h.updates hd u⟩
    · cases hs
  | tick =>
    simp only [step] at hs
    split at hs
    · cases hs
      exact h.leave rfl (by simp [tickActions, Action.Precedes]) fun hd =>
        ⟨by decide, fun u _ => h.updates hd u⟩
    · cases hs

theorem established_quiet : Quiet established :=
  ⟨fun _ => .nil, fun _ _ => List.not_mem_nil⟩

theorem established_flagged : Flagged established fun _ => .calm :=
  ⟨⟨rfl, fun _ => .calm .done⟩, fun h => absurd rfl h,
    fun _ => ⟨rfl, rfl, rfl, fun _ => by simp [established]⟩⟩

theorem established_single : Single established fun _ => .calm :=
  ⟨established_flagged, fun _ _ h => absurd rfl h, fun _ => ⟨rfl, fun _ => rfl⟩,
    fun _ _ => rfl, fun _ _ => rfl, Nat.zero_le 1⟩

theorem flagged_preserved :
    Lib.Preserves step (fun _ _ => True) fun s => ∃ stage, Flagged s stage := by
  rintro s e s' ⟨stage, h⟩ - hs
  obtain ⟨t, next, p, s₁, hf, hm, -, hset⟩ := step_ok h.toPlanned hs
  exact ⟨_, h.move hf hm hset⟩

theorem single_preserved : Lib.Preserves step Orderly fun s => ∃ stage, Single s stage := by
  rintro s e s' ⟨stage, h⟩ ho hs
  obtain ⟨t, next, p, s₁, hf, hm, hrun, hset⟩ := step_ok h.toPlanned hs
  refine ⟨_, h.move hf hm ?_ hset⟩
  intro rest hrest
  rcases hrun with rfl | hnil
  · simp only [Orderly, hrest] at ho
    exact ho.1
  · rw [hnil] at hrest
    cases hrest

theorem step_exit (hp : Planned s stage) (h : s.step e = .error .exit) :
    s.member = false ∧ ∃ t, e = .run t ∧
      ((∃ rest, s.program t = .updatechannel :: rest) ∨ stage t = .removing) := by
  cases e with
  | run t =>
    obtain ⟨hm, hwhere⟩ := run_exit hp h
    exact ⟨hm, t, rfl, hwhere⟩
  | wait =>
    simp only [step] at h
    split at h <;> cases h
  | handle ev =>
    simp only [step] at h
    split at h
    · split at h <;> cases h
    · cases h
  | tick =>
    simp only [step] at h
    split at h <;> cases h

/-- What is wanted of every state: no `epoll_ctl` is about to fail, the flag
agrees with the epoll set, and the close handling has run at most once. -/
def Sound (s : Server) : Prop :=
  (∀ e, s.step e ≠ .error .exit) ∧ s.inEpoll = s.member ∧ s.closes ≤ 1

/-- In every run the state is sound exactly until the first removal. In every
run whose steps are orderly no `epoll_ctl` fails, removals or not, and the
close handling runs at most once. -/
theorem torn_down_once (s : Server) :
    (Lib.Reach step (fun _ _ => True) established s → (Sound s ↔ s.removals = 0)) ∧
    (Lib.Reach step Orderly established s → s.closes ≤ 1 ∧ ∀ e, s.step e ≠ .error .exit) := by
  constructor
  · intro h
    obtain ⟨stage, hf⟩ := h.invariant flagged_preserved ⟨_, established_flagged⟩
    constructor
    · rintro ⟨-, heq, -⟩
      refine Classical.byContradiction fun hr => ?_
      rw [hf.flag, hf.removed hr] at heq
      cases heq
    · intro hr
      obtain ⟨hmember, hcloses, -⟩ := hf.before hr
      refine ⟨fun e he => ?_, hf.flag.trans hmember.symm, hcloses ▸ Nat.zero_le 1⟩
      have hm := (step_exit hf.toPlanned he).1
      rw [hmember] at hm
      cases hm
  · intro h
    obtain ⟨stage, hs⟩ := h.invariant single_preserved ⟨_, established_single⟩
    have hquiet := h.invariant quiet_preserved established_quiet
    refine ⟨hs.once, fun e he => ?_⟩
    obtain ⟨hm, t, rfl, ⟨rest, hrest⟩ | hremoving⟩ := step_exit hs.toPlanned he
    · -- a write event is still to be changed, so no teardown has begun
      have hd : s.disconnect = false := by
        refine Bool.eq_false_iff.mpr fun hd => hquiet.updates hd t ?_
        rw [hrest]
        exact List.mem_cons_self
      rw [(hs.before (hs.connected hd).1).1] at hm
      cases hm
    · rw [(hs.before (hs.removing t hremoving)).1] at hm
      cases hm

/-- The last bytes of an answer are sent and the connection is not kept: one
change of the write event, then the teardown. -/
theorem torn_down_once_example :
    ∃ s, Lib.Reach step Orderly established s ∧ s.removals = 1 ∧ ¬Sound s ∧ s.closes ≤ 1 ∧
      ∀ e, s.step e ≠ .error .exit := by
  have hrun : ∃ s, Lib.runs step established
      [.wait, .handle (.writeAll false), .run .loop, .run .loop, .run .loop, .run .loop,
        .run .loop, .run .loop, .run .loop] = .ok s ∧ s.removals = 1 := ⟨_, rfl, rfl⟩
  obtain ⟨s, hs, hr⟩ := hrun
  have horderly : Lib.AllMeet step Orderly established
      [.wait, .handle (.writeAll false), .run .loop, .run .loop, .run .loop, .run .loop,
        .run .loop, .run .loop, .run .loop] := by
    refine ⟨trivial, fun hd => ?_, trivial, trivial, trivial, ⟨rfl, fun u hu => ?_⟩, trivial,
      trivial, trivial, trivial⟩
    · cases hd
    · cases u with
      | loop => exact absurd rfl hu
      | main => exact List.not_mem_nil
      | timer => exact List.not_mem_nil
  have hreach := Lib.Reach.start.runs _ horderly hs
  obtain ⟨hsound, hclosed⟩ := torn_down_once s
  refine ⟨s, hreach, hr, fun h => ?_, hclosed hreach⟩
  have hzero := (hsound (hreach.mono fun _ _ _ => trivial)).mp h
  rw [hr] at hzero
  cases hzero

/-- The peer closes while the timer thread has collected the connection: the
event loop removes the channel, and before it gets to `conns_` the timer
thread tears down too. -/
theorem second_teardown_exits :
    ¬∀ s, Lib.Reach step (fun _ _ => True) established s → Sound s := by
  intro h
  have hrun : ∃ s, Lib.runs step established
      [.tick, .run .timer, .wait, .handle .readEnd, .run .loop, .run .loop, .run .loop,
        .run .timer, .run .timer] = .ok s ∧ s.step (.run .timer) = .error .exit := ⟨_, rfl, rfl⟩
  obtain ⟨s, hs, hexit⟩ := hrun
  have hreach : Lib.Reach step (fun _ _ => True) established s :=
    Lib.Reach.start.runs _ (.of_all (fun _ _ => trivial) _ _) hs
  exact (h s hreach).1 _ hexit

end Server

end MudouHttp
