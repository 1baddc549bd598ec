import MudouHttp.Timer.Countdowns

/-!
# Idle connections of a TcpServer

What `reactor/tcpserver.cpp` does with its wheel of 60 slots of one second and
with `conns_`, which keeps the connections alive. The configured timeout is
used when a connection is accepted; received data sets a fixed one.
`idle_timeout_iff` says when an activity is followed by the configured timeout.
-/

namespace MudouHttp

open Function (update update_self update_of_ne)

/-- `onmessage` is a batch of received data, `closeconnection` stands for
`errorconnection` as well. -/
inductive TimedEvent
  | newconnection (conn : Conn)
  | onmessage (conn : Conn)
  | closeconnection (conn : Conn)
  | tick
  deriving DecidableEq

structure TcpServer where
  tsTcpConnTimeoutS : Int32
  timeWheel : TimeWheel
  conns : Int → Option Conn

namespace TcpServer

def new (timeoutS : Int32) : TcpServer :=
  { tsTcpConnTimeoutS := timeoutS, timeWheel := .new 1 60, conns := fun _ => none }

def addNewConnTimernode (s : TcpServer) (conn : Conn) : Except Fault TcpServer := do
  let timeWheel ← s.timeWheel.addConnection conn s.tsTcpConnTimeoutS
  pure { s with timeWheel := timeWheel }

def updateConnTimeoutTime (s : TcpServer) (conn : Conn) : Except Fault TcpServer := do
  let timeWheel ← s.timeWheel.updateConnection conn
  pure { s with timeWheel := timeWheel }

def newconnection (s : TcpServer) (conn : Conn) : Except Fault TcpServer := do
  let s ← s.addNewConnTimernode conn
  pure { s with conns := update s.conns conn.fd (some conn) }

def closeconnection (s : TcpServer) (conn : Conn) : Except Fault TcpServer := do
  let timeWheel ← s.timeWheel.removeConnection conn
  pure { s with timeWheel := timeWheel, conns := update s.conns conn.fd none }

/-- The `closecallback`s at the end of a tick. -/
def closeAll : TcpServer → List Conn → Except Fault TcpServer
  | s, [] => .ok s
  | s, conn :: rest => do closeAll (← s.closeconnection conn) rest

/-- The server after a tick, and the connections that have timed out. A weak
pointer has expired if `conns_` does not hold its connection. -/
def tick (s : TcpServer) : Except Fault (TcpServer × List Conn) := do
  let (timeWheel, weakConns) ← s.timeWheel.tick fun conn => s.conns conn.fd ≠ some conn
  let s ← closeAll { s with timeWheel := timeWheel } weakConns
  pure (s, weakConns)

def step (s : TcpServer) : TimedEvent → Except Fault (TcpServer × Set Conn)
  | .newconnection conn => do pure (← s.newconnection conn, {_c | False})
  | .onmessage conn => do pure (← s.updateConnTimeoutTime conn, {_c | False})
  | .closeconnection conn => do pure (← s.closeconnection conn, {_c | False})
  | .tick => do
    let (s, timedOut) ← s.tick
    pure (s, {c | c ∈ timedOut})

end TcpServer

-- ---------------------------------------------------------------------------
-- The countdowns of the connections
-- ---------------------------------------------------------------------------

namespace TimedEvent

def wheelOp (timeoutS : Int32) : TimedEvent → WheelOp
  | .newconnection conn => .addConnection conn timeoutS
  | .onmessage conn => .updateConnection conn
  | .closeconnection conn => .removeConnection conn
  | .tick => .tick fun _ => false

def concerns (fd : Int) : TimedEvent → Bool
  | .newconnection conn => conn.fd = fd
  | .onmessage conn => conn.fd = fd
  | .closeconnection conn => conn.fd = fd
  | .tick => false

theorem touches_wheelOp (fd : Int) (timeoutS : Int32) (e : TimedEvent) :
    Countdowns.touches fd (e.wheelOp timeoutS) = e.concerns fd := by
  cases e <;> rfl

theorem tickCount_wheelOp (timeoutS : Int32) (es : List TimedEvent) :
    Countdowns.tickCount (es.map (wheelOp timeoutS)) = es.count .tick := by
  induction es with
  | nil => rfl
  | cons e es ih =>
    cases e with
    | newconnection conn => exact ih.trans (List.count_cons_of_ne (by simp)).symm
    | onmessage conn => exact ih.trans (List.count_cons_of_ne (by simp)).symm
    | closeconnection conn => exact ih.trans (List.count_cons_of_ne (by simp)).symm
    | tick => rw [List.count_cons_self, ← ih]; rfl

end TimedEvent

namespace TcpServer

def spec (timeoutS : Int32) (a : Countdowns) (e : TimedEvent) : Countdowns × Set Conn :=
  Countdowns.apply 1 a (e.wheelOp timeoutS)

/-- A descriptor is accepted while it is closed, and data comes from, and
closes, only connections that are open. -/
def Admits (a : Countdowns) : TimedEvent → Prop
  | .newconnection conn => a.left conn.fd = none
  | .onmessage conn => (a.left conn.fd).map Prod.snd = some conn
  | .closeconnection conn => (a.left conn.fd).map Prod.snd = some conn
  | .tick => True

structure Follows (timeoutS : Int32) (s : TcpServer) (a : Countdowns) : Prop where
  timeout : s.tsTcpConnTimeoutS = timeoutS
  tracks : TimeWheel.Tracks 1 60 s.timeWheel a
  conns : ∀ fd, s.conns fd = (a.left fd).map Prod.snd

variable {timeoutS : Int32} {s : TcpServer} {a : Countdowns}

theorem new_follows (timeoutS : Int32) : Follows timeoutS (new timeoutS) .empty :=
  { timeout := rfl, tracks := TimeWheel.new_tracks 1 60, conns := fun _ => rfl }

/-- A tick has taken the connections it closes out of the wheel. -/
theorem closeAll_ok (conns : List Conn) (h : ∀ c ∈ conns, s.timeWheel.timerMap c.fd = none) :
    ∃ s', s.closeAll conns = .ok s' ∧ s'.timeWheel = s.timeWheel ∧
      s'.tsTcpConnTimeoutS = s.tsTcpConnTimeoutS ∧
      ∀ fd, s'.conns fd = if ∃ c ∈ conns, c.fd = fd then none else s.conns fd := by
  induction conns generalizing s with
  | nil => exact ⟨s, rfl, rfl, rfl, fun fd => by simp⟩
  | cons c conns ih =>
    obtain ⟨hc, hrest⟩ := List.forall_mem_cons.mp h
    have hclose : s.closeconnection c = .ok { s with conns := update s.conns c.fd none } := by
      simp only [closeconnection, TimeWheel.removeConnection, TimeWheel.removeConnectionUnsafe, hc,
        bind, Except.bind, pure, Except.pure]
    obtain ⟨s', hall, hwheel, htimeout, hconns⟩ :=
      ih (s := { s with conns := update s.conns c.fd none }) hrest
    refine ⟨s', by simp only [closeAll, hclose, hall, bind, Except.bind], hwheel, htimeout,
      fun fd => ?_⟩
    rw [hconns]
    by_cases hfd : fd = c.fd
    · subst hfd
      simp
    · simp only [List.mem_cons, exists_eq_or_imp, Ne.symm hfd, false_or, update_of_ne hfd]

theorem Follows.conn_fd (h : Follows timeoutS s a) (hleft : a.left fd = some (n, c)) : c.fd = fd := by
  rw [h.tracks.left] at hleft
  obtain ⟨node, hnode, hnc⟩ := Option.map_eq_some_iff.mp hleft
  exact (Prod.mk.inj hnc).2 ▸ (h.tracks.placed fd node hnode).2.2.2

/-- After a tick the countdowns at zero are gone, and so are their connections. -/
theorem tick_ok (h : Follows timeoutS s a) :
    ∃ s' timedOut, s.tick = .ok (s', timedOut) ∧ Follows timeoutS s' (spec timeoutS a .tick).1 ∧
      ∀ c, c ∈ timedOut ↔ a.left c.fd = some (0, c) := by
  obtain ⟨w, weakConns, htick, htracks, hweak⟩ := TimeWheel.tick_ok
    (by decide) (by decide) h.tracks fun conn => s.conns conn.fd ≠ some conn
  have htimedOut : ∀ c, c ∈ weakConns ↔ a.left c.fd = some (0, c) := by
    intro c
    rw [hweak]
    refine and_iff_left_of_imp fun hleft => ?_
    simp [h.conns, hleft]
  have hgone : ∀ c ∈ weakConns, w.timerMap c.fd = none := by
    intro c hc
    refine htracks.entry_none.mp ?_
    show (a.left c.fd).bind Countdowns.countDown = none
    rw [(htimedOut c).mp hc]
    rfl
  obtain ⟨s', hall, hwheel, htimeout, hconns⟩ :=
    closeAll_ok (s := { s with timeWheel := w }) weakConns hgone
  refine ⟨s', weakConns, ?_, ⟨htimeout.trans h.timeout, hwheel ▸ htracks, fun fd => ?_⟩, htimedOut⟩
  · simp only [tick, htick, hall, bind, Except.bind, pure, Except.pure]
  · rw [hconns]
    show _ = ((a.left fd).bind Countdowns.countDown).map Prod.snd
    split
    · rename_i hclosed
      obtain ⟨c, hc, rfl⟩ := hclosed
      rw [(htimedOut c).mp hc]
      rfl
    · rename_i hopen
      rw [h.conns]
      cases hleft : a.left fd with
      | none => rfl
      | some left =>
        obtain ⟨n, c⟩ := left
        cases n with
        | zero =>
          obtain rfl := h.conn_fd hleft
          exact absurd ⟨c, (htimedOut c).mpr hleft, rfl⟩ hopen
        | succ n => rfl

theorem wheel_simulates :
    Lib.Simulation TimeWheel.apply (Countdowns.apply 1) (Countdowns.Admits 1 60)
      (TimeWheel.Tracks 1 60) :=
  TimeWheel.apply_simulates (by decide) (by decide) (by decide)

theorem places (a : Countdowns) (op : WheelOp) : Countdowns.Places 1 60 a op :=
  Countdowns.places_of_slots (by decide) (by decide) a op

theorem newconnection_ok (h : Follows timeoutS s a) (h0 : 0 ≤ timeoutS.toInt)
    (hadm : a.left conn.fd = none) :
    ∃ s', s.newconnection conn = .ok s' ∧
      Follows timeoutS s' (spec timeoutS a (.newconnection conn)).1 := by
  obtain ⟨w, happly, htracks⟩ := wheel_simulates _ _ (.addConnection conn timeoutS) h.tracks
    ⟨⟨h0, hadm⟩, places _ _⟩
  obtain ⟨w', hadd, hw⟩ := bind_ok happly
  cases hw
  refine ⟨{ s with timeWheel := w, conns := update s.conns conn.fd (some conn) }, ?_,
    h.timeout, htracks, fun fd => ?_⟩
  · simp only [newconnection, addNewConnTimernode, h.timeout, hadd, bind, Except.bind, pure,
      Except.pure]
  · show update s.conns conn.fd (some conn) fd = (update a.left conn.fd _ fd).map Prod.snd
    by_cases hfd : fd = conn.fd
    · rw [hfd, update_self, update_self]
      rfl
    · rw [update_of_ne hfd, update_of_ne hfd, h.conns]

theorem updateConnTimeoutTime_ok (h : Follows timeoutS s a)
    (hopen : (a.left conn.fd).map Prod.snd = some conn) :
    ∃ s', s.updateConnTimeoutTime conn = .ok s' ∧
      Follows timeoutS s' (spec timeoutS a (.onmessage conn)).1 := by
  obtain ⟨w, happly, htracks⟩ := wheel_simulates _ _ (.updateConnection conn) h.tracks
    ⟨trivial, places _ _⟩
  obtain ⟨w', hupdate, hw⟩ := bind_ok happly
  cases hw
  have hsome : (a.left conn.fd).isSome := by
    rw [← Option.isSome_map (f := Prod.snd), hopen]
    rfl
  refine ⟨{ s with timeWheel := w }, ?_, h.timeout, htracks, fun fd => ?_⟩
  · simp only [updateConnTimeoutTime, hupdate, bind, Except.bind, pure, Except.pure]
  · refine (h.conns fd).trans ?_
    simp only [spec, TimedEvent.wheelOp, Countdowns.apply, hsome, if_true]
    by_cases hfd : fd = conn.fd
    · rw [hfd, update_self, hopen]
      rfl
    · rw [update_of_ne hfd]

theorem closeconnection_ok (h : Follows timeoutS s a) (conn : Conn) :
    ∃ s', s.closeconnection conn = .ok s' ∧
      Follows timeoutS s' (spec timeoutS a (.closeconnection conn)).1 := by
  obtain ⟨w, happly, htracks⟩ := wheel_simulates _ _ (.removeConnection conn) h.tracks
    ⟨trivial, places _ _⟩
  obtain ⟨w', hremove, hw⟩ := bind_ok happly
  cases hw
  refine ⟨{ s with timeWheel := w, conns := update s.conns conn.fd none }, ?_,
    h.timeout, htracks, fun fd => ?_⟩
  · simp only [closeconnection, hremove, bind, Except.bind, pure, Except.pure]
  · show update s.conns conn.fd none fd = (update a.left conn.fd none fd).map Prod.snd
    by_cases hfd : fd = conn.fd
    · rw [hfd, update_self, update_self]
      rfl
    · rw [update_of_ne hfd, update_of_ne hfd, h.conns]

theorem step_simulates (h0 : 0 ≤ timeoutS.toInt) :
    Lib.Simulation step (spec timeoutS) Admits (Follows timeoutS) := by
  rintro s a e h hadm
  cases e with
  | newconnection conn =>
    obtain ⟨s', hs, hfollows⟩ := newconnection_ok h h0 hadm
    refine ⟨s', ?_, hfollows⟩
    simp only [step, hs, bind, Except.bind, pure, Except.pure]
    rfl
  | onmessage conn =>
    obtain ⟨s', hs, hfollows⟩ := updateConnTimeoutTime_ok h hadm
    refine ⟨s', ?_, hfollows⟩
    simp only [step, hs, bind, Except.bind, pure, Except.pure]
    rfl
  | closeconnection conn =>
    obtain ⟨s', hs, hfollows⟩ := closeconnection_ok h conn
    refine ⟨s', ?_, hfollows⟩
    simp only [step, hs, bind, Except.bind, pure, Except.pure]
    rfl
  | tick =>
    obtain ⟨s', timedOut, htick, hfollows, hmem⟩ := tick_ok h
    refine ⟨s', ?_, hfollows⟩
    simp only [step, htick, hmem, bind, Except.bind, pure, Except.pure, spec, TimedEvent.wheelOp,
      Countdowns.apply, and_true]

-- ---------------------------------------------------------------------------
-- Runs
-- ---------------------------------------------------------------------------

/-- A connection that nothing else happens to times out on the tick that finds
its countdown at zero. -/
theorem run_timesOut (h0 : 0 ≤ timeoutS.toInt) {before after : List TimedEvent} {conn : Conn}
    (hadm : Lib.Admitted (spec timeoutS) Admits .empty (before ++ (after ++ [.tick])))
    (hset : (Lib.runSpec (spec timeoutS) .empty before).1.left conn.fd =
      Countdowns.expected k 0 conn)
    (hother : ∀ e ∈ after, e.concerns conn.fd = false) :
    ∃ s closed last, Lib.run step (new timeoutS) (before ++ (after ++ [.tick])) = .ok (s, closed) ∧
      closed.getLast? = some last ∧ (conn ∈ last ↔ after.count .tick = k) := by
  obtain ⟨s, hrun, -⟩ := (step_simulates h0).run _ (new_follows timeoutS) hadm
  have huntouched : ∀ op ∈ after.map (TimedEvent.wheelOp timeoutS),
      Countdowns.touches conn.fd op = false := by
    intro op hop
    obtain ⟨e, he, rfl⟩ := List.mem_map.mp hop
    rw [TimedEvent.touches_wheelOp]
    exact hother e he
  have hleft := Countdowns.run_untouched 1 _ huntouched hset
  rw [Nat.zero_add, TimedEvent.tickCount_wheelOp] at hleft
  have hzero : (Lib.runSpec (spec timeoutS) .empty (before ++ after)).1.left conn.fd =
      some (0, conn) ↔ after.count .tick = k := by
    rw [← Countdowns.expected_zero, ← hleft, ← Lib.runSpec_map, Lib.runSpec_append]
    rfl
  rw [← List.append_assoc] at hrun ⊢
  exact ⟨s, _, _, hrun, Lib.runSpec_last .., (and_iff_left rfl).trans hzero⟩

/-- Whatever else happens, the connection times out on the tick that follows as
many others after this activity as the configured timeout has seconds. -/
def Honoured (timeoutS : Int32) (before : List TimedEvent) (activity : TimedEvent) (conn : Conn) :
    Prop :=
  ∀ after, (∀ e ∈ after, e.concerns conn.fd = false) →
    Lib.Admitted (spec timeoutS) Admits .empty (before ++ activity :: (after ++ [.tick])) →
    ∃ s closed last,
      Lib.run step (new timeoutS) (before ++ activity :: (after ++ [.tick])) = .ok (s, closed) ∧
      closed.getLast? = some last ∧ (conn ∈ last ↔ after.count .tick = timeoutS.toInt.toNat)

theorem admitted_ticks (n : Nat) :
    Lib.Admitted (spec timeoutS) Admits a (List.replicate n .tick ++ [.tick]) := by
  induction n generalizing a with
  | zero => exact ⟨trivial, trivial⟩
  | succ n ih => exact ⟨trivial, ih⟩

theorem ticks_concern (n : Nat) (fd : Int) :
    ∀ e ∈ List.replicate n TimedEvent.tick, e.concerns fd = false := by
  intro e he
  rw [List.eq_of_mem_replicate he]
  rfl

/-- The seconds an activity sets: those configured, or the ones in the source. -/
def secondsSet (timeoutS : Int32) : TimedEvent → Nat
  | .newconnection _ => timeoutS.toInt.toNat
  | _ => 360

theorem activity_sets {before : List TimedEvent} {activity : TimedEvent} {conn : Conn}
    (hact : activity = .newconnection conn ∨ activity = .onmessage conn)
    (hadm : Lib.Admitted (spec timeoutS) Admits .empty (before ++ [activity])) :
    (Lib.runSpec (spec timeoutS) .empty (before ++ [activity])).1.left conn.fd =
      Countdowns.expected (secondsSet timeoutS activity) 0 conn := by
  obtain ⟨-, hadm, -⟩ := Lib.admitted_append.mp hadm
  rw [Lib.runSpec_append]
  generalize (Lib.runSpec (spec timeoutS) .empty before).1 = a at hadm
  rcases hact with rfl | rfl
  · show update a.left conn.fd (some ((timeoutS.toInt / 1).toNat, conn)) conn.fd = _
    rw [update_self, Int.ediv_one]
    rfl
  · have hopen : (a.left conn.fd).map Prod.snd = some conn := hadm
    have hsome : (a.left conn.fd).isSome := by
      rw [← Option.isSome_map (f := Prod.snd), hopen]
      rfl
    simp only [Lib.runSpec, spec, TimedEvent.wheelOp, Countdowns.apply, hsome, if_true, update_self]
    rfl

/-- Every configured timeout, every run of arrivals, data, closings and ticks,
and every activity in it: the connection times out as configured, whatever
follows, exactly if the activity is its arrival or 360 seconds are configured. -/
theorem idle_timeout_iff (h0 : 0 ≤ timeoutS.toInt) {before : List TimedEvent}
    {activity : TimedEvent} {conn : Conn}
    (hact : activity = .newconnection conn ∨ activity = .onmessage conn)
    (hadm : Lib.Admitted (spec timeoutS) Admits .empty (before ++ [activity])) :
    Honoured timeoutS before activity conn ↔
      activity = .newconnection conn ∨ timeoutS.toInt = 360 := by
  have hset := activity_sets hact hadm
  have hsplit : ∀ after, before ++ activity :: (after ++ [.tick]) =
      (before ++ [activity]) ++ (after ++ [.tick]) := fun after => by simp
  unfold Honoured
  simp only [hsplit]
  constructor
  · intro h
    rcases hact with rfl | rfl
    · exact .inl rfl
    · right
      have hticks := ticks_concern timeoutS.toInt.toNat conn.fd
      have hrun := Lib.admitted_append.mpr ⟨hadm, admitted_ticks timeoutS.toInt.toNat⟩
      obtain ⟨s, closed, last, hok, hlast, hhonoured⟩ := h _ hticks hrun
      obtain ⟨s₂, closed₂, last₂, hok₂, hlast₂, hcloses⟩ := run_timesOut h0 hrun hset hticks
      cases hok.symm.trans hok₂
      cases hlast.symm.trans hlast₂
      rw [List.count_replicate_self] at hhonoured hcloses
      have hseconds : timeoutS.toInt.toNat = 360 := hcloses.mp (hhonoured.mpr rfl)
      omega
  · intro h after hother hrun
    have hseconds : secondsSet timeoutS activity = timeoutS.toInt.toNat := by
      rcases hact with rfl | rfl
      · rfl
      · rcases h with h | h
        · cases h
        · rw [h]
          rfl
    rw [← hseconds]
    exact run_timesOut h0 hrun hset hother

theorem idle_timeout_iff_example :
    Honoured 5 [.newconnection ⟨0, 7⟩, .onmessage ⟨0, 7⟩, .tick, .closeconnection ⟨0, 7⟩]
      (.newconnection ⟨1, 7⟩) ⟨1, 7⟩ := by
  refine (idle_timeout_iff (by decide) (.inl rfl) ?_).mpr (.inl rfl)
  exact ⟨rfl, rfl, trivial, rfl, rfl, trivial⟩

/-- Five seconds configured: after data the connection is still open on the
sixth tick. -/
theorem refreshed_outlives : ∃ s closed last,
    Lib.run step (new 5) ([.newconnection ⟨0, 7⟩, .onmessage ⟨0, 7⟩] ++
      (List.replicate 5 .tick ++ [.tick])) = .ok (s, closed) ∧
      closed.getLast? = some last ∧ (⟨0, 7⟩ : Conn) ∉ last := by
  have hadm : Lib.Admitted (spec 5) Admits .empty
      [.newconnection ⟨0, 7⟩, .onmessage ⟨0, 7⟩] := ⟨rfl, rfl, trivial⟩
  have hset : (Lib.runSpec (spec 5) .empty [.newconnection ⟨0, 7⟩, .onmessage ⟨0, 7⟩]).1.left
      (⟨0, 7⟩ : Conn).fd = Countdowns.expected 360 0 ⟨0, 7⟩ := rfl
  obtain ⟨s, closed, last, hrun, hlast, hcloses⟩ := run_timesOut (by decide)
    (Lib.admitted_append.mpr ⟨hadm, admitted_ticks 5⟩) hset (ticks_concern 5 _)
  refine ⟨s, closed, last, hrun, hlast, fun hmem => ?_⟩
  exact absurd (hcloses.mp hmem) (by decide)

end TcpServer

end MudouHttp
