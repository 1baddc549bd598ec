import MudouHttp.Lib.Counting
import MudouHttp.Mysql.SqlConnPool

/-!
# Who has a handle

The semaphore, the threads between `sem_wait` and the pop, and those between
the push and `sem_post` make up the length of the queue as long as `ClosePool`
has not begun; so nothing pops an empty queue then (`handles_exclusive`). A
slot whose connection has failed is lost when it is handed out
(`pool_whole_iff`), and `ClosePool` is safe only between the scopes
(`stop_closes_all`).
-/

namespace MudouHttp

namespace Scope

def isEntering : Scope → Bool
  | .entering => true
  | _ => false

/-- In `FreeConn`, under the lock. -/
def isPosting : Scope → Bool
  | .posting => true
  | _ => false

def holds (handle : Nat) : Scope → Bool
  | .holding (some h) => h == handle
  | _ => false

def holdsSome : Scope → Bool
  | .holding (some _) => true
  | _ => false

end Scope

namespace SqlConnPool

-- ---------------------------------------------------------------------------
-- What a step can do
-- ---------------------------------------------------------------------------

inductive Turn (s : SqlConnPool) : Scope → Scope → SqlConnPool → Prop
  | refuse : s.connque = [] → Turn s .outside (.holding none) s
  | test : s.connque ≠ [] → Turn s .outside .waiting s
  | acquire : s.sem = n + 1 → Turn s .waiting .entering { s with sem := n }
  | pop : s.locked = false → s.connque = handle :: rest →
    Turn s .entering (.holding handle) { s with connque := rest }
  | release : Turn s (.holding none) .outside s
  | push : s.locked = false → Turn s (.holding (some handle)) .posting
      { s with connque := s.connque ++ [some handle], locked := true }
  | post : Turn s .posting .outside { s with sem := s.sem + 1, locked := false }

variable {s s' : SqlConnPool}

theorem clientStep_ok (h : s.clientStep i c = .ok s') : ∃ c' m, Turn s c c' m ∧ s' = m.move i c' := by
  cases c with
  | outside =>
    cases h
    by_cases hq : s.connque = []
    · exact ⟨_, _, .refuse hq, by rw [if_pos hq]⟩
    · exact ⟨_, _, .test hq, by rw [if_neg hq]⟩
  | waiting =>
    simp only [clientStep] at h
    split at h
    · cases h
    · rename_i hsem
      cases h
      exact ⟨_, _, .acquire hsem, rfl⟩
  | entering =>
    simp only [clientStep] at h
    split at h
    · cases h
    · rename_i hl
      split at h
      · cases h
      · rename_i hq
        cases h
        exact ⟨_, _, .pop (by simpa using hl) hq, rfl⟩
  | holding handle =>
    cases handle with
    | none =>
      cases h
      exact ⟨_, _, .release, rfl⟩
    | some handle =>
      simp only [clientStep] at h
      split at h
      · cases h
      · rename_i hl
        cases h
        exact ⟨_, _, .push (by simpa using hl), rfl⟩
  | posting =>
    cases h
    exact ⟨_, _, .post, rfl⟩

theorem Turn.clients (h : Turn s c c' m) : m.clients = s.clients := by
  cases h <;> rfl

inductive Change (s : SqlConnPool) : Event → SqlConnPool → Prop
  | turn : s.stop ≠ .done → s.clients[i]? = some c → Turn s c c' m →
    Change s (.client i) (m.move i c')
  | lock : s.stop = .running → s.locked = false →
    Change s .stop { s with locked := true, stop := .closing }
  | close : s.stop = .closing → s.connque = handle :: rest →
    Change s .stop { s with connque := rest, closed := s.closed ++ handle.toList }
  | unlock : s.stop = .closing → s.connque = [] →
    Change s .stop { s with locked := false, stop := .poolClosed }
  | stopWorkers : s.stop = .poolClosed → Change s .stop { s with stop := .workersStopped }
  | join : s.stop = .workersStopped → (∀ c ∈ s.clients, c = .outside) →
    Change s .stop { s with stop := .done }

theorem step_ok (h : s.step e = .ok s') : Change s e s' := by
  cases e with
  | client i =>
    simp only [step] at h
    split at h
    · cases h
    · rename_i hstop
      split at h
      · cases h
      · rename_i c hc
        obtain ⟨c', m, hturn, rfl⟩ := clientStep_ok h
        exact .turn hstop hc hturn
  | stop =>
    simp only [step, stopStep] at h
    split at h
    · rename_i hstop
      split at h
      · cases h
      · rename_i hl
        cases h
        exact .lock hstop (by simpa using hl)
    · rename_i hstop
      split at h
      · rename_i hq
        cases h
        exact .unlock hstop hq
      · rename_i handle rest hq
        cases h
        exact .close hstop hq
    · rename_i hstop
      cases h
      exact .stopWorkers hstop
    · rename_i hstop
      split at h
      · rename_i hout
        cases h
        exact .join hstop hout
      · cases h
    · cases h

theorem Turn.countP (h : Turn s c c' m) (hc : s.clients[i]? = some c) (p : Scope → Bool) :
    (m.move i c').clients.countP p + (p c).toNat = s.clients.countP p + (p c').toNat := by
  simp only [move, h.clients]
  exact Lib.countP_set p hc c'

theorem step_emptyQueue (h : s.step e = .error .emptyQueue) :
    .entering ∈ s.clients ∧ s.locked = false ∧ s.connque = [] := by
  cases e with
  | client i =>
    simp only [step] at h
    split at h
    · cases h
    · split at h
      · cases h
      · rename_i c hc
        cases c with
        | outside => cases h
        | waiting =>
          simp only [clientStep] at h
          split at h <;> cases h
        | entering =>
          simp only [clientStep] at h
          split at h
          · cases h
          · rename_i hl
            split at h
            · rename_i hq
              exact ⟨List.mem_of_getElem? hc, by simpa using hl, hq⟩
            · cases h
        | holding handle =>
          cases handle with
          | none => cases h
          | some handle =>
            simp only [clientStep] at h
            split at h <;> cases h
        | posting => cases h
  | stop =>
    simp only [step, stopStep] at h
    repeat' split at h
    all_goals cases h

-- ---------------------------------------------------------------------------
-- The semaphore and the lock
-- ---------------------------------------------------------------------------

/-- Before `ClosePool`: what the semaphore and the threads on either side of it
make up. -/
structure Counted (s : SqlConnPool) : Prop where
  slots : s.sem + s.clients.countP Scope.isEntering + s.clients.countP Scope.isPosting =
    s.connque.length
  owner : s.clients.countP Scope.isPosting = s.locked.toNat

/-- A slot goes from the semaphore to a thread and with the handle back. -/
theorem Turn.slots (h : Turn s c c' m) :
    m.sem + c'.isEntering.toNat + c'.isPosting.toNat + s.connque.length =
      s.sem + c.isEntering.toNat + c.isPosting.toNat + m.connque.length := by
  cases h with
  | acquire hsem =>
    rw [hsem]
    simp only [Scope.isEntering, Scope.isPosting, Bool.toNat_true, Bool.toNat_false]
  | pop _ hq =>
    rw [hq]
    simp only [Scope.isEntering, Scope.isPosting, Bool.toNat_true, Bool.toNat_false,
      List.length_cons]
    omega
  | push _ =>
    simp only [Scope.isEntering, Scope.isPosting, Bool.toNat_true, Bool.toNat_false,
      List.length_append, List.length_singleton]
    omega
  | post => rfl
  | _ => rfl

theorem Turn.owner (h : Turn s c c' m) (hposting : c = .posting → s.locked = true) :
    c'.isPosting.toNat + s.locked.toNat = c.isPosting.toNat + m.locked.toNat := by
  cases h with
  | push hl =>
    rw [hl]
    rfl
  | post =>
    rw [hposting rfl]
    rfl
  | _ => rfl

theorem Counted.turn (h : Counted s) (hc : s.clients[i]? = some c) (ht : Turn s c c' m) :
    Counted (m.move i c') := by
  have hlocked : c = .posting → s.locked = true := by
    rintro rfl
    have hpos : 0 < s.clients.countP Scope.isPosting :=
      List.countP_pos_iff.mpr ⟨_, List.mem_of_getElem? hc, rfl⟩
    rw [h.owner] at hpos
    exact Bool.toNat_eq_one.mp (Nat.le_antisymm (Bool.toNat_le _) hpos)
  have hentering := ht.countP hc Scope.isEntering
  have hposting := ht.countP hc Scope.isPosting
  have hslots := ht.slots
  have howner := ht.owner hlocked
  have hbefore := h.slots
  have hheld := h.owner
  refine ⟨?_, ?_⟩
  · show m.sem + _ + _ = m.connque.length
    omega
  · show _ = m.locked.toNat
    omega

theorem connectLoop_length (i : Nat) (connects : List Bool) :
    (connectLoop i connects).length = connects.length := by
  induction connects generalizing i with
  | nil => rfl
  | cons connected connects ih => rw [connectLoop, List.length_cons, List.length_cons, ih]

theorem init_counted (connects : List Bool) (threads : Nat) : Counted (init connects threads) := by
  have hnone : ∀ p : Scope → Bool, p .outside = false →
      (List.replicate threads Scope.outside).countP p = 0 := by
    intro p hp
    simp [List.countP_replicate, hp]
  refine ⟨?_, hnone _ rfl⟩
  simp only [init, hnone Scope.isEntering rfl, hnone Scope.isPosting rfl, connectLoop_length]
  omega

def Serving (_ : SqlConnPool) (e : Event) : Prop := e ≠ .stop

/-- The threads alone keep the counts. -/
theorem serving_counted (h : Lib.Reach step Serving (init connects threads) s) : Counted s := by
  refine h.invariant (fun s e s' hcounted hserving hs => ?_) (init_counted connects threads)
  cases step_ok hs with
  | turn _ hc ht => exact hcounted.turn hc ht
  | _ => exact absurd rfl hserving

theorem serving_no_emptyQueue (h : Counted s) : s.step e ≠ .error .emptyQueue := by
  intro he
  obtain ⟨hentering, -, hq⟩ := step_emptyQueue he
  have hpos : 0 < s.clients.countP Scope.isEntering :=
    List.countP_pos_iff.mpr ⟨_, hentering, rfl⟩
  have hslots := h.slots
  rw [hq, List.length_nil] at hslots
  omega

-- ---------------------------------------------------------------------------
-- Each handle in one place
-- ---------------------------------------------------------------------------

def Ledger (connects : List Bool) (s : SqlConnPool) : Prop :=
  ∀ handle, s.connque.count (some handle) + s.clients.countP (Scope.holds handle) +
    s.closed.count handle = (connects[handle]?.getD false).toNat

theorem holds_holding (handle : Option Nat) (x : Nat) :
    (Scope.holding handle).holds x = (handle == some x) := by
  cases handle <;> rfl

/-- A thread's step takes a handle from the queue, or puts it back. -/
theorem Turn.handles (h : Turn s c c' m) (x : Nat) :
    m.connque.count (some x) + (c'.holds x).toNat =
      s.connque.count (some x) + (c.holds x).toNat ∧ m.closed = s.closed := by
  cases h with
  | pop _ hq =>
    rw [hq, Lib.count_cons, holds_holding]
    exact ⟨rfl, rfl⟩
  | push _ =>
    rw [Lib.count_concat, holds_holding]
    exact ⟨rfl, rfl⟩
  | _ => exact ⟨rfl, rfl⟩

theorem Ledger.change (h : Ledger connects s) (hc : Change s e s') : Ledger connects s' := by
  intro x
  have hx := h x
  cases hc with
  | @turn i c c' m _ hc ht =>
    have hholders := ht.countP hc (Scope.holds x)
    obtain ⟨hqueue, hclosed⟩ := ht.handles x
    show m.connque.count (some x) + _ + m.closed.count x = _
    rw [hclosed]
    omega
  | @close handle rest _ hq =>
    rw [hq, Lib.count_cons] at hx
    show rest.count (some x) + _ + (s.closed ++ handle.toList).count x = _
    rw [List.count_append, ← hx]
    cases handle with
    | none => rfl
    | some handle =>
      have hsame : (some handle == some x) = (handle == x) := rfl
      rw [Option.toList_some, List.count_singleton, hsame]
      cases handle == x with
      | true =>
        simp
        omega
      | false => simp
  | _ => exact hx

theorem le_of_mem_connectLoop (h : some x ∈ connectLoop i connects) : i ≤ x := by
  induction connects generalizing i with
  | nil => cases h
  | cons connected connects ih =>
    rcases List.mem_cons.mp h with h | h
    · cases connected with
      | true => exact Nat.le_of_eq (Option.some.inj h).symm
      | false => cases h
    · exact Nat.le_of_succ_le (ih h)

theorem count_connectLoop (i : Nat) (connects : List Bool) (x : Nat) :
    (connectLoop i connects).count (some (i + x)) = (connects[x]?.getD false).toNat := by
  induction connects generalizing i x with
  | nil => rfl
  | cons connected connects ih =>
    rw [connectLoop, Lib.count_cons]
    cases x with
    | zero =>
      have hlater : (connectLoop (i + 1) connects).count (some i) = 0 :=
        List.count_eq_zero.mpr fun h => Nat.not_succ_le_self i (le_of_mem_connectLoop h)
      rw [Nat.add_zero, hlater]
      cases connected <;> simp
    | succ x =>
      have hhead : ((if connected = true then some i else none) == some (i + (x + 1))) = false := by
        cases connected <;> simp
      rw [hhead, ← Nat.add_assoc, Nat.add_right_comm, ih]
      rfl

theorem init_ledger (connects : List Bool) (threads : Nat) :
    Ledger connects (init connects threads) := by
  intro x
  have hcount := count_connectLoop 0 connects x
  rw [Nat.zero_add] at hcount
  simp [init, hcount, List.countP_replicate, Scope.holds]

theorem ledger_of_reach (h : Lib.Reach step meets (init connects threads) s) : Ledger connects s :=
  h.invariant (fun _ _ _ hledger _ hs => hledger.change (step_ok hs)) (init_ledger connects threads)

/-- Every outcome of `Init`, any number of threads and every run before
`ClosePool`: no empty queue is popped, and a handle is held by one thread at
most and not in the queue meanwhile. -/
theorem handles_exclusive (h : Lib.Reach step Serving (init connects threads) s) :
    (∀ e, s.step e ≠ .error .emptyQueue) ∧
    (∀ i j handle : Nat, s.clients[i]? = some (.holding (some handle)) →
      s.clients[j]? = some (.holding (some handle)) → i = j) ∧
    ∀ i handle : Nat, s.clients[i]? = some (.holding (some handle)) → some handle ∉ s.connque := by
  have hledger := ledger_of_reach h
  have hholds : ∀ handle, (Scope.holding (some handle)).holds handle = true := fun handle => by
    simp [Scope.holds]
  refine ⟨fun e => serving_no_emptyQueue (serving_counted h), fun i j handle hi hj => ?_,
    fun i handle hi hmem => ?_⟩
  · have hone := hledger handle
    have hle := Bool.toNat_le (connects[handle]?.getD false)
    exact Lib.index_unique (by omega) hi (hholds handle) hj (hholds handle)
  · have hone := hledger handle
    have hle := Bool.toNat_le (connects[handle]?.getD false)
    have hqueued := List.count_pos_iff.mpr hmem
    have hheld : 0 < s.clients.countP (Scope.holds handle) :=
      List.countP_pos_iff.mpr ⟨_, List.mem_of_getElem? hi, hholds handle⟩
    omega

/-- Two threads, one of them with a handle. -/
theorem handles_exclusive_example : ∃ s,
    Lib.Reach step Serving (init [true, false] 2) s ∧
      s.clients = [.holding (some 0), .entering] ∧ some 0 ∉ s.connque := by
  have hrun : ∃ s, Lib.runs step (init [true, false] 2)
      [.client 0, .client 1, .client 0, .client 0, .client 1] = .ok s ∧
      s.clients = [.holding (some 0), .entering] := ⟨_, rfl, rfl⟩
  obtain ⟨s, hs, hclients⟩ := hrun
  have hserving : Lib.AllMeet step Serving (init [true, false] 2)
      [.client 0, .client 1, .client 0, .client 0, .client 1] :=
    ⟨nofun, nofun, nofun, nofun, nofun, trivial⟩
  have hreach := Lib.Reach.start.runs _ hserving hs
  exact ⟨s, hreach, hclients, (handles_exclusive hreach).2.2 0 0 (by rw [hclients]; rfl)⟩

-- ---------------------------------------------------------------------------
-- Slots that are lost
-- ---------------------------------------------------------------------------

structure Whole (s : SqlConnPool) : Prop where
  good : none ∉ s.connque
  total : s.connque.length + s.clients.countP Scope.holdsSome = s.maxConn

theorem Whole.turn (h : Whole s) (hc : s.clients[i]? = some c) (ht : Turn s c c' m) :
    Whole (m.move i c') := by
  have hholders := ht.countP hc Scope.holdsSome
  have htotal := h.total
  have hgood := h.good
  have hkeep : none ∉ m.connque ∧ m.maxConn = s.maxConn ∧
      m.connque.length + c'.holdsSome.toNat = s.connque.length + c.holdsSome.toNat := by
    cases ht with
    | @pop handle rest _ hq =>
      rw [hq] at hgood ⊢
      cases handle with
      | none => exact absurd List.mem_cons_self hgood
      | some handle => exact ⟨fun hmem => hgood (List.mem_cons_of_mem _ hmem), rfl, rfl⟩
    | push _ => exact ⟨by simpa using hgood, rfl, List.length_append⟩
    | _ => exact ⟨hgood, rfl, rfl⟩
  obtain ⟨hnone, hmax, hlength⟩ := hkeep
  refine ⟨hnone, ?_⟩
  show m.connque.length + _ = m.maxConn
  omega

theorem none_mem_connectLoop : none ∈ connectLoop i connects ↔ false ∈ connects := by
  induction connects generalizing i with
  | nil => exact iff_of_false List.not_mem_nil List.not_mem_nil
  | cons connected connects ih =>
    rw [connectLoop, List.mem_cons, List.mem_cons, ih]
    cases connected <;> simp

theorem init_whole (h : false ∉ connects) (threads : Nat) : Whole (init connects threads) := by
  refine ⟨fun hmem => h (none_mem_connectLoop.mp hmem), ?_⟩
  simp [init, connectLoop_length, List.countP_replicate, Scope.holdsSome]

def solo (connects : List Bool) (queue : List (Option Nat)) : SqlConnPool :=
  { init connects 1 with connque := queue, sem := queue.length }

theorem solo_returns (connects : List Bool) (handle : Nat) (rest : List (Option Nat)) :
    Lib.runs step (solo connects (some handle :: rest)) (List.replicate 5 (.client 0)) =
      .ok (solo connects (rest ++ [some handle])) := by
  simp [Lib.runs, step, clientStep, move, solo, init]

theorem solo_loses (connects : List Bool) (rest : List (Option Nat)) :
    Lib.runs step (solo connects (none :: rest)) (List.replicate 4 (.client 0)) =
      .ok (solo connects rest) := by
  simp [Lib.runs, step, clientStep, move, solo, init]

theorem solo_runs {queue queue' : List (Option Nat)} {n : Nat}
    (hrun : Lib.runs step (solo connects queue) (List.replicate n (.client 0)) =
      .ok (solo connects queue'))
    (h : Lib.Reach step Serving (init connects 1) (solo connects queue)) :
    Lib.Reach step Serving (init connects 1) (solo connects queue') := by
  have hserving : ∀ (n : Nat) s, Lib.AllMeet step Serving s (List.replicate n (.client 0)) := by
    intro n
    induction n with
    | zero => exact fun _ => trivial
    | succ n ih =>
      intro s
      refine ⟨nofun, ?_⟩
      cases s.step (.client 0) with
      | error _ => trivial
      | ok s' => exact ih s'
  exact h.runs _ (hserving _ _) hrun

/-- Scope after scope the first null pointer comes to the front. -/
theorem solo_rotates {goods : List (Option Nat)} (hgoods : none ∉ goods) {rest : List (Option Nat)}
    (h : Lib.Reach step Serving (init connects 1) (solo connects (goods ++ none :: rest))) :
    Lib.Reach step Serving (init connects 1) (solo connects (none :: rest ++ goods)) := by
  induction goods generalizing rest with
  | nil => rwa [List.append_nil]
  | cons good goods ih =>
    obtain ⟨hgood, hlater⟩ := not_or.mp (mt List.mem_cons.mpr hgoods)
    obtain ⟨handle, rfl⟩ := Option.ne_none_iff_exists'.mp (Ne.symm hgood)
    have hnext := solo_runs (solo_returns connects handle (goods ++ none :: rest)) h
    rw [List.append_assoc, List.cons_append] at hnext
    have hlast := ih hlater hnext
    rwa [← List.cons_append, List.append_assoc, List.singleton_append] at hlast

/-- Between the scopes all of the pool is there again, in every run of every
number of threads, exactly if no connection has failed. -/
theorem pool_whole_iff (connects : List Bool) :
    (∀ threads s, Lib.Reach step Serving (init connects threads) s →
      (∀ c ∈ s.clients, c = .outside) → s.getFreeConnCount = s.maxConn ∧ s.sem = s.maxConn) ↔
    ∀ connected ∈ connects, connected = true := by
  have hall : (∀ connected ∈ connects, connected = true) ↔ false ∉ connects := by
    simp [Bool.forall_bool]
  rw [hall]
  constructor
  · intro hwhole hfailed
    obtain ⟨goods, rest, hqueue, hgoods⟩ :=
      List.eq_append_cons_of_mem (none_mem_connectLoop.mpr hfailed : none ∈ connectLoop 0 connects)
    have hlength := connectLoop_length 0 connects
    have hinit : init connects 1 = solo connects (goods ++ none :: rest) := by
      rw [← hqueue, solo, hlength]
      rfl
    have hreach := solo_runs (solo_loses connects (rest ++ goods))
      (solo_rotates hgoods (hinit ▸ Lib.Reach.start))
    have hcount : (rest ++ goods).length = connects.length :=
      (hwhole 1 _ hreach (by simp [solo, init])).1
    rw [hqueue] at hlength
    simp only [List.length_append, List.length_cons] at hlength hcount
    omega
  · intro hgood threads s h hidle
    have hcounted := serving_counted h
    have hwhole : Whole s := by
      refine h.invariant (fun s e s' hw hserving hs => ?_) (init_whole hgood threads)
      cases step_ok hs with
      | turn _ hc ht => exact hw.turn hc ht
      | _ => exact absurd rfl hserving
    have hnone : ∀ p : Scope → Bool, p .outside = false → s.clients.countP p = 0 := by
      intro p hp
      refine List.countP_eq_zero.mpr fun c hc => ?_
      rw [hidle c hc, hp]
      decide
    have hslots := hcounted.slots
    have htotal := hwhole.total
    rw [hnone Scope.isEntering rfl, hnone Scope.isPosting rfl] at hslots
    rw [hnone Scope.holdsSome rfl] at htotal
    exact ⟨htotal, hslots.trans htotal⟩

/-- One slot that failed: after one scope the pool is empty for good. -/
theorem failed_slot_lost : ∃ s, Lib.Reach step Serving (init [false] 1) s ∧
    (∀ c ∈ s.clients, c = .outside) ∧ s.maxConn = 1 ∧ s.getFreeConnCount = 0 ∧ s.sem = 0 :=
  ⟨solo [false] [], solo_runs (solo_loses [false] []) .start, by simp [solo, init], rfl, rfl, rfl⟩

-- ---------------------------------------------------------------------------
-- Stop
-- ---------------------------------------------------------------------------

/-- No thread has passed the semaphore, or can, and none holds a handle. -/
def Settled (s : SqlConnPool) : Prop :=
  ∀ c ∈ s.clients, c = .outside ∨ c = .holding none ∨ (c = .waiting ∧ s.sem = 0)

/-- `ClosePool` takes the lock where the threads are settled, and while it empties
the queue no thread finds it not empty. -/
def Meets (s : SqlConnPool) : Event → Prop
  | .stop => s.stop = .running → Settled s
  | .client i => s.stop = .closing → s.clients[i]? = some .outside → s.connque = []

/-- Before `ClosePool` the counts hold, and after it the queue stays empty. -/
structure Shutting (s : SqlConnPool) : Prop where
  counted : s.stop = .running → Counted s
  settled : s.stop ≠ .running → Settled s
  emptied : s.stop ≠ .running → s.stop ≠ .closing → s.connque = []
  joined : s.stop = .done → ∀ c ∈ s.clients, c = .outside

theorem Settled.turn (h : Settled s) (hc : s.clients[i]? = some c) (ht : Turn s c c' m)
    (hq : c = .outside → s.connque = []) : m = s ∧ Settled (m.move i c') := by
  have hkeep : m = s → (c' = .outside ∨ c' = .holding none) → m = s ∧ Settled (m.move i c') := by
    rintro rfl hc'
    refine ⟨rfl, fun d hd => ?_⟩
    rcases List.mem_or_eq_of_mem_set hd with hd | rfl
    · exact h d hd
    · exact hc'.imp id .inl
  have hsettled := h c (List.mem_of_getElem? hc)
  cases ht with
  | refuse _ => exact hkeep rfl (.inr rfl)
  | test hne => exact absurd (hq rfl) hne
  | acquire hsem =>
    rcases hsettled with hc | hc | ⟨-, hzero⟩
    · cases hc
    · cases hc
    · cases hsem.symm.trans hzero
  | release => exact hkeep rfl (.inl rfl)
  | _ => rcases hsettled with hc | hc | ⟨hc, -⟩ <;> cases hc

theorem Shutting.change (h : Shutting s) (hm : Meets s e) (hc : Change s e s') : Shutting s' := by
  cases hc with
  | @turn i c c' m hstop hc ht =>
    by_cases hrunning : s.stop = .running
    · have hsame : (m.move i c').stop = .running := by cases ht <;> exact hrunning
      exact ⟨fun _ => (h.counted hrunning).turn hc ht, fun hne => absurd hsame hne,
        fun hne => absurd hsame hne, fun hd => (nomatch hsame.symm.trans hd)⟩
    · have hq : c = .outside → s.connque = [] := by
        rintro rfl
        by_cases hclosing : s.stop = .closing
        · exact hm hclosing hc
        · exact h.emptied hrunning hclosing
      obtain ⟨rfl, hsettled⟩ := (h.settled hrunning).turn hc ht hq
      exact ⟨fun hr => absurd hr hrunning, fun _ => hsettled, fun _ => h.emptied hrunning,
        fun hd => absurd hd hstop⟩
  | lock hrunning _ => exact ⟨nofun, fun _ => hm hrunning, fun _ hne => absurd rfl hne, nofun⟩
  | close hclosing hq =>
    exact ⟨fun hr => (nomatch hclosing.symm.trans hr), fun hne => h.settled hne,
      fun _ hne => absurd hclosing hne, fun hd => (nomatch hclosing.symm.trans hd)⟩
  | unlock hclosing hq =>
    exact ⟨nofun, fun _ => h.settled (by simp [hclosing]), fun _ _ => hq, nofun⟩
  | stopWorkers hclosed =>
    exact ⟨nofun, fun _ => h.settled (by simp [hclosed]),
      fun _ _ => h.emptied (by simp [hclosed]) (by simp [hclosed]), nofun⟩
  | join hworkers hout =>
    exact ⟨nofun, fun _ => h.settled (by simp [hworkers]),
      fun _ _ => h.emptied (by simp [hworkers]) (by simp [hworkers]), fun _ => hout⟩

theorem Shutting.no_emptyQueue (h : Shutting s) : s.step e ≠ .error .emptyQueue := by
  intro he
  by_cases hrunning : s.stop = .running
  · exact serving_no_emptyQueue (h.counted hrunning) he
  · obtain ⟨hentering, -, -⟩ := step_emptyQueue he
    rcases h.settled hrunning _ hentering with hc | hc | ⟨hc, -⟩ <;> cases hc

/-- Every run of `Stop` and any number of threads in which `ClosePool` works only
while no thread is between its test and the end of a scope with a handle: no empty
queue is popped, no handle is closed twice, and at the end the queue is empty and
the handles that had been connected are closed once each. -/
theorem stop_closes_all (h : Lib.Reach step Meets (init connects threads) s) :
    (∀ e, s.step e ≠ .error .emptyQueue) ∧ (∀ handle, s.closed.count handle ≤ 1) ∧
    (s.stop = .done → s.connque = [] ∧
      ∀ handle connected, connects[handle]? = some connected →
        s.closed.count handle = connected.toNat) := by
  have hledger := ledger_of_reach h
  have hinit : Shutting (init connects threads) :=
    ⟨fun _ => init_counted connects threads, fun hne => absurd rfl hne, fun hne => absurd rfl hne,
      nofun⟩
  have hshutting : Shutting s :=
    h.invariant (fun _ _ _ hs hm hstep => hs.change hm (step_ok hstep)) hinit
  refine ⟨fun e => hshutting.no_emptyQueue, fun handle => ?_, fun hdone => ?_⟩
  · have hone := hledger handle
    have hle := Bool.toNat_le (connects[handle]?.getD false)
    omega
  · have hempty := hshutting.emptied (by simp [hdone]) (by simp [hdone])
    refine ⟨hempty, fun handle connected hconnected => ?_⟩
    have hone := hledger handle
    have hnone : s.clients.countP (Scope.holds handle) = 0 := by
      refine List.countP_eq_zero.mpr fun c hc => ?_
      rw [hshutting.joined hdone c hc]
      exact Bool.false_ne_true
    rw [hempty, hnone, hconnected, Option.getD_some] at hone
    simpa using hone

/-- A scope before `Stop`, and one that finds the pool closed. -/
theorem stop_closes_all_example : ∃ s, Lib.Reach step Meets (init [true, true] 1) s ∧
    s.stop = .done ∧ s.connque = [] ∧ s.closed.count 0 = 1 ∧ s.closed.count 1 = 1 := by
  have hrun : ∃ s, Lib.checked step (fun s e => match e with
      | .stop => s.stop ≠ .running ∨ s.clients = [.outside]
      | .client _ => s.stop ≠ .closing) (init [true, true] 1)
      (List.replicate 5 (.client 0) ++ List.replicate 4 .stop ++ [.client 0, .client 0] ++
        [.stop, .stop]) = some s ∧ s.stop = .done := ⟨_, rfl, rfl⟩
  obtain ⟨s, hs, hdone⟩ := hrun
  have hreach : Lib.Reach step Meets (init [true, true] 1) s := by
    refine Lib.Reach.start.checked _ (fun s e hcheck => ?_) hs
    cases e with
    | stop =>
      intro hrunning c hc
      have hout : s.clients = [.outside] := by simpa [hrunning] using hcheck
      rw [hout] at hc
      exact .inl (List.mem_singleton.mp hc)
    | client i =>
      intro hclosing
      simp [hclosing] at hcheck
  obtain ⟨-, -, hclosed⟩ := stop_closes_all hreach
  obtain ⟨hempty, hcounts⟩ := hclosed hdone
  exact ⟨s, hreach, hdone, hempty, hcounts 0 true rfl, hcounts 1 true rfl⟩

/-- A thread between its test and `sem_wait` when `ClosePool` runs. -/
theorem closed_under_waiting : ∃ s, Lib.Reach step (fun _ _ => True) (init [true] 1) s ∧
    s.step (.client 0) = .error .emptyQueue := by
  have hrun : ∃ s, Lib.runs step (init [true] 1)
      [.client 0, .stop, .stop, .stop, .client 0] = .ok s ∧
      s.step (.client 0) = .error .emptyQueue := ⟨_, rfl, rfl⟩
  obtain ⟨s, hs, hempty⟩ := hrun
  exact ⟨s, Lib.Reach.start.runs _ (.of_all (fun _ _ => trivial) _ _) hs, hempty⟩

end SqlConnPool

end MudouHttp
