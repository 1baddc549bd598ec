import MudouHttp.Timer.IdleTimeouts

/-!
# Accepting a connection

From `accept4` through `Acceptor::newconnection` to `TcpServer::newconnection`:
nothing on the way looks whether the descriptor is one. It chooses the event
loop and is the key of the connection in the timing wheel and in `conns_`.
-/

namespace MudouHttp

/-- Why `newconnection` does not return: `subloops_` has no such element, or
`epoll_ctl` has failed and the program ends. -/
inductive AcceptStop
  | outOfBounds
  | exit
  | fault (f : Fault)
  deriving DecidableEq, Repr

/-- A server with the descriptors in the epoll sets of its loops and the number
of Connections it has created. Every loop is a thread of its own. -/
structure LoopServer extends TcpServer where
  threadnum : Int
  mainloop : List Int
  subloops : List (List Int)
  created : Nat
  threads : 1 ≤ threadnum ∧ threadnum < 2 ^ 31
  size : (subloops.length : Int) = threadnum

namespace LoopServer

def new (timeoutS : Int32) (threadnum listenfd : Int) (h : 1 ≤ threadnum ∧ threadnum < 2 ^ 31) :
    LoopServer :=
  { TcpServer.new timeoutS with
    threadnum := threadnum, mainloop := [listenfd], subloops := List.replicate threadnum.toNat []
    created := 0, threads := h
    size := by
      rw [List.length_replicate]
      exact Int.toNat_of_nonneg (by omega) }

/-- `Socket::accept`, given what `accept4` returns. -/
def accept (connfd : Int) : Int := connfd

/-- `TcpServer::newconnection` for the descriptor of `clientsock`. `room` says
whether the kernel has room for an entry; a descriptor that is none, or one that
is registered, is not added anyway. The two arguments of the `new Connection` are
evaluated with `fd()` before the move, an order that C++ leaves open. -/
def newconnection (s : LoopServer) (clientsock : Int) (room : Bool) : Except AcceptStop LoopServer :=
  match intRem clientsock s.threadnum with
  | .error f => .error (.fault f)
  | .ok i =>
    match s.subloops[toSize i]? with
    | none => .error .outOfBounds
    | some registered =>
      if clientsock < 0 ∨ clientsock ∈ registered ∨ room = false then .error .exit
      else
        match s.toTcpServer.newconnection ⟨s.created, clientsock⟩ with
        | .error f => .error (.fault f)
        | .ok tcp =>
          .ok { s with
            toTcpServer := tcp
            subloops := s.subloops.set (toSize i) (clientsock :: registered)
            created := s.created + 1
            size := by rw [List.length_set, s.size] }

/-- `Acceptor::newconnection`, when `accept4` returns `connfd`. -/
def acceptConnection (s : LoopServer) (connfd : Int) (room : Bool) : Except AcceptStop LoopServer :=
  s.newconnection (accept connfd) room

-- ---------------------------------------------------------------------------
-- The loop of a connection
-- ---------------------------------------------------------------------------

variable {s : LoopServer} {fd : Int}

theorem index_ok (s : LoopServer) (h0 : 0 ≤ fd) (h : fd < 2 ^ 31) :
    ∃ i, intRem fd s.threadnum = .ok i ∧ 0 ≤ i ∧ i < s.threadnum := by
  obtain ⟨hpos, -⟩ := s.threads
  exact ⟨fd % s.threadnum, intRem_ok h0 hpos h, Int.emod_nonneg _ (by omega), Int.emod_lt_of_pos _ (by omega)⟩

/-- The error value of `accept4` is taken for a descriptor. -/
theorem index_failed (s : LoopServer) :
    intRem (-1) s.threadnum = .ok (if s.threadnum = 1 then 0 else -1) := by
  obtain ⟨hpos, -⟩ := s.threads
  have hdiv : intDiv (-1) s.threadnum = .ok (-(1 / s.threadnum)) := intDiv_neg_ok (by decide) hpos (by decide)
  have hrem : (-1 : Int).tmod s.threadnum = if s.threadnum = 1 then 0 else -1 := by
    rw [Int.neg_tmod, Int.tmod_eq_emod_of_nonneg (by decide)]
    split
    · rename_i hone
      rw [hone]
      rfl
    · rw [Int.emod_eq_of_lt (by decide) (by omega)]
  rw [intRem, hdiv, ← hrem]
  rfl

theorem failed_accept (s : LoopServer) (room : Bool) :
    s.acceptConnection (-1) room = .error (if s.threadnum = 1 then .exit else .outOfBounds) := by
  obtain ⟨hpos, hfits⟩ := s.threads
  have hsize := s.size
  unfold acceptConnection newconnection accept
  rw [index_failed]
  by_cases hone : s.threadnum = 1
  · rw [if_pos hone, if_pos hone]
    have hone : 0 < s.subloops.length := by omega
    have hset : s.subloops[toSize 0]? = some s.subloops[0] := List.getElem?_eq_getElem hone
    simp only [hset]
    rw [if_pos (.inl (by decide))]
  · rw [if_neg hone, if_neg hone]
    have hpast : s.subloops[toSize (-1)]? = none :=
      List.getElem?_eq_none (Nat.le_of_lt (Nat.lt_of_lt_of_le
        (by omega : s.subloops.length < 2 ^ 31) (by decide)))
    simp only [hpast]

theorem in_range (h0 : 0 ≤ fd) (h : fd < 2 ^ 31) (room : Bool) :
    s.acceptConnection fd room ≠ .error .outOfBounds := by
  obtain ⟨i, hrem, hlow, hhigh⟩ := s.index_ok h0 h
  obtain ⟨-, hfits⟩ := s.threads
  have hsize := s.size
  have hcast : toSize i = i.toNat := by
    rw [toSize, Int.emod_eq_of_lt hlow (by omega)]
  have hlt : i.toNat < s.subloops.length := by omega
  unfold acceptConnection newconnection accept
  rw [hrem]
  simp only [hcast, List.getElem?_eq_getElem hlt]
  split
  · simp
  · split
    · simp
    · simp

theorem accepted (h0 : 0 ≤ fd) (h : fd < 2 ^ 31) (hfree : ∀ registered ∈ s.subloops, fd ∉ registered)
    (htcp : s.toTcpServer.newconnection ⟨s.created, fd⟩ = .ok tcp) :
    ∃ s', s.acceptConnection fd true = .ok s' ∧ s'.toTcpServer = tcp ∧ s'.created = s.created + 1 ∧
      s'.mainloop = s.mainloop ∧
      s'.subloops = s.subloops.modify (fd % s.threadnum).toNat fun registered => fd :: registered := by
  obtain ⟨hpos, hfits⟩ := s.threads
  have hsize := s.size
  have hrem : intRem fd s.threadnum = .ok (fd % s.threadnum) := intRem_ok h0 hpos h
  have hlow : 0 ≤ fd % s.threadnum := Int.emod_nonneg _ (by omega)
  have hhigh : fd % s.threadnum < s.threadnum := Int.emod_lt_of_pos _ (by omega)
  have hcast : toSize (fd % s.threadnum) = (fd % s.threadnum).toNat := by
    rw [toSize, Int.emod_eq_of_lt hlow (by omega)]
  have hlt : (fd % s.threadnum).toNat < s.subloops.length := by omega
  have hset : s.subloops[(fd % s.threadnum).toNat]? = some s.subloops[(fd % s.threadnum).toNat] :=
    List.getElem?_eq_getElem hlt
  have hadd : ¬(fd < 0 ∨ fd ∈ s.subloops[(fd % s.threadnum).toNat] ∨ true = false) := by
    refine not_or.mpr ⟨Int.not_lt.mpr h0, not_or.mpr ⟨hfree _ (List.getElem_mem hlt), by decide⟩⟩
  have hmodify : s.subloops.modify (fd % s.threadnum).toNat (fun registered => fd :: registered) =
      s.subloops.set (fd % s.threadnum).toNat (fd :: s.subloops[(fd % s.threadnum).toNat]) := by
    rw [List.modify_eq_set, hset]
    rfl
  unfold acceptConnection newconnection accept
  rw [hrem, hmodify]
  simp only [hcast, hset]
  rw [if_neg hadd]
  simp only [htcp]
  exact ⟨_, rfl, rfl, rfl, rfl, rfl⟩

-- ---------------------------------------------------------------------------
-- What a failed accept does
-- ---------------------------------------------------------------------------

/-- The index into `subloops_` is in range, and if `accept4` has failed nothing
has changed. -/
structure AcceptSafe (s : LoopServer) (connfd : Int) : Prop where
  index : ∃ i, intRem (accept connfd) s.threadnum = .ok i ∧ 0 ≤ i ∧ i < s.threadnum
  inRange : ∀ room, s.acceptConnection connfd room ≠ .error .outOfBounds
  unchanged : connfd = -1 → ∀ room, s.acceptConnection connfd room = .ok s

/-- Whatever `accept4` returns, all is well exactly if it has not failed. -/
theorem accept_safe_iff (s : LoopServer) (connfd : Int) (hlow : -1 ≤ connfd) (hhigh : connfd < 2 ^ 31) :
    s.AcceptSafe connfd ↔ 0 ≤ connfd := by
  constructor
  · intro hsafe
    by_contra hneg
    obtain rfl : connfd = -1 := by omega
    have hrun := hsafe.unchanged rfl true
    rw [failed_accept] at hrun
    cases hrun
  · exact fun h0 => ⟨index_ok s h0 hhigh, in_range h0 hhigh, fun hfailed => by omega⟩

/-- Three loops, a descriptor and none. -/
theorem accept_safe_iff_example :
    (new 360 3 4 (by decide)).AcceptSafe 7 ∧ ¬(new 360 3 4 (by decide)).AcceptSafe (-1) :=
  ⟨(accept_safe_iff _ 7 (by decide) (by decide)).mpr (by decide),
    mt (accept_safe_iff _ (-1) (by decide) (by decide)).mp (by decide)⟩

/-- Three loops and no descriptor left. -/
theorem failed_accept_unsafe : ¬∀ (s : LoopServer) (connfd : Int), -1 ≤ connfd → connfd < 2 ^ 31 →
    s.AcceptSafe connfd := by
  intro hall
  have hrun := (hall (new 360 3 4 (by decide)) (-1) (by decide) (by decide)).unchanged rfl true
  rw [failed_accept] at hrun
  cases hrun

end LoopServer

end MudouHttp
