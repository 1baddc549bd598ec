import Mathlib.Logic.Function.Basic
import MudouHttp.Cxx.Machine
import MudouHttp.Lib.Reach

/-!
# Channels and their epoll

`reactor/Channel.cpp` and `reactor/Epoll.cpp`. An entry of the kernel's tree has the
events asked for and a pointer to a Channel, here its number. `inepoll_` is never
reset: a Channel that has been removed goes on with `EPOLL_CTL_MOD`, on a descriptor
that may by then be another Channel's (`entries_exact`).
-/

namespace MudouHttp

open Function (update update_self update_of_ne update_idem)

def epollIn : UInt32 := 0x001
def epollPri : UInt32 := 0x002
def epollOut : UInt32 := 0x004
def epollErr : UInt32 := 0x008
def epollHup : UInt32 := 0x010
def epollRdhup : UInt32 := 0x2000

structure Channel where
  fd : Nat
  inepoll : Bool
  events : UInt32
  revents : UInt32
  deriving DecidableEq

inductive Handler
  | closecallback
  | readcallback
  | writecallback
  | errorcallback
  deriving DecidableEq

def Channel.handleevent (ch : Channel) : Handler :=
  if ch.revents &&& epollRdhup ≠ 0 then .closecallback
  else if ch.revents &&& (epollIn ||| epollPri) ≠ 0 then .readcallback
  else if ch.revents &&& epollOut ≠ 0 then .writecallback
  else .errorcallback

structure Entry where
  ptr : Nat
  events : UInt32
  deriving DecidableEq

/-- The tree of an epoll, and the channels by their numbers. The program does not keep
`removed`. -/
structure Epoll where
  tree : Nat → Option Entry
  channels : Nat → Channel
  removed : Nat → Bool

/-- `enabling` adds to the events asked for and `disabling` takes from them; every
change goes to `updatechannel`. -/
inductive ChannelCall
  | enablereading
  | disablereading
  | enablewriting
  | disablewriting
  | disableall
  | remove
  deriving DecidableEq

namespace Epoll

/-- `exit(-1)`, where `epoll_ctl` fails. -/
inductive Exit
  | exit
  deriving DecidableEq

def start (fd : Nat → Nat) : Epoll :=
  { tree := fun _ => none, removed := fun _ => false
    channels := fun i => { fd := fd i, inepoll := false, events := 0, revents := 0 } }

/-- `EPOLL_CTL_MOD` fails without an entry, `EPOLL_CTL_ADD` with one. -/
def updatechannel (s : Epoll) (i : Nat) : Except Exit Epoll :=
  let ch := s.channels i
  let tree := update s.tree ch.fd (some { ptr := i, events := ch.events })
  if ch.inepoll then
    if (s.tree ch.fd).isSome then .ok { s with tree := tree } else .error .exit
  else if (s.tree ch.fd).isSome then .error .exit
  else .ok { s with tree := tree, channels := update s.channels i { ch with inepoll := true } }

def removechannel (s : Epoll) (i : Nat) : Except Exit Epoll :=
  let ch := s.channels i
  if ch.inepoll then
    if (s.tree ch.fd).isSome then
      .ok { s with tree := update s.tree ch.fd none, removed := update s.removed i true }
    else .error .exit
  else .ok s

def setEvents (s : Epoll) (i : Nat) (events : UInt32) : Epoll :=
  { s with channels := update s.channels i { s.channels i with events := events } }

def enablereading (s : Epoll) (i : Nat) : Except Exit Epoll :=
  (s.setEvents i ((s.channels i).events ||| epollIn)).updatechannel i

def disablereading (s : Epoll) (i : Nat) : Except Exit Epoll :=
  (s.setEvents i ((s.channels i).events &&& ~~~epollIn)).updatechannel i

def enablewriting (s : Epoll) (i : Nat) : Except Exit Epoll :=
  (s.setEvents i ((s.channels i).events ||| epollOut)).updatechannel i

def disablewriting (s : Epoll) (i : Nat) : Except Exit Epoll :=
  (s.setEvents i ((s.channels i).events &&& ~~~epollOut)).updatechannel i

def disableall (s : Epoll) (i : Nat) : Except Exit Epoll := (s.setEvents i 0).updatechannel i

def remove (s : Epoll) (i : Nat) : Except Exit Epoll := do (← s.disableall i).removechannel i

def step (s : Epoll) : Nat × ChannelCall → Except Exit Epoll
  | (i, .enablereading) => s.enablereading i
  | (i, .disablereading) => s.disablereading i
  | (i, .enablewriting) => s.enablewriting i
  | (i, .disablewriting) => s.disablewriting i
  | (i, .disableall) => s.disableall i
  | (i, .remove) => s.remove i

/-- What `epoll_wait` returns of a descriptor: errors are reported unasked. -/
def reported (s : Epoll) (fd : Nat) (ready : UInt32) : UInt32 :=
  match s.tree fd with
  | none => 0
  | some entry => ready &&& (entry.events ||| epollErr ||| epollHup)

def setrevents (s : Epoll) (i : Nat) (revents : UInt32) : Epoll :=
  { s with channels := update s.channels i { s.channels i with revents := revents } }

-- ---------------------------------------------------------------------------
-- What a call does
-- ---------------------------------------------------------------------------

def asked (call : ChannelCall) (events : UInt32) : UInt32 :=
  match call with
  | .enablereading => events ||| epollIn
  | .disablereading => events &&& ~~~epollIn
  | .enablewriting => events ||| epollOut
  | .disablewriting => events &&& ~~~epollOut
  | .disableall => 0
  | .remove => 0

/-- The channel's entry with new events, in the place of whatever was there. -/
def entered (s : Epoll) (i : Nat) (events : UInt32) : Epoll :=
  { s with
    tree := update s.tree (s.channels i).fd (some { ptr := i, events := events })
    channels := update s.channels i { s.channels i with inepoll := true, events := events } }

def deleted (s : Epoll) (i : Nat) : Epoll :=
  { s with
    tree := update s.tree (s.channels i).fd none
    channels := update s.channels i { s.channels i with inepoll := true, events := 0 }
    removed := update s.removed i true }

def after (s : Epoll) (i : Nat) (call : ChannelCall) : Epoll :=
  if call = .remove then s.deleted i else s.entered i (asked call (s.channels i).events)

theorem update_ok {s : Epoll} (h : (s.channels i).inepoll = (s.tree (s.channels i).fd).isSome)
    (events : UInt32) : (s.setEvents i events).updatechannel i = .ok (s.entered i events) := by
  unfold updatechannel setEvents entered
  cases hin : (s.channels i).inepoll with
  | true => simp [hin, ← h]
  | false => simp [hin, ← h]

theorem update_exit {s : Epoll} (h : (s.channels i).inepoll ≠ (s.tree (s.channels i).fd).isSome)
    (events : UInt32) : (s.setEvents i events).updatechannel i = .error .exit := by
  unfold updatechannel setEvents
  cases hin : (s.channels i).inepoll with
  | true =>
    have hnone : (s.tree (s.channels i).fd).isSome = false :=
      Bool.eq_false_iff.mpr fun hsome => h (hin.trans hsome.symm)
    simp [hin, hnone]
  | false =>
    have hsome : (s.tree (s.channels i).fd).isSome = true :=
      Bool.ne_false_iff.mp fun hnone => h (hin.trans hnone.symm)
    simp [hin, hsome]

theorem remove_ok {s : Epoll} (h : (s.channels i).inepoll = (s.tree (s.channels i).fd).isSome) :
    s.remove i = .ok (s.deleted i) := by
  rw [remove, disableall, update_ok h, ok_bind]
  unfold removechannel entered deleted
  simp

/-- A call goes well exactly if the flag agrees with the tree. -/
theorem step_ok {s : Epoll} (h : (s.channels i).inepoll = (s.tree (s.channels i).fd).isSome)
    (call : ChannelCall) : s.step (i, call) = .ok (s.after i call) := by
  cases call with
  | remove => exact remove_ok h
  | enablereading => exact update_ok h _
  | disablereading => exact update_ok h _
  | enablewriting => exact update_ok h _
  | disablewriting => exact update_ok h _
  | disableall => exact update_ok h _

theorem step_exit {s : Epoll} (h : (s.channels i).inepoll ≠ (s.tree (s.channels i).fd).isSome)
    (call : ChannelCall) : s.step (i, call) = .error .exit := by
  cases call with
  | remove =>
    rw [step, remove, disableall, update_exit h]
    rfl
  | enablereading => exact update_exit h _
  | disablereading => exact update_exit h _
  | enablewriting => exact update_exit h _
  | disablewriting => exact update_exit h _
  | disableall => exact update_exit h _

-- ---------------------------------------------------------------------------
-- The entries of the tree
-- ---------------------------------------------------------------------------

structure Watched (s : Epoll) (i : Nat) : Prop where
  inepoll : (s.channels i).inepoll = true
  kept : s.removed i = false

/-- Every entry is that of a channel that is watched, with the events it asks for, and
every such channel has its entry. -/
structure Exact (s : Epoll) : Prop where
  entry : ∀ fd e, s.tree fd = some e →
    (s.channels e.ptr).fd = fd ∧ s.Watched e.ptr ∧ e.events = (s.channels e.ptr).events
  watched : ∀ i, s.Watched i → ∃ e, s.tree (s.channels i).fd = some e ∧ e.ptr = i
  removed : ∀ i, s.removed i = true → (s.channels i).inepoll = true

/-- The channel has not been removed, and if it is new its descriptor is no one else's. -/
def Meets (s : Epoll) (e : Nat × ChannelCall) : Prop :=
  s.removed e.1 = false ∧
    ((s.channels e.1).inepoll = false → s.tree (s.channels e.1).fd = none)

theorem start_exact (fd : Nat → Nat) : (start fd).Exact :=
  { entry := fun _ _ h => by cases h
    watched := fun _ h => by cases h.inepoll
    removed := fun _ h => by cases h }

theorem Exact.agrees {s : Epoll} (h : s.Exact) (hm : s.Meets (i, call)) :
    (s.channels i).inepoll = (s.tree (s.channels i).fd).isSome := by
  cases hin : (s.channels i).inepoll with
  | true =>
    obtain ⟨e, he, -⟩ := h.watched i ⟨hin, hm.1⟩
    rw [he]
    rfl
  | false =>
    rw [hm.2 hin]
    rfl

/-- No other watched channel has the descriptor. -/
theorem Exact.apart {s : Epoll} (h : s.Exact) (hm : s.Meets (i, call)) (hj : s.Watched j)
    (hne : j ≠ i) : (s.channels j).fd ≠ (s.channels i).fd := by
  intro hfd
  obtain ⟨e, he, hptr⟩ := h.watched j hj
  rw [hfd] at he
  cases hin : (s.channels i).inepoll with
  | true =>
    obtain ⟨e', he', hptr'⟩ := h.watched i ⟨hin, hm.1⟩
    cases he.symm.trans he'
    exact hne (hptr.symm.trans hptr')
  | false => cases (hm.2 hin).symm.trans he

structure Leaves (s s' : Epoll) (i : Nat) : Prop where
  fd : (s'.channels i).fd = (s.channels i).fd
  channels : ∀ j ≠ i, s'.channels j = s.channels j
  removed : ∀ j ≠ i, s'.removed j = s.removed j
  tree : ∀ fd ≠ (s.channels i).fd, s'.tree fd = s.tree fd

theorem after_leaves (s : Epoll) (i : Nat) (call : ChannelCall) : s.Leaves (s.after i call) i := by
  unfold after
  split
  · exact ⟨by simp [deleted], fun j hj => update_of_ne hj .., fun j hj => update_of_ne hj ..,
      fun fd hfd => update_of_ne hfd ..⟩
  · exact ⟨by simp [entered], fun j hj => update_of_ne hj .., fun _ _ => rfl,
      fun fd hfd => update_of_ne hfd ..⟩

theorem Leaves.watched {s s' : Epoll} (h : s.Leaves s' i) (hne : j ≠ i) : s'.Watched j ↔ s.Watched j := by
  constructor
  · rintro ⟨hin, hkept⟩
    exact ⟨h.channels j hne ▸ hin, h.removed j hne ▸ hkept⟩
  · rintro ⟨hin, hkept⟩
    exact ⟨(h.channels j hne).symm ▸ hin, (h.removed j hne).symm ▸ hkept⟩

theorem Exact.leaves {s s' : Epoll} (h : s.Exact) (hm : s.Meets (i, call)) (hl : s.Leaves s' i)
    (hentry : ∀ e, s'.tree (s.channels i).fd = some e →
      e.ptr = i ∧ s'.Watched i ∧ e.events = (s'.channels i).events)
    (hwatched : s'.Watched i → ∃ e, s'.tree (s.channels i).fd = some e ∧ e.ptr = i)
    (hremoved : s'.removed i = true → (s'.channels i).inepoll = true) : s'.Exact := by
  refine ⟨fun fd e he => ?_, fun j hj => ?_, fun j hj => ?_⟩
  · by_cases hfd : fd = (s.channels i).fd
    · subst hfd
      obtain ⟨rfl, hw, hevents⟩ := hentry e he
      exact ⟨hl.fd, hw, hevents⟩
    · rw [hl.tree fd hfd] at he
      obtain ⟨hptr, hw, hevents⟩ := h.entry fd e he
      have hne : e.ptr ≠ i := fun heq => hfd (heq ▸ hptr.symm)
      rw [hl.channels _ hne]
      exact ⟨hptr, (hl.watched hne).mpr hw, hevents⟩
  · by_cases hji : j = i
    · subst hji
      rw [hl.fd]
      exact hwatched hj
    · have hj' := (hl.watched hji).mp hj
      rw [hl.channels j hji, hl.tree _ (h.apart hm hj' hji)]
      exact h.watched j hj'
  · by_cases hji : j = i
    · subst hji
      exact hremoved hj
    · rw [hl.removed j hji] at hj
      rw [hl.channels j hji]
      exact h.removed j hj

theorem Exact.after {s : Epoll} (h : s.Exact) (hm : s.Meets (i, call)) : (s.after i call).Exact := by
  refine h.leaves hm (after_leaves s i call) ?_ ?_ ?_
  · intro e he
    unfold Epoll.after at he ⊢
    split at he
    · simp [deleted] at he
    · rename_i hcall
      rw [if_neg hcall]
      simp only [Epoll.entered, update_self, Option.some.injEq] at he
      subst he
      exact ⟨rfl, ⟨by simp [Epoll.entered], hm.1⟩, by simp [Epoll.entered]⟩
  · intro hw
    unfold Epoll.after at hw ⊢
    split at hw
    · have hgone := hw.kept
      simp [deleted] at hgone
    · rename_i hcall
      rw [if_neg hcall]
      exact ⟨_, update_self .., rfl⟩
  · intro _
    unfold Epoll.after
    split <;> simp [deleted, Epoll.entered]

theorem step_exact : Lib.Preserves step Meets Exact := by
  intro s e s' h hm hs
  obtain ⟨i, call⟩ := e
  cases (step_ok (h.agrees hm) call).symm.trans hs
  exact h.after hm

/-- In every run in which no channel is used after its removal: the tree has an entry
for each channel that has been put in and not removed, and no other. Such a use ends the
server, or takes the entry of another channel that has the descriptor by now: it is
overwritten or deleted. -/
theorem entries_exact (h : Lib.Reach step Meets (start fds) s) :
    (∀ fd e, s.tree fd = some e ↔
      s.Watched e.ptr ∧ (s.channels e.ptr).fd = fd ∧ (s.channels e.ptr).events = e.events) ∧
    (∀ i call, s.Meets (i, call) → ∃ s', s.step (i, call) = .ok s') ∧
    ∀ i call, s.removed i = true →
      (s.tree (s.channels i).fd = none ∧ s.step (i, call) = .error .exit) ∨
      ∃ e s', s.tree (s.channels i).fd = some e ∧ e.ptr ≠ i ∧ s.step (i, call) = .ok s' ∧
        s'.Watched e.ptr ∧ s'.tree (s.channels i).fd = if call = .remove then none
          else some { ptr := i, events := asked call (s.channels i).events } := by
  have hexact := h.invariant step_exact (start_exact fds)
  refine ⟨fun fd e => ⟨fun he => ?_, fun ⟨hw, hfd, hevents⟩ => ?_⟩, fun i call hm => ?_,
    fun i call hgone => ?_⟩
  · obtain ⟨hfd, hw, hevents⟩ := hexact.entry fd e he
    exact ⟨hw, hfd, hevents.symm⟩
  · obtain ⟨e', he', hptr⟩ := hexact.watched e.ptr hw
    obtain ⟨-, -, hevents'⟩ := hexact.entry _ e' he'
    have heq : e' = e := by
      cases e
      cases e'
      simp_all
    rw [← hfd, he', heq]
  · exact ⟨_, step_ok (hexact.agrees hm) call⟩
  · have hin := hexact.removed i hgone
    cases htree : s.tree (s.channels i).fd with
    | none => exact .inl ⟨rfl, step_exit (by rw [hin, htree]; decide) call⟩
    | some e =>
      obtain ⟨hfd, hw, -⟩ := hexact.entry _ e htree
      have hne : e.ptr ≠ i := by
        rintro rfl
        exact Bool.false_ne_true (hw.kept.symm.trans hgone)
      refine .inr ⟨e, s.after i call, rfl, hne, step_ok (by rw [hin, htree]; rfl) call,
        ((after_leaves s i call).watched hne).mpr hw, ?_⟩
      unfold Epoll.after
      split
      · exact update_self ..
      · exact update_self ..

/-- A channel is used after its removal, when its descriptor has been given to another. -/
theorem entries_exact_example : ∃ s s', Lib.Reach step Meets (start fun _ => 7) s ∧
    s.step (0, .enablewriting) = .ok s' ∧ s'.Watched 1 ∧
    s'.tree 7 = some { ptr := 0, events := epollOut } := by
  have hrun : ∃ s, Lib.runs step (start fun _ => 7)
      [(0, .enablereading), (0, .remove), (1, .enablereading)] = .ok s ∧ s.removed 0 = true ∧
      (s.channels 0).fd = 7 ∧ (s.channels 0).events = 0 ∧ s.tree 7 = some { ptr := 1, events := epollIn } :=
    ⟨_, rfl, rfl, rfl, rfl, rfl⟩
  obtain ⟨s, hs, hgone, hfd, hevents, htree⟩ := hrun
  have hm : Lib.AllMeet step Meets (start fun _ => 7)
      [(0, .enablereading), (0, .remove), (1, .enablereading)] :=
    ⟨⟨rfl, fun _ => rfl⟩, ⟨rfl, fun hin => by cases hin⟩, ⟨rfl, fun _ => rfl⟩, trivial⟩
  have hreach := Lib.Reach.start.runs _ hm hs
  obtain ⟨-, -, huse⟩ := entries_exact hreach
  rcases huse 0 .enablewriting hgone with ⟨hnone, -⟩ | ⟨e, s', he, -, hstep, hw, hentry⟩
  · rw [hfd, htree] at hnone
    cases hnone
  · rw [hfd, htree] at he
    cases he
    rw [hfd, hevents] at hentry
    exact ⟨s, s', hreach, hstep, hw, hentry⟩

end Epoll

end MudouHttp
