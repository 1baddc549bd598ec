import Mathlib.Data.Set.Defs
import MudouHttp.Lib.Refine
import MudouHttp.Timer.WheelLaws

/-!
# A TimeWheel is a map of countdowns

`Countdowns` is what the wheel is for: each registered descriptor counts its
remaining ticks down and expires on the tick that finds it at zero. The wheel
splits the count into a slot relative to `currentSlot` and a rotation;
`refines_countdowns` is the simulation over any sequence of operations whose
slot computation stays within `int`.
-/

namespace MudouHttp

open Function (update update_self update_of_ne)

inductive WheelOp
  | addConnection (conn : Conn) (timeout : Int32)
  | updateConnection (conn : Conn)
  | removeConnection (conn : Conn)
  | tick (expired : Conn → Bool)

/-- The wheel after an operation, and the connections a tick goes on to close. -/
def TimeWheel.apply (w : TimeWheel) : WheelOp → Except Fault (TimeWheel × Set Conn)
  | .addConnection conn timeout => do pure (← w.addConnection conn timeout, {_c | False})
  | .updateConnection conn => do pure (← w.updateConnection conn, {_c | False})
  | .removeConnection conn => do pure (← w.removeConnection conn, {_c | False})
  | .tick expired => do
    let (w, weakConns) ← w.tick expired
    pure (w, {c | c ∈ weakConns})

/-- How many ticks have passed, and for each registered descriptor how many
are left and for whom. -/
structure Countdowns where
  ticks : Nat
  left : Int → Option (Nat × Conn)

namespace Countdowns

def empty : Countdowns := { ticks := 0, left := fun _ => none }

def countDown : Nat × Conn → Option (Nat × Conn)
  | (0, _) => none
  | (n + 1, conn) => some (n, conn)

def apply (interval : Int) (a : Countdowns) : WheelOp → Countdowns × Set Conn
  | .addConnection conn timeout =>
    ({ a with left := update a.left conn.fd (some ((timeout.toInt / interval).toNat, conn)) },
      {_c | False})
  | .updateConnection conn =>
    (if (a.left conn.fd).isSome then
      { a with left := update a.left conn.fd (some ((360 / interval).toNat, conn)) } else a,
      {_c | False})
  | .removeConnection conn => ({ a with left := update a.left conn.fd none }, {_c | False})
  | .tick expired =>
    ({ ticks := a.ticks + 1, left := fun fd => (a.left fd).bind countDown },
      {c | a.left c.fd = some (0, c) ∧ expired c = false})

def Requested (a : Countdowns) : WheelOp → Prop
  | .addConnection conn timeout => 0 ≤ timeout.toInt ∧ a.left conn.fd = none
  | _ => True

def SlotFits (interval slots : Int) (a : Countdowns) (timeout : Int) : Prop :=
  a.ticks % slots + timeout / interval % slots < 2 ^ 31

def Places (interval slots : Int) (a : Countdowns) : WheelOp → Prop
  | .addConnection _ timeout => SlotFits interval slots a timeout.toInt
  | .updateConnection conn => (a.left conn.fd).isSome → SlotFits interval slots a 360
  | _ => True

def Admits (interval slots : Int) (a : Countdowns) (op : WheelOp) : Prop :=
  a.Requested op ∧ a.Places interval slots op

/-- A wheel of at most `2 ^ 30` slots never leaves `int`. -/
theorem places_of_slots (hs : 1 ≤ slots) (hmax : slots ≤ 2 ^ 30) (a : Countdowns) (op : WheelOp) :
    a.Places interval slots op := by
  have hfits : ∀ timeout, SlotFits interval slots a timeout := by
    intro timeout
    have h1 := Int.emod_lt_of_pos (a.ticks : Int) (show 0 < slots by omega)
    have h2 := Int.emod_lt_of_pos (timeout / interval) (show 0 < slots by omega)
    unfold SlotFits
    omega
  cases op with
  | addConnection conn timeout => exact hfits _
  | updateConnection conn => exact fun _ => hfits _
  | removeConnection conn => trivial
  | tick expired => trivial

-- ---------------------------------------------------------------------------
-- One countdown over a run
-- ---------------------------------------------------------------------------

def touches (fd : Int) : WheelOp → Bool
  | .addConnection conn _ => conn.fd = fd
  | .updateConnection conn => conn.fd = fd
  | .removeConnection conn => conn.fd = fd
  | .tick _ => false

def tickCount : List WheelOp → Nat
  | [] => 0
  | .tick _ :: ops => tickCount ops + 1
  | _ :: ops => tickCount ops

def expected (k n : Nat) (conn : Conn) : Option (Nat × Conn) :=
  if n ≤ k then some (k - n, conn) else none

theorem expected_tick (k n : Nat) (conn : Conn) :
    (expected k n conn).bind countDown = expected k (n + 1) conn := by
  unfold expected
  rcases Nat.lt_trichotomy n k with hlt | rfl | hgt
  · have hk : k - n = (k - (n + 1)) + 1 := by omega
    rw [if_pos (Nat.le_of_lt hlt), if_pos (show n + 1 ≤ k from hlt), hk]
    rfl
  · rw [if_pos (Nat.le_refl n), if_neg (Nat.not_succ_le_self n), Nat.sub_self]
    rfl
  · rw [if_neg (by omega), if_neg (by omega)]
    rfl

/-- Whatever is done to other descriptors, only ticks count. -/
theorem run_untouched (interval : Int) (ops : List WheelOp) {a : Countdowns}
    (hops : ∀ op ∈ ops, touches fd op = false) (ha : a.left fd = expected k n conn) :
    (Lib.runSpec (apply interval) a ops).1.left fd = expected k (n + tickCount ops) conn := by
  induction ops generalizing a n with
  | nil => exact ha
  | cons op ops ih =>
    obtain ⟨hop, hrest⟩ := List.forall_mem_cons.mp hops
    have hother : ∀ c : Conn, decide (c.fd = fd) = false → fd ≠ c.fd := by
      rintro c hc rfl
      simp at hc
    cases op with
    | addConnection c timeout =>
      exact ih hrest ((update_of_ne (hother c hop) ..).trans ha)
    | updateConnection c =>
      have hnext : (apply interval a (.updateConnection c)).1.left fd = expected k n conn := by
        simp only [apply]
        split
        · exact (update_of_ne (hother c hop) ..).trans ha
        · exact ha
      exact ih hrest hnext
    | removeConnection c => exact ih hrest ((update_of_ne (hother c hop) ..).trans ha)
    | tick expired =>
      have hnext : (apply interval a (.tick expired)).1.left fd = expected k (n + 1) conn := by
        show (a.left fd).bind countDown = _
        rw [ha, expected_tick]
      refine (ih hrest hnext).trans ?_
      rw [tickCount, Nat.add_right_comm, Nat.add_assoc]

theorem expected_zero : expected k n conn = some (0, conn) ↔ n = k := by
  unfold expected
  split
  · rename_i hle
    simp only [Option.some.injEq, Prod.mk.injEq, and_true]
    omega
  · rename_i hgt
    constructor
    · rintro ⟨⟩
    · rintro rfl
      exact absurd (Nat.le_refl n) hgt

theorem run_tick (interval : Int) (ops : List WheelOp) (expired : Conn → Bool) :
    (Lib.runSpec (apply interval) a (ops ++ [.tick expired])).2.getLast? =
      some {c | (Lib.runSpec (apply interval) a ops).1.left c.fd = some (0, c) ∧
        expired c = false} := Lib.runSpec_last ..

end Countdowns

namespace TimeWheel

structure Tracks (interval slots : Int) (w : TimeWheel) (a : Countdowns) : Prop where
  linked : Linked w
  interval_eq : w.slotInterval = interval
  slots_eq : w.slots = slots
  current : w.currentSlot = a.ticks % slots
  placed : ∀ fd node, w.lookup fd = some node →
    0 ≤ node.slot ∧ node.slot < slots ∧ 0 ≤ node.rotation ∧ node.conn.fd = fd
  left : ∀ fd, a.left fd = (w.lookup fd).map fun node => (w.left node, node.conn)

variable {interval slots : Int} {w : TimeWheel} {a : Countdowns}

theorem Tracks.entry_none (h : Tracks interval slots w a) :
    a.left fd = none ↔ w.timerMap fd = none := by
  rw [h.left, Option.map_eq_none_iff]
  exact h.linked.lookup_none

theorem Tracks.entry_some (h : Tracks interval slots w a) (hm : w.timerMap fd = some it) :
    (a.left fd).isSome := by
  obtain ⟨node, hn, rfl⟩ := h.linked.entry fd it hm
  rw [h.left, h.linked.lookup hn]
  rfl

/-- The slot and the rotation of a new node stand for its ticks. -/
theorem left_placed (cur ticks slots : Int) :
    ((cur + ticks % slots) % slots - cur) % slots + ticks / slots * slots = ticks := by
  have hcancel : cur + ticks % slots - cur = ticks % slots := by omega
  rw [Int.emod_sub_emod, hcancel, Int.emod_emod]
  exact Int.emod_add_ediv_mul ticks slots

theorem sub_one_emod (hs : 1 ≤ slots) (x : Int) :
    (x - 1) % slots = if x % slots = 0 then slots - 1 else x % slots - 1 := by
  have h0 := Int.emod_nonneg x (show slots ≠ 0 by omega)
  have h1 := Int.emod_lt_of_pos x (show 0 < slots by omega)
  rw [← Int.emod_sub_emod]
  split
  · rename_i hz
    rw [hz, ← Int.add_emod_right, Int.emod_eq_of_lt (by omega) (by omega)]
    omega
  · exact Int.emod_eq_of_lt (by omega) (by omega)

theorem sub_emod_eq_zero {slot cur : Int} (h0 : 0 ≤ slot) (h1 : slot < slots) (hc0 : 0 ≤ cur)
    (hc1 : cur < slots) : (slot - cur) % slots = 0 ↔ slot = cur := by
  constructor
  · intro hz
    rcases Int.le_total cur slot with hle | hle
    · rw [Int.emod_eq_of_lt (by omega) (by omega)] at hz
      omega
    · rw [← Int.add_emod_right] at hz
      rcases Int.lt_or_eq_of_le hle with hlt | rfl
      · rw [Int.emod_eq_of_lt (by omega) (by omega)] at hz
        omega
      · rfl
  · rintro rfl
    rw [Int.sub_self, Int.zero_emod]

/-- What a node has left before a tick decides what becomes of it. -/
theorem left_afterTick (w' : TimeWheel) (hs : 1 ≤ w.slots) (hc0 : 0 ≤ w.currentSlot)
    (hc1 : w.currentSlot < w.slots) (h0 : 0 ≤ node.slot) (h1 : node.slot < w.slots)
    (hrot : 0 ≤ node.rotation) (hslots : w'.slots = w.slots)
    (hcur : w'.currentSlot = (w.currentSlot + 1) % w.slots) :
    (w.left node = 0 ↔ node.slot = w.currentSlot ∧ ¬node.rotation > 0) ∧
      (afterTick w.currentSlot node).map (fun older => (w'.left older, older.conn)) =
        Countdowns.countDown (w.left node, node.conn) := by
  have hmod0 := Int.emod_nonneg (node.slot - w.currentSlot) (show w.slots ≠ 0 by omega)
  have hzero := sub_emod_eq_zero h0 h1 hc0 hc1
  have hturn : (node.slot - (w.currentSlot + 1) % w.slots) % w.slots =
      if node.slot = w.currentSlot then w.slots - 1
      else (node.slot - w.currentSlot) % w.slots - 1 := by
    have hassoc : node.slot - (w.currentSlot + 1) = node.slot - w.currentSlot - 1 := by omega
    rw [Int.sub_emod_emod, hassoc, sub_one_emod hs]
    simp only [hzero]
  have hfull : 0 < node.rotation → w.slots ≤ node.rotation * w.slots := by
    intro h
    simpa using Int.mul_le_mul_of_nonneg_right (show 1 ≤ node.rotation from h)
      (show 0 ≤ w.slots by omega)
  have hleft : w.left node =
      ((node.slot - w.currentSlot) % w.slots + node.rotation * w.slots).toNat := rfl
  have hmul0 : 0 ≤ node.rotation * w.slots := Int.mul_nonneg hrot (by omega)
  have hiff : w.left node = 0 ↔ node.slot = w.currentSlot ∧ ¬node.rotation > 0 := by
    rw [← hzero]
    constructor
    · intro hz
      refine ⟨by omega, fun hpos => ?_⟩
      have := hfull hpos
      omega
    · rintro ⟨hz, hpos⟩
      have hr : node.rotation = 0 := by omega
      rw [hleft, hz, hr, Int.zero_mul]
      rfl
  refine ⟨hiff, ?_⟩
  have hnext : ∀ older, older.slot = node.slot → w'.left older =
      ((if node.slot = w.currentSlot then w.slots - 1
        else (node.slot - w.currentSlot) % w.slots - 1) + older.rotation * w.slots).toNat := by
    intro older hslot
    rw [TimeWheel.left, hslots, hcur, hslot, hturn]
  cases hl : w.left node with
  | zero =>
    obtain ⟨hslot, hr⟩ := hiff.mp hl
    rw [afterTick, if_pos hslot, aged, if_neg hr]
    rfl
  | succ k =>
    have hsome : ∀ older, older.slot = node.slot → older.conn = node.conn → w'.left older = k →
        (some older).map (fun older => (w'.left older, older.conn)) =
          Countdowns.countDown (k + 1, node.conn) := by
      intro older _ hconn hk
      rw [Option.map_some, hk, hconn]
      rfl
    by_cases hslot : node.slot = w.currentSlot
    · have hr : node.rotation > 0 := by
        refine Classical.byContradiction fun hr => ?_
        rw [hiff.mpr ⟨hslot, hr⟩] at hl
        cases hl
      rw [afterTick, if_pos hslot, aged, if_pos hr]
      refine hsome _ rfl rfl ?_
      rw [hnext { node with rotation := node.rotation - 1 } rfl, if_pos hslot, Int.sub_mul,
        Int.one_mul]
      have := hfull hr
      rw [hleft, hzero.mpr hslot] at hl
      omega
    · rw [afterTick, if_neg hslot]
      refine hsome _ rfl rfl ?_
      rw [hnext node rfl, if_neg hslot]
      have := mt hzero.mp hslot
      omega

section
variable (hi : 1 ≤ interval) (hs : 1 ≤ slots) (hmax : slots < 2 ^ 31)
include hi hs hmax

theorem addConnectionUnsafe_ok (h : Tracks interval slots w a) (conn : Conn)
    (hnone : a.left conn.fd = none) (h0 : 0 ≤ timeout) (htimeout : timeout < 2 ^ 31)
    (hfits : a.SlotFits interval slots timeout) :
    ∃ w', w.addConnectionUnsafe conn timeout = .ok w' ∧ Tracks interval slots w'
      { a with left := update a.left conn.fd (some ((timeout / interval).toNat, conn)) } := by
  have hcur0 : 0 ≤ w.currentSlot := h.current ▸ Int.emod_nonneg _ (by omega)
  have hk0 : 0 ≤ timeout / interval := Int.ediv_nonneg h0 (by omega)
  have hk1 : timeout / interval ≤ timeout := Int.ediv_le_self _ h0
  have hm0 : 0 ≤ timeout / interval % slots := Int.emod_nonneg _ (by omega)
  have hsum : w.currentSlot + timeout / interval % slots < 2 ^ 31 := h.current ▸ hfits
  have hslot0 : 0 ≤ (w.currentSlot + timeout / interval % slots) % slots :=
    Int.emod_nonneg _ (by omega)
  have hslot1 : (w.currentSlot + timeout / interval % slots) % slots < slots :=
    Int.emod_lt_of_pos _ (by omega)
  let node : TimerNode :=
    { fd := conn.fd, rotation := timeout / interval / slots
      slot := (w.currentSlot + timeout / interval % slots) % slots, conn := conn }
  obtain ⟨w', hins, hlinked, hlook, hint, hslots, hcur⟩ :=
    insert_ok h.linked node (h.entry_none.mp hnone) hslot0 (h.slots_eq ▸ hslot1)
  refine ⟨w', ?_, hlinked, hint.trans h.interval_eq, hslots.trans h.slots_eq, hcur.trans h.current,
    ?_, ?_⟩
  · simp only [addConnectionUnsafe, h.interval_eq, h.slots_eq, intDiv_ok h0 hi htimeout,
      intDiv_ok hk0 hs (by omega : timeout / interval < 2 ^ 31),
      intRem_ok hk0 hs (by omega : timeout / interval < 2 ^ 31),
      intAdd_ok hcur0 hm0 hsum, intRem_ok (Int.add_nonneg hcur0 hm0) hs hsum, bind, Except.bind]
    exact hins
  · intro fd n hn
    rw [hlook] at hn
    rcases update_some_eq.mp hn with ⟨rfl, rfl⟩ | ⟨-, hn⟩
    · exact ⟨hslot0, hslot1, Int.ediv_nonneg hk0 (by omega), rfl⟩
    · exact h.placed fd n hn
  · intro fd
    have hleft : ∀ n, w'.left n = w.left n := by
      intro n
      rw [TimeWheel.left, TimeWheel.left, hcur, hslots]
    have hnew : w.left node = (timeout / interval).toNat := by
      rw [TimeWheel.left, h.slots_eq, left_placed]
    simp only [hlook, hleft]
    by_cases hfd : fd = conn.fd
    · subst hfd
      rw [update_self, show update w.lookup node.fd (some node) conn.fd = some node from update_self ..,
        Option.map_some, hnew]
    · rw [update_of_ne hfd, update_of_ne (show fd ≠ node.fd from hfd)]
      exact h.left fd

omit hi hs hmax in
theorem erased_ok (h : Tracks interval slots w a) (hm : w.timerMap fd = some it) :
    ∃ w', w.erase fd it = .ok w' ∧
      Tracks interval slots w' { a with left := update a.left fd none } := by
  obtain ⟨w', her, hlinked, hlook, hint, hslots, hcur⟩ := erase_ok h.linked hm (by
    intro node hn
    obtain ⟨h0, h1, -⟩ := h.placed fd node hn
    exact ⟨h0, h.slots_eq ▸ h1⟩)
  refine ⟨w', her, hlinked, hint.trans h.interval_eq, hslots.trans h.slots_eq, hcur.trans h.current,
    ?_, ?_⟩
  · intro fd' n hn
    rw [hlook] at hn
    exact h.placed fd' n (update_none_eq.mp hn).2
  · intro fd'
    have hleft : ∀ n, w'.left n = w.left n := by
      intro n
      rw [TimeWheel.left, TimeWheel.left, hcur, hslots]
    simp only [hlook, hleft]
    by_cases hfd : fd' = fd
    · subst hfd
      rw [update_self, update_self, Option.map_none]
    · rw [update_of_ne hfd, update_of_ne hfd]
      exact h.left fd'

omit hi in
theorem tick_ok (h : Tracks interval slots w a) (expired : Conn → Bool) :
    ∃ w' weakConns, w.tick expired = .ok (w', weakConns) ∧
      Tracks interval slots w' (a.apply interval (.tick expired)).1 ∧
      ∀ c, c ∈ weakConns ↔ a.left c.fd = some (0, c) ∧ expired c = false := by
  have hcur0 : 0 ≤ w.currentSlot := h.current ▸ Int.emod_nonneg _ (by omega)
  have hcur1 : w.currentSlot < slots := h.current ▸ Int.emod_lt_of_pos _ (by omega)
  obtain ⟨w', kept, weakConns, hloop, hswept⟩ :=
    tickLoop_ok expired (w.wheel w.currentSlot) (h.linked.once _) (fun it hit => by
      obtain ⟨node, hn, -⟩ := h.linked.listed _ it hit
      exact ⟨node, hn⟩)
  obtain ⟨-, -, hint, hslots, -⟩ := hswept.frame
  have hlinked := hswept.linked h.linked ((w.currentSlot + 1) % slots)
  have hlook := hswept.lookup_eq h.linked
  have htick : w.tick expired = .ok ({ w' with
      wheel := update w'.wheel w.currentSlot kept
      currentSlot := (w.currentSlot + 1) % slots }, weakConns) := by
    simp only [tick, hcur0, h.slots_eq, hcur1, and_self, if_true, hloop,
      intAdd_ok hcur0 (by decide : (0 : Int) ≤ 1) (by omega : w.currentSlot + 1 < 2 ^ 31),
      intRem_ok (by omega : 0 ≤ w.currentSlot + 1) hs (by omega : w.currentSlot + 1 < 2 ^ 31),
      bind, Except.bind, pure, Except.pure]
  have hnode : ∀ fd node, w.lookup fd = some node → _ := fun fd node hn =>
    left_afterTick { w' with
        wheel := update w'.wheel w.currentSlot kept, currentSlot := (w.currentSlot + 1) % slots }
      (h.slots_eq ▸ hs) hcur0 (h.slots_eq ▸ hcur1) (h.placed fd node hn).1
      (h.slots_eq ▸ (h.placed fd node hn).2.1) (h.placed fd node hn).2.2.1 hslots
      (by rw [h.slots_eq])
  refine ⟨_, weakConns, htick, ⟨hlinked, hint.trans h.interval_eq, hslots.trans h.slots_eq, ?_, ?_,
    ?_⟩, ?_⟩
  · show (w.currentSlot + 1) % slots = ((a.ticks + 1 : Nat) : Int) % slots
    rw [h.current, Int.emod_add_emod]
    rfl
  · intro fd older holder
    obtain ⟨node, hn, hafter⟩ := Option.bind_eq_some_iff.mp ((hlook fd).symm.trans holder)
    obtain ⟨h0, h1, hr, hfd⟩ := h.placed fd node hn
    unfold afterTick at hafter
    split at hafter
    · obtain ⟨-, hslot, hconn, hrot, hpos⟩ := aged_some hafter
      exact ⟨hslot ▸ h0, hslot ▸ h1, by omega, hconn ▸ hfd⟩
    · cases hafter
      exact ⟨h0, h1, hr, hfd⟩
  · intro fd
    show (a.left fd).bind Countdowns.countDown = (w'.lookup fd).map _
    rw [hlook, h.left]
    cases hl : w.lookup fd with
    | none => rfl
    | some node => exact (hnode fd node hl).2.symm
  · intro c
    rw [hswept.weak]
    constructor
    · rintro ⟨it, hit, node, hn, hrot, rfl, hexp⟩
      obtain ⟨node', hn', hslot⟩ := h.linked.listed _ it hit
      cases hn.symm.trans hn'
      have hl := h.linked.lookup hn
      obtain ⟨-, -, -, hfd⟩ := h.placed _ node hl
      refine ⟨?_, hexp⟩
      rw [h.left, hfd, hl, Option.map_some, (hnode _ node hl).1.mpr ⟨hslot, hrot⟩]
    · rintro ⟨hleft, hexp⟩
      rw [h.left] at hleft
      obtain ⟨node, hl, hnc⟩ := Option.map_eq_some_iff.mp hleft
      obtain ⟨hz, hc⟩ := Prod.mk.inj hnc
      obtain ⟨hslot, hrot⟩ := (hnode _ node hl).1.mp hz
      obtain ⟨it, -, hn, -⟩ := h.linked.of_lookup hl
      exact ⟨it, hslot ▸ (h.linked.held it node hn).2, node, hn, hrot, hc, hexp⟩

theorem apply_simulates : Lib.Simulation apply (Countdowns.apply interval)
    (Countdowns.Admits interval slots) (Tracks interval slots) := by
  rintro w a op h ⟨hreq, hplaces⟩
  cases op with
  | addConnection conn timeout =>
    obtain ⟨h0, hnone⟩ := hreq
    obtain ⟨w', hadd, ht⟩ := addConnectionUnsafe_ok hi hs hmax h conn hnone h0
      (Int32.toInt_lt timeout) hplaces
    exact ⟨w', by simp only [apply, addConnection, hadd, bind, Except.bind, pure, Except.pure,
      Countdowns.apply], ht⟩
  | updateConnection conn =>
    cases hm : w.timerMap conn.fd with
    | none =>
      have hl := h.entry_none.mpr hm
      refine ⟨w, ?_, ?_⟩
      · simp only [apply, updateConnection, hm, bind, Except.bind, pure, Except.pure, Countdowns.apply]
      · simpa [Countdowns.apply, hl] using h
    | some it =>
      have hl := h.entry_some hm
      obtain ⟨w₁, her, ht₁⟩ := erased_ok h hm
      obtain ⟨w', hadd, ht⟩ := addConnectionUnsafe_ok hi hs hmax ht₁ conn (update_self ..)
        (by decide) (by decide) (hplaces hl)
      refine ⟨w', ?_, ?_⟩
      · simp only [apply, updateConnection, hm, her, hadd, bind, Except.bind, pure, Except.pure,
          Countdowns.apply]
      · simpa [Countdowns.apply, hl] using ht
  | removeConnection conn =>
    cases hm : w.timerMap conn.fd with
    | none =>
      have hl := h.entry_none.mpr hm
      refine ⟨w, ?_, ?_⟩
      · simp only [apply, removeConnection, removeConnectionUnsafe, hm, bind, Except.bind, pure,
          Except.pure, Countdowns.apply]
      · simpa [Countdowns.apply, ← hl] using h
    | some it =>
      obtain ⟨w', her, ht⟩ := erased_ok h hm
      exact ⟨w', by simp only [apply, removeConnection, removeConnectionUnsafe, hm, her, bind,
        Except.bind, pure, Except.pure, Countdowns.apply], ht⟩
  | tick expired =>
    obtain ⟨w', weakConns, htick, ht, hweak⟩ := tick_ok hs hmax h expired
    refine ⟨w', ?_, ht⟩
    simp only [apply, htick, hweak, bind, Except.bind, pure, Except.pure, Countdowns.apply]

end

theorem new_tracks (interval slots : Int32) :
    Tracks interval.toInt slots.toInt (new interval slots) .empty := by
  refine ⟨⟨?_, ?_, ?_, ?_, ?_⟩, rfl, rfl, (Int.zero_emod _).symm, ?_, fun _ => rfl⟩
  · rintro fd it ⟨⟩
  · rintro it node ⟨⟩
  · rintro slot it ⟨⟩
  · exact fun _ => List.nodup_nil
  · rintro it node ⟨⟩
  · rintro fd node ⟨⟩

/-- A wheel of any size and any sequence of operations its callers may make,
as long as the slot computation stays within `int`: no fault, the connections
each tick closes are those whose countdown is at zero, `timer_map_` and the
nodes correspond, and the counts are those of the map. A connection that is
not touched again after it is added for `k` ticks is closed by the tick that
follows `k` others and by no other. -/
theorem refines_countdowns (interval slots : Int32) (hi : 1 ≤ interval.toInt)
    (hs : 1 ≤ slots.toInt) (ops : List WheelOp)
    (h : Lib.Admitted (Countdowns.apply interval.toInt)
      (Countdowns.Admits interval.toInt slots.toInt) .empty ops) :
    ∃ w a closed, Lib.runSpec (Countdowns.apply interval.toInt) .empty ops = (a, closed) ∧
      Lib.run apply (new interval slots) ops = .ok (w, closed) ∧ Linked w ∧
      (∀ fd, w.remaining fd = (a.left fd).map Prod.fst) ∧
      ∀ before conn timeout after, ops = before ++ .addConnection conn timeout :: after →
        (∀ op ∈ after, Countdowns.touches conn.fd op = false) →
        let k := (timeout.toInt / interval.toInt).toNat
        let n := Countdowns.tickCount after
        w.remaining conn.fd = (if n ≤ k then some (k - n) else none) ∧
        ∀ ticked expired, after = ticked ++ [.tick expired] →
          ∃ last, closed.getLast? = some last ∧
            (conn ∈ last ↔ Countdowns.tickCount ticked = k ∧ expired conn = false) := by
  obtain ⟨w, hrun, ht⟩ := (apply_simulates hi hs (Int32.toInt_lt slots)).run ops
    (new_tracks interval slots) h
  have hrem : ∀ fd, w.remaining fd = ((Lib.runSpec (Countdowns.apply interval.toInt)
      .empty ops).1.left fd).map Prod.fst := by
    intro fd
    rw [ht.left, Option.map_map]
    rfl
  refine ⟨w, _, _, rfl, hrun, ht.linked, hrem, ?_⟩
  rintro before conn timeout after rfl hops
  have hadded : (Countdowns.apply interval.toInt
      (Lib.runSpec (Countdowns.apply interval.toInt) .empty before).1
      (.addConnection conn timeout)).1.left conn.fd =
      Countdowns.expected (timeout.toInt / interval.toInt).toNat 0 conn := update_self ..
  refine ⟨?_, ?_⟩
  · have hleft := Countdowns.run_untouched interval.toInt after hops hadded
    rw [Nat.zero_add] at hleft
    rw [hrem, Lib.runSpec_append]
    refine (congrArg (Option.map Prod.fst) hleft).trans ?_
    unfold Countdowns.expected
    split
    · rfl
    · rfl
  · rintro ticked expired rfl
    have hleft := Countdowns.run_untouched interval.toInt ticked
      (fun op hop => hops op (List.mem_append_left _ hop)) hadded
    rw [Nat.zero_add] at hleft
    have hzero : (Lib.runSpec (Countdowns.apply interval.toInt) .empty
        (before ++ .addConnection conn timeout :: ticked)).1.left conn.fd = some (0, conn) ↔
        Countdowns.tickCount ticked = (timeout.toInt / interval.toInt).toNat := by
      rw [← Countdowns.expected_zero, ← hleft, Lib.runSpec_append]
      rfl
    rw [← List.cons_append, ← List.append_assoc]
    exact ⟨_, Countdowns.run_tick .., and_congr_left' hzero⟩

theorem refines_countdowns_example :
    let conn : Conn := { id := 0, fd := 5 }
    let tick : WheelOp := .tick fun _ => false
    ∃ w closed last, Lib.run apply (new 1 2)
        [.addConnection conn 3, tick, tick, tick, tick] = .ok (w, closed) ∧
      w.remaining 5 = none ∧ closed.getLast? = some last ∧ conn ∈ last := by
  intro conn tick
  have hadm : Lib.Admitted (Countdowns.apply 1) (Countdowns.Admits 1 2) .empty
      [.addConnection conn 3, tick, tick, tick, tick] :=
    ⟨⟨⟨by decide, rfl⟩, Countdowns.places_of_slots (by decide) (by decide) _ _⟩,
      ⟨trivial, trivial⟩, ⟨trivial, trivial⟩, ⟨trivial, trivial⟩, ⟨trivial, trivial⟩, trivial⟩
  obtain ⟨w, a, closed, -, hrun, -, -, hlast⟩ :=
    refines_countdowns 1 2 (by decide) (by decide) _ hadm
  obtain ⟨hrem, hclosed⟩ := hlast [] conn 3 [tick, tick, tick, tick] rfl (by
    intro op hop
    simp only [List.mem_cons, List.not_mem_nil, or_false, or_self] at hop
    subst hop
    rfl)
  obtain ⟨last, hl, hmem⟩ := hclosed [tick, tick, tick] _ rfl
  exact ⟨w, closed, last, hrun, hrem, hl, hmem.mpr ⟨by decide, rfl⟩⟩

/-- With more than `2 ^ 30` slots the sum of the current slot and the offset
can leave `int`: two ticks, then a timeout of `2 ^ 31 - 2` on a wheel of
`2 ^ 31 - 1` slots. -/
theorem wheel_leaves_int :
    ¬∀ (interval slots : Int32), 1 ≤ interval.toInt → 1 ≤ slots.toInt → ∀ ops,
      Lib.Admitted (Countdowns.apply interval.toInt) Countdowns.Requested .empty ops →
      ∃ w closed, Lib.run apply (new interval slots) ops = .ok (w, closed) := by
  intro h
  have hadm : Lib.Admitted (Countdowns.apply 1) Countdowns.Requested .empty
      [.tick fun _ => false, .tick fun _ => false, .addConnection ⟨0, 5⟩ 2147483646] :=
    ⟨trivial, trivial, ⟨by decide, rfl⟩, trivial⟩
  obtain ⟨w, closed, hrun⟩ := h 1 2147483647 (by decide) (by decide) _ hadm
  have herr : Lib.run apply (new 1 2147483647)
      [.tick fun _ => false, .tick fun _ => false, .addConnection ⟨0, 5⟩ 2147483646] =
      .error .intOverflow := rfl
  rw [herr] at hrun
  cases hrun

end TimeWheel

end MudouHttp
