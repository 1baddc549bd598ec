import MudouHttp.Timer.TimeWheel

/-!
# What the operations of a TimeWheel do

`Linked` ties `timer_map_` to the nodes of the lists. Inserting, erasing and
sweeping the current list keep it, and change `lookup`, the node of each
descriptor, in the one way their lemmas say.
-/

namespace MudouHttp

open Function (update update_self update_of_ne)

namespace TimeWheel

def lookup (w : TimeWheel) (fd : Int) : Option TimerNode := (w.timerMap fd).bind w.nodes

def left (w : TimeWheel) (node : TimerNode) : Nat :=
  ((node.slot - w.currentSlot) % w.slots + node.rotation * w.slots).toNat

def remaining (w : TimeWheel) (fd : Int) : Option Nat := (w.lookup fd).map w.left

/-- `timer_map_` and the nodes of `wheel_` are in one-to-one correspondence:
every entry points to a node with its descriptor, and every node is where its
slot says, once, and is what the entry of its descriptor points to. -/
structure Linked (w : TimeWheel) : Prop where
  entry : ∀ fd it, w.timerMap fd = some it → ∃ node, w.nodes it = some node ∧ node.fd = fd
  held : ∀ it node, w.nodes it = some node → w.timerMap node.fd = some it ∧ it ∈ w.wheel node.slot
  listed : ∀ slot it, it ∈ w.wheel slot → ∃ node, w.nodes it = some node ∧ node.slot = slot
  once : ∀ slot, (w.wheel slot).Nodup
  fresh : ∀ it node, w.nodes it = some node → it < w.nextNode

variable {w : TimeWheel}

theorem Linked.lookup (h : Linked w) (hn : w.nodes it = some node) :
    w.lookup node.fd = some node := by
  rw [TimeWheel.lookup, (h.held it node hn).1, Option.bind_some, hn]

theorem Linked.of_lookup (h : Linked w) (hl : w.lookup fd = some node) :
    ∃ it, w.timerMap fd = some it ∧ w.nodes it = some node ∧ node.fd = fd := by
  obtain ⟨it, hit, hn⟩ := Option.bind_eq_some_iff.mp hl
  obtain ⟨node', hn', rfl⟩ := h.entry fd it hit
  cases hn.symm.trans hn'
  exact ⟨it, hit, hn, rfl⟩

theorem Linked.lookup_none (h : Linked w) : w.lookup fd = none ↔ w.timerMap fd = none := by
  constructor
  · intro hl
    cases hm : w.timerMap fd with
    | none => rfl
    | some it =>
      obtain ⟨node, hn, -⟩ := h.entry fd it hm
      rw [TimeWheel.lookup, hm, Option.bind_some, hn] at hl
      cases hl
  · intro hm
    rw [TimeWheel.lookup, hm, Option.bind_none]

theorem Linked.entry_inj (h : Linked w) (ha : w.timerMap a = some it)
    (hb : w.timerMap b = some it) : a = b := by
  obtain ⟨node, hn, rfl⟩ := h.entry a it ha
  obtain ⟨node', hn', rfl⟩ := h.entry b it hb
  cases hn.symm.trans hn'
  rfl

-- ---------------------------------------------------------------------------
-- Inserting and erasing a node
-- ---------------------------------------------------------------------------

section
variable {κ ν : Type} [DecidableEq κ] {k j : κ}

theorem update_some_eq {m : κ → Option ν} :
    update m k (some v) j = some u ↔ (j = k ∧ v = u) ∨ (j ≠ k ∧ m j = some u) := by
  by_cases h : j = k
  · subst h
    simp
  · simp [h]

theorem update_none_eq {m : κ → Option ν} :
    update m k none j = some u ↔ j ≠ k ∧ m j = some u := by
  by_cases h : j = k
  · subst h
    simp
  · simp [h]

theorem mem_update_cons {m : κ → List ν} :
    x ∈ update m k (y :: m k) j ↔ (j = k ∧ x = y) ∨ x ∈ m j := by
  by_cases h : j = k
  · subst h
    simp
  · simp [h]

theorem mem_update_erase [DecidableEq ν] {m : κ → List ν} (hn : (m k).Nodup) :
    x ∈ update m k ((m k).erase y) j ↔ ¬(j = k ∧ x = y) ∧ x ∈ m j := by
  by_cases h : j = k
  · subst h
    simp [hn.mem_erase_iff]
  · simp [h]

theorem nodup_update {m : κ → List ν} (h : ∀ j, (m j).Nodup) (hv : v.Nodup) (j : κ) :
    (update m k v j).Nodup := by
  by_cases hj : j = k
  · subst hj
    rwa [update_self]
  · rw [update_of_ne hj]
    exact h j

end

theorem insert_ok (h : Linked w) (node : TimerNode) (hm : w.timerMap node.fd = none) (h0 : 0 ≤ node.slot)
    (hs : node.slot < w.slots) :
    ∃ w', w.insert node.slot node = .ok w' ∧ Linked w' ∧
      w'.lookup = update w.lookup node.fd (some node) ∧ w'.slotInterval = w.slotInterval ∧
      w'.slots = w.slots ∧ w'.currentSlot = w.currentSlot := by
  have hnode : ∀ it n, w.nodes it = some n → it ≠ w.nextNode ∧ n.fd ≠ node.fd := by
    intro it n hn
    refine ⟨Nat.ne_of_lt (h.fresh it n hn), fun he => ?_⟩
    have hmap := (h.held it n hn).1
    rw [he, hm] at hmap
    cases hmap
  have hlist : ∀ slot it, it ∈ w.wheel slot → it ≠ w.nextNode := by
    intro slot it hit
    obtain ⟨n, hn, -⟩ := h.listed slot it hit
    exact (hnode it n hn).1
  refine ⟨_, if_pos ⟨h0, hs⟩, ⟨?_, ?_, ?_, ?_, ?_⟩, ?_, rfl, rfl, rfl⟩
  · intro fd it hit
    rcases update_some_eq.mp hit with ⟨rfl, rfl⟩ | ⟨hfd, hit⟩
    · exact ⟨node, update_self .., rfl⟩
    · obtain ⟨n, hn, rfl⟩ := h.entry fd it hit
      exact ⟨n, update_some_eq.mpr (.inr ⟨(hnode it n hn).1, hn⟩), rfl⟩
  · intro it n hn
    rcases update_some_eq.mp hn with ⟨rfl, rfl⟩ | ⟨-, hn⟩
    · exact ⟨update_self .., mem_update_cons.mpr (.inl ⟨rfl, rfl⟩)⟩
    · obtain ⟨hmap, hmem⟩ := h.held it n hn
      exact ⟨update_some_eq.mpr (.inr ⟨(hnode it n hn).2, hmap⟩), mem_update_cons.mpr (.inr hmem)⟩
  · intro slot it hit
    rcases mem_update_cons.mp hit with ⟨rfl, rfl⟩ | hit
    · exact ⟨node, update_self .., rfl⟩
    · obtain ⟨n, hn, rfl⟩ := h.listed slot it hit
      exact ⟨n, update_some_eq.mpr (.inr ⟨(hnode it n hn).1, hn⟩), rfl⟩
  · exact nodup_update h.once (List.nodup_cons.mpr ⟨fun hmem => hlist _ _ hmem rfl, h.once _⟩)
  · intro it n hn
    rcases update_some_eq.mp hn with ⟨rfl, -⟩ | ⟨-, hn⟩
    · exact Nat.lt_succ_self _
    · exact Nat.lt_succ_of_lt (h.fresh it n hn)
  · funext fd
    by_cases he : fd = node.fd
    · subst he
      simp only [TimeWheel.lookup, update_self, Option.bind_some]
    · simp only [TimeWheel.lookup, update_of_ne he]
      cases hit : w.timerMap fd with
      | none => rfl
      | some it =>
        obtain ⟨n, hn, -⟩ := h.entry fd it hit
        simp only [Option.bind_some, update_of_ne (hnode it n hn).1]

theorem erase_ok (h : Linked w) (hm : w.timerMap fd = some it)
    (hr : ∀ node, w.lookup fd = some node → 0 ≤ node.slot ∧ node.slot < w.slots) :
    ∃ w', w.erase fd it = .ok w' ∧ Linked w' ∧ w'.lookup = update w.lookup fd none ∧
      w'.slotInterval = w.slotInterval ∧ w'.slots = w.slots ∧
      w'.currentSlot = w.currentSlot := by
  obtain ⟨node, hn, rfl⟩ := h.entry fd it hm
  have hmem := (h.held it node hn).2
  have herase : w.erase node.fd it = .ok { w with
      wheel := update w.wheel node.slot ((w.wheel node.slot).erase it)
      nodes := update w.nodes it none
      timerMap := update w.timerMap node.fd none } := by
    simp only [erase, hn, if_pos (hr node (h.lookup hn)), if_pos hmem]
  refine ⟨_, herase, ⟨?_, ?_, ?_, ?_, ?_⟩, ?_, rfl, rfl, rfl⟩
  · intro fd i hi
    obtain ⟨hfd, hold⟩ := update_none_eq.mp hi
    obtain ⟨n, hnn, hnf⟩ := h.entry fd i hold
    refine ⟨n, update_none_eq.mpr ⟨?_, hnn⟩, hnf⟩
    rintro rfl
    exact hfd (h.entry_inj hold hm)
  · intro i n hi
    obtain ⟨hne, hi⟩ := update_none_eq.mp hi
    obtain ⟨hmap, hin⟩ := h.held i n hi
    refine ⟨update_none_eq.mpr ⟨fun hfd => hne ?_, hmap⟩,
      (mem_update_erase (h.once _)).mpr ⟨fun hboth => hne hboth.2, hin⟩⟩
    rw [hfd, hm] at hmap
    exact (Option.some.inj hmap).symm
  · intro slot i hi
    obtain ⟨hne, hi⟩ := (mem_update_erase (h.once _)).mp hi
    obtain ⟨n, hnn, rfl⟩ := h.listed slot i hi
    refine ⟨n, update_none_eq.mpr ⟨?_, hnn⟩, rfl⟩
    rintro rfl
    cases hn.symm.trans hnn
    exact hne ⟨rfl, rfl⟩
  · exact nodup_update h.once ((h.once _).erase it)
  · intro i n hi
    exact h.fresh i n (update_none_eq.mp hi).2
  · funext fd
    by_cases he : fd = node.fd
    · subst he
      simp only [TimeWheel.lookup, update_self, Option.bind_none]
    · simp only [TimeWheel.lookup, update_of_ne he]
      cases hi : w.timerMap fd with
      | none => rfl
      | some i =>
        have hne : i ≠ it := by
          rintro rfl
          exact he (h.entry_inj hi hm)
        simp only [Option.bind_some, update_of_ne hne]

-- ---------------------------------------------------------------------------
-- A tick
-- ---------------------------------------------------------------------------

def aged (node : TimerNode) : Option TimerNode :=
  if node.rotation > 0 then some { node with rotation := node.rotation - 1 } else none

structure Swept (expired : Conn → Bool) (w : TimeWheel) (its : List Nat) (w' : TimeWheel)
    (kept : List Nat) (weakConns : List Conn) : Prop where
  entry : ∀ fd it, w'.timerMap fd = some it ↔ w.timerMap fd = some it ∧
    ∀ i ∈ its, ∀ node, w.nodes i = some node → node.fd = fd → node.rotation > 0
  inside : ∀ it ∈ its, w'.nodes it = (w.nodes it).bind aged
  outside : ∀ it, it ∉ its → w'.nodes it = w.nodes it
  kept_eq : kept = its.filter fun it => ((w.nodes it).bind aged).isSome
  weak : ∀ c, c ∈ weakConns ↔ ∃ it ∈ its, ∃ node, w.nodes it = some node ∧
    ¬node.rotation > 0 ∧ node.conn = c ∧ expired c = false
  frame : w'.wheel = w.wheel ∧ w'.nextNode = w.nextNode ∧ w'.slotInterval = w.slotInterval ∧
    w'.slots = w.slots ∧ w'.currentSlot = w.currentSlot

/-- The nodes once the first one is aged and the others are swept. -/
theorem Swept.nodes_cons {w₁ : TimeWheel} (hs : Swept expired w₁ rest w' kept weakConns)
    (hfirst : w₁.nodes = update w.nodes it (aged node)) (hnode : w.nodes it = some node)
    (hnot : it ∉ rest) :
    (∀ i ∈ it :: rest, w'.nodes i = (w.nodes i).bind aged) ∧
      ∀ i, i ∉ it :: rest → w'.nodes i = w.nodes i := by
  refine ⟨fun i hi => ?_, fun i hi => ?_⟩
  · rcases List.mem_cons.mp hi with rfl | hi
    · rw [hs.outside i hnot, hfirst, update_self, hnode, Option.bind_some]
    · have hne : i ≠ it := fun he => hnot (he ▸ hi)
      rw [hs.inside i hi, hfirst, update_of_ne hne]
  · rw [List.mem_cons, not_or] at hi
    rw [hs.outside i hi.2, hfirst, update_of_ne hi.1]

theorem tickLoop_ok (expired : Conn → Bool) (its : List Nat) (hd : its.Nodup)
    (hn : ∀ it ∈ its, ∃ node, w.nodes it = some node) :
    ∃ w' kept weakConns, tickLoop expired w its = .ok (w', kept, weakConns) ∧
      Swept expired w its w' kept weakConns := by
  induction its generalizing w with
  | nil => exact ⟨w, [], [], rfl, by simp, by simp, by simp, rfl, by simp, rfl, rfl, rfl, rfl, rfl⟩
  | cons it rest ih =>
    obtain ⟨hnot, hd⟩ := List.nodup_cons.mp hd
    obtain ⟨node, hnode⟩ := hn it (by simp)
    have hne : ∀ i ∈ rest, i ≠ it := fun i hi he => hnot (he ▸ hi)
    have hrest : ∀ {v : Option TimerNode}, ∀ i ∈ rest, update w.nodes it v i = w.nodes i :=
      fun i hi => update_of_ne (hne i hi) ..
    have hnodes : ∀ v : Option TimerNode, ∀ i ∈ rest, ∃ node, update w.nodes it v i = some node := by
      intro v i hi
      rw [hrest i hi]
      exact hn i (List.mem_cons_of_mem _ hi)
    rw [tickLoop]
    by_cases hrot : node.rotation > 0
    · -- the node stays, one rotation older
      have haged : aged node = some { node with rotation := node.rotation - 1 } := if_pos hrot
      obtain ⟨w', kept, weakConns, hloop, hs⟩ := ih (w := { w with
        nodes := update w.nodes it (some { node with rotation := node.rotation - 1 }) }) hd (hnodes _)
      obtain ⟨hinside, houtside⟩ := hs.nodes_cons (haged ▸ rfl) hnode hnot
      refine ⟨w', it :: kept, weakConns, ?_, ?_, hinside, houtside, ?_, ?_, hs.frame⟩
      · simp only [hnode, hrot, if_true, hloop, bind, Except.bind, pure, Except.pure]
      · intro fd i
        rw [hs.entry]
        simp only [List.forall_mem_cons, hnode, Option.some.injEq, forall_eq', hrot, implies_true,
          true_and]
        refine and_congr_right fun _ => forall₂_congr fun j hj => ?_
        rw [hrest j hj]
      · rw [hs.kept_eq, List.filter_cons, hnode, Option.bind_some, haged]
        simp only [Option.isSome_some, if_true]
        refine congrArg _ (List.filter_congr fun i hi => ?_)
        rw [hrest i hi]
      · intro c
        rw [hs.weak]
        simp only [List.exists_mem_cons_iff, hnode, Option.some.injEq, exists_eq_left', hrot,
          not_true, false_and, false_or]
        refine exists_congr fun j => and_congr_right fun hj => ?_
        rw [hrest j hj]
    · have haged : aged node = none := if_neg hrot
      obtain ⟨w', kept, weakConns, hloop, hs⟩ := ih (w := { w with
        nodes := update w.nodes it none
        timerMap := update w.timerMap node.fd none }) hd (hnodes _)
      obtain ⟨hinside, houtside⟩ := hs.nodes_cons (haged ▸ rfl) hnode hnot
      refine ⟨w', kept, if expired node.conn then weakConns else node.conn :: weakConns,
        ?_, ?_, hinside, houtside, ?_, ?_, hs.frame⟩
      · simp only [hnode, hrot, if_false, hloop, bind, Except.bind, pure, Except.pure]
      · intro fd i
        rw [hs.entry, update_none_eq]
        simp only [List.forall_mem_cons, hnode, Option.some.injEq, forall_eq', hrot, imp_false,
          and_assoc, and_left_comm (a := fd ≠ node.fd)]
        refine and_congr_right fun _ => and_congr ne_comm (forall₂_congr fun j hj => ?_)
        rw [hrest j hj]
      · rw [hs.kept_eq, List.filter_cons, hnode, Option.bind_some, haged]
        simp only [Option.isSome_none, Bool.false_eq_true, if_false]
        refine List.filter_congr fun i hi => ?_
        rw [hrest i hi]
      · intro c
        have hhead : c ∈ (if expired node.conn then weakConns else node.conn :: weakConns) ↔
            (node.conn = c ∧ expired c = false) ∨ c ∈ weakConns := by
          cases he : expired node.conn with
          | true =>
            simp only [if_true, iff_or_self]
            rintro ⟨rfl, hf⟩
            rw [he] at hf
            cases hf
          | false =>
            simp only [Bool.false_eq_true, if_false, List.mem_cons]
            refine or_congr_left ⟨?_, fun h => h.1.symm⟩
            rintro rfl
            exact ⟨rfl, he⟩
        rw [hhead, hs.weak]
        simp only [List.exists_mem_cons_iff, hnode, Option.some.injEq, exists_eq_left', hrot,
          not_false_eq_true, true_and]
        refine or_congr_right (exists_congr fun j => and_congr_right fun hj => ?_)
        rw [hrest j hj]

theorem aged_some (h : aged node = some older) :
    older.fd = node.fd ∧ older.slot = node.slot ∧ older.conn = node.conn ∧
      older.rotation = node.rotation - 1 ∧ node.rotation > 0 := by
  unfold aged at h
  split at h
  · rename_i hrot
    cases h
    exact ⟨rfl, rfl, rfl, rfl, hrot⟩
  · cases h

def afterTick (current : Int) (node : TimerNode) : Option TimerNode :=
  if node.slot = current then aged node else some node

section

variable (hs : Swept expired w (w.wheel w.currentSlot) w' kept weakConns) (h : Linked w)

include hs h

theorem Swept.mem_kept (it : Nat) : it ∈ kept ↔ it ∈ w.wheel w.currentSlot ∧
    ∃ node, w.nodes it = some node ∧ node.rotation > 0 := by
  rw [hs.kept_eq, List.mem_filter]
  refine and_congr_right fun hit => ?_
  obtain ⟨node, hn, -⟩ := h.listed _ it hit
  simp [hn, aged]

theorem Swept.nodes_eq (it : Nat) :
    w'.nodes it = (w.nodes it).bind (afterTick w.currentSlot) := by
  by_cases hit : it ∈ w.wheel w.currentSlot
  · obtain ⟨node, hn, hslot⟩ := h.listed _ it hit
    rw [hs.inside it hit, hn]
    exact (if_pos hslot).symm
  · rw [hs.outside it hit]
    cases hn : w.nodes it with
    | none => rfl
    | some node =>
      have hslot : node.slot ≠ w.currentSlot := fun he => hit (he ▸ (h.held it node hn).2)
      exact (if_neg hslot).symm

/-- A node left after a tick was there before, with a rotation if it was swept. -/
theorem Swept.survives (hn : w'.nodes it = some n) : ∃ node, w.nodes it = some node ∧
    n.fd = node.fd ∧ n.slot = node.slot ∧ (node.slot = w.currentSlot → node.rotation > 0) := by
  rw [hs.nodes_eq h] at hn
  obtain ⟨node, hold, hafter⟩ := Option.bind_eq_some_iff.mp hn
  refine ⟨node, hold, ?_⟩
  unfold afterTick at hafter
  split at hafter
  · obtain ⟨hfd, hslot, -, -, hrot⟩ := aged_some hafter
    exact ⟨hfd, hslot, fun _ => hrot⟩
  · rename_i hne
    cases hafter
    exact ⟨rfl, rfl, fun he => absurd he hne⟩

theorem Swept.entry_iff (fd : Int) (it : Nat) : w'.timerMap fd = some it ↔
    ∃ n, w.timerMap fd = some it ∧ w'.nodes it = some n ∧ n.fd = fd := by
  rw [hs.entry]
  constructor
  · rintro ⟨hmap, hdead⟩
    obtain ⟨node, hn, rfl⟩ := h.entry fd it hmap
    rw [hs.nodes_eq h, hn, Option.bind_some]
    unfold afterTick
    split
    · rename_i hslot
      have hrot := hdead it (hslot ▸ (h.held it node hn).2) node hn rfl
      exact ⟨_, hmap, if_pos hrot, rfl⟩
    · exact ⟨node, hmap, rfl, rfl⟩
  · rintro ⟨n, hmap, hn, rfl⟩
    refine ⟨hmap, ?_⟩
    intro i hi node hnode hfd
    have hmap' := (h.held i node hnode).1
    rw [hfd, hmap] at hmap'
    cases hmap'
    obtain ⟨node', hnode', -, -, hrot⟩ := hs.survives h hn
    cases hnode.symm.trans hnode'
    obtain ⟨node', hnode', hslot⟩ := h.listed _ it hi
    cases hnode.symm.trans hnode'
    exact hrot hslot

theorem Swept.linked (next : Int) :
    Linked { w' with wheel := update w'.wheel w.currentSlot kept, currentSlot := next } := by
  obtain ⟨hwheel, hnext, -, -, -⟩ := hs.frame
  refine ⟨?_, ?_, ?_, ?_, ?_⟩
  · intro fd it hit
    obtain ⟨n, -, hn, hfd⟩ := (hs.entry_iff h fd it).mp hit
    exact ⟨n, hn, hfd⟩
  · intro it n hn
    obtain ⟨node, hold, hfd, hslot, hrot⟩ := hs.survives h hn
    obtain ⟨hmap, hmem⟩ := h.held it node hold
    refine ⟨(hs.entry_iff h _ _).mpr ⟨n, hfd ▸ hmap, hn, rfl⟩, ?_⟩
    show it ∈ update w'.wheel w.currentSlot kept n.slot
    rw [hwheel, hslot]
    by_cases hcur : node.slot = w.currentSlot
    · rw [hcur, update_self]
      exact (hs.mem_kept h it).mpr ⟨hcur ▸ hmem, node, hold, hrot hcur⟩
    · rwa [update_of_ne hcur]
  · intro slot it hit
    replace hit : it ∈ update w'.wheel w.currentSlot kept slot := hit
    show ∃ node, w'.nodes it = some node ∧ node.slot = slot
    rw [hwheel] at hit
    by_cases hcur : slot = w.currentSlot
    · subst hcur
      rw [update_self] at hit
      obtain ⟨hin, node, hn, hrot⟩ := (hs.mem_kept h it).mp hit
      obtain ⟨node', hn', hslot⟩ := h.listed _ it hin
      cases hn.symm.trans hn'
      rw [hs.inside it hin, hn]
      exact ⟨_, if_pos hrot, hslot⟩
    · rw [update_of_ne hcur] at hit
      obtain ⟨node, hn, rfl⟩ := h.listed _ it hit
      rw [hs.nodes_eq h, hn]
      exact ⟨node, if_neg hcur, rfl⟩
  · refine nodup_update (hwheel ▸ h.once) ?_
    rw [hs.kept_eq]
    exact (h.once _).filter _
  · intro it n hn
    obtain ⟨node, hold, -⟩ := hs.survives h hn
    exact hnext ▸ h.fresh it node hold

theorem Swept.lookup_eq (fd : Int) : w'.lookup fd = (w.lookup fd).bind (afterTick w.currentSlot) := by
  cases hl : w.lookup fd with
  | none =>
    have hmap : w'.timerMap fd = none := by
      cases hm : w'.timerMap fd with
      | none => rfl
      | some it =>
        obtain ⟨n, hold, -, -⟩ := (hs.entry_iff h fd it).mp hm
        rw [h.lookup_none.mp hl] at hold
        cases hold
    rw [TimeWheel.lookup, hmap]
    rfl
  | some node =>
    obtain ⟨it, hmap, hn, rfl⟩ := h.of_lookup hl
    rw [Option.bind_some]
    cases ha : afterTick w.currentSlot node with
    | some n =>
      have hn' : w'.nodes it = some n := by rw [hs.nodes_eq h, hn, Option.bind_some, ha]
      obtain ⟨node', hold, hfd, -⟩ := hs.survives h hn'
      cases hn.symm.trans hold
      rw [TimeWheel.lookup, (hs.entry_iff h _ _).mpr ⟨n, hmap, hn', hfd⟩, Option.bind_some, hn']
    | none =>
      cases hm : w'.timerMap node.fd with
      | none => rw [TimeWheel.lookup, hm, Option.bind_none]
      | some i =>
        obtain ⟨n, hold, hi, -⟩ := (hs.entry_iff h _ _).mp hm
        cases hmap.symm.trans hold
        rw [hs.nodes_eq h, hn, Option.bind_some, ha] at hi
        cases hi

end

end TimeWheel

end MudouHttp
