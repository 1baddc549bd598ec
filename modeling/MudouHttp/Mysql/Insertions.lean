import Mathlib.Data.List.Perm.Basic
import MudouHttp.Mysql.Usernames

/-!
# What the table holds

`rows_of_calls`: however the calls of `Register` and their failures come between
each other, the table has one row more for each call that has returned `true`,
and a login succeeds with the name and the password of a row only.
-/

namespace MudouHttp

def RegisterCall.row (c : RegisterCall) : Row := { username := c.username, password := c.password }

namespace UserDao

open MySql (escape)

def added (calls : List RegisterCall) : List Row :=
  (calls.filter fun c => c.state = .returned true).map RegisterCall.row

theorem count_added (calls : List RegisterCall) (row : Row) : (added calls).count row =
    calls.countP fun c => (c.state = .returned true : Bool) && c.row == row := by
  rw [added, List.count_eq_countP, List.countP_map, List.countP_filter]
  refine List.countP_congr fun c _ => ?_
  simp [and_comm]

theorem mem_added (calls : List RegisterCall) (row : Row) : row ∈ added calls ↔
    ∃ c ∈ calls, c.state = .returned true ∧ c.row = row := by
  simp [added, and_assoc]

section Registering

variable [MySql]

/-- The table is what it was at the start and the rows of the successes. -/
structure Tallied (rows : List Row) (s : UserDao) : Prop extends Recorded s where
  tally : ∃ new, s.rows = rows ++ new ∧ new.Perm (added s.calls)

omit [MySql] in
/-- A call that moves without returning `true` adds nothing. -/
theorem added_stay {calls : List RegisterCall} (hc : calls[i]? = some c)
    (hbefore : c.state ≠ .returned true) (hafter : state ≠ .returned true) :
    (added (calls.set i { c with state := state })).Perm (added calls) := by
  refine List.perm_iff_count.mpr fun row => ?_
  have hset := Lib.countP_set
    (fun c => (c.state = .returned true : Bool) && c.row == row) hc
    { c with state := state }
  simpa [count_added, hbefore, hafter] using hset

omit [MySql] in
theorem added_success {calls : List RegisterCall} (hc : calls[i]? = some c)
    (hbefore : c.state ≠ .returned true) :
    (added (calls.set i { c with state := .returned true })).Perm
      (added calls ++ [c.row]) := by
  refine List.perm_iff_count.mpr fun row => ?_
  have hset := Lib.countP_set
    (fun c => (c.state = .returned true : Bool) && c.row == row) hc
    { c with state := .returned true }
  rw [Lib.count_concat, count_added, count_added]
  simpa [hbefore, RegisterCall.row] using hset

theorem Tallied.change {rows : List Row} (h : Tallied rows s) (hc : Change s e s') :
    Tallied rows s' := by
  refine ⟨h.toRecorded.change hc, ?_⟩
  obtain ⟨new, hrows, hperm⟩ := h.tally
  cases hc with
  | none => exact ⟨new, hrows, hperm⟩
  | register => exact ⟨new, hrows, hperm.trans (by simp [added])⟩
  | enter hc hstate hs =>
    refine ⟨new, hrows, hperm.trans (added_stay hc (by simp [hstate]) ?_).symm⟩
    rcases enter_ok hs with rfl | ⟨_, _, rfl, -⟩ <;> simp
  | check hc hstate hs =>
    refine ⟨new, hrows, hperm.trans (added_stay hc (by simp [hstate]) ?_).symm⟩
    rcases check_ok hs with rfl | rfl <;> simp
  | @insert i c escUsername escPassword hc hstate hline =>
    have hsettled := h.settled _ (List.mem_of_getElem? hc)
    rw [hstate] at hsettled
    obtain ⟨-, -, rfl, rfl, -⟩ := hsettled
    refine ⟨new ++ [c.row], ?_, ?_⟩
    · simp [UserDao.move, hrows, MySql.insert_row, RegisterCall.row]
    · exact (hperm.append_right _).trans (added_success hc (by simp [hstate])).symm
  | failed hc hstate => exact ⟨new, hrows, hperm.trans (added_stay hc (by simp [hstate]) (by simp)).symm⟩

structure Grows (s s' : UserDao) : Prop where
  rows : s.rows ⊆ s'.rows
  calls : ∀ {i : Nat} {c : RegisterCall}, s.calls[i]? = some c →
    ∃ c', s'.calls[i]? = some c' ∧ c'.row = c.row

omit [MySql] in
theorem Grows.move {s : UserDao} {rows : List Row} (hrows : s.rows ⊆ rows) (hc : s.calls[i]? = some c)
    (state : Registering) : Grows s ({ s with rows := rows }.move i c state) := by
  refine ⟨hrows, fun {j d} hd => ?_⟩
  by_cases hij : i = j
  · subst hij
    cases hc.symm.trans hd
    have hi := (List.getElem?_eq_some_iff.mp hc).1
    exact ⟨_, List.getElem?_set_self hi, rfl⟩
  · exact ⟨d, (List.getElem?_set_ne hij).trans hd, rfl⟩

theorem Change.grows (hc : Change s e s') (hr : Recorded s) : Grows s s' := by
  cases hc with
  | none => exact ⟨List.Subset.refl _, fun hd => ⟨_, hd, rfl⟩⟩
  | register =>
    refine ⟨List.Subset.refl _, fun hd => ⟨_, ?_, rfl⟩⟩
    exact (List.getElem?_append_left (List.getElem?_eq_some_iff.mp hd).1).trans hd
  | enter hc _ _ => exact .move (List.Subset.refl _) hc _
  | check hc _ _ => exact .move (List.Subset.refl _) hc _
  | @insert i c escUsername escPassword hc hstate _ =>
    have hsettled := hr.settled c (List.mem_of_getElem? hc)
    rw [hstate] at hsettled
    obtain ⟨-, -, rfl, rfl, -⟩ := hsettled
    rw [MySql.insert_row]
    exact .move (List.subset_append_left ..) hc _
  | failed hc _ => exact .move (List.Subset.refl _) hc _

theorem Change.called (hc : Change s e s') (hd : d ∈ s'.calls) :
    (∃ c ∈ s.calls, c.row = d.row) ∨ e = .register d.username d.password := by
  have hmove : ∀ {rows : List Row} {i : Nat} {c : RegisterCall} {state : Registering},
      s.calls[i]? = some c → d ∈ ({ s with rows := rows }.move i c state).calls →
      ∃ c ∈ s.calls, c.row = d.row := by
    intro rows i c state hc hd
    rcases List.mem_or_eq_of_mem_set hd with hd | rfl
    · exact ⟨d, hd, rfl⟩
    · exact ⟨c, List.mem_of_getElem? hc, rfl⟩
  cases hc with
  | none => exact .inl ⟨d, hd, rfl⟩
  | register =>
    rcases List.mem_append.mp hd with hd | hd
    · exact .inl ⟨d, hd, rfl⟩
    · cases List.mem_singleton.mp hd
      exact .inr rfl
  | enter hc _ _ => exact .inl (hmove hc hd)
  | check hc _ _ => exact .inl (hmove hc hd)
  | insert hc _ _ => exact .inl (hmove hc hd)
  | failed hc _ => exact .inl (hmove hc hd)

/-- An insertion that finds the table without the name keeps names unique. -/
theorem Change.unique (hc : Change s e s') (hr : Recorded s) (hu : (s.rows.map Row.username).Nodup)
    (hfree : ∀ i c, e = .insert i true → s.calls[i]? = some c →
      ∀ row ∈ s.rows, row.username ≠ c.username) : (s'.rows.map Row.username).Nodup := by
  cases hc with
  | @insert i c escUsername escPassword hi hstate hline =>
    have hsettled := hr.settled _ (List.mem_of_getElem? hi)
    rw [hstate] at hsettled
    obtain ⟨-, -, rfl, rfl, -⟩ := hsettled
    have hname : ∀ a ∈ s.rows.map Row.username, ∀ b ∈ [c.username], a ≠ b := by
      intro a ha b hb
      obtain ⟨row, hrow, rfl⟩ := List.mem_map.mp ha
      cases List.mem_singleton.mp hb
      exact hfree i c rfl hi row hrow
    simpa [UserDao.move, MySql.insert_row] using
      List.nodup_append.mpr ⟨hu, List.nodup_singleton _, hname⟩
  | _ => exact hu

theorem login_result {rows : List Row} (hu : (rows.map Row.username).Nodup) (hname : username ≠ [])
    (hmem : Row.mk username stored ∈ rows)
    (h : login rows username password true true true = .ok result) :
    result = true ↔ password ≠ [] ∧ password = cString stored := by
  unfold login at h
  split at h
  · rename_i hempty
    cases h
    exact iff_of_false Bool.false_ne_true fun hp => hempty.elim hname hp.1
  · rename_i hempty
    rw [if_pos rfl] at h
    obtain ⟨escUsername, hesc, h⟩ := bind_ok h
    obtain ⟨rfl, -⟩ := intoArray_ok hesc
    rw [if_pos ⟨rfl, rfl⟩, query_unique hu hmem] at h
    dsimp only at h
    split at h
    · rename_i hp
      obtain ⟨_, -, h⟩ := bind_ok h
      cases h
      exact iff_of_true rfl ⟨fun he => hempty (.inr he), hp.symm⟩
    · rename_i hp
      obtain ⟨_, -, h⟩ := bind_ok h
      cases h
      exact iff_of_false Bool.false_ne_true fun he => hp he.2.symm

theorem check_taken {rows : List Row} {c : RegisterCall} (hmem : row ∈ rows)
    (hname : row.username = c.username)
    (h : check rows c (escape c.username) escPassword true true = .ok state) :
    state = .returned false := by
  have hselect : MySql.select rows (checkSql (escape c.username)) ≠ [] :=
    fun hnil => check_nil.mp hnil row hmem hname
  rw [check, if_pos rfl, if_pos ⟨rfl, hselect⟩] at h
  obtain ⟨_, -, h⟩ := bind_ok h
  cases h
  rfl

theorem tallied_of_reach {rows : List Row} {meets : UserDao → Event → Prop}
    (h : Lib.Reach step meets (having rows) s) : Tallied rows s :=
  h.invariant (fun _ _ _ hp _ hs => hp.change (step_ok hs))
    ⟨having_recorded rows, [], (List.append_nil _).symm, .refl _⟩

theorem login_true {rows : List Row}
    (h : login rows username password connected queried stored = .ok true) :
    ∃ row ∈ rows, row.username = username ∧ cString row.password = password := by
  unfold login at h
  split at h
  · cases h
  · split at h
    · obtain ⟨escUsername, hesc, h⟩ := bind_ok h
      obtain ⟨rfl, -⟩ := intoArray_ok hesc
      split at h
      · split at h
        · rename_i first hselect
          rw [MySql.select_query] at hselect
          obtain ⟨row, hrow, rfl⟩ := List.mem_map.mp (hselect ▸ List.mem_singleton_self first)
          obtain ⟨hmem, hname⟩ := List.mem_filter.mp hrow
          split at h
          · rename_i hpassword
            exact ⟨row, hmem, by simpa [named] using hname, hpassword⟩
          · obtain ⟨_, -, h⟩ := bind_ok h
            cases h
        · obtain ⟨_, -, h⟩ := bind_ok h
          cases h
      · cases h
    · cases h

/-- In every run the table holds a row for each call that has returned `true`
and no others, and who can log in is in it. -/
theorem rows_of_calls {rows : List Row} (h : Lib.Reach step (fun _ _ => True) (having rows) s) :
    (∃ new, s.rows = rows ++ new ∧ new.Perm (added s.calls)) ∧
    ∀ username password connected queried stored,
      login s.rows username password connected queried stored = .ok true →
      (∃ row ∈ rows, row.username = username ∧ cString row.password = password) ∨
      ∃ c ∈ s.calls, c.state = .returned true ∧ c.username = username ∧
        cString c.password = password := by
  obtain ⟨new, hrows, hperm⟩ := (tallied_of_reach h).tally
  refine ⟨⟨new, hrows, hperm⟩, fun username password connected queried stored hlogin => ?_⟩
  obtain ⟨row, hrow, hname, hpassword⟩ := login_true hlogin
  rw [hrows, List.mem_append, hperm.mem_iff, mem_added] at hrow
  rcases hrow with hrow | ⟨c, hc, hstate, rfl⟩
  · exact .inl ⟨row, hrow, hname, hpassword⟩
  · exact .inr ⟨c, hc, hstate, hname, hpassword⟩

end Registering

section Served

attribute [local instance] singleByte

/-- Two calls race for a name, and a third one is refused. -/
theorem rows_of_calls_example : ∃ s, Lib.Reach step (fun _ _ => True) (having []) s ∧
    (∃ new, s.rows = [] ++ new ∧ new.Perm [⟨[98], [112]⟩, ⟨[98], [113]⟩]) := by
  have hrun : ∃ s, Lib.runs step (having [])
      [.register [98] [112], .register [98] [113], .enter 0 true, .enter 1 true, .check 1 true true,
        .check 0 true true, .insert 1 true, .insert 0 true, .register [98] [114], .enter 2 true,
        .check 2 true true] = .ok s ∧ added s.calls = [⟨[98], [112]⟩, ⟨[98], [113]⟩] :=
    ⟨_, rfl, by decide⟩
  obtain ⟨s, hs, hadded⟩ := hrun
  have hreach := Lib.Reach.start.runs _ (.of_all (fun _ _ => trivial) _ _) hs
  exact ⟨s, hreach, hadded ▸ (rows_of_calls hreach).1⟩

end Served

end UserDao

end MudouHttp
