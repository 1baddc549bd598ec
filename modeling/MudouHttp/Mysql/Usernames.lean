import Mathlib.Data.List.Nodup
import MudouHttp.Lib.Counting
import MudouHttp.Mysql.SingleByte

/-!
# Usernames stay unique

`Register` asks for the name and inserts it in two queries that other calls
can come between. `usernames_unique`: where no call inserts a name while
another one for it is between its queries, no answer of the first query is lost
and no password has a NUL in it, the usernames stay unique and who registered
can log in. Two calls that overlap, a lost answer or a NUL break this.
-/

namespace MudouHttp

theorem intoArray_ok (h : intoArray text = .ok arr) : arr = text ∧ text.length < 256 := by
  unfold intoArray at h
  split at h
  · rename_i hlt
    cases h
    exact ⟨rfl, hlt⟩
  · cases h

namespace UserDao

open MySql (escape)

section Registering

variable [MySql]

structure Escaped (username password escUsername escPassword : Bytes) : Prop where
  named : username ≠ []
  guarded : password ≠ []
  escUsername_eq : escUsername = escape username
  escPassword_eq : escPassword = escape password
  fits : (escape username).length < 256

theorem enter_ok (h : enter c connected = .ok state) :
    state = .returned false ∨
    ∃ escUsername escPassword, state = .connected escUsername escPassword ∧
      Escaped c.username c.password escUsername escPassword := by
  unfold enter at h
  split at h
  · cases h
    exact .inl rfl
  rename_i hne
  split at h
  · obtain ⟨escUsername, hu, h⟩ := bind_ok h
    obtain ⟨escPassword, hp, h⟩ := bind_ok h
    cases h
    obtain ⟨rfl, hfits⟩ := intoArray_ok hu
    obtain ⟨rfl, -⟩ := intoArray_ok hp
    exact .inr ⟨_, _, rfl, fun he => hne (.inl he), fun he => hne (.inr he), rfl, rfl, hfits⟩
  · cases h
    exact .inl rfl

theorem check_ok {rows : List Row} (h : check rows c escUsername escPassword queried stored = .ok state) :
    state = .returned false ∨ state = .checked escUsername escPassword := by
  unfold check at h
  split at h
  · split at h
    · obtain ⟨_, -, h⟩ := bind_ok h
      cases h
      exact .inl rfl
    · cases h
      exact .inr rfl
  · cases h
    exact .inl rfl

def successLine (username : Bytes) : Bytes :=
  bytes "Register success: username = " ++ cString username

inductive Change (s : UserDao) : Event → UserDao → Prop
  | none : Change s e s
  | register : Change s (.register username password)
      { s with calls := s.calls ++ [{ username, password, state := .entered }] }
  | enter : s.calls[i]? = some c → c.state = .entered → enter c connected = .ok state →
    Change s (.enter i connected) (s.move i c state)
  | check : s.calls[i]? = some c → c.state = .connected escUsername escPassword →
    check s.rows c escUsername escPassword queried stored = .ok state →
    Change s (.check i queried stored) (s.move i c state)
  | insert : s.calls[i]? = some c → c.state = .checked escUsername escPassword →
    (successLine c.username).length < 256 →
    Change s (.insert i true)
      ({ s with rows := MySql.insert s.rows (insertSql escUsername escPassword) }.move i c
        (.returned true))
  | failed : s.calls[i]? = some c → c.state = .checked escUsername escPassword →
    Change s (.insert i false) (s.move i c (.returned false))

theorem step_ok (h : s.step e = .ok s') : Change s e s' := by
  cases e with
  | register username password =>
    cases h
    exact .register
  | enter i connected =>
    simp only [step] at h
    split at h
    · rename_i c hc
      split at h
      · rename_i hstate
        obtain ⟨state, hs, h⟩ := bind_ok h
        cases h
        exact .enter hc hstate hs
      · cases h
        exact .none
    · cases h
      exact .none
  | check i queried stored =>
    simp only [step] at h
    split at h
    · rename_i c hc
      split at h
      · rename_i hstate
        obtain ⟨state, hs, h⟩ := bind_ok h
        cases h
        exact .check hc hstate hs
      · cases h
        exact .none
    · cases h
      exact .none
  | insert i queried =>
    simp only [step] at h
    split at h
    · rename_i c hc
      split at h
      · rename_i hstate
        obtain ⟨⟨rows, state⟩, hs, h⟩ := bind_ok h
        cases h
        unfold insert at hs
        split at hs
        · rename_i hq
          obtain ⟨_, hline, hs⟩ := bind_ok hs
          cases hs
          rw [hq]
          exact .insert hc hstate (intoArray_ok hline).2
        · rename_i hq
          cases hs
          rw [Bool.eq_false_iff.mpr hq]
          exact .failed hc hstate
      · cases h
        exact .none
    · cases h
      exact .none

-- ---------------------------------------------------------------------------
-- What every run keeps
-- ---------------------------------------------------------------------------

def Settled (rows : List Row) (username password : Bytes) : Registering → Prop
  | .entered => True
  | .connected escUsername escPassword => Escaped username password escUsername escPassword
  | .checked escUsername escPassword => Escaped username password escUsername escPassword
  | .returned result => result = true →
    Escaped username password (escape username) (escape password) ∧
      (successLine username).length < 256 ∧ Row.mk username password ∈ rows

def succeeded (username : Bytes) (c : RegisterCall) : Bool :=
  c.username = username ∧ c.state = .returned true

/-- Every success is in the table, as a row of its own. -/
structure Recorded (s : UserDao) : Prop where
  settled : ∀ c ∈ s.calls, Settled s.rows c.username c.password c.state
  counted : ∀ username, s.calls.countP (succeeded username) ≤ s.rows.countP (named username)

theorem Settled.grow {rows rows' : List Row} (h : Settled rows username password state)
    (hsub : rows ⊆ rows') : Settled rows' username password state := by
  cases state with
  | returned result =>
    intro hr
    obtain ⟨he, hline, hmem⟩ := h hr
    exact ⟨he, hline, hsub hmem⟩
  | _ => exact h

theorem Recorded.move {rows : List Row} (h : Recorded s) (hc : s.calls[i]? = some c) (hsub : s.rows ⊆ rows)
    (hnew : Settled rows c.username c.password state)
    (hcount : ∀ username, s.rows.countP (named username) +
      (succeeded username { c with state := state }).toNat ≤
      rows.countP (named username) + (succeeded username c).toNat) :
    Recorded ({ s with rows := rows }.move i c state) := by
  refine ⟨fun d hd => ?_, fun username => ?_⟩
  · rcases List.mem_or_eq_of_mem_set hd with hd | rfl
    · exact (h.settled d hd).grow hsub
    · exact hnew
  · have hset := Lib.countP_set (succeeded username) hc { c with state := state }
    have hold := h.counted username
    have hmore := hcount username
    simp only [UserDao.move]
    omega

theorem Recorded.stay (h : Recorded s) (hc : s.calls[i]? = some c)
    (hnew : Settled s.rows c.username c.password state) (hfailed : state ≠ .returned true) :
    Recorded (s.move i c state) := by
  refine h.move hc (List.Subset.refl _) hnew fun username => ?_
  have hnot : succeeded username { c with state := state } = false := by simp [succeeded, hfailed]
  rw [hnot]
  exact Nat.le_add_right ..

theorem Recorded.change (h : Recorded s) (hc : Change s e s') : Recorded s' := by
  cases hc with
  | none => exact h
  | @register username password =>
    refine ⟨fun c hc => ?_, fun name => ?_⟩
    · rcases List.mem_append.mp hc with hc | hc
      · exact h.settled c hc
      · cases List.mem_singleton.mp hc
        trivial
    · rw [Lib.countP_concat]
      simpa [succeeded] using h.counted name
  | enter hc hstate hs =>
    rcases enter_ok hs with rfl | ⟨escUsername, escPassword, rfl, he⟩
    · exact h.stay hc nofun nofun
    · exact h.stay hc he nofun
  | check hc hstate hs =>
    have hsettled := h.settled _ (List.mem_of_getElem? hc)
    rw [hstate] at hsettled
    rcases check_ok hs with rfl | rfl
    · exact h.stay hc nofun nofun
    · exact h.stay hc hsettled nofun
  | @insert i c escUsername escPassword hc hstate hline =>
    have hsettled := h.settled _ (List.mem_of_getElem? hc)
    rw [hstate] at hsettled
    obtain ⟨hu, hp, rfl, rfl, hfits⟩ := hsettled
    rw [MySql.insert_row]
    refine h.move hc (List.subset_append_left ..) ?_ fun username => ?_
    · exact fun _ => ⟨⟨hu, hp, rfl, rfl, hfits⟩, hline, by simp⟩
    · rw [Lib.countP_concat]
      simp [succeeded, named, hstate, Bool.beq_eq_decide_eq]
  | failed hc hstate => exact h.stay hc nofun nofun

-- ---------------------------------------------------------------------------
-- Unique names
-- ---------------------------------------------------------------------------

/-- A name is in the table once, was registered at most once and can be logged
in with. -/
structure Consistent (s : UserDao) : Prop where
  unique : (s.rows.map Row.username).Nodup
  once : ∀ username, s.calls.countP (succeeded username) ≤ 1
  accepted : ∀ c ∈ s.calls, c.state = .returned true →
    login s.rows c.username c.password true true true = .ok true

omit [MySql] in
theorem countP_named (rows : List Row) (username : Bytes) :
    rows.countP (named username) = (rows.map Row.username).count username := by
  rw [List.count_eq_countP, List.countP_map]
  rfl

omit [MySql] in
theorem filter_named {rows : List Row} (hu : (rows.map Row.username).Nodup)
    (hmem : Row.mk username password ∈ rows) :
    rows.filter (named username) = [⟨username, password⟩] := by
  have hone : (rows.filter (named username)).length = 1 := by
    rw [← List.countP_eq_length_filter, countP_named]
    exact List.count_eq_one_of_mem hu (List.mem_map.mpr ⟨_, hmem, rfl⟩)
  obtain ⟨row, hrow⟩ := List.length_eq_one_iff.mp hone
  have hin : Row.mk username password ∈ rows.filter (named username) :=
    List.mem_filter.mpr ⟨hmem, by simp [named]⟩
  rw [hrow, List.mem_singleton] at hin
  rw [hrow, hin]

theorem query_unique {rows : List Row} (hu : (rows.map Row.username).Nodup)
    (hmem : Row.mk username password ∈ rows) :
    MySql.select rows (querySql (escape username)) = [password] := by
  rw [MySql.select_query, filter_named hu hmem]
  rfl

theorem check_nil {rows : List Row} : MySql.select rows (checkSql (escape username)) = [] ↔
    ∀ row ∈ rows, row.username ≠ username := by
  simp [MySql.select_check, List.filter_eq_nil_iff, named]

theorem query_nil {rows : List Row} : MySql.select rows (querySql (escape username)) = [] ↔
    ∀ row ∈ rows, row.username ≠ username := by
  simp [MySql.select_query, List.filter_eq_nil_iff, named]

omit [MySql] in
theorem login_line_fits (h : (successLine username).length < 256) :
    (bytes "Login success: username = " ++ cString username).length < 256 := by
  have h1 : (bytes "Login success: username = ").length = 26 := by decide
  have h2 : (bytes "Register success: username = ").length = 29 := by decide
  simp only [successLine, List.length_append, h1, h2] at h ⊢
  omega

/-- The stored password is read up to its first NUL. -/
theorem login_iff {rows : List Row} (hu : (rows.map Row.username).Nodup)
    (h : Settled rows username password (.returned true)) :
    login rows username password true true true = .ok true ↔ 0 ∉ password := by
  obtain ⟨he, hline, hmem⟩ := h rfl
  have harr : intoArray (escape username) = .ok (escape username) := if_pos he.fits
  have hlogged : intoArray (bytes "Login success: username = " ++ cString username) =
      .ok (bytes "Login success: username = " ++ cString username) := if_pos (login_line_fits hline)
  rw [← cString_eq_iff, login, if_neg (by simp [he.named, he.guarded]), if_pos rfl, harr]
  constructor
  · intro hlogin
    obtain ⟨_, hesc, hlogin⟩ := bind_ok hlogin
    cases hesc
    rw [if_pos ⟨rfl, rfl⟩, query_unique hu hmem] at hlogin
    simp only at hlogin
    split at hlogin
    · rename_i hp
      exact hp
    · obtain ⟨_, -, hlogin⟩ := bind_ok hlogin
      cases hlogin
  · intro hp
    simp only [bind, Except.bind, and_self, if_true, query_unique hu hmem, hp, hlogged]
    rfl

theorem consistent_iff (h : Recorded s) : Consistent s ↔ (s.rows.map Row.username).Nodup ∧
    ∀ c ∈ s.calls, c.state = .returned true → 0 ∉ c.password := by
  constructor
  · intro hcons
    refine ⟨hcons.unique, fun c hc hstate => ?_⟩
    have hsettled := h.settled c hc
    rw [hstate] at hsettled
    exact (login_iff hcons.unique hsettled).mp (hcons.accepted c hc hstate)
  · rintro ⟨hu, hnul⟩
    refine ⟨hu, fun username => ?_, fun c hc hstate => ?_⟩
    · have hcounted := h.counted username
      rw [countP_named] at hcounted
      exact Nat.le_trans hcounted (List.nodup_iff_count.mp hu username)
    · have hsettled := h.settled c hc
      rw [hstate] at hsettled
      exact (login_iff hu hsettled).mpr (hnul c hc hstate)

-- ---------------------------------------------------------------------------
-- The order of the queries
-- ---------------------------------------------------------------------------

def asked (c : RegisterCall) : Bool :=
  match c.state with
  | .checked _ _ => true
  | _ => false

/-- A password that is inserted is one a `char*` can stand for. -/
def Plain (s : UserDao) (e : Event) : Prop :=
  ∀ i c, e = .insert i true → s.calls[i]? = some c → asked c = true → 0 ∉ c.password

def Overlap (s : UserDao) (i j : Nat) : Prop :=
  i ≠ j ∧ ∃ c d, s.calls[i]? = some c ∧ s.calls[j]? = some d ∧ asked c = true ∧ asked d = true ∧
    d.username = c.username

def Known (s : UserDao) (i : Nat) : Prop :=
  ∃ c escUsername escPassword, s.calls[i]? = some c ∧
    c.state = .connected escUsername escPassword ∧ ∃ row ∈ s.rows, row.username = c.username

/-- No name is inserted while another call for it is between its queries, and
no answer about a registered name is lost. -/
structure Meets (s : UserDao) (e : Event) : Prop where
  alone : ∀ i j, e = .insert i true → ¬Overlap s i j
  stored : ∀ i, e = .check i true false → ¬Known s i
  plain : Plain s e

def Guarded (s : UserDao) : Prop :=
  ∀ c ∈ s.calls, asked c = true → ∀ row ∈ s.rows, row.username ≠ c.username

omit [MySql] in
theorem asked_iff {c : RegisterCall} : asked c = true ↔
    ∃ escUsername escPassword, c.state = .checked escUsername escPassword := by
  unfold asked
  split
  · rename_i escUsername escPassword hstate
    exact iff_of_true rfl ⟨_, _, hstate⟩
  · rename_i hother
    refine iff_of_false Bool.false_ne_true ?_
    rintro ⟨escUsername, escPassword, hstate⟩
    exact hother _ _ hstate

/-- A call that asks leaves with the name free, or with the answer lost. -/
theorem check_asked {rows : List Row} {c : RegisterCall}
    (hs : Settled rows c.username c.password (.connected escUsername escPassword))
    (h : check rows c escUsername escPassword queried stored =
      .ok (.checked escUsername' escPassword')) :
    queried = true ∧ (stored = true → ∀ row ∈ rows, row.username ≠ c.username) := by
  unfold check at h
  split at h
  · rename_i hqueried
    split at h
    · obtain ⟨_, -, h⟩ := bind_ok h
      cases h
    · rename_i hfree
      refine ⟨hqueried, fun hstored => ?_⟩
      rw [hs.escUsername_eq] at hfree
      refine check_nil.mp (Classical.byContradiction fun hne => hfree ⟨hstored, hne⟩)
  · cases h

omit [MySql] in
theorem Guarded.stay {s : UserDao} (h : Guarded s) (hnew : asked { c with state := state } = true →
    ∀ row ∈ s.rows, row.username ≠ c.username) : Guarded (s.move i c state) := by
  intro d hd hasked
  rcases List.mem_or_eq_of_mem_set hd with hd | rfl
  · exact h d hd hasked
  · exact hnew hasked

theorem Guarded.change (h : Guarded s) (hr : Recorded s) (hm : Meets s e) (hc : Change s e s') :
    Guarded s' := by
  cases hc with
  | none => exact h
  | register =>
    intro c hc hasked
    rcases List.mem_append.mp hc with hc | hc
    · exact h c hc hasked
    · cases List.mem_singleton.mp hc
      cases hasked
  | enter _ _ hs =>
    refine h.stay fun hasked => ?_
    rcases enter_ok hs with rfl | ⟨_, _, rfl, -⟩ <;> cases hasked
  | @check i c escUsername escPassword queried stored state hc hstate hs =>
    refine h.stay fun hasked => ?_
    obtain ⟨_, _, hchecked⟩ := asked_iff.mp hasked
    obtain rfl : state = .checked _ _ := hchecked
    have hsettled := hr.settled c (List.mem_of_getElem? hc)
    rw [hstate] at hsettled
    obtain ⟨rfl, hfree⟩ := check_asked hsettled hs
    cases stored with
    | true => exact hfree rfl
    | false =>
      exact fun row hrow hname => hm.stored i rfl ⟨c, _, _, hc, hstate, row, hrow, hname⟩
  | @insert i c escUsername escPassword hc hstate _ =>
    have hsettled := hr.settled c (List.mem_of_getElem? hc)
    rw [hstate] at hsettled
    obtain ⟨-, -, rfl, rfl, -⟩ := hsettled
    intro d hd hasked row hrow
    obtain ⟨j, hj⟩ := List.mem_iff_getElem?.mp hd
    by_cases hij : i = j
    · -- the call that has inserted is over
      rw [← hij] at hj
      have hlt := (List.getElem?_eq_some_iff.mp hc).1
      cases (List.getElem?_set_self hlt).symm.trans hj
      cases hasked
    · replace hj : s.calls[j]? = some d := (List.getElem?_set_ne hij).symm.trans hj
      rw [UserDao.move, MySql.insert_row, List.mem_append, List.mem_singleton] at hrow
      rcases hrow with hrow | rfl
      · exact h d (List.mem_of_getElem? hj) hasked row hrow
      · intro hname
        exact hm.alone i j rfl
          ⟨hij, c, d, hc, hj, asked_iff.mpr ⟨_, _, hstate⟩, hasked, hname.symm⟩
  | failed hc hstate => exact h.stay nofun

theorem step_insert (hr : Recorded s) (hc : s.calls[i]? = some c) (hasked : asked c = true)
    (h : s.step (.insert i true) = .ok s') :
    s' = { s with rows := s.rows ++ [Row.mk c.username c.password] }.move i c (.returned true) := by
  obtain ⟨escUsername, escPassword, hstate⟩ := asked_iff.mp hasked
  have hsettled := hr.settled c (List.mem_of_getElem? hc)
  rw [hstate] at hsettled
  obtain ⟨-, -, rfl, rfl, -⟩ := hsettled
  simp only [step, hc, hstate] at h
  obtain ⟨⟨rows, state⟩, hs, h⟩ := bind_ok h
  cases h
  unfold insert at hs
  rw [if_pos rfl] at hs
  obtain ⟨_, -, hs⟩ := bind_ok hs
  cases hs
  rw [MySql.insert_row]

omit [MySql] in
theorem mem_move {s : UserDao} {i : Nat} {c d : RegisterCall} (hd : d ∈ (s.move i c state).calls)
    (hs : d.state = .returned true) : d ∈ s.calls ∨ d = { c with state := .returned true } := by
  rcases List.mem_or_eq_of_mem_set hd with hd | rfl
  · exact .inl hd
  · exact .inr (congrArg _ hs)

/-- Without an insertion the names and the successes stay as they are. -/
theorem Change.calm (hc : Change s e s')
    (hcalm : ∀ i c, e = .insert i true → s.calls[i]? = some c → asked c = false) :
    s'.rows = s.rows ∧ ∀ d ∈ s'.calls, d.state = .returned true → d ∈ s.calls := by
  have hstay : ∀ (i : Nat) (c : RegisterCall) state, state ≠ .returned true →
      ∀ d ∈ (s.move i c state).calls, d.state = .returned true → d ∈ s.calls := by
    intro i c state hne d hd hs
    rcases List.mem_or_eq_of_mem_set hd with hd | rfl
    · exact hd
    · exact absurd hs hne
  cases hc with
  | none => exact ⟨rfl, fun d hd _ => hd⟩
  | register =>
    refine ⟨rfl, fun d hd hs => ?_⟩
    rcases List.mem_append.mp hd with hd | hd
    · exact hd
    · cases List.mem_singleton.mp hd
      cases hs
  | enter _ _ hs =>
    refine ⟨rfl, hstay _ _ _ ?_⟩
    rcases enter_ok hs with rfl | ⟨_, _, rfl, -⟩ <;> exact nofun
  | check _ _ hs =>
    refine ⟨rfl, hstay _ _ _ ?_⟩
    rcases check_ok hs with rfl | rfl <;> exact nofun
  | insert hc hstate _ =>
    have hasked := asked_iff.mpr ⟨_, _, hstate⟩
    rw [hcalm _ _ rfl hc] at hasked
    cases hasked
  | failed _ _ => exact ⟨rfl, hstay _ _ _ nofun⟩

/-- Where the names to be inserted are free, only a NUL can do harm. -/
theorem step_consistent (hr : Recorded s) (hcons : Consistent s) (hg : Guarded s)
    (h : s.step e = .ok s') : Consistent s' ↔ Plain s e := by
  have hr' := hr.change (step_ok h)
  obtain ⟨hu, hnul⟩ := (consistent_iff hr).mp hcons
  rw [consistent_iff hr']
  by_cases hins : ∃ i c, e = .insert i true ∧ s.calls[i]? = some c ∧ asked c = true
  · obtain ⟨i, c, rfl, hc, hasked⟩ := hins
    obtain rfl := step_insert hr hc hasked h
    have hlt := (List.getElem?_eq_some_iff.mp hc).1
    have hname : ∀ a ∈ s.rows.map Row.username, ∀ b ∈ [c.username], a ≠ b := by
      intro a ha b hb
      obtain ⟨row, hrow, rfl⟩ := List.mem_map.mp ha
      cases List.mem_singleton.mp hb
      exact hg c (List.mem_of_getElem? hc) hasked row hrow
    constructor
    · rintro ⟨-, hnul'⟩ j d hj hd -
      cases hj
      cases hc.symm.trans hd
      exact hnul' { c with state := .returned true } (List.mem_set hlt _) rfl
    · intro hplain
      refine ⟨?_, fun d hd hs => ?_⟩
      · simpa [UserDao.move] using List.nodup_append.mpr ⟨hu, List.nodup_singleton _, hname⟩
      · rcases mem_move (s := { s with rows := _ }) hd hs with hd | rfl
        · exact hnul d hd hs
        · exact hplain i c rfl hc hasked
  · have hcalm : ∀ i c, e = .insert i true → s.calls[i]? = some c → asked c = false :=
      fun i c he hc => Bool.eq_false_iff.mpr fun hasked => hins ⟨i, c, he, hc, hasked⟩
    obtain ⟨hrows, hcalls⟩ := (step_ok h).calm hcalm
    refine iff_of_true ⟨hrows ▸ hu, fun d hd hs => hnul d (hcalls d hd hs) hs⟩ ?_
    intro i c he hc hasked
    rw [hcalm i c he hc] at hasked
    cases hasked

/-- These queries leave a state behind that is not consistent. -/
def Breaks (s : UserDao) (es : List Event) : Prop :=
  ∀ s', Lib.runs step s es = .ok s' → ¬Consistent s'

theorem runs_pair (h : Lib.runs step s [e, e'] = .ok s') :
    ∃ s₁, s.step e = .ok s₁ ∧ s₁.step e' = .ok s' := by
  simp only [Lib.runs] at h
  split at h
  · cases h
  · rename_i s₁ hs
    split at h
    · cases h
    · rename_i s₂ hs'
      cases h
      exact ⟨s₁, hs, hs'⟩

theorem overlap_breaks (hr : Recorded s) (h : Overlap s i j) :
    Breaks s [.insert i true, .insert j true] := by
  intro s' hs hcons
  obtain ⟨hij, c, d, hc, hd, hasked, hasked', hname⟩ := h
  obtain ⟨s₁, h₁, h₂⟩ := runs_pair hs
  have hr₁ := hr.change (step_ok h₁)
  obtain rfl := step_insert hr hc hasked h₁
  have hd₁ : ({ s with rows := s.rows ++ [Row.mk c.username c.password] }.move i c
      (.returned true)).calls[j]? = some d := (List.getElem?_set_ne hij).trans hd
  obtain rfl := step_insert hr₁ hd₁ hasked' h₂
  have hu := hcons.unique
  simp [UserDao.move, hname, List.nodup_append] at hu

theorem known_breaks (hr : Recorded s) (h : Known s i) :
    Breaks s [.check i true false, .insert i true] := by
  intro s' hs hcons
  obtain ⟨c, escUsername, escPassword, hc, hstate, row, hrow, hname⟩ := h
  obtain ⟨s₁, h₁, h₂⟩ := runs_pair hs
  have hr₁ := hr.change (step_ok h₁)
  have hcheck : check s.rows c escUsername escPassword true false =
      .ok (.checked escUsername escPassword) := rfl
  simp only [step, hc, hstate, hcheck, bind, Except.bind, pure, Except.pure] at h₁
  cases h₁
  have hlt := (List.getElem?_eq_some_iff.mp hc).1
  have hc₁ : (s.move i c (.checked escUsername escPassword)).calls[i]? =
      some { c with state := .checked escUsername escPassword } := List.getElem?_set_self hlt
  obtain rfl := step_insert hr₁ hc₁ rfl h₂
  have hu : (s.rows.map Row.username ++ [c.username]).Nodup := by
    simpa [UserDao.move] using hcons.unique
  exact (List.nodup_append.mp hu).2.2 _ (List.mem_map_of_mem hrow) _
    (List.mem_singleton_self _) hname

-- ---------------------------------------------------------------------------
-- Runs
-- ---------------------------------------------------------------------------

def having (rows : List Row) : UserDao := { rows := rows, calls := [] }

theorem having_recorded (rows : List Row) : Recorded (having rows) :=
  ⟨nofun, fun _ => Nat.zero_le _⟩

theorem having_consistent {rows : List Row} (hu : (rows.map Row.username).Nodup) :
    Consistent (having rows) := ⟨hu, fun _ => Nat.zero_le _, nofun⟩

theorem meets_preserved :
    Lib.Preserves step Meets fun s => Recorded s ∧ Consistent s ∧ Guarded s := by
  rintro s e s' ⟨hr, hcons, hg⟩ hm hs
  exact ⟨hr.change (step_ok hs), (step_consistent hr hcons hg hs).mpr hm.plain,
    hg.change hr hm (step_ok hs)⟩

/-- In every run without overlapping calls for one name, lost answers and NULs,
names are unique and who registered can log in. Whatever query comes next, only
a NUL ends this at once; an overlap and a lost answer do as soon as the calls
go on to insert. -/
theorem usernames_unique {rows : List Row} (hu : (rows.map Row.username).Nodup) (s : UserDao)
    (h : Lib.Reach step Meets (having rows) s) :
    Consistent s ∧ (∀ e s', s.step e = .ok s' → (Consistent s' ↔ Plain s e)) ∧
    (∀ i j, Overlap s i j → Breaks s [.insert i true, .insert j true]) ∧
    ∀ i, Known s i → Breaks s [.check i true false, .insert i true] := by
  obtain ⟨hr, hcons, hg⟩ := h.invariant meets_preserved
    ⟨having_recorded rows, having_consistent hu, nofun⟩
  exact ⟨hcons, fun e s' hs => step_consistent hr hcons hg hs, fun i j => overlap_breaks hr,
    fun i => known_breaks hr⟩

end Registering

section Served

attribute [local instance] singleByte

/-- Two calls for a name, the second one after the first has inserted it. -/
theorem usernames_unique_example : ∃ s, Lib.Reach step Meets (having []) s ∧ Consistent s ∧
    s.calls.map RegisterCall.state = [.returned true, .returned false] := by
  have hrun : ∃ s, Lib.runs step (having [])
      [.register [98] [112], .register [98] [113], .enter 0 true, .enter 1 true,
        .check 0 true true, .insert 0 true, .check 1 true true] = .ok s ∧
      s.calls.map RegisterCall.state = [.returned true, .returned false] := ⟨_, rfl, rfl⟩
  obtain ⟨s, hs, hstates⟩ := hrun
  have hmeets : Lib.AllMeet step Meets (having [])
      [.register [98] [112], .register [98] [113], .enter 0 true, .enter 1 true,
        .check 0 true true, .insert 0 true, .check 1 true true] := by
    refine ⟨⟨nofun, nofun, nofun⟩, ⟨nofun, nofun, nofun⟩, ⟨nofun, nofun, nofun⟩,
      ⟨nofun, nofun, nofun⟩, ⟨nofun, nofun, nofun⟩, ⟨?_, nofun, ?_⟩, ⟨nofun, nofun, nofun⟩, trivial⟩
    · rintro i j hi ⟨hij, c, d, -, hd, -, hasked, -⟩
      cases hi
      match j with
      | 0 => exact hij rfl
      | 1 =>
        cases hd
        cases hasked
      | j + 2 => cases hd
    · intro i c hi hc _
      cases hi
      cases hc
      decide
  have hreach := Lib.Reach.start.runs _ hmeets hs
  have hnone : (([] : List Row).map Row.username).Nodup := List.nodup_nil
  exact ⟨s, hreach, (usernames_unique hnone s hreach).1, hstates⟩

/-- Two calls for one name both ask before either inserts. -/
theorem racing_registers :
    ¬∀ s, Lib.Reach step (fun _ _ => True) (having []) s → Consistent s := by
  intro h
  have hrun : ∃ s, Lib.runs step (having [])
      [.register [98] [112], .register [98] [113], .enter 0 true, .enter 1 true,
        .check 0 true true, .check 1 true true, .insert 0 true, .insert 1 true] = .ok s ∧
      s.rows = [⟨[98], [112]⟩, ⟨[98], [113]⟩] := ⟨_, rfl, rfl⟩
  obtain ⟨s, hs, hrows⟩ := hrun
  have hu := (h s (Lib.Reach.start.runs _ (.of_all (fun _ _ => trivial) _ _) hs)).unique
  rw [hrows] at hu
  exact absurd hu (by decide)

end Served

end UserDao

end MudouHttp
