import MudouHttp.Mysql.Usernames

/-!
# Calls one after the other

`Register` and `Login` without any overlap, with the database always there.
`Register` then succeeds for new names only. `Login` compares with the stored
password up to its first NUL: `logins_match_iff`.
-/

namespace MudouHttp

inductive UserCall
  | register (username password : Bytes)
  | login (username password : Bytes)
  deriving DecidableEq

namespace UserDao

open MySql (escape)

section Sequential

variable [MySql]

def perform (s : UserDao) : UserCall → Except Fault (UserDao × Bool)
  | .register username password => do
    let i := s.calls.length
    let s ← Lib.runs step s
      [.register username password, .enter i true, .check i true true, .insert i true]
    pure (s, s.calls[i]?.map RegisterCall.state = some (.returned true))
  | .login username password => do
    pure (s, ← login s.rows username password true true true)

structure History where
  past : List (UserCall × Bool)
  dao : UserDao

def History.start : History := { past := [], dao := having [] }

def History.step (h : History) (call : UserCall) : Except Fault History := do
  let (dao, result) ← h.dao.perform call
  pure { past := h.past ++ [(call, result)], dao := dao }

/-- What the form decoder can give: not empty and at most 127 bytes each. -/
def Short : UserCall → Prop
  | .register username password | .login username password =>
    (username ≠ [] ∧ username.length ≤ 127) ∧ (password ≠ [] ∧ password.length ≤ 127)

def Registered (past : List (UserCall × Bool)) (username password : Bytes) : Prop :=
  (.register username password, true) ∈ past

def Answers (past : List (UserCall × Bool)) (result : Bool) : UserCall → Prop
  | .register username _ => result = true ↔ ∀ password, ¬Registered past username password
  | .login username password => result = true ↔ Registered past username password

def passwordFor (username : Bytes) : UserCall × Bool → Option Bytes
  | (.register name password, _) => if name = username then some password else none
  | (.login _ _, _) => none

def firstPassword (past : List (UserCall × Bool)) (username : Bytes) : Option Bytes :=
  past.findSome? (passwordFor username)

/-- A login that does not ask whether a password ends at its first NUL. -/
def Sound (past : List (UserCall × Bool)) : UserCall → Prop
  | .register _ _ => True
  | .login username password => ∀ first, firstPassword past username = some first →
    0 ∉ first ∨ (password ≠ first ∧ password ≠ cString first)

-- ---------------------------------------------------------------------------
-- One call
-- ---------------------------------------------------------------------------

theorem escape_fits (h : text.length ≤ 127) : intoArray (escape text) = .ok (escape text) := by
  have hlen := MySql.escape_length text
  exact if_pos (by omega)

omit [MySql] in
theorem line_fits (h : username.length ≤ 127) (before after : Bytes)
    (hlen : before.length + after.length < 129) :
    intoArray (before ++ cString username ++ after) = .ok (before ++ cString username ++ after) := by
  have hname := (List.takeWhile_prefix (l := username) fun b => b ≠ 0).length_le
  refine if_pos ?_
  rw [List.length_append, List.length_append]
  unfold cString
  omega

omit [MySql] in
theorem line_fits' (h : username.length ≤ 127) (before : Bytes) (hlen : before.length < 129) :
    intoArray (before ++ cString username) = .ok (before ++ cString username) := by
  have hline := line_fits h before [] hlen
  rwa [List.append_nil] at hline

def withCall (s : UserDao) (c : RegisterCall) : UserDao := { s with calls := s.calls ++ [c] }

omit [MySql] in
theorem withCall_get (s : UserDao) (c : RegisterCall) :
    (s.withCall c).calls[s.calls.length]? = some c := List.getElem?_concat_length

omit [MySql] in
theorem withCall_move (s : UserDao) (c : RegisterCall) (state : Registering) :
    (s.withCall c).move s.calls.length c state = s.withCall { c with state := state } := by
  simp [withCall, move]

variable {s : UserDao} {c : RegisterCall}

theorem step_enter_last (hc : c.state = .entered) (h : enter c true = .ok state) :
    (s.withCall c).step (.enter s.calls.length true) =
      .ok (s.withCall { c with state := state }) := by
  simp only [step, withCall_get, hc, h, withCall_move, bind, Except.bind, pure, Except.pure]

theorem step_check_last (hc : c.state = .connected escUsername escPassword)
    (h : check s.rows c escUsername escPassword true true = .ok state) :
    (s.withCall c).step (.check s.calls.length true true) =
      .ok (s.withCall { c with state := state }) := by
  replace h : check (s.withCall c).rows c escUsername escPassword true true = .ok state := h
  simp only [step, withCall_get, hc, h, withCall_move, bind, Except.bind, pure, Except.pure]

theorem step_insert_last {rows : List Row} (hc : c.state = .checked escUsername escPassword)
    (h : insert s.rows c escUsername escPassword true = .ok (rows, state)) :
    (s.withCall c).step (.insert s.calls.length true) =
      .ok ({ s with rows := rows }.withCall { c with state := state }) := by
  replace h : insert (s.withCall c).rows c escUsername escPassword true = .ok (rows, state) := h
  simp only [step, withCall_get, hc, h, bind, Except.bind, pure, Except.pure]
  exact congrArg Except.ok (withCall_move { s with rows := rows } c state)

theorem step_insert_returned (hc : c.state = .returned result) :
    (s.withCall c).step (.insert s.calls.length true) = .ok (s.withCall c) := by
  simp only [step, withCall_get, hc]

theorem perform_returned (s' : UserDao)
    (h : Lib.runs step s [.register username password, .enter s.calls.length true,
      .check s.calls.length true true, .insert s.calls.length true] =
      .ok (s'.withCall ⟨username, password, .returned result⟩))
    (hcalls : s'.calls = s.calls) :
    s.perform (.register username password) =
      .ok (s'.withCall ⟨username, password, .returned result⟩, result) := by
  have hget := s'.withCall_get ⟨username, password, .returned result⟩
  rw [hcalls] at hget
  simp only [perform, h, hget, bind, Except.bind, pure, Except.pure, Option.map_some]
  cases result <;> rfl

theorem perform_register (s : UserDao) (h : Short (.register username password)) :
    (∀ row ∈ s.rows, row.username ≠ username) ∧
      (∃ s', s.perform (.register username password) = .ok (s', true) ∧
        s'.rows = s.rows ++ [⟨username, password⟩]) ∨
    (∃ row ∈ s.rows, row.username = username) ∧
      ∃ s', s.perform (.register username password) = .ok (s', false) ∧ s'.rows = s.rows := by
  obtain ⟨⟨hu, hulen⟩, hp, hplen⟩ := h
  let call (state : Registering) : RegisterCall := ⟨username, password, state⟩
  have hregister : s.step (.register username password) = .ok (s.withCall (call .entered)) := rfl
  have henter : enter (call .entered) true =
      .ok (.connected (escape username) (escape password)) := by
    rw [enter, if_neg (by simp [call, hu, hp]), if_pos rfl, escape_fits hulen, escape_fits hplen]
    rfl
  have hentered : (s.withCall (call .entered)).step (.enter s.calls.length true) =
      .ok (s.withCall (call (.connected (escape username) (escape password)))) :=
    step_enter_last rfl henter
  by_cases hfree : MySql.select s.rows (checkSql (escape username)) = []
  · left
    refine ⟨check_nil.mp hfree, { s with rows := s.rows ++ [Row.mk username password] }.withCall
      (call (.returned true)), ?_, rfl⟩
    have hcheck : check s.rows (call (.connected (escape username) (escape password)))
        (escape username) (escape password) true true =
        .ok (.checked (escape username) (escape password)) := by
      rw [check, if_pos rfl, if_neg (by simp [hfree])]
    have hinsert : insert s.rows (call (.checked (escape username) (escape password)))
        (escape username) (escape password) true =
        .ok (s.rows ++ [⟨username, password⟩], .returned true) := by
      rw [insert, if_pos rfl, line_fits' hulen _ (by decide), MySql.insert_row]
      rfl
    refine perform_returned { s with rows := s.rows ++ [Row.mk username password] } ?_ rfl
    have hchecked := step_check_last rfl hcheck
    have hinserted := step_insert_last rfl hinsert
    simp only [Lib.runs, hregister, hentered]
    rw [hchecked]
    dsimp only
    rw [hinserted]
  · right
    obtain ⟨row, hrow, hname⟩ : ∃ row ∈ s.rows, row.username = username := by
      simpa using mt check_nil.mpr hfree
    refine ⟨⟨row, hrow, hname⟩, s.withCall (call (.returned false)), ?_, rfl⟩
    have hcheck : check s.rows (call (.connected (escape username) (escape password)))
        (escape username) (escape password) true true = .ok (.returned false) := by
      rw [check, if_pos rfl, if_pos ⟨rfl, hfree⟩, line_fits hulen _ _ (by decide)]
      rfl
    refine perform_returned s ?_ rfl
    have hchecked := step_check_last rfl hcheck
    simp only [Lib.runs, hregister, hentered]
    rw [hchecked]
    dsimp only
    rw [step_insert_returned rfl]

/-- The stored password is compared up to its first NUL. -/
theorem perform_login (hu : (s.rows.map Row.username).Nodup)
    (h : Short (.login username password)) :
    ∃ result, s.perform (.login username password) = .ok (s, result) ∧
      (result = true ↔ ∃ stored, Row.mk username stored ∈ s.rows ∧ cString stored = password) := by
  obtain ⟨⟨hne, hulen⟩, hp, -⟩ := h
  by_cases hfree : MySql.select s.rows (querySql (escape username)) = []
  · refine ⟨false, ?_, ?_⟩
    · simp only [perform, login, hne, hp, or_self, if_false, if_true, escape_fits hulen, and_self,
        hfree, line_fits hulen _ _ (show (bytes "Login failed: username ").length +
          (bytes " not exists").length < 129 by decide), bind, Except.bind, pure, Except.pure]
    · refine iff_of_false Bool.false_ne_true ?_
      rintro ⟨stored, hmem, -⟩
      exact query_nil.mp hfree _ hmem rfl
  · obtain ⟨⟨name, stored⟩, hrow, hname⟩ : ∃ row ∈ s.rows, row.username = username := by
      simpa using mt query_nil.mpr hfree
    obtain rfl : name = username := hname
    have hselect := query_unique hu hrow
    refine ⟨decide (cString stored = password), ?_, ?_⟩
    · by_cases heq : cString stored = password
      · simp only [perform, login, hne, hp, or_self, if_false, if_true, escape_fits hulen, and_self,
          hselect, heq, line_fits' hulen _ (show (bytes "Login success: username = ").length < 129
            by decide), bind, Except.bind, pure, Except.pure, decide_true]
      · simp only [perform, login, hne, hp, or_self, if_false, if_true, escape_fits hulen, and_self,
          hselect, heq, line_fits' hulen _ (show (bytes "Login failed: password incorrect for ").length
            < 129 by decide), bind, Except.bind, pure, Except.pure, decide_false]
    · rw [decide_eq_true_iff]
      refine ⟨fun heq => ⟨stored, hrow, heq⟩, ?_⟩
      rintro ⟨stored', hmem, heq⟩
      cases hselect.symm.trans (query_unique hu hmem)
      exact heq

-- ---------------------------------------------------------------------------
-- Histories
-- ---------------------------------------------------------------------------

structure Kept (h : History) : Prop where
  unique : (h.dao.rows.map Row.username).Nodup
  stored : ∀ username password,
    Row.mk username password ∈ h.dao.rows ↔ firstPassword h.past username = some password
  registered : ∀ username password,
    Registered h.past username password ↔ firstPassword h.past username = some password

omit [MySql] in
theorem start_kept : Kept .start :=
  { unique := List.nodup_nil
    stored := fun _ _ => iff_of_false List.not_mem_nil nofun
    registered := fun _ _ => iff_of_false List.not_mem_nil nofun }

omit [MySql] in
theorem firstPassword_append (past : List (UserCall × Bool)) (entry : UserCall × Bool)
    (username : Bytes) : firstPassword (past ++ [entry]) username =
      (firstPassword past username).or (passwordFor username entry) := by
  rw [firstPassword, List.findSome?_append, List.findSome?_singleton]
  rfl

omit [MySql] in
theorem passwordFor_other (h : name ≠ username) :
    passwordFor username (.register name password, result) = none := if_neg h

omit [MySql] in
theorem firstPassword_new (past : List (UserCall × Bool)) (password : Bytes) (result : Bool)
    (hnone : firstPassword past username = none) (name : Bytes) :
    firstPassword (past ++ [(.register username password, result)]) name =
      if username = name then some password else firstPassword past name := by
  rw [firstPassword_append]
  by_cases hname : username = name
  · rw [← hname, hnone, if_pos rfl]
    exact if_pos rfl
  · rw [if_neg hname, passwordFor_other hname, Option.or_none]

omit [MySql] in
theorem firstPassword_known (past : List (UserCall × Bool)) (password : Bytes) (result : Bool)
    (hsome : firstPassword past username = some first) (name : Bytes) :
    firstPassword (past ++ [(.register username password, result)]) name =
      firstPassword past name := by
  rw [firstPassword_append]
  by_cases hname : username = name
  · rw [← hname, hsome, Option.some_or]
  · rw [passwordFor_other hname, Option.or_none]

omit [MySql] in
theorem registered_append {past : List (UserCall × Bool)} {entry : UserCall × Bool} :
    Registered (past ++ [entry]) username password ↔
      Registered past username password ∨ (.register username password, true) = entry := by
  rw [Registered, List.mem_append, List.mem_singleton]
  rfl

variable {h : History}

theorem Kept.register (hk : Kept h) (hs : Short (.register username password)) :
    ∃ dao result, h.dao.perform (.register username password) = .ok (dao, result) ∧
      Kept ⟨h.past ++ [(.register username password, result)], dao⟩ ∧
      (result = true ↔ ∀ password, ¬Registered h.past username password) := by
  rcases perform_register h.dao hs with
    ⟨hfree, s', hrun, hrows⟩ | ⟨⟨⟨name, first⟩, hrow, rfl⟩, s', hrun, hrows⟩
  · have hnone : firstPassword h.past username = none := by
      cases hfirst : firstPassword h.past username with
      | none => rfl
      | some first => exact absurd rfl (hfree _ ((hk.stored username first).mpr hfirst))
    have hfirst := firstPassword_new h.past password true hnone
    refine ⟨s', true, hrun, ⟨?_, ?_, ?_⟩, iff_of_true rfl fun q hq => ?_⟩
    · have hnames : ∀ a ∈ h.dao.rows.map Row.username, ∀ b ∈ [username], a ≠ b := by
        intro a ha b hb
        obtain ⟨row, hrow, rfl⟩ := List.mem_map.mp ha
        cases List.mem_singleton.mp hb
        exact hfree row hrow
      rw [hrows, List.map_append]
      exact List.nodup_append.mpr ⟨hk.unique, List.nodup_singleton _, hnames⟩
    · intro name q
      rw [hrows, hfirst, List.mem_append, List.mem_singleton, hk.stored, Row.mk.injEq]
      split
      · rename_i hname
        subst hname
        simp [hnone, eq_comm]
      · rename_i hname
        simp [Ne.symm hname]
    · intro name q
      rw [hfirst, registered_append, hk.registered, Prod.mk.injEq, UserCall.register.injEq]
      split
      · rename_i hname
        subst hname
        simp [hnone, eq_comm]
      · rename_i hname
        simp [Ne.symm hname]
    · rw [hk.registered, hnone] at hq
      cases hq
  · have hsome : firstPassword h.past name = some first := (hk.stored name first).mp hrow
    have hfirst := firstPassword_known h.past password false hsome
    refine ⟨s', false, hrun, ⟨hrows ▸ hk.unique, ?_, ?_⟩, iff_of_false nofun fun hnone => ?_⟩
    · intro other q
      rw [hrows, hfirst, hk.stored]
    · intro other q
      rw [hfirst, registered_append, hk.registered]
      exact or_iff_left nofun
    · exact hnone first ((hk.registered name first).mpr hsome)

theorem Kept.login (hk : Kept h) (hs : Short (.login username password)) :
    ∃ dao result, h.dao.perform (.login username password) = .ok (dao, result) ∧
      Kept ⟨h.past ++ [(.login username password, result)], dao⟩ ∧
      (result = true ↔
        ∃ first, firstPassword h.past username = some first ∧ cString first = password) := by
  obtain ⟨result, hrun, hiff⟩ := perform_login hk.unique hs
  have hfirst : ∀ name, firstPassword (h.past ++ [(.login username password, result)]) name =
      firstPassword h.past name := by
    intro name
    rw [firstPassword_append]
    exact Option.or_none
  refine ⟨h.dao, result, hrun, ⟨hk.unique, ?_, ?_⟩, ?_⟩
  · intro name q
    rw [hfirst, hk.stored]
  · intro name q
    rw [hfirst, registered_append, hk.registered]
    exact or_iff_left nofun
  · simp only [hiff, hk.stored]

omit [MySql] in
/-- To stop at the first NUL makes no difference for these passwords only. -/
theorem cString_same {first password : Bytes} :
    (cString first = password ↔ first = password) ↔
      0 ∉ first ∨ (password ≠ first ∧ password ≠ cString first) := by
  rw [← cString_eq_iff]
  grind

theorem perform_ok (hk : Kept h) {call : UserCall} (hs : Short call) :
    ∃ dao result, h.dao.perform call = .ok (dao, result) ∧
      Kept ⟨h.past ++ [(call, result)], dao⟩ ∧ (Answers h.past result call ↔ Sound h.past call) := by
  cases call with
  | register username password =>
    obtain ⟨dao, result, hrun, hkept, hiff⟩ := hk.register hs
    exact ⟨dao, result, hrun, hkept, iff_of_true hiff trivial⟩
  | login username password =>
    obtain ⟨dao, result, hrun, hkept, hiff⟩ := hk.login hs
    refine ⟨dao, result, hrun, hkept, ?_⟩
    rw [Answers, hiff, hk.registered, Sound]
    simp only [← cString_same]
    cases firstPassword h.past username with
    | none => simp
    | some first => simp

/-- Every history of calls one after the other, and one more call: it returns,
and its result is the expected one exactly if it is no login that depends on
what is behind a NUL in the password registered. -/
theorem logins_match_iff (h : Lib.Reach History.step (fun _ call => Short call) .start history)
    {call : UserCall} (hs : Short call) :
    ∃ dao result, history.dao.perform call = .ok (dao, result) ∧
      (Answers history.past result call ↔ Sound history.past call) := by
  have hpreserved : Lib.Preserves History.step (fun _ call => Short call) Kept := by
    intro h call h' hk hs hstep
    obtain ⟨dao, result, hrun, hkept, -⟩ := perform_ok hk hs
    rw [History.step, hrun] at hstep
    cases hstep
    exact hkept
  obtain ⟨dao, result, hrun, -, hiff⟩ := perform_ok (h.invariant hpreserved start_kept) hs
  exact ⟨dao, result, hrun, hiff⟩

end Sequential

section Served

attribute [local instance] singleByte

theorem registered_reach (hs : Short (.register username password))
    (hrun : History.start.step (.register username password) = .ok h) :
    Lib.Reach History.step (fun _ call => Short call) .start h := .next .start hs hrun

theorem logins_match_iff_example : ∃ history,
    History.start.step (.register [98] [112]) = .ok history ∧
      ∃ dao, history.dao.perform (.login [98] [112]) = .ok (dao, true) := by
  have hrun : ∃ history, History.start.step (.register [98] [112]) = .ok history ∧
      history.past = [(.register [98] [112], true)] := ⟨_, rfl, rfl⟩
  obtain ⟨history, hstep, hpast⟩ := hrun
  obtain ⟨dao, result, hlogin, hiff⟩ :=
    logins_match_iff (registered_reach (by simp [Short]) hstep)
      (show Short (.login [98] [112]) by simp [Short])
  have hsound : Sound history.past (.login [98] [112]) := by
    rw [hpast]
    rintro first ⟨⟩
    exact .inl (by decide)
  have hregistered : Registered history.past [98] [112] := by
    rw [hpast]
    exact List.mem_singleton_self _
  obtain rfl : result = true := (hiff.mpr hsound).mpr hregistered
  exact ⟨history, hstep, dao, hlogin⟩

/-- A password with a NUL in it: who has registered with it cannot log in. -/
theorem nul_password_rejected : ∃ history dao,
    Lib.Reach History.step (fun _ call => Short call) .start history ∧
      Short (.login [98] [112, 0]) ∧ Registered history.past [98] [112, 0] ∧
      history.dao.perform (.login [98] [112, 0]) = .ok (dao, false) := by
  have hrun : ∃ history dao, History.start.step (.register [98] [112, 0]) = .ok history ∧
      history.past = [(.register [98] [112, 0], true)] ∧
      history.dao.perform (.login [98] [112, 0]) = .ok (dao, false) := ⟨_, _, rfl, rfl, rfl⟩
  obtain ⟨history, dao, hstep, hpast, hlogin⟩ := hrun
  refine ⟨history, dao, registered_reach (by simp [Short]) hstep, by simp [Short], ?_, hlogin⟩
  rw [hpast]
  exact List.mem_singleton_self _

end Served

end UserDao

end MudouHttp
