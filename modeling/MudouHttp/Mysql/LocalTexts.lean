import MudouHttp.Cxx.Text
import MudouHttp.Mysql.Usernames

/-!
# The local arrays of Register and Login

A call escapes the username and the password into arrays of 256 characters, and
formats log lines with the username in others. `register_ok_iff` and
`login_ok_iff`: a call goes well exactly if all these texts fit. How long the
username may be for that depends on the line (`registerTexts_fit`,
`loginTexts_fit`). The messages of `mysql_error` quote nothing of a request and
are left out.
-/

namespace MudouHttp

/-- How the database answers one call: the two queries of `Register` or the one
of `Login`, and the table at the first of them. -/
structure Database where
  connected : Bool
  queried : Bool
  stored : Bool
  inserted : Bool
  rows : List Row

namespace UserDao

open MySql (escape)

variable [MySql]

-- ---------------------------------------------------------------------------
-- The texts
-- ---------------------------------------------------------------------------

/-- The log line `Register` ends with. -/
def registerLine (db : Database) (username : Bytes) : List ArrayText :=
  if db.queried then
    if db.stored ∧ MySql.select db.rows (checkSql (escape username)) ≠ [] then
      [⟨256, bytes "Register failed: username " ++ cString username ++ bytes " already exists"⟩]
    else if db.inserted then [⟨256, bytes "Register success: username = " ++ cString username⟩]
    else []
  else []

def registerTexts (db : Database) (username password : Bytes) : List ArrayText :=
  if username = [] ∨ password = [] then []
  else if db.connected then
    [⟨256, escape username⟩, ⟨256, escape password⟩] ++ registerLine db username
  else []

/-- The log line `Login` ends with. -/
def loginLine (db : Database) (username password : Bytes) : List ArrayText :=
  if db.queried ∧ db.stored then
    match MySql.select db.rows (querySql (escape username)) with
    | [first] =>
      if cString first = password then
        [⟨256, bytes "Login success: username = " ++ cString username⟩]
      else [⟨256, bytes "Login failed: password incorrect for " ++ cString username⟩]
    | _ => [⟨256, bytes "Login failed: username " ++ cString username ++ bytes " not exists"⟩]
  else []

def loginTexts (db : Database) (username password : Bytes) : List ArrayText :=
  if username = [] ∨ password = [] then []
  else if db.connected then ⟨256, escape username⟩ :: loginLine db username password
  else []

/-- A call of `Register` that no other call comes between. -/
def register (db : Database) (username password : Bytes) : Except Fault Bool := do
  let c : RegisterCall := { username, password, state := .entered }
  match ← enter c db.connected with
  | .connected escUsername escPassword =>
    match ← check db.rows c escUsername escPassword db.queried db.stored with
    | .checked escUsername escPassword =>
      let (_, state) ← insert db.rows c escUsername escPassword db.inserted
      pure (state = .returned true)
    | _ => pure false
  | _ => pure false

omit [MySql] in
theorem intoArray_then {f : Bytes → Except Fault α} : (∃ a, (intoArray text >>= f) = .ok a) ↔
    (ArrayText.mk 256 text).Fits ∧ ∃ a, f text = .ok a := by
  constructor
  · rintro ⟨a, h⟩
    obtain ⟨arr, harr, hrest⟩ := bind_ok h
    obtain ⟨rfl, hlt⟩ := intoArray_ok harr
    exact ⟨hlt, a, hrest⟩
  · rintro ⟨hfits, a, h⟩
    have harr : intoArray text = .ok text := if_pos hfits
    exact ⟨a, by rw [harr, ok_bind, h]⟩

omit [MySql] in
/-- A log line is the last thing a call writes. -/
theorem line_ok_iff (b : α) : (∃ a, (intoArray text >>= fun _ => pure b) = .ok a) ↔
    ∀ t ∈ [ArrayText.mk 256 text], t.Fits := by
  rw [intoArray_then, List.forall_mem_singleton]
  exact and_iff_left ⟨b, rfl⟩

theorem login_ok_iff (db : Database) (username password : Bytes) :
    (∃ b, login db.rows username password db.connected db.queried db.stored = .ok b) ↔
      ∀ t ∈ loginTexts db username password, t.Fits := by
  unfold login loginTexts loginLine
  split
  · exact iff_of_true ⟨_, rfl⟩ nofun
  · split
    · rw [intoArray_then, List.forall_mem_cons]
      refine and_congr_right fun _ => ?_
      split
      · generalize MySql.select db.rows (querySql (escape username)) = found
        match found with
        | [] => exact line_ok_iff false
        | [first] =>
          dsimp only
          split
          · exact line_ok_iff true
          · exact line_ok_iff false
        | _ :: _ :: _ => exact line_ok_iff false
      · exact iff_of_true ⟨_, rfl⟩ nofun
    · exact iff_of_true ⟨_, rfl⟩ nofun

theorem register_ok_iff (db : Database) (username password : Bytes) :
    (∃ b, register db username password = .ok b) ↔
      ∀ t ∈ registerTexts db username password, t.Fits := by
  unfold register registerTexts registerLine enter
  dsimp only
  split
  · exact iff_of_true ⟨false, rfl⟩ nofun
  · split
    · simp only [bind_assoc, pure_bind]
      rw [intoArray_then, intoArray_then, ← and_assoc, List.forall_mem_append]
      refine and_congr (by simp) ?_
      unfold check insert
      split
      · split
        · simp only [bind_assoc, pure_bind]
          exact line_ok_iff false
        · split
          · simp only [ok_bind, bind_assoc, pure_bind]
            exact line_ok_iff _
          · exact iff_of_true ⟨false, rfl⟩ nofun
      · exact iff_of_true ⟨false, rfl⟩ nofun
    · exact iff_of_true ⟨false, rfl⟩ nofun

-- ---------------------------------------------------------------------------
-- How long they may be
-- ---------------------------------------------------------------------------

def Escapes (text : Bytes) : Prop := (escape text).length ≤ 255

theorem escaped_fits (text : Bytes) : (ArrayText.mk 256 (escape text)).Fits ↔ Escapes text :=
  Nat.succ_le_succ_iff

structure RegisterShort (db : Database) (username password : Bytes) : Prop where
  escUsername : Escapes username
  escPassword : Escapes password
  taken : db.queried = true → db.stored = true ∧ (∃ row ∈ db.rows, row.username = username) →
    (cString username).length ≤ 214
  added : db.queried = true → ¬(db.stored = true ∧ ∃ row ∈ db.rows, row.username = username) →
    db.inserted = true → (cString username).length ≤ 226

/-- How long the username may be in the line `Login` ends with. -/
def loginRoom (rows : List Row) (username password : Bytes) : Nat :=
  match rows.filter (named username) with
  | [row] => if cString row.password = password then 229 else 218
  | _ => 221

structure LoginShort (db : Database) (username password : Bytes) : Prop where
  escUsername : Escapes username
  line : db.queried = true → db.stored = true →
    (cString username).length ≤ loginRoom db.rows username password

omit [MySql] in
theorem quoted_fits (room : Nat) {before after : Bytes}
    (hsize : before.length + after.length + room = 255) :
    (∀ t ∈ [ArrayText.mk 256 (before ++ name ++ after)], t.Fits) ↔ name.length ≤ room := by
  simp only [List.mem_singleton, forall_eq, ArrayText.Fits, List.length_append]
  omega

omit [MySql] in
theorem prefix_fits (room : Nat) {before : Bytes} (hsize : before.length + room = 255) :
    (∀ t ∈ [ArrayText.mk 256 (before ++ name)], t.Fits) ↔ name.length ≤ room := by
  have hline : (∀ t ∈ [ArrayText.mk 256 (before ++ name ++ [])], t.Fits) ↔ name.length ≤ room :=
    quoted_fits room hsize
  rwa [List.append_nil] at hline

theorem select_taken (rows : List Row) (username : Bytes) :
    MySql.select rows (checkSql (escape username)) ≠ [] ↔ ∃ row ∈ rows, row.username = username := by
  rw [ne_eq, check_nil]
  simp

theorem registerLine_fits (db : Database) (username : Bytes) :
    (∀ t ∈ registerLine db username, t.Fits) ↔
      (db.queried = true → db.stored = true ∧ (∃ row ∈ db.rows, row.username = username) →
        (cString username).length ≤ 214) ∧
      (db.queried = true → ¬(db.stored = true ∧ ∃ row ∈ db.rows, row.username = username) →
        db.inserted = true → (cString username).length ≤ 226) := by
  unfold registerLine
  simp only [select_taken]
  split
  · rename_i hqueried
    split
    · rename_i htaken
      rw [quoted_fits 214 (by decide)]
      exact ⟨fun h => ⟨fun _ _ => h, fun _ hfree => absurd htaken hfree⟩,
        fun h => h.1 hqueried htaken⟩
    · rename_i hfree
      split
      · rename_i hinserted
        rw [prefix_fits 226 (by decide)]
        exact ⟨fun h => ⟨fun _ htaken => absurd htaken hfree, fun _ _ _ => h⟩,
          fun h => h.2 hqueried hfree hinserted⟩
      · rename_i hfailed
        exact iff_of_true nofun
          ⟨fun _ htaken => absurd htaken hfree, fun _ _ hinserted => absurd hinserted hfailed⟩
  · rename_i hfailed
    exact iff_of_true nofun
      ⟨fun hqueried => absurd hqueried hfailed, fun hqueried => absurd hqueried hfailed⟩

theorem registerTexts_fit (db : Database) (username password : Bytes) :
    (∀ t ∈ registerTexts db username password, t.Fits) ↔
      (username ≠ [] → password ≠ [] → db.connected = true → RegisterShort db username password) := by
  unfold registerTexts
  split
  · rename_i hempty
    exact iff_of_true nofun fun hu hp => absurd hempty (not_or.mpr ⟨hu, hp⟩)
  rename_i hnames
  obtain ⟨hu, hp⟩ := not_or.mp hnames
  split
  · rename_i hconnected
    simp only [List.cons_append, List.nil_append, List.forall_mem_cons, registerLine_fits,
      escaped_fits]
    constructor
    · rintro ⟨hesc, hesc', htaken, hadded⟩ _ _ _
      exact ⟨hesc, hesc', htaken, hadded⟩
    · intro h
      obtain ⟨hesc, hesc', htaken, hadded⟩ := h hu hp hconnected
      exact ⟨hesc, hesc', htaken, hadded⟩
  · rename_i hconnected
    exact iff_of_true nofun fun _ _ hc => absurd hc hconnected

theorem loginLine_fits (db : Database) (username password : Bytes) :
    (∀ t ∈ loginLine db username password, t.Fits) ↔
      (db.queried = true → db.stored = true →
        (cString username).length ≤ loginRoom db.rows username password) := by
  unfold loginLine loginRoom
  rw [MySql.select_query]
  generalize db.rows.filter (named username) = found
  split
  · rename_i hanswered
    have hline : ∀ room, (cString username).length ≤ room ↔
        (db.queried = true → db.stored = true → (cString username).length ≤ room) :=
      fun room => ⟨fun h _ _ => h, fun h => h hanswered.1 hanswered.2⟩
    rw [← hline]
    match found with
    | [] => exact quoted_fits 221 (by decide)
    | [row] =>
      dsimp only [List.map]
      split
      · exact prefix_fits _ (by decide)
      · exact prefix_fits _ (by decide)
    | _ :: _ :: _ => exact quoted_fits 221 (by decide)
  · rename_i hfailed
    exact iff_of_true nofun fun hqueried hstored => absurd ⟨hqueried, hstored⟩ hfailed

theorem loginTexts_fit (db : Database) (username password : Bytes) :
    (∀ t ∈ loginTexts db username password, t.Fits) ↔
      (username ≠ [] → password ≠ [] → db.connected = true → LoginShort db username password) := by
  unfold loginTexts
  split
  · rename_i hempty
    exact iff_of_true nofun fun hu hp => absurd hempty (not_or.mpr ⟨hu, hp⟩)
  rename_i hnames
  obtain ⟨hu, hp⟩ := not_or.mp hnames
  split
  · rename_i hconnected
    rw [List.forall_mem_cons, loginLine_fits, escaped_fits]
    exact ⟨fun h _ _ _ => ⟨h.1, h.2⟩, fun h => ⟨(h hu hp hconnected).1, (h hu hp hconnected).2⟩⟩
  · rename_i hconnected
    exact iff_of_true nofun fun _ _ hc => absurd hc hconnected

end UserDao

end MudouHttp
