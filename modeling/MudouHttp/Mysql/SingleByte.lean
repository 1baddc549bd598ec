import Mathlib.Data.List.TakeWhile
import MudouHttp.Mysql.UserDao

/-!
# A server with a single-byte character set

The parameter `MySql` has a value: a client that escapes byte by byte, and a
server that reads the statements of `mysql/User.cpp` and nothing else.
-/

namespace MudouHttp

namespace UserDao

theorem cString_eq_iff : cString text = text ↔ 0 ∉ text := by
  rw [cString, List.takeWhile_eq_self_iff]
  constructor
  · intro h hmem
    simpa using h 0 hmem
  · intro h b hb
    simpa using fun hz : b = 0 => h (hz ▸ hb)

end UserDao

namespace SingleByte

open UserDao (named checkSql insertSql querySql)

def escapeByte (b : UInt8) : Bytes :=
  if b = 0 then [92, 48]
  else if b = 10 then [92, 110]
  else if b = 13 then [92, 114]
  else if b = 26 then [92, 90]
  else if b = 34 ∨ b = 39 ∨ b = 92 then [92, b]
  else [b]

def escape (text : Bytes) : Bytes := text.flatMap escapeByte

def unescapeByte (c : UInt8) : UInt8 :=
  if c = 48 then 0 else if c = 110 then 10 else if c = 114 then 13 else if c = 90 then 26 else c

/-- The text of a literal, and what is behind its quote. -/
def literal : Bytes → Option (Bytes × Bytes)
  | [] => none
  | [b] => if b = 39 then some ([], []) else none
  | b :: c :: rest =>
    if b = 39 then some ([], c :: rest)
    else if b = 92 then (literal rest).map fun (text, rest) => (unescapeByte c :: text, rest)
    else (literal (c :: rest)).map fun (text, rest) => (b :: text, rest)

/-- What a statement that starts like this goes on with. -/
def after (start sql : Bytes) : Option Bytes :=
  if start <+: sql then some (sql.drop start.length) else none

def select (rows : List Row) (sql : Bytes) : List Bytes :=
  match (after (bytes "SELECT username FROM user WHERE username = '") sql).bind literal with
  | some (username, _) => (rows.filter (named username)).map Row.username
  | none =>
    match (after (bytes "SELECT password FROM user WHERE username = '") sql).bind literal with
    | some (username, _) => (rows.filter (named username)).map Row.password
    | none => []

def insert (rows : List Row) (sql : Bytes) : List Row :=
  match (after (bytes "INSERT INTO user(username, password) VALUES('") sql).bind literal with
  | some (username, rest) =>
    match (after (bytes ", '") rest).bind literal with
    | some (password, _) => rows ++ [{ username, password }]
    | none => rows
  | none => rows

theorem escape_cons (b : UInt8) (text : Bytes) : escape (b :: text) = escapeByte b ++ escape text :=
  rfl

theorem escapeByte_length (b : UInt8) : (escapeByte b).length ≤ 2 := by
  unfold escapeByte
  split_ifs <;> simp

theorem escape_length (text : Bytes) : (escape text).length ≤ 2 * text.length := by
  induction text with
  | nil => exact Nat.le_refl _
  | cons b text ih =>
    have hb := escapeByte_length b
    rw [escape_cons, List.length_append, List.length_cons]
    omega

theorem escapeByte_noNul (b : UInt8) : (0 : UInt8) ∉ escapeByte b := by
  unfold escapeByte
  split_ifs with h0 h10 h13 h26 hquote
  · decide
  · decide
  · decide
  · decide
  · rcases hquote with rfl | rfl | rfl <;> decide
  · exact fun hmem => h0 (List.mem_singleton.mp hmem).symm

theorem cString_escape (text : Bytes) : cString (escape text) = escape text :=
  UserDao.cString_eq_iff.mpr (by simp [escape, escapeByte_noNul])

/-- An escaped byte is read back, in front of anything that closes the literal. -/
theorem literal_escapeByte (b : UInt8) {rest : Bytes} (hrest : rest ≠ []) :
    literal (escapeByte b ++ rest) = (literal rest).map fun (text, left) => (b :: text, left) := by
  obtain ⟨c, rest, rfl⟩ := List.exists_cons_of_ne_nil hrest
  unfold escapeByte
  split
  · rename_i h
    simp [literal, unescapeByte, h]
  split
  · rename_i h
    simp [literal, unescapeByte, h]
  split
  · rename_i h
    simp [literal, unescapeByte, h]
  split
  · rename_i h
    simp [literal, unescapeByte, h]
  split
  · rename_i h
    rcases h with rfl | rfl | rfl <;> rfl
  · rename_i h
    obtain ⟨-, h39, h92⟩ := not_or.mp h |>.imp id not_or.mp
    simp [literal, h39, h92]

theorem literal_escape (text rest : Bytes) :
    literal (escape text ++ 39 :: rest) = some (text, rest) := by
  induction text with
  | nil =>
    cases rest with
    | nil => rfl
    | cons c rest => rfl
  | cons b text ih =>
    rw [escape_cons, List.append_assoc, literal_escapeByte b (by simp), ih]
    rfl

theorem after_append (start rest : Bytes) : after start (start ++ rest) = some rest := by
  rw [after, if_pos (List.prefix_append ..), List.drop_left]

theorem after_other (rest : Bytes) (hlen : start.length ≤ start'.length) (hne : ¬start <+: start') :
    after start (start' ++ rest) = none :=
  if_neg fun h => hne (List.prefix_of_prefix_length_le h (List.prefix_append ..) hlen)

theorem select_check (rows : List Row) (username : Bytes) :
    select rows (checkSql (escape username)) = (rows.filter (named username)).map Row.username := by
  rw [checkSql, cString_escape, List.append_assoc, select, after_append, Option.bind_some,
    show bytes "';" = 39 :: bytes ";" by decide, literal_escape]

theorem select_query (rows : List Row) (username : Bytes) :
    select rows (querySql (escape username)) = (rows.filter (named username)).map Row.password := by
  rw [querySql, cString_escape, List.append_assoc, select,
    after_other _ (by decide) (by decide +kernel), after_append, Option.bind_some,
    show bytes "';" = 39 :: bytes ";" by decide, literal_escape]
  rfl

theorem insert_row (rows : List Row) (username password : Bytes) :
    insert rows (insertSql (escape username) (escape password)) =
      rows ++ [⟨username, password⟩] := by
  have hbetween : bytes "', '" = 39 :: bytes ", '" := by decide
  have hend : bytes "');" = 39 :: bytes ");" := by decide
  simp only [insertSql, cString_escape, List.append_assoc, insert, after_append, Option.bind_some,
    hbetween, hend, List.cons_append, literal_escape]

end SingleByte

/-- Reducible, so that runs over it can be evaluated. -/
@[reducible] def singleByte : MySql :=
  { escape := SingleByte.escape
    select := SingleByte.select
    insert := SingleByte.insert
    escape_length := SingleByte.escape_length
    select_check := SingleByte.select_check
    select_query := SingleByte.select_query
    insert_row := SingleByte.insert_row }

end MudouHttp
