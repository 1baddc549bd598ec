import MudouHttp.Cxx.Machine
import MudouHttp.Lib.Reach

/-!
# Registering and logging in

`UserDao::Register` and `UserDao::Login` of `mysql/User.cpp`. Any number of
threads are inside `Register` at once, each on its own connection; every
`mysql_query` is one step. libmysqlclient and the server are a parameter
(`MySql`). Whether the pool has a connection, a statement succeeds and its
result can be stored comes with each event; a statement that fails changes
nothing.
-/

namespace MudouHttp

structure Row where
  username : Bytes
  password : Bytes
  deriving DecidableEq, Repr

/-- Where a call of `Register` is. The escaped texts are its local arrays. -/
inductive Registering
  | entered
  | connected (escUsername escPassword : Bytes)
  | checked (escUsername escPassword : Bytes)
  | returned (result : Bool)
  deriving DecidableEq, Repr

structure RegisterCall where
  username : Bytes
  password : Bytes
  state : Registering
  deriving DecidableEq, Repr

structure UserDao where
  rows : List Row
  calls : List RegisterCall
  deriving DecidableEq, Repr

-- ---------------------------------------------------------------------------
-- Texts
-- ---------------------------------------------------------------------------

/-- The array `char[256]` holds a text and the NUL behind it. -/
def intoArray (text : Bytes) : Except Fault Bytes :=
  if text.length < 256 then .ok text else .error .outOfBounds

/-- The text a `char*` stands for. -/
def cString (text : Bytes) : Bytes := text.takeWhile fun b => b ≠ 0

-- ---------------------------------------------------------------------------
-- Statements
-- ---------------------------------------------------------------------------

namespace UserDao

def checkSql (escUsername : Bytes) : Bytes :=
  bytes "SELECT username FROM user WHERE username = '" ++ cString escUsername ++ bytes "';"

def insertSql (escUsername escPassword : Bytes) : Bytes :=
  bytes "INSERT INTO user(username, password) VALUES('" ++ cString escUsername ++ bytes "', '" ++
    cString escPassword ++ bytes "');"

def querySql (escUsername : Bytes) : Bytes :=
  bytes "SELECT password FROM user WHERE username = '" ++ cString escUsername ++ bytes "';"

def named (username : Bytes) (row : Row) : Bool := row.username == username

end UserDao

open UserDao (named checkSql insertSql querySql)

/-- What is behind `mysql.h`. The table `user` is a bag of rows without
constraints, bytes are stored and compared as they are, and between quotes an
escaped text stands for the text. -/
class MySql where
  /-- `mysql_real_escape_string`. -/
  escape : Bytes → Bytes
  /-- The first column of the rows that a `SELECT` finds in the table. -/
  select : List Row → Bytes → List Bytes
  /-- The table after an `INSERT`. -/
  insert : List Row → Bytes → List Row
  escape_length (text : Bytes) : (escape text).length ≤ 2 * text.length
  select_check (rows : List Row) (username : Bytes) :
    select rows (checkSql (escape username)) = (rows.filter (named username)).map Row.username
  select_query (rows : List Row) (username : Bytes) :
    select rows (querySql (escape username)) = (rows.filter (named username)).map Row.password
  insert_row (rows : List Row) (username password : Bytes) :
    insert rows (insertSql (escape username) (escape password)) = rows ++ [⟨username, password⟩]

namespace UserDao

open MySql (escape)

variable [MySql]

-- ---------------------------------------------------------------------------
-- Register
-- ---------------------------------------------------------------------------

def enter (c : RegisterCall) (connected : Bool) : Except Fault Registering :=
  if c.username = [] ∨ c.password = [] then .ok (.returned false)
  else if connected then do
    let escUsername ← intoArray (escape c.username)
    let escPassword ← intoArray (escape c.password)
    pure (.connected escUsername escPassword)
  else .ok (.returned false)

/-- The query for the username; without a stored result the name counts as
free. -/
def check (rows : List Row) (c : RegisterCall) (escUsername escPassword : Bytes)
    (queried stored : Bool) : Except Fault Registering :=
  if queried then
    if stored ∧ MySql.select rows (checkSql escUsername) ≠ [] then do
      let _ ← intoArray (bytes "Register failed: username " ++ cString c.username ++
        bytes " already exists")
      pure (.returned false)
    else .ok (.checked escUsername escPassword)
  else .ok (.returned false)

def insert (rows : List Row) (c : RegisterCall) (escUsername escPassword : Bytes)
    (queried : Bool) : Except Fault (List Row × Registering) :=
  if queried then do
    let _ ← intoArray (bytes "Register success: username = " ++ cString c.username)
    pure (MySql.insert rows (insertSql escUsername escPassword), .returned true)
  else .ok (rows, .returned false)

inductive Event
  | register (username password : Bytes)
  | enter (i : Nat) (connected : Bool)
  | check (i : Nat) (queried stored : Bool)
  | insert (i : Nat) (queried : Bool)
  deriving DecidableEq

def move (s : UserDao) (i : Nat) (c : RegisterCall) (state : Registering) : UserDao :=
  { s with calls := s.calls.set i { c with state := state } }

/-- An event that is not due changes nothing. -/
def step (s : UserDao) : Event → Except Fault UserDao
  | .register username password =>
    .ok { s with calls := s.calls ++ [{ username, password, state := .entered }] }
  | .enter i connected =>
    match s.calls[i]? with
    | some c =>
      match c.state with
      | .entered => do pure (s.move i c (← enter c connected))
      | _ => .ok s
    | none => .ok s
  | .check i queried stored =>
    match s.calls[i]? with
    | some c =>
      match c.state with
      | .connected escUsername escPassword => do
        pure (s.move i c (← check s.rows c escUsername escPassword queried stored))
      | _ => .ok s
    | none => .ok s
  | .insert i queried =>
    match s.calls[i]? with
    | some c =>
      match c.state with
      | .checked escUsername escPassword => do
        let (rows, state) ← insert s.rows c escUsername escPassword queried
        pure ({ s with rows := rows }.move i c state)
      | _ => .ok s
    | none => .ok s

-- ---------------------------------------------------------------------------
-- Login
-- ---------------------------------------------------------------------------

def login (rows : List Row) (username password : Bytes) (connected queried stored : Bool) :
    Except Fault Bool :=
  if username = [] ∨ password = [] then .ok false
  else if connected then do
    let escUsername ← intoArray (escape username)
    if queried ∧ stored then
      match MySql.select rows (querySql escUsername) with
      | [first] =>
        if cString first = password then do
          let _ ← intoArray (bytes "Login success: username = " ++ cString username)
          pure true
        else do
          let _ ← intoArray (bytes "Login failed: password incorrect for " ++ cString username)
          pure false
      | _ => do
        let _ ← intoArray (bytes "Login failed: username " ++ cString username ++
          bytes " not exists")
        pure false
    else .ok false
  else .ok false

end UserDao

end MudouHttp
