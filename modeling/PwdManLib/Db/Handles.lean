import PwdManLib.Lib.Typestate
import PwdManLib.Db.Database

/-!
# The connections and results of `db/database.h`

The five functions that talk to PostgreSQL, seen through what they do to the connections and results of
libpq: a run logs every connection and result it is handed, uses and releases. What the calls of
`PQconnectdb` and `PQexec` return is open (`Libpq`); what is done with something released is logged like
everything else, and the run goes on: where the process dies of it is said for the calls of a process, in
`OpenHandles`. Pointers into a result count as the result: who reads the text, or is handed the pointer,
uses the result.
-/

namespace PwdManLib.Pg

open Event

/-! ## The calls of libpq -/

/-- What libpq hands out; the numbers tell the calls of `PQconnectdb`, or of `PQexec`, apart. -/
inductive Handle where
  | conn (n : Nat)
  | result (n : Nat)
  deriving DecidableEq, Repr

/-- The two states a connection has outside of asynchronous connecting. -/
inductive ConnStatus where
  | ok
  | bad
  deriving DecidableEq, Repr

/-- What the numbered calls return, `PQexec` for the query it is given; `none` is NULL. A status the
code does not ask for is `fatalError`. -/
structure Libpq where
  connect : Nat → Option ConnStatus
  exec : Nat → Str → Option PGresult

/-- A run, and what it does to connections and results. -/
abbrev Run := Trace (Event Handle)

/-- A pointer to a connection or a result, with what is there; `none` is NULL. -/
abbrev Ptr (α : Type) := Option (Handle × α)

/-- A `char *`: NULL, a text of the program, or a text inside a connection or result. -/
inductive CharPtr where
  | null
  | literal (text : Str)
  | inside (h : Handle) (text : Str)
  deriving DecidableEq, Repr

variable {α : Type}

/-- Look at what a pointer points to; NULL is looked at safely. -/
def touch (p : Ptr α) : Run Unit :=
  match p with
  | none => pure ()
  | some (h, _) => Trace.emit (use h)

/-- Release what a pointer points to; nothing is done about NULL. -/
def free (p : Ptr α) : Run Unit :=
  match p with
  | none => pure ()
  | some (h, _) => Trace.emit (release h)

/-- Read a text, as `printf` does. -/
def read (s : CharPtr) : Run Unit :=
  match s with
  | .inside h _ => Trace.emit (use h)
  | _ => pure ()

def PQconnectdb (lib : Libpq) (n : Nat) : Run (Ptr ConnStatus) :=
  match lib.connect n with
  | none => pure none
  | some status => do
    Trace.emit (acquire (.conn n))
    pure (some (.conn n, status))

def PQstatus (conn : Ptr ConnStatus) : Run ConnStatus := do
  touch conn
  pure (match conn with
    | none => .bad
    | some (_, status) => status)

/-- A text kept with the connection. -/
def connText (conn : Ptr ConnStatus) (text : Str) : Run CharPtr := do
  touch conn
  pure (match conn with
    | none => .null
    | some (h, _) => .inside h text)

/-- What the message says is open. -/
def PQerrorMessage (conn : Ptr ConnStatus) : Run CharPtr :=
  match conn with
  | none => pure (.literal (lit "connection pointer is NULL\n"))
  | some _ => connText conn []

def PQuser (conn : Ptr ConnStatus) : Run CharPtr := connText conn (lit "tmp")

def PQdb (conn : Ptr ConnStatus) : Run CharPtr := connText conn (lit "testdb")

def PQpass (conn : Ptr ConnStatus) : Run CharPtr := connText conn (lit "pass")

def PQfinish (conn : Ptr ConnStatus) : Run Unit := free conn

def PQexec (lib : Libpq) (n : Nat) (conn : Ptr ConnStatus) (query : Str) : Run (Ptr PGresult) := do
  touch conn
  match conn, lib.exec n query with
  | none, _ => pure none
  | _, none => pure none
  | some _, some res => do
    Trace.emit (acquire (.result n))
    pure (some (.result n, res))

def PQresultStatus (res : Ptr PGresult) : Run ExecStatus := do
  touch res
  pure (match res with
    | none => .fatalError
    | some (_, r) => r.status)

def PQntuples (res : Ptr PGresult) : Run Nat := do
  touch res
  pure (match res with
    | none => 0
    | some (_, r) => r.values.length)

def PQnfields (res : Ptr PGresult) : Run Nat := do
  touch res
  pure (match res with
    | none => 0
    | some (_, r) => (r.values.headD []).length)

def PQgetvalue (res : Ptr PGresult) (row field : Nat) : Run CharPtr := do
  touch res
  pure (match res with
    | none => .null
    | some (h, r) =>
      match r.getvalue row field with
      | none => .null
      | some text => .inside h text)

def PQclear (res : Ptr PGresult) : Run Unit := free res

/-- `strcmp(pass, s) == 0`: NULL cannot be compared. -/
def sameText (pass : Str) (s : CharPtr) : Run Bool := do
  read s
  match s with
  | .null => Trace.lift .fault
  | .literal text => pure (pass = text)
  | .inside _ text => pure (pass = text)

/-! ## The functions of `db/database.h` -/

def success (conn : Ptr ConnStatus) (res : Ptr PGresult) : Run Int := do
  PQclear res
  PQfinish conn
  pure 0

def failInt (conn : Ptr ConnStatus) (res : Ptr PGresult) : Run Int := do
  PQclear res
  PQfinish conn
  pure (-1)

def failChar (conn : Ptr ConnStatus) (res : Ptr PGresult) : Run CharPtr := do
  PQclear res
  PQfinish conn
  pure (.literal (lit "FAIL"))

/-- What every function does when there is no connection: report the error and finish. -/
def notConnected (conn : Ptr ConnStatus) : Run Unit := do
  read (← PQerrorMessage conn)
  PQfinish conn

/-- How the functions begin: connect, and go on with `body` or give up with `fail`. -/
def withConnection (lib : Libpq) (n : Nat) (fail : α) (body : Ptr ConnStatus → Run α) : Run α := do
  let conn ← PQconnectdb lib n
  let connStatus ← PQstatus conn
  if connStatus = .bad then do
    notConnected conn
    pure fail
  else body conn

def versionQuery : Str := lit "SELECT VERSION()"

def tablesQuery : Str :=
  lit "SELECT table_name FROM information_schema.tables WHERE table_schema = 'public'"

def rowsQuery : Str := lit "SELECT * FROM Users"

/-- On the connection and the result with these numbers. When the query fails, the function goes on
behind `failChar`. -/
def getVersion (lib : Libpq) (c r : Nat) : Run CharPtr :=
  withConnection lib c (.literal (lit "FAIL")) fun conn => do
    let res ← PQexec lib r conn versionQuery
    let status ← PQresultStatus res
    let _ ← if status ≠ .tuplesOk then failChar conn res else pure .null
    let ver ← PQgetvalue res 0 0
    read ver -- DEBUG
    PQclear res
    PQfinish conn
    read ver -- the value is returned
    pure ver

def printDBInfo (lib : Libpq) (conn : Ptr ConnStatus) : Run Unit := do
  let ver ← getVersion lib 2 0
  let user ← PQuser conn
  let db_name ← PQdb conn
  let pswd ← PQpass conn
  read user
  read db_name
  read pswd
  read ver

/-- How the two functions begin that return rows: connect and query, and go on with `body` or give up
with `fail`. -/
def withRows (lib : Libpq) (query : Str) (fail : α) (body : Ptr ConnStatus → Ptr PGresult → Run α) :
    Run α :=
  withConnection lib 0 fail fun conn => do
    let res ← PQexec lib 0 conn query
    let status ← PQresultStatus res
    if status ≠ .tuplesOk then do
      PQclear res
      PQfinish conn
      pure fail
    else body conn res

/-- One round of the loop of `getTables`. -/
def tableRow (res : Ptr PGresult) (i : Nat) : Run CharPtr := do
  let row ← PQgetvalue res i 0
  read row -- DEBUG
  pure row

def getTables (lib : Libpq) : Run (List CharPtr) :=
  withRows lib tablesQuery [.literal (lit "FAIL")] fun conn res => do
    let num_rows ← PQntuples res
    let rows ← (List.range num_rows).mapM (tableRow res)
    PQclear res
    PQfinish conn
    rows.forM read -- the values are returned
    pure rows

structure UserRow where
  user : CharPtr
  pass : CharPtr
  deriving DecidableEq, Repr

def UserRow.read (row : UserRow) : Run Unit := do
  Pg.read row.user
  Pg.read row.pass

/-- One round of the loop of `getTableRows`. -/
def userRow (res : Ptr PGresult) (i : Nat) : Run UserRow := do
  let user ← PQgetvalue res i 0
  let pass ← PQgetvalue res i 1
  let row : UserRow := ⟨user, pass⟩
  row.read -- DEBUG
  pure row

/-- The connection is finished when something failed, and not otherwise. -/
def getTableRows (lib : Libpq) : Run (List UserRow) :=
  withRows lib rowsQuery [⟨.literal (lit "FAIL"), .literal (lit "FAIL")⟩] fun _ res => do
    let num_rows ← PQntuples res
    let rows ← (List.range num_rows).mapM (userRow res)
    PQclear res
    rows.forM UserRow.read -- the values are returned
    pure rows

/-- Only the INSERTs report the error of the server. -/
def reportsError : Statement → Bool
  | .insert _ _ => true
  | _ => false

def statementText : Statement → Str
  | .drop => lit "DROP TABLE IF EXISTS Users"
  | .create => lit "CREATE TABLE Users(username VARCHAR(20) PRIMARY KEY,password VARCHAR(45))"
  | .insert username password =>
    lit "INSERT INTO Users (username,password) VALUES ('" ++ username ++ lit "','" ++ password ++ lit "')"

/-- Execute statements up to the first that fails; the results are numbered from `n`. -/
def execAll (lib : Libpq) (conn : Ptr ConnStatus) : Nat → List Statement → Run Int
  | _, [] => do
    PQfinish conn
    pure 0
  | n, s :: ss => do
    let res ← PQexec lib n conn (statementText s)
    let status ← PQresultStatus res
    if status ≠ .commandOk then do
      if reportsError s then read (← PQerrorMessage conn) else pure ()
      failInt conn res
    else do
      PQclear res
      execAll lib conn (n + 1) ss

/-- The connection is made twice; the second one overwrites the first. -/
def createTable (lib : Libpq) : Run Int := do
  let _ ← PQconnectdb lib 0
  let conn ← PQconnectdb lib 1
  let connStatus ← PQstatus conn
  if connStatus ≠ .ok then do
    notConnected conn
    pure (-1)
  else do
    printDBInfo lib conn
    execAll lib conn 1 tableStatements

/-- Returns 0 on success and -1 on failure. -/
def authenticateUser (lib : Libpq) (user pass : Str) : Run Int :=
  withConnection lib 0 (-1) fun conn => do
    let res ← PQexec lib 0 conn (authQuery user)
    let _ ← PQntuples res
    let _ ← PQnfields res
    let status ← PQresultStatus res
    if status ≠ .tuplesOk then failInt conn res
    else do
      let pass_check ← PQgetvalue res 0 0
      if ← sameText pass pass_check then success conn res
      else do
        PQclear res
        PQfinish conn
        pure (-1)

end PwdManLib.Pg
