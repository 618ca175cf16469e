import PwdManLib.Util.StringOps

/-!
# The calls of `db/database.h`

`authenticateUser` and `createTable`. PostgreSQL is outside: for `authenticateUser` it is a function
from query texts to results, for `createTable` it is the state of the `Users` table together with a
choice of which calls fail. What is only printed is left out, and so is releasing results and
connections, except where a released result is used afterwards.
-/

namespace PwdManLib

open Exec

/-! ## Logging in -/

inductive ExecStatus where
  | commandOk
  | tuplesOk
  | fatalError
  deriving DecidableEq, Repr

/-- A result of `PQexec`: its status, and its values by row and field. -/
structure PGresult where
  status : ExecStatus
  values : List (List Str)
  deriving DecidableEq, Repr

/-- `PQgetvalue`: NULL when there is no such value. -/
def PGresult.getvalue (res : PGresult) (row field : Nat) : Option Str :=
  res.values[row]?.bind fun fields => fields[field]?

/-- The text in front of the user in the query. -/
def statement : Str := lit "SELECT password FROM Users WHERE username='"

/-- The query `authenticateUser` puts together. -/
def authQuery (user : Str) : Str := statement ++ user ++ lit "';"

/-- Returns 0 on success and -1 on failure. A connection that could not be made is `none`; a healthy one
executes queries. -/
def authenticateUser (conn : Option (Str → PGresult)) (user pass : Str) : Exec Int :=
  match conn with
  | none => done (-1)
  | some exec =>
    let res := exec (authQuery user)
    if res.status ≠ .tuplesOk then done (-1)
    else do
      let pass_check ← deref (res.getvalue 0 0)
      if pass = pass_check then done 0 else done (-1)

/-! ## Creating the table -/

/-- A row of `Users`; the password column may hold NULL. -/
abbrev UserRow := Str × Option Str

/-- The `Users` table, if there is one. -/
abbrev Users := Option (List UserRow)

/-- The statements of `createTable`: `DROP TABLE IF EXISTS Users`, `CREATE TABLE Users(username
VARCHAR(20) PRIMARY KEY,password VARCHAR(45))` and `INSERT INTO Users (username,password) VALUES
(...)`. -/
inductive Statement where
  | drop
  | create
  | insert (username password : Str)
  deriving DecidableEq, Repr

/-- The effect of a statement, where it can be carried out: `username` is the primary key. -/
def Statement.apply : Statement → Users → Option Users
  | drop, _ => some none
  | create, none => some (some [])
  | create, some _ => none
  | insert _ _, none => none
  | insert username password, some rows =>
    if username ∈ rows.map Prod.fst then none else some (some (rows ++ [(username, some password)]))

/-- How `getVersion`, called for the debug output, fares on its own connection. -/
inductive VersionOutcome where
  | notConnected
  | queryFailed
  | answered
  deriving DecidableEq, Repr

/-- What goes wrong in a call of `createTable`: its connection, the debug output, and the `PQexec` calls
by number. -/
structure Outcomes where
  connected : Bool
  version : VersionOutcome
  fails : Nat → Bool

/-- When its query fails, `getVersion` releases connection and result a second time behind `failChar`, and
the process dies of it. The version it returns otherwise is printed and nothing else. -/
def printDBInfo (version : VersionOutcome) : Exec Unit :=
  match version with
  | .queryFailed => fault
  | _ => done ()

/-- One `PQexec`: it fails without an effect, or has its effect. -/
def execStatement (fails : Bool) (s : Statement) (db : Users) : Users × ExecStatus :=
  if fails then (db, .fatalError)
  else
    match s.apply db with
    | some db' => (db', .commandOk)
    | none => (db, .fatalError)

/-- Execute statements up to the first that fails; `failInt` returns -1 then. -/
def execStatements (fails : Nat → Bool) : Nat → List Statement → Users → Users × Int
  | _, [], db => (db, 0)
  | k, s :: ss, db =>
    let (db', status) := execStatement (fails k) s db
    if status ≠ .commandOk then (db', -1) else execStatements fails (k + 1) ss db'

/-- The users every new table starts with. -/
def firstUsers : List (Str × Str) :=
  [(lit "foo", lit "bar"), (lit "foofoo", lit "extrabar"), (lit "TheFooestF00", lit "H1gh3stBar")]

/-- Drop the table, create it and add the first users. -/
def tableStatements : List Statement :=
  [.drop, .create] ++ firstUsers.map fun u => .insert u.1 u.2

def createTable (o : Outcomes) (db : Users) : Exec (Users × Int) :=
  if !o.connected then done (db, -1)
  else do
    printDBInfo o.version
    done (execStatements o.fails 0 tableStatements db)

end PwdManLib
