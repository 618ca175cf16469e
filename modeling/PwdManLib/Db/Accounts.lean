import PwdManLib.Db.Authenticate
import PwdManLib.Db.CreateTable
import PwdManLib.Lib.Registers

/-!
# Who can log in

`createTable` and `authenticateUser`, called in any order, on the one `Users` table there is. Only the last
`createTable` that got as far as dropping the table counts (`tableAfter_of_last`, `tableAfter_of_never`): behind it
those of its three users can log in that it has added (`admitted_iff`), and whoever else tries ends the process, if
there is a table at all (`login_faults_iff`).
-/

namespace PwdManLib

open Exec Quoted

/-! ## The calls -/

/-- A user name that stands for itself in a query. -/
structure UserName where
  text : Str
  noQuote : quote ∉ text
  noBackslash : backslash ∉ text

/-- The rows a query for a user selects; NULL is read as the empty text. Without a table the query fails. -/
def selection (db : Users) (user : Str) : PGresult :=
  match db with
  | none => { status := .fatalError, values := [] }
  | some rows =>
    { status := .tuplesOk
      values := (rows.filter fun row => row.1 = user).map fun row => [row.2.getD []] }

/-- PostgreSQL with the `Users` table as its state: a query for a user selects, and changes nothing. What any other
text does is open. -/
structure Postgres where
  exec : Users → Str → Users × PGresult
  selects : ∀ (db : Users) (user : UserName), exec db (authQuery user.text) = (db, selection db user.text)

inductive DbCall where
  | createTable (o : Outcomes)
  | authenticateUser (connected : Bool) (user : UserName) (pass : Str)

variable (pg : Postgres)

/-- The server on the other side of a connection. -/
def Postgres.conn (db : Users) (connected : Bool) : Option (Str → PGresult) :=
  if connected then some fun query => (pg.exec db query).2 else none

/-- A call: the table behind it, and its answer. A `createTable` that faults does so in front of its statements. -/
def dbStep (db : Users) : DbCall → Users × Exec Int
  | .createTable o =>
    match createTable o db with
    | done (db', status) => (db', done status)
    | fault => (db, fault)
    | running => (db, running)
  | .authenticateUser connected user pass =>
    ((if connected then (pg.exec db (authQuery user.text)).1 else db),
      authenticateUser (pg.conn db connected) user.text pass)

/-- The table behind some calls. -/
def tableAfter (db : Users) (calls : List DbCall) : Users := calls.foldl (fun db call => (dbStep pg db call).1) db

/-! ## How far `createTable` gets -/

/-- The number of statements in front of the first that fails. -/
def carriedOut (fails : Nat → Bool) : Nat → List Statement → Nat
  | _, [] => 0
  | k, _ :: ss => if fails k then 0 else carriedOut fails (k + 1) ss + 1

/-- The number of its statements a `createTable` carries out, once it comes to them. -/
def Outcomes.carried (o : Outcomes) : Nat := carriedOut o.fails 0 tableStatements

/-- The call gets as far as dropping the table. -/
def Outcomes.Rebuilds (o : Outcomes) : Prop :=
  o.connected = true ∧ o.version ≠ .queryFailed ∧ o.fails 0 = false

instance (o : Outcomes) : Decidable o.Rebuilds := by
  unfold Outcomes.Rebuilds
  infer_instance

theorem carriedOut_le (fails : Nat → Bool) (k : Nat) (ss : List Statement) : carriedOut fails k ss ≤ ss.length := by
  induction ss generalizing k with
  | nil => exact Nat.le_refl 0
  | cons s ss ih =>
    rw [carriedOut, List.length_cons]
    split_ifs
    · exact Nat.zero_le _
    · exact Nat.succ_le_succ (ih (k + 1))

theorem applyAll_execStatements {fails : Nat → Bool} {k : Nat} {ss : List Statement} {db db' : Users}
    (h : applyAll ss db = some db') :
    applyAll (ss.take (carriedOut fails k ss)) db = some (execStatements fails k ss db).1 := by
  induction ss generalizing k db with
  | nil => rfl
  | cons s ss ih =>
    rw [applyAll, List.foldlM_cons, Option.bind_eq_bind, Option.bind_eq_some_iff] at h
    obtain ⟨db₁, hs, hrest⟩ := h
    rw [execStatements, carriedOut, execStatement]
    cases hfails : fails k with
    | true => rfl
    | false =>
      have htail : applyAll (s :: ss.take (carriedOut fails (k + 1) ss)) db =
          applyAll (ss.take (carriedOut fails (k + 1) ss)) db₁ := by
        rw [applyAll, List.foldlM_cons, hs]
        rfl
      simp only [Bool.false_eq_true, if_false, hs, ne_eq, not_true_eq_false, List.take_succ_cons, htail]
      exact ih hrest

theorem applyAll_take_tableStatements (db : Users) {k : Nat} (hk : k ≤ 5) :
    applyAll (tableStatements.take k) db = some (usersAfter db k) := by
  rcases Nat.lt_or_eq_of_le hk with hlt | rfl
  · exact (usersAfter_spec db k hlt).1
  · rfl

theorem execStatements_table (fails : Nat → Bool) (db : Users) :
    (execStatements fails 0 tableStatements db).1 = usersAfter db (carriedOut fails 0 tableStatements) := by
  have hall : applyAll tableStatements db = some (usersAfter db 5) := applyAll_take_tableStatements db (Nat.le_refl 5)
  have hle : carriedOut fails 0 tableStatements ≤ 5 := carriedOut_le fails 0 tableStatements
  exact Option.some.inj ((applyAll_execStatements hall).symm.trans (applyAll_take_tableStatements db hle))

theorem usersAfter_of_pos {k : Nat} (hk : 0 < k) (db db' : Users) : usersAfter db k = usersAfter db' k := by
  match k, hk with
  | 1, _ => rfl
  | k + 2, _ => rfl

theorem Outcomes.Rebuilds.carried_pos {o : Outcomes} (h : o.Rebuilds) : 0 < o.carried := by
  obtain ⟨-, -, hdrop⟩ := h
  show 0 < if o.fails 0 then 0 else _ + 1
  rw [hdrop]
  exact Nat.succ_pos _

theorem table_of_not_rebuilds {o : Outcomes} (h : ¬ o.Rebuilds) (db : Users) :
    (dbStep pg db (.createTable o)).1 = db := by
  rw [dbStep, createTable]
  cases hconn : o.connected with
  | false => rfl
  | true =>
    by_cases hversion : o.version = .queryFailed
    · simp [hversion, printDBInfo]
    · have hdrop : o.fails 0 = true := by
        rw [Outcomes.Rebuilds] at h
        simpa [hconn, hversion] using h
      have hcarried : o.carried = 0 := if_pos hdrop
      cases hv : o.version with
      | queryFailed => exact absurd hv hversion
      | notConnected => exact (execStatements_table o.fails db).trans (congrArg (usersAfter db) hcarried)
      | answered => exact (execStatements_table o.fails db).trans (congrArg (usersAfter db) hcarried)

theorem table_of_rebuilds {o : Outcomes} (h : o.Rebuilds) (db : Users) :
    (dbStep pg db (.createTable o)).1 = usersAfter none o.carried := by
  obtain ⟨hconn, hversion, -⟩ := id h
  rw [dbStep, createTable, hconn, ← usersAfter_of_pos h.carried_pos db]
  cases hv : o.version with
  | queryFailed => exact absurd hv hversion
  | notConnected => exact execStatements_table o.fails db
  | answered => exact execStatements_table o.fails db

/-! ## The table behind a history -/

/-- The call drops the table. -/
def DbCall.Rebuilds : DbCall → Prop
  | .createTable o => o.Rebuilds
  | .authenticateUser _ _ _ => False

instance (call : DbCall) : Decidable call.Rebuilds := by
  cases call <;> unfold DbCall.Rebuilds <;> infer_instance

/-- The table a call leaves behind, if it drops the one there is. -/
def DbCall.rebuilt : DbCall → Users
  | .createTable o => usersAfter none o.carried
  | .authenticateUser _ _ _ => none

theorem table_of_call_rebuilds {call : DbCall} (h : call.Rebuilds) (db : Users) :
    (dbStep pg db call).1 = call.rebuilt := by
  cases call with
  | createTable o => exact table_of_rebuilds pg h db
  | authenticateUser connected user pass => exact h.elim

theorem table_of_call_not_rebuilds {call : DbCall} (h : ¬ call.Rebuilds) (db : Users) :
    (dbStep pg db call).1 = db := by
  cases call with
  | createTable o => exact table_of_not_rebuilds pg h db
  | authenticateUser connected user pass =>
    show (if connected then (pg.exec db (authQuery user.text)).1 else db) = db
    rw [pg.selects, ite_self]

/-- The table as a register that is written by the calls that drop it; the others write nothing that is there. -/
def usersRegister : RegisterFile Users DbCall Bool Users where
  step db call := (dbStep pg db call).1
  get i db := if i then db else none
  target call := decide call.Rebuilds
  value call _ := if call.Rebuilds then call.rebuilt else none
  get_target db call := by
    by_cases h : call.Rebuilds
    · simp [h, table_of_call_rebuilds pg h]
    · simp [h]
  get_other db call i hi := by
    by_cases h : call.Rebuilds
    · have hfalse : i = false := by simpa [h] using hi
      rw [hfalse]
      rfl
    · rw [table_of_call_not_rebuilds pg h]

theorem target_usersRegister (call : DbCall) : (usersRegister pg).target call = true ↔ call.Rebuilds :=
  decide_eq_true_iff

/-- **Only the last rebuilding counts.** -/
theorem tableAfter_of_last (db : Users) (front : List DbCall) {call : DbCall} (hcall : call.Rebuilds)
    {back : List DbCall} (hback : ∀ c ∈ back, ¬ c.Rebuilds) :
    tableAfter pg db (front ++ call :: back) = call.rebuilt := by
  have htarget := (target_usersRegister pg call).mpr hcall
  have hbehind : ∀ c ∈ back, (usersRegister pg).target c ≠ (usersRegister pg).target call := by
    intro c hc heq
    exact hback c hc ((target_usersRegister pg c).mp (heq.trans htarget))
  have hlast := (usersRegister pg).get_run_last db front call hbehind
  rw [htarget] at hlast
  exact hlast.trans (if_pos hcall)

theorem tableAfter_of_never {db : Users} {calls : List DbCall} (h : ∀ c ∈ calls, ¬ c.Rebuilds) :
    tableAfter pg db calls = db := by
  apply (usersRegister pg).get_run_of_untouched (i := true)
  intro c hc heq
  exact h c hc ((target_usersRegister pg c).mp heq)

/-- The last call that drops the table is a `createTable`. -/
def LastRebuild (calls : List DbCall) (o : Outcomes) : Prop :=
  ∃ front back, calls = front ++ .createTable o :: back ∧ o.Rebuilds ∧ ∀ c ∈ back, ¬ c.Rebuilds

theorem history_cases (calls : List DbCall) : (∀ c ∈ calls, ¬ c.Rebuilds) ∨ ∃ o, LastRebuild calls o := by
  induction calls with
  | nil => exact .inl (by simp)
  | cons call calls ih =>
    rcases ih with hnever | ⟨o, front, back, rfl, ho, hback⟩
    · by_cases hcall : call.Rebuilds
      · cases call with
        | createTable o => exact .inr ⟨o, [], calls, rfl, hcall, hnever⟩
        | authenticateUser connected user pass => exact hcall.elim
      · exact .inl (List.forall_mem_cons.mpr ⟨hcall, hnever⟩)
    · exact .inr ⟨o, call :: front, back, rfl, ho, hback⟩

theorem LastRebuild.tableAfter_eq {calls : List DbCall} {o : Outcomes} (h : LastRebuild calls o) (db : Users) :
    tableAfter pg db calls = usersAfter none o.carried := by
  obtain ⟨front, back, rfl, ho, hback⟩ := h
  have hcall : DbCall.Rebuilds (.createTable o) := ho
  exact tableAfter_of_last pg db front hcall hback

theorem LastRebuild.not_never {calls : List DbCall} {o : Outcomes} (h : LastRebuild calls o) :
    ¬ ∀ c ∈ calls, ¬ c.Rebuilds := by
  obtain ⟨front, back, rfl, ho, -⟩ := h
  intro hnever
  exact hnever (.createTable o) (by simp) ho

/-- What holds of the table behind a history: of the one its last rebuilding has left, or of the one there was. -/
theorem tableAfter_iff (db : Users) (calls : List DbCall) (P : Users → Prop) :
    P (tableAfter pg db calls) ↔
      (∃ o, LastRebuild calls o ∧ P (usersAfter none o.carried)) ∨ (∀ c ∈ calls, ¬ c.Rebuilds) ∧ P db := by
  rcases history_cases calls with hnever | ⟨o, ho⟩
  · rw [tableAfter_of_never pg hnever]
    constructor
    · exact fun h => .inr ⟨hnever, h⟩
    · intro h
      rcases h with ⟨o, ho, -⟩ | ⟨-, h⟩
      · exact absurd hnever ho.not_never
      · exact h
  · constructor
    · exact fun h => .inl ⟨o, ho, ho.tableAfter_eq pg db ▸ h⟩
    · intro h
      rcases h with ⟨o', ho', h⟩ | ⟨hnever, -⟩
      · rw [ho'.tableAfter_eq pg db]
        exact h
      · exact absurd hnever ho.not_never

/-! ## Logging in -/

/-- The first row with the name has the password. -/
def Admits (db : Users) (user pass : Str) : Prop :=
  ∃ rows row, db = some rows ∧ rows.find? (fun row => row.1 = user) = some row ∧ row.2.getD [] = pass

/-- There is a table, and nobody in it has the name. -/
def Unknown (db : Users) (user : Str) : Prop := ∃ rows, db = some rows ∧ user ∉ rows.map Prod.fst

theorem notMem_names_iff {α : Type} {rows : List (Str × α)} {user : Str} :
    user ∉ rows.map Prod.fst ↔ ∀ row ∈ rows, row.1 ≠ user := by
  simp only [List.mem_map, not_exists, not_and, ne_eq]

theorem admits_some_iff {rows : List UserRow} {user pass : Str} :
    Admits (some rows) user pass ↔ ∃ row, rows.find? (fun row => row.1 = user) = some row ∧ row.2.getD [] = pass := by
  simp only [Admits, Option.some.injEq, exists_and_left, exists_eq_left']

theorem unknown_some_iff {rows : List UserRow} {user : Str} :
    Unknown (some rows) user ↔ ∀ row ∈ rows, row.1 ≠ user := by
  rw [← notMem_names_iff]
  simp only [Unknown, Option.some.injEq, exists_eq_left']

/-- The end of `authenticateUser`: without a row it compares with NULL. -/
def checkPassword (pass : Str) : Option UserRow → Exec Int
  | none => fault
  | some row => if pass = row.2.getD [] then done 0 else done (-1)

theorem checkPassword_eq_zero_iff {pass : Str} {row : Option UserRow} :
    checkPassword pass row = done 0 ↔ ∃ r, row = some r ∧ r.2.getD [] = pass := by
  cases row with
  | none => simp [checkPassword]
  | some r =>
    rw [checkPassword]
    split_ifs with h
    · simp [h]
    · simp [Ne.symm h]

theorem checkPassword_eq_fault_iff {pass : Str} {row : Option UserRow} :
    checkPassword pass row = fault ↔ row = none := by
  cases row with
  | none => simp [checkPassword]
  | some r =>
    rw [checkPassword]
    split_ifs <;> simp

section login

variable (user : UserName) (pass : Str)

theorem login_none : (dbStep pg none (.authenticateUser true user pass)).2 = done (-1) := by
  show PwdManLib.authenticateUser (some fun query => (pg.exec none query).2) user.text pass = _
  simp only [PwdManLib.authenticateUser, pg.selects]
  rfl

theorem login_some (rows : List UserRow) :
    (dbStep pg (some rows) (.authenticateUser true user pass)).2 =
      checkPassword pass (rows.find? fun row => row.1 = user.text) := by
  show PwdManLib.authenticateUser (some fun query => (pg.exec (some rows) query).2) user.text pass = _
  rw [← List.head?_filter]
  simp only [PwdManLib.authenticateUser, pg.selects, selection]
  cases rows.filter fun row => row.1 = user.text with
  | nil => rfl
  | cons row rows => rfl

theorem login_admitted_iff (db : Users) :
    (dbStep pg db (.authenticateUser true user pass)).2 = done 0 ↔ Admits db user.text pass := by
  cases db with
  | none => simp [login_none, Admits]
  | some rows => rw [login_some, checkPassword_eq_zero_iff, admits_some_iff]

theorem login_fault_iff (db : Users) :
    (dbStep pg db (.authenticateUser true user pass)).2 = fault ↔ Unknown db user.text := by
  cases db with
  | none => simp [login_none, Unknown]
  | some rows =>
    rw [login_some, checkPassword_eq_fault_iff, List.find?_eq_none, unknown_some_iff]
    simp only [decide_eq_true_eq, ne_eq]

end login

/-! ## The first users -/

theorem find?_name_iff {rows : List (Str × Str)} (hnodup : (rows.map Prod.fst).Nodup) {user : Str} {row : Str × Str} :
    rows.find? (fun r => r.1 = user) = some row ↔ row ∈ rows ∧ row.1 = user := by
  induction rows with
  | nil => simp
  | cons r rows ih =>
    obtain ⟨hr, hrows⟩ := List.nodup_cons.mp hnodup
    rw [List.find?_cons, List.mem_cons]
    by_cases h : r.1 = user
    · have hnot : ∀ row ∈ rows, row.1 ≠ user := by
        intro row hrow heq
        exact hr (h.trans heq.symm ▸ List.mem_map_of_mem hrow)
      simp only [h, decide_true, Option.some.injEq]
      refine ⟨fun heq => ?_, fun hrow => ?_⟩
      · exact ⟨.inl heq.symm, heq ▸ h⟩
      · obtain ⟨rfl | hmem, hname⟩ := hrow
        · rfl
        · exact absurd hname (hnot row hmem)
    · simp only [h, decide_false, ih hrows]
      constructor
      · exact fun hrow => ⟨.inr hrow.1, hrow.2⟩
      · intro hrow
        obtain ⟨rfl | hmem, hname⟩ := hrow
        · exact absurd hname h
        · exact ⟨hmem, hname⟩

theorem admits_usersAfter_iff (k : Nat) (user pass : Str) :
    Admits (usersAfter none k) user pass ↔ (user, pass) ∈ firstUsers.take (k - 2) := by
  match k with
  | 0 => simp [Admits, usersAfter]
  | 1 => simp [Admits, usersAfter]
  | k + 2 =>
    have hnames : ((firstUsers.take k).map Prod.fst).Nodup := by
      rw [List.map_take]
      exact (show (firstUsers.map Prod.fst).Nodup by decide).sublist (List.take_sublist _ _)
    rw [usersAfter, admits_some_iff, List.find?_map, Nat.add_sub_cancel]
    simp only [Option.map_eq_some_iff]
    refine ⟨fun h => ?_, fun h => ?_⟩
    · obtain ⟨row, ⟨u, hfind, rfl⟩, rfl⟩ := h
      obtain ⟨hmem, rfl⟩ := (find?_name_iff hnames).mp hfind
      exact hmem
    · exact ⟨_, ⟨(user, pass), (find?_name_iff hnames).mpr ⟨h, rfl⟩, rfl⟩, rfl⟩

theorem unknown_usersAfter_iff (k : Nat) (user : Str) :
    Unknown (usersAfter none k) user ↔ 2 ≤ k ∧ user ∉ (firstUsers.take (k - 2)).map Prod.fst := by
  match k with
  | 0 => simp [Unknown, usersAfter]
  | 1 => simp [Unknown, usersAfter]
  | k + 2 =>
    rw [usersAfter, unknown_some_iff, List.forall_mem_map, notMem_names_iff]
    exact (and_iff_right (Nat.le_add_left 2 k)).symm

/-- A server that executes this one query and no other. -/
def selectingPostgres : Postgres where
  exec db query :=
    match firstLiteral quote query with
    | some (text, user, rest) =>
      if text = lit "SELECT password FROM Users WHERE username=" ∧ rest = lit ";" then (db, selection db user)
      else (db, { status := .fatalError, values := [] })
    | none => (db, { status := .fatalError, values := [] })
  selects db user := by
    have hread : firstLiteral quote (authQuery user.text) = _ := (denotes_iff user.text).mpr user.noQuote
    rw [hread]
    exact if_pos ⟨rfl, rfl⟩

end PwdManLib
