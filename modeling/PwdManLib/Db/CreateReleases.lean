import PwdManLib.Db.Releases

/-!
# Where the functions of `db/database.h` release what they acquire

`createTable` works on its second connection, behind a `getVersion` on a connection of its own. Its
statements wind up on their own (`windsUp_execAll`, by induction on the statements), so what is left is
`getVersion`, and the first connection, which is overwritten before anybody finishes it.
-/

namespace PwdManLib.Pg

open Event Exec

variable {α : Type} {lib : Libpq} {c r : Nat}

/-! ## The statements -/

/-- The run returns with the connection finished, and touches besides it only results with numbers from
`k` on, which it releases. -/
structure WindsUp (k : Nat) (t : Run α) : Prop where
  returns : ∃ a, t.next = done a
  sound : Sound t.sent
  released : Released t.sent
  finished : release (.conn 1) ∈ t.sent
  handles : ∀ e ∈ t.sent, e.handle = .conn 1 ∨ ∃ j, k ≤ j ∧ e.handle = .result j

/-- The log of a statement that has been carried out. -/
def commandLog (k : Nat) : List (Event Handle) :=
  [use (.conn 1), acquire (.result k), use (.result k), release (.result k)]

theorem WindsUp.command {k : Nat} {t t' : Run α} (h : WindsUp (k + 1) t)
    (ht' : t' = { sent := commandLog k ++ t.sent, next := t.next }) : WindsUp k t' := by
  subst ht'
  constructor
  · exact h.returns
  · -- the results behind this one have other numbers
    rw [sound_append]
    refine ⟨by simp [commandLog], h.sound, ?_⟩
    intro e he hmem
    rcases h.handles e he with hconn | ⟨j, hj, hresult⟩
    · simp [commandLog, hconn] at hmem
    · simp only [commandLog, hresult, List.mem_cons, reduceCtorEq, release.injEq, Handle.result.injEq,
        List.not_mem_nil, or_false, false_or] at hmem
      omega
  · exact Released.append (by simp [commandLog, Released]) h.released
  · exact List.mem_append_right _ h.finished
  · intro e he
    rcases List.mem_append.mp he with he | he
    · simp only [commandLog, List.mem_cons, List.not_mem_nil, or_false] at he
      rcases he with rfl | rfl | rfl | rfl
      · simp
      · exact .inr ⟨k, le_refl k, rfl⟩
      · exact .inr ⟨k, le_refl k, rfl⟩
      · exact .inr ⟨k, le_refl k, rfl⟩
    · rcases h.handles e he with hconn | ⟨j, hj, hresult⟩
      · exact .inl hconn
      · exact .inr ⟨j, by omega, hresult⟩

theorem windsUp_execAll_of_failed {k : Nat} {s : Statement} {ss : List Statement}
    (hfail : ∀ res, lib.exec k (statementText s) = some res → res.status ≠ .commandOk) :
    WindsUp k (execAll lib (some (.conn 1, .ok)) k (s :: ss)) := by
  rw [execAll]
  unfold PQexec
  cases hexec : lib.exec k (statementText s) with
  | none =>
    cases reportsError s <;>
      constructor <;>
      simp [PQresultStatus, failInt, PQclear, PQfinish, Released, PQerrorMessage, connText, read]
  | some res =>
    have hstatus := hfail res hexec
    cases reportsError s <;>
      constructor <;>
      simp [PQresultStatus, hstatus, failInt, PQclear, PQfinish, Released, PQerrorMessage, connText, read]

theorem windsUp_execAll (lib : Libpq) (k : Nat) (ss : List Statement) :
    WindsUp k (execAll lib (some (.conn 1, .ok)) k ss) := by
  induction ss generalizing k with
  | nil => constructor <;> simp [execAll, PQfinish, Released]
  | cons s ss ih =>
    by_cases hfail : ∀ res, lib.exec k (statementText s) = some res → res.status ≠ .commandOk
    · exact windsUp_execAll_of_failed hfail
    · push Not at hfail
      obtain ⟨res, hexec, hstatus⟩ := hfail
      apply (ih (k + 1)).command
      rw [execAll, commandLog]
      unfold PQexec
      simp [hexec, PQresultStatus, hstatus, PQclear]
      rfl

/-! ## The debug output -/

theorem mem_read_versionReturned {e : Event Handle} (he : e ∈ (read (versionReturned lib c r)).sent) :
    e = use (.result r) := by
  unfold versionReturned versionValue at he
  by_cases h : lib.connect c = some .ok
  · rw [if_pos h] at he
    cases hexec : lib.exec r versionQuery with
    | none => simp [hexec, read] at he
    | some res =>
      rw [hexec] at he
      exact (mem_sent_read_valueAt.mp he).1
  · simp [h, read] at he

theorem read_versionReturned_of_clean (h : VersionClean lib c r) :
    (read (versionReturned lib c r)).sent = [] := by
  unfold versionReturned versionValue
  by_cases hconn : lib.connect c = some .ok
  · obtain ⟨res, hexec, -, hvalue⟩ := h hconn
    simp [hconn, hexec, valueAt, hvalue, read]
  · simp [hconn, read]

theorem printDBInfo_some (lib : Libpq) :
    printDBInfo lib (some (.conn 1, .ok)) =
      { sent := (getVersion lib 2 0).sent ++
          (List.replicate 6 (use (.conn 1)) ++ (read (versionReturned lib 2 0)).sent)
        next := done () } := by
  rw [printDBInfo, Trace.bind_of_done (next_getVersion lib 2 0), ← next_read (versionReturned lib 2 0)]
  rfl

/-! ## The two connections -/

/-- `createTable` on its second connection. -/
def secondConnection (lib : Libpq) : Run Int :=
  withConnection lib 1 (-1) fun conn => do
    printDBInfo lib conn
    execAll lib conn 1 tableStatements

theorem createTable_eq (lib : Libpq) :
    createTable lib = PQconnectdb lib 0 >>= fun _ => secondConnection lib := by
  unfold createTable secondConnection withConnection
  congr 1
  funext _
  congr 1
  funext conn
  congr 1
  funext status
  cases status with
  | ok => rfl
  | bad => rfl

theorem secondConnection_of_connected (h : lib.connect 1 = some .ok) :
    secondConnection lib =
      { sent := acquire (.conn 1) :: use (.conn 1) :: ((getVersion lib 2 0).sent ++
          ((List.replicate 6 (use (.conn 1)) ++ (read (versionReturned lib 2 0)).sent) ++
            (execAll lib (some (.conn 1, .ok)) 1 tableStatements).sent))
        next := (execAll lib (some (.conn 1, .ok)) 1 tableStatements).next } := by
  rw [secondConnection, withConnection_of_connected h]
  simp [printDBInfo_some]

theorem secondConnection_frame (lib : Libpq) :
    (∃ a, (secondConnection lib).next = done a) ∧
      ∀ e ∈ (secondConnection lib).sent, e.handle ≠ .conn 0 := by
  by_cases h : lib.connect 1 = some .ok
  · have hall := windsUp_execAll lib 1 tableStatements
    rw [secondConnection_of_connected h]
    refine ⟨hall.returns, ?_⟩
    intro e he
    simp only [List.mem_cons, List.mem_append, List.mem_replicate] at he
    rcases he with rfl | rfl | he | (⟨-, rfl⟩ | he) | he
    · simp
    · simp
    · rcases handle_getVersion lib 2 0 e he with hh | hh <;> simp [hh]
    · simp
    · simp [mem_read_versionReturned he]
    · rcases hall.handles e he with hh | ⟨j, -, hh⟩ <;> simp [hh]
  · rw [secondConnection, withConnection_of_unconnected h]
    refine ⟨⟨-1, rfl⟩, ?_⟩
    unfold unconnectedLog
    cases lib.connect 1 with
    | none => simp
    | some status => simp

theorem respects_secondConnection_iff (lib : Libpq) :
    Respects (secondConnection lib) ↔ (lib.connect 1 = some .ok → VersionClean lib 2 0) := by
  obtain ⟨⟨a, ha⟩, -⟩ := secondConnection_frame lib
  by_cases h : lib.connect 1 = some .ok
  · rw [respects_iff_of_done ha, imp_iff_right h, ← sound_getVersion_iff,
      secondConnection_of_connected h]
    constructor
    · rintro ⟨hsound, -⟩
      simp only [sound_cons, sound_append] at hsound
      exact hsound.2.2.1
    · intro hversion
      have hclean := (sound_getVersion_iff lib 2 0).mp hversion
      have hall := windsUp_execAll lib 1 tableStatements
      have hown : ∀ x, release x ∈ (getVersion lib 2 0).sent → x = .conn 2 ∨ x = .result 0 :=
        fun x hx => handle_getVersion lib 2 0 _ hx
      rw [read_versionReturned_of_clean hclean, List.append_nil]
      constructor
      · -- what `getVersion` has released, nobody else has
        simp only [sound_cons, sound_append]
        refine ⟨by simp, by simp, hversion, ⟨sound_of_no_release (by simp), hall.sound, by simp⟩, ?_⟩
        intro e he hmem
        rcases List.mem_append.mp he with he | he
        · rw [List.eq_of_mem_replicate he] at hmem
          simpa using hown _ hmem
        · rcases hall.handles e he with hh | ⟨j, hj, hh⟩
          · simpa [hh] using hown _ hmem
          · have hzero := hown _ hmem
            simp only [hh, reduceCtorEq, Handle.result.injEq, false_or] at hzero
            omega
      · intro x hx
        simp only [List.mem_cons, List.mem_append, acquire.injEq, reduceCtorEq, List.mem_replicate,
          and_false, false_or] at hx ⊢
        rcases hx with rfl | hx | hx
        · exact .inr hall.finished
        · exact .inl (released_getVersion lib 2 0 x hx)
        · exact .inr (hall.released x hx)
  · simp only [h, false_imp_iff, iff_true]
    exact respects_of_unconnected h _ _

/-- The first connection was not made; on the second one, the debug output is right. -/
def TableClean (lib : Libpq) : Prop :=
  lib.connect 0 = none ∧ (lib.connect 1 = some .ok → VersionClean lib 2 0)

theorem respects_createTable_iff (lib : Libpq) : Respects (createTable lib) ↔ TableClean lib := by
  rw [createTable_eq, TableClean, ← respects_secondConnection_iff]
  unfold PQconnectdb
  cases lib.connect 0 with
  | none => simp
  | some status =>
    obtain ⟨⟨a, ha⟩, hframe⟩ := secondConnection_frame lib
    refine iff_of_false ?_ (by simp)
    intro hrespects
    rw [respects_iff_of_done (by simpa using ha)] at hrespects
    have hmem := hrespects.2 (.conn 0) (by simp)
    simp only [bind_assoc, pure_bind, Trace.sent_emit_bind, List.mem_cons, reduceCtorEq, false_or] at hmem
    exact hframe _ hmem rfl

/-- libpq answers the statements, from number `k` on, as the `Users` table in state `db` would. -/
def Answers (lib : Libpq) (fails : Nat → Bool) : Nat → List Statement → Users → Prop
  | _, [], _ => True
  | k, s :: ss, db =>
    ∃ res, lib.exec (k + 1) (statementText s) = some res ∧
      res.status = (execStatement (fails k) s db).2 ∧
      Answers lib fails (k + 1) ss (execStatement (fails k) s db).1

theorem next_execAll {fails : Nat → Bool} {k : Nat} {ss : List Statement} {db : Users}
    (h : Answers lib fails k ss db) :
    (execAll lib (some (.conn 1, .ok)) (k + 1) ss).next = done (execStatements fails k ss db).2 := by
  induction ss generalizing k db with
  | nil => rfl
  | cons s ss ih =>
    obtain ⟨res, hexec, hstatus, hrest⟩ := h
    rw [execAll, execStatements]
    unfold PQexec
    by_cases hok : (execStatement (fails k) s db).2 = .commandOk
    · simp [hexec, PQresultStatus, hstatus, hok, PQclear, ih hrest]
    · cases hreports : reportsError s <;>
        simp [hexec, PQresultStatus, hstatus, hok, PQclear, PQfinish, failInt, PQerrorMessage, connText]

/-! ## All functions -/

/-- The functions that talk to PostgreSQL. -/
inductive DbFunction where
  | getVersion
  | getTables
  | getTableRows
  | createTable
  | authenticateUser (user pass : Str)
  deriving DecidableEq, Repr

/-- A call of a function, up to its result. -/
def DbFunction.run (lib : Libpq) (f : DbFunction) : Run Unit :=
  match f with
  | .getVersion => do let _ ← Pg.getVersion lib 0 0; pure ()
  | .getTables => do let _ ← Pg.getTables lib; pure ()
  | .getTableRows => do let _ ← Pg.getTableRows lib; pure ()
  | .createTable => do let _ ← Pg.createTable lib; pure ()
  | .authenticateUser user pass => do let _ ← Pg.authenticateUser lib user pass; pure ()

/-- The outcomes of the calls of libpq that a function is right about. -/
def DbFunction.Clean (lib : Libpq) (f : DbFunction) : Prop :=
  match f with
  | .getVersion => VersionClean lib 0 0
  | .getTables => TablesClean lib
  | .getTableRows => RowsClean lib
  | .createTable => TableClean lib
  | .authenticateUser _ _ => True

/-- **When a function releases what it acquires, once, and uses none of it afterwards**: for the outcomes of
`DbFunction.Clean`. -/
theorem respects_run_iff (lib : Libpq) (f : DbFunction) : Respects (f.run lib) ↔ f.Clean lib := by
  cases f with
  | getVersion => exact respects_discard.trans (respects_getVersion_iff lib 0 0)
  | getTables => exact respects_discard.trans (respects_getTables_iff lib)
  | getTableRows => exact respects_discard.trans (respects_getTableRows_iff lib)
  | createTable => exact respects_discard.trans (respects_createTable_iff lib)
  | authenticateUser user pass =>
    exact iff_of_true (respects_discard.mpr (respects_authenticateUser lib user pass)) trivial

/-- A server that answers every query with a user. -/
def fooLib : Libpq where
  connect _ := some .ok
  exec _ _ := some { status := .tuplesOk, values := [[lit "foo", lit "bar"]] }

/-- Rows have been returned, and the connection is still there. -/
theorem rows_leave_connection_open :
    ¬ ∀ (lib : Libpq) (f : DbFunction), Respects (f.run lib) := by
  intro hall
  have hrows := respects_discard.mp (hall fooLib .getTableRows)
  have hclean := (respects_getTableRows_iff fooLib).mp hrows
  exact hclean rfl _ rfl rfl

end PwdManLib.Pg
