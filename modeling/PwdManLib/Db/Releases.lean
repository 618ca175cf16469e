import PwdManLib.Db.Handles

/-!
# What `getVersion`, `getTables`, `getTableRows` and `authenticateUser` log

For each function, its log first, case by case along its branches, and from the log what is to be said
of the handles: `getVersion` goes on behind `failChar` and returns a pointer into a released result,
`getTables` returns such pointers too, `getTableRows` leaves its connection open, and `authenticateUser`
is right whatever happens. Its answer is that of the model without handles (`next_authenticateUser`).
-/

namespace PwdManLib.Pg

open Event Exec

variable {α : Type} {lib : Libpq} {n c r : Nat}

/-! ## What the calls log -/

@[simp] theorem touch_none : touch (none : Ptr α) = pure () := rfl

@[simp] theorem touch_some (h : Handle) (a : α) : touch (some (h, a)) = Trace.emit (use h) := rfl

@[simp] theorem free_none : free (none : Ptr α) = pure () := rfl

@[simp] theorem free_some (h : Handle) (a : α) : free (some (h, a)) = Trace.emit (release h) := rfl

@[simp] theorem next_read (s : CharPtr) : (read s).next = done () := by
  cases s <;> rfl

theorem mem_sent_read {s : CharPtr} {e : Event Handle} :
    e ∈ (read s).sent ↔ ∃ h text, s = .inside h text ∧ e = use h := by
  cases s with
  | null => simp [read]
  | literal text => simp [read]
  | inside h text => simp [read]

@[simp] theorem release_notMem_read (h : Handle) (s : CharPtr) : release h ∉ (read s).sent := by
  rw [mem_sent_read]
  simp

/-- The value of a result, as a pointer into it. -/
def valueAt (h : Handle) (res : PGresult) (row field : Nat) : CharPtr :=
  match res.getvalue row field with
  | none => .null
  | some text => .inside h text

theorem PQgetvalue_some (h : Handle) (res : PGresult) (row field : Nat) :
    PQgetvalue (some (h, res)) row field =
      (do Trace.emit (use h); pure (valueAt h res row field)) := rfl

theorem mem_sent_read_valueAt {h : Handle} {res : PGresult} {row field : Nat} {e : Event Handle} :
    e ∈ (read (valueAt h res row field)).sent ↔ e = use h ∧ res.getvalue row field ≠ none := by
  rw [mem_sent_read, valueAt]
  cases res.getvalue row field with
  | none => simp
  | some text => simp

/-! ## Connecting -/

/-- The log of a connection that could not be made. -/
def unconnectedLog (lib : Libpq) (n : Nat) : List (Event Handle) :=
  match lib.connect n with
  | none => []
  | some _ => [acquire (.conn n), use (.conn n), use (.conn n), use (.conn n), release (.conn n)]

theorem withConnection_of_unconnected (h : lib.connect n ≠ some .ok) (a : α)
    (k : Ptr ConnStatus → Run α) :
    withConnection lib n a k = { sent := unconnectedLog lib n, next := done a } := by
  unfold withConnection PQconnectdb unconnectedLog
  cases hconn : lib.connect n with
  | none => rfl
  | some status =>
    cases status with
    | ok => exact absurd hconn h
    | bad => rfl

theorem withConnection_of_connected (h : lib.connect n = some .ok) (a : α) (k : Ptr ConnStatus → Run α) :
    withConnection lib n a k =
      { sent := acquire (.conn n) :: use (.conn n) :: (k (some (.conn n, .ok))).sent
        next := (k (some (.conn n, .ok))).next } := by
  unfold withConnection PQconnectdb
  rw [h]
  rfl

theorem sound_unconnectedLog (lib : Libpq) (n : Nat) : Sound (unconnectedLog lib n) := by
  unfold unconnectedLog
  cases lib.connect n with
  | none => simp
  | some status => simp

theorem released_unconnectedLog (lib : Libpq) (n : Nat) : Released (unconnectedLog lib n) := by
  unfold unconnectedLog
  cases lib.connect n with
  | none => simp [Released]
  | some status => simp [Released]

/-! ## The version -/

theorem sent_read_bind (s : CharPtr) (f : Unit → Run α) :
    (read s >>= f).sent = (read s).sent ++ (f ()).sent := by
  rw [Trace.bind_of_done (next_read s)]

/-- What `getVersion` has read from its result. -/
def versionValue (lib : Libpq) (r : Nat) : CharPtr :=
  match lib.exec r versionQuery with
  | none => .null
  | some res => valueAt (.result r) res 0 0

/-- What `getVersion` does on its connection behind the query. -/
def versionLog (lib : Libpq) (c r : Nat) : List (Event Handle) :=
  match lib.exec r versionQuery with
  | none => [release (.conn c), release (.conn c)]
  | some res =>
    let reads := (read (valueAt (.result r) res 0 0)).sent
    let released := [release (.result r), release (.conn c)]
    let failed := if res.status ≠ .tuplesOk then released else []
    acquire (.result r) :: use (.result r) ::
      (failed ++ use (.result r) :: (reads ++ (released ++ reads)))

theorem getVersion_of_connected (h : lib.connect c = some .ok) (r : Nat) :
    getVersion lib c r =
      { sent := acquire (.conn c) :: use (.conn c) :: use (.conn c) :: versionLog lib c r
        next := done (versionValue lib r) } := by
  rw [getVersion, withConnection_of_connected h]
  unfold PQexec versionLog versionValue
  cases hexec : lib.exec r versionQuery with
  | none => rfl
  | some res =>
    by_cases hstatus : res.status = .tuplesOk
    · simp [PQresultStatus, PQclear, PQfinish, PQgetvalue_some, hstatus, sent_read_bind]
    · simp [PQresultStatus, failChar, PQclear, PQfinish, PQgetvalue_some, hstatus, sent_read_bind]

/-- `getVersion` is not connected, or its query is answered with nothing to return. -/
def VersionClean (lib : Libpq) (c r : Nat) : Prop :=
  lib.connect c = some .ok →
    ∃ res, lib.exec r versionQuery = some res ∧ res.status = .tuplesOk ∧ res.getvalue 0 0 = none

theorem sound_read (s : CharPtr) : Sound (read s).sent := by
  cases s <;> simp [read]

theorem sound_getVersion_iff (lib : Libpq) (c r : Nat) :
    Sound (getVersion lib c r).sent ↔ VersionClean lib c r := by
  by_cases h : lib.connect c = some .ok
  · rw [getVersion_of_connected h, VersionClean, imp_iff_right h]
    unfold versionLog
    cases hexec : lib.exec r versionQuery with
    | none => simp
    | some res =>
      by_cases hstatus : res.status = .tuplesOk
      · simp [hstatus, sound_append, sound_read, mem_sent_read_valueAt]
      · simp [hstatus, sound_append, sound_read, mem_sent_read_valueAt]
  · rw [getVersion, withConnection_of_unconnected h, VersionClean]
    simp [sound_unconnectedLog, h]

theorem released_getVersion (lib : Libpq) (c r : Nat) : Released (getVersion lib c r).sent := by
  by_cases h : lib.connect c = some .ok
  · rw [getVersion_of_connected h]
    unfold versionLog
    cases hexec : lib.exec r versionQuery with
    | none => simp [Released]
    | some res => simp [Released, mem_sent_read_valueAt]
  · rw [getVersion, withConnection_of_unconnected h]
    exact released_unconnectedLog lib c

theorem handle_getVersion (lib : Libpq) (c r : Nat) :
    ∀ e ∈ (getVersion lib c r).sent, e.handle = .conn c ∨ e.handle = .result r := by
  by_cases h : lib.connect c = some .ok
  · rw [getVersion_of_connected h]
    unfold versionLog
    cases hexec : lib.exec r versionQuery with
    | none => simp
    | some res =>
      by_cases hstatus : res.status = .tuplesOk
      · simp [hstatus, mem_sent_read_valueAt, or_imp, forall_and]
      · simp [hstatus, mem_sent_read_valueAt, or_imp, forall_and]
  · rw [getVersion, withConnection_of_unconnected h]
    unfold unconnectedLog
    cases lib.connect c with
    | none => simp
    | some status => simp

/-- What `getVersion` returns. -/
def versionReturned (lib : Libpq) (c r : Nat) : CharPtr :=
  if lib.connect c = some .ok then versionValue lib r else .literal (lit "FAIL")

theorem next_getVersion (lib : Libpq) (c r : Nat) :
    (getVersion lib c r).next = done (versionReturned lib c r) := by
  by_cases h : lib.connect c = some .ok
  · rw [getVersion_of_connected h, versionReturned, if_pos h]
  · rw [getVersion, withConnection_of_unconnected h, versionReturned, if_neg h]

theorem respects_getVersion_iff (lib : Libpq) (c r : Nat) :
    Respects (getVersion lib c r) ↔ VersionClean lib c r := by
  rw [respects_iff_of_done (next_getVersion lib c r), and_iff_left (released_getVersion lib c r),
    sound_getVersion_iff]

/-! ## Rows -/

/-- The query failed, or there is no result at all. -/
def Failed (result : Option PGresult) : Prop := ∀ res, result = some res → res.status ≠ .tuplesOk

/-- The log of a failed query, behind the query itself. -/
def failedLog (result : Option PGresult) : List (Event Handle) :=
  match result with
  | none => [release (.conn 0)]
  | some _ => [acquire (.result 0), use (.result 0), release (.result 0), release (.conn 0)]

section rows

variable {query : Str} {res : PGresult}

theorem withRows_of_failed (h : lib.connect 0 = some .ok) (hfail : Failed (lib.exec 0 query)) (a : α)
    (body : Ptr ConnStatus → Ptr PGresult → Run α) :
    withRows lib query a body =
      { sent := acquire (.conn 0) :: use (.conn 0) :: use (.conn 0) :: failedLog (lib.exec 0 query)
        next := done a } := by
  rw [withRows, withConnection_of_connected h]
  unfold PQexec failedLog
  cases hexec : lib.exec 0 query with
  | none => rfl
  | some res =>
    have hstatus := hfail res hexec
    simp [PQresultStatus, PQclear, PQfinish, hstatus]

theorem withRows_of_answered (h : lib.connect 0 = some .ok) (hexec : lib.exec 0 query = some res)
    (hstatus : res.status = .tuplesOk) (a : α) (body : Ptr ConnStatus → Ptr PGresult → Run α) :
    withRows lib query a body =
      { sent := acquire (.conn 0) :: use (.conn 0) :: use (.conn 0) :: acquire (.result 0) ::
          use (.result 0) :: (body (some (.conn 0, .ok)) (some (.result 0, res))).sent
        next := (body (some (.conn 0, .ok)) (some (.result 0, res))).next } := by
  rw [withRows, withConnection_of_connected h]
  unfold PQexec
  simp [hexec, PQresultStatus, hstatus]

theorem tableRow_some (res : PGresult) (i : Nat) :
    tableRow (some (.result 0, res)) i =
      { sent := use (.result 0) :: (read (valueAt (.result 0) res i 0)).sent
        next := done (valueAt (.result 0) res i 0) } := by
  rw [tableRow, PQgetvalue_some]
  cases valueAt (.result 0) res i 0 <;> rfl

theorem getTables_of_answered (h : lib.connect 0 = some .ok)
    (hexec : lib.exec 0 tablesQuery = some res) (hstatus : res.status = .tuplesOk) :
    getTables lib =
      { sent := acquire (.conn 0) :: use (.conn 0) :: use (.conn 0) :: acquire (.result 0) ::
          use (.result 0) :: use (.result 0) ::
          ((List.range res.values.length).flatMap (fun i =>
              use (.result 0) :: (read (valueAt (.result 0) res i 0)).sent) ++
            release (.result 0) :: release (.conn 0) ::
            (List.range res.values.length).flatMap (fun i =>
              (read (valueAt (.result 0) res i 0)).sent))
        next := done ((List.range res.values.length).map fun i => valueAt (.result 0) res i 0) } := by
  have hrows := Trace.mapM_of_done fun i => congrArg Trace.next (tableRow_some res i)
  have hreads := Trace.forM_of_done fun i => next_read (valueAt (.result 0) res i 0)
  rw [getTables, withRows_of_answered h hexec hstatus]
  simp [PQntuples, PQclear, PQfinish, hrows, tableRow_some, hreads]

theorem respects_withRows_of_failed (h : lib.connect 0 = some .ok) (hfail : Failed (lib.exec 0 query))
    (a : α) (body : Ptr ConnStatus → Ptr PGresult → Run α) : Respects (withRows lib query a body) := by
  rw [withRows_of_failed h hfail, respects_iff_of_done rfl]
  unfold failedLog
  cases lib.exec 0 query with
  | none => simp [Released]
  | some res => simp [Released]

/-- `getTables` is not connected, or its query fails, or no table has a name. -/
def TablesClean (lib : Libpq) : Prop :=
  lib.connect 0 = some .ok → ∀ res, lib.exec 0 tablesQuery = some res → res.status = .tuplesOk →
    ∀ i < res.values.length, res.getvalue i 0 = none

theorem respects_of_unconnected (h : lib.connect n ≠ some .ok) (a : α) (k : Ptr ConnStatus → Run α) :
    Respects (withConnection lib n a k) := by
  rw [withConnection_of_unconnected h]
  exact (respects_iff_of_done rfl).mpr ⟨sound_unconnectedLog lib n, released_unconnectedLog lib n⟩

theorem eq_use_of_mem_reads {h : Handle} {l : List Nat} {field : Nat} {e : Event Handle}
    (he : e ∈ l.flatMap fun i => (read (valueAt h res i field)).sent) : e = use h := by
  obtain ⟨i, -, hi⟩ := List.mem_flatMap.mp he
  exact (mem_sent_read_valueAt.mp hi).1

theorem reads_eq_nil_iff {h : Handle} {l : List Nat} {field : Nat} :
    (l.flatMap fun i => (read (valueAt h res i field)).sent) = [] ↔
      ∀ i ∈ l, res.getvalue i field = none := by
  rw [List.flatMap_eq_nil_iff]
  refine forall₂_congr fun i _ => ?_
  rw [List.eq_nil_iff_forall_not_mem]
  simp only [mem_sent_read_valueAt]
  simp

theorem respects_rows_iff {loop returned : List (Event Handle)} {t : Run α} {a : α}
    (hnext : t.next = done a)
    (hsent : t.sent = acquire (.conn 0) :: use (.conn 0) :: use (.conn 0) :: acquire (.result 0) ::
      use (.result 0) :: use (.result 0) ::
      (loop ++ release (.result 0) :: release (.conn 0) :: returned))
    (hloop : ∀ e ∈ loop, e = use (.result 0)) (hreturned : ∀ e ∈ returned, e = use (.result 0)) :
    Respects t ↔ returned = [] := by
  have hrelease : ∀ h, release h ∉ loop := fun h hmem => by simpa using hloop _ hmem
  have hacquire : ∀ h, acquire h ∉ loop := fun h hmem => by simpa using hloop _ hmem
  have hsound : Sound loop := sound_of_no_release fun e he heq => hrelease _ (heq ▸ he)
  rw [respects_iff_of_done hnext, hsent]
  constructor
  · rintro ⟨hall, -⟩
    simp only [sound_cons, sound_append] at hall
    have hgone := hall.2.2.2.2.2.2.2.1.1
    rw [List.eq_nil_iff_forall_not_mem]
    intro e he
    apply hgone e (by simp [he])
    rw [hreturned e he, handle_use]
  · rintro rfl
    simp [Released, sound_append, hsound, hrelease, hacquire]

theorem respects_getTables_iff (lib : Libpq) : Respects (getTables lib) ↔ TablesClean lib := by
  by_cases h : lib.connect 0 = some .ok
  · by_cases hfail : Failed (lib.exec 0 tablesQuery)
    · have hclean : TablesClean lib := fun _ res hexec hstatus => absurd hstatus (hfail res hexec)
      exact iff_of_true (respects_withRows_of_failed h hfail _ _) hclean
    · unfold Failed at hfail
      push Not at hfail
      obtain ⟨res, hexec, hstatus⟩ := hfail
      have hloop : ∀ e ∈ (List.range res.values.length).flatMap fun i =>
          use (.result 0) :: (read (valueAt (.result 0) res i 0)).sent, e = use (.result 0) := by
        intro e he
        obtain ⟨i, -, he⟩ := List.mem_flatMap.mp he
        rcases List.mem_cons.mp he with he | he
        · exact he
        · exact (mem_sent_read_valueAt.mp he).1
      have hrun := getTables_of_answered h hexec hstatus
      rw [respects_rows_iff (congrArg Trace.next hrun) (congrArg Trace.sent hrun) hloop
        (fun e he => eq_use_of_mem_reads he), reads_eq_nil_iff, TablesClean, imp_iff_right h]
      simp [hexec, hstatus]
  · have hclean : TablesClean lib := fun hc => absurd hc h
    exact iff_of_true (respects_of_unconnected h _ _) hclean

theorem userRow_some (res : PGresult) (i : Nat) :
    userRow (some (.result 0, res)) i =
      { sent := use (.result 0) :: use (.result 0) ::
          ((read (valueAt (.result 0) res i 0)).sent ++ (read (valueAt (.result 0) res i 1)).sent)
        next := done ⟨valueAt (.result 0) res i 0, valueAt (.result 0) res i 1⟩ } := by
  rw [userRow, PQgetvalue_some, PQgetvalue_some]
  cases valueAt (.result 0) res i 0 <;> cases valueAt (.result 0) res i 1 <;> rfl

theorem next_userRow_read (row : UserRow) : row.read.next = done () := by
  simp [UserRow.read]

theorem release_notMem_userRow_read (h : Handle) (row : UserRow) : release h ∉ row.read.sent := by
  simp [UserRow.read, sent_read_bind]

/-- `getTableRows` is not connected, or its query fails. -/
def RowsClean (lib : Libpq) : Prop := lib.connect 0 = some .ok → Failed (lib.exec 0 rowsQuery)

theorem not_released_getTableRows (h : lib.connect 0 = some .ok)
    (hexec : lib.exec 0 rowsQuery = some res) (hstatus : res.status = .tuplesOk) :
    (∃ a, (getTableRows lib).next = done a) ∧ ¬ Released (getTableRows lib).sent := by
  have hrows := Trace.mapM_of_done fun i => congrArg Trace.next (userRow_some res i)
  have hreads := Trace.forM_of_done next_userRow_read
  rw [getTableRows, withRows_of_answered h hexec hstatus]
  constructor
  · simp [PQntuples, PQclear, hrows, hreads]
  · intro hall
    have hmem := hall (.conn 0) (by simp)
    simp [PQntuples, PQclear, hrows, hreads, userRow_some, release_notMem_userRow_read] at hmem

theorem respects_getTableRows_iff (lib : Libpq) : Respects (getTableRows lib) ↔ RowsClean lib := by
  by_cases h : lib.connect 0 = some .ok
  · by_cases hfail : Failed (lib.exec 0 rowsQuery)
    · exact iff_of_true (respects_withRows_of_failed h hfail _ _) fun _ => hfail
    · have hclean : ¬ RowsClean lib := fun hc => hfail (hc h)
      unfold Failed at hfail
      push Not at hfail
      obtain ⟨res, hexec, hstatus⟩ := hfail
      obtain ⟨⟨a, ha⟩, hopen⟩ := not_released_getTableRows h hexec hstatus
      refine iff_of_false (fun hrespects => ?_) hclean
      exact hopen ((respects_iff_of_done ha).mp hrespects).2
  · have hclean : RowsClean lib := fun hc => absurd hc h
    exact iff_of_true (respects_of_unconnected h _ _) hclean

end rows

/-! ## Logging in -/

/-- The log of `authenticateUser` up to the password. -/
def authLog : List (Event Handle) :=
  [acquire (.conn 0), use (.conn 0), use (.conn 0), acquire (.result 0), use (.result 0),
    use (.result 0), use (.result 0)]

theorem authenticateUser_of_failed {user : Str} (h : lib.connect 0 = some .ok)
    (hfail : Failed (lib.exec 0 (authQuery user))) (pass : Str) :
    (authenticateUser lib user pass).next = done (-1) ∧ Respects (authenticateUser lib user pass) := by
  rw [authenticateUser, withConnection_of_connected h]
  unfold PQexec
  cases hexec : lib.exec 0 (authQuery user) with
  | none =>
    refine ⟨rfl, (respects_iff_of_done rfl).mpr ?_⟩
    simp [PQntuples, PQnfields, PQresultStatus, failInt, PQclear, PQfinish, Released]
  | some res =>
    have hstatus := hfail res hexec
    refine (and_iff_left_of_imp fun hnext => ?_).mpr ?_
    · rw [respects_iff_of_done hnext]
      simp [PQntuples, PQnfields, PQresultStatus, hstatus, failInt, PQclear, PQfinish, Released]
    · simp [PQntuples, PQnfields, PQresultStatus, hstatus, failInt, PQclear, PQfinish]

theorem authenticateUser_of_answered {user : Str} {res : PGresult} (h : lib.connect 0 = some .ok)
    (hexec : lib.exec 0 (authQuery user) = some res) (hstatus : res.status = .tuplesOk) (pass : Str) :
    authenticateUser lib user pass =
      match res.getvalue 0 0 with
      | none => { sent := authLog ++ [use (.result 0)], next := fault }
      | some text =>
        { sent := authLog ++ [use (.result 0), use (.result 0), release (.result 0), release (.conn 0)]
          next := done (if pass = text then 0 else -1) } := by
  rw [authenticateUser, withConnection_of_connected h, authLog]
  unfold PQexec
  cases hvalue : res.getvalue 0 0 with
  | none =>
    simp [hexec, PQntuples, PQnfields, PQresultStatus, hstatus, PQgetvalue_some, valueAt, hvalue,
      sameText, read]
    rfl
  | some text =>
    by_cases htext : pass = text
    · simp [hexec, PQntuples, PQnfields, PQresultStatus, hstatus, PQgetvalue_some, valueAt, hvalue,
        sameText, read, htext, success, PQclear, PQfinish]
    · simp [hexec, PQntuples, PQnfields, PQresultStatus, hstatus, PQgetvalue_some, valueAt, hvalue,
        sameText, read, htext, PQclear, PQfinish]

theorem respects_authenticateUser (lib : Libpq) (user pass : Str) :
    Respects (authenticateUser lib user pass) := by
  by_cases h : lib.connect 0 = some .ok
  · by_cases hfail : Failed (lib.exec 0 (authQuery user))
    · exact (authenticateUser_of_failed h hfail pass).2
    · unfold Failed at hfail
      push Not at hfail
      obtain ⟨res, hexec, hstatus⟩ := hfail
      rw [authenticateUser_of_answered h hexec hstatus]
      cases res.getvalue 0 0 with
      | none =>
        rw [respects_iff_of_fault rfl]
        simp [authLog]
      | some text =>
        rw [respects_iff_of_done rfl]
        simp [authLog, Released]
  · exact respects_of_unconnected h _ _

theorem next_authenticateUser (lib : Libpq) (user pass : Str) :
    (authenticateUser lib user pass).next =
      PwdManLib.authenticateUser
        (if lib.connect 0 = some .ok then
          some fun query => (lib.exec 0 query).getD { status := .fatalError, values := [] }
        else none) user pass := by
  by_cases h : lib.connect 0 = some .ok
  · rw [if_pos h, PwdManLib.authenticateUser]
    by_cases hfail : Failed (lib.exec 0 (authQuery user))
    · rw [(authenticateUser_of_failed h hfail pass).1]
      have hstatus : ((lib.exec 0 (authQuery user)).getD ⟨.fatalError, []⟩).status ≠ .tuplesOk := by
        cases hexec : lib.exec 0 (authQuery user) with
        | none => simp
        | some res => exact hfail res hexec
      simp only [ne_eq, hstatus, not_false_eq_true, if_true]
    · unfold Failed at hfail
      push Not at hfail
      obtain ⟨res, hexec, hstatus⟩ := hfail
      rw [authenticateUser_of_answered h hexec hstatus]
      simp only [hexec, Option.getD_some, hstatus, ne_eq, not_true_eq_false, if_false]
      cases res.getvalue 0 0 with
      | none => rfl
      | some text => by_cases htext : pass = text <;> simp [htext, deref]
  · rw [if_neg h, authenticateUser, withConnection_of_unconnected h]
    rfl

end PwdManLib.Pg
