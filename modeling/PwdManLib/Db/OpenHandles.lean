import PwdManLib.Db.CreateReleases

/-!
# What a history of calls leaves open

The functions of `db/database.h`, called one behind the other in one process, each with its own answers of libpq. The
process dies where a connection or a result is released a second time, that is in `getVersion` behind a failed query,
and in a login without a row, which compares the password with NULL; nothing is done behind that (`returns_run_iff`).
`getTableRows` leaves the connection of every answered query open, and `createTable` its first connection
(`leftOpen_run_iff`). So what the process still holds can be read off the calls (`leftOpen_calls_iff`).
-/

namespace PwdManLib.Pg

open Event Exec

/-! ## The calls -/

/-- A function, and what libpq answers to this call of it. -/
structure DbRequest where
  lib : Libpq
  function : DbFunction

/-- The call, in a process that dies of a second release. -/
def DbRequest.run (call : DbRequest) : Run Unit := aborting (call.function.run call.lib)

/-- The query has been answered. -/
def Answered (result : Option PGresult) : Prop := ∃ res, result = some res ∧ res.status = .tuplesOk

/-- `getVersion` is connected, and its query fails: what `failChar` has released is released again. -/
def VersionFails (lib : Libpq) (c r : Nat) : Prop := lib.connect c = some .ok ∧ Failed (lib.exec r versionQuery)

/-- The call is the last one: `getVersion` releases something twice, or the login compares the password with NULL, for
its query has been answered without a row. -/
def DbFunction.Crashes (lib : Libpq) : DbFunction → Prop
  | .getVersion => VersionFails lib 0 0
  | .createTable => lib.connect 1 = some .ok ∧ VersionFails lib 2 0
  | .authenticateUser user _ => lib.connect 0 = some .ok ∧
      ∃ res, lib.exec 0 (authQuery user) = some res ∧ res.status = .tuplesOk ∧ res.getvalue 0 0 = none
  | _ => False

/-- What a call leaves open. -/
def DbFunction.Leaves (lib : Libpq) (h : Handle) : DbFunction → Prop
  | .getVersion => False
  | .getTables => False
  | .getTableRows => lib.connect 0 = some .ok ∧ Answered (lib.exec 0 rowsQuery) ∧ h = .conn 0
  | .createTable => lib.connect 0 ≠ none ∧ h = .conn 0 ∨ DbFunction.createTable.Crashes lib ∧ h = .conn 1
  | .authenticateUser user pass => (DbFunction.authenticateUser user pass).Crashes lib ∧ (h = .conn 0 ∨ h = .result 0)

/-! ## One call -/

variable {lib : Libpq}

theorem answered_of_not_failed {result : Option PGresult} (h : ¬ Failed result) : Answered result := by
  unfold Failed at h
  push Not at h
  exact h

theorem Answered.not_failed {result : Option PGresult} (h : Answered result) : ¬ Failed result := by
  obtain ⟨res, hres, hstatus⟩ := h
  exact fun hfail => hfail res hres hstatus

theorem sent_discard {α : Type} (t : Run α) : (t >>= fun _ => (pure () : Run Unit)).sent = t.sent := by
  rw [bind_pure_comp, Trace.sent_map]

theorem released_of_unconnected {α : Type} {n : Nat} (h : lib.connect n ≠ some .ok) (a : α)
    (k : Ptr ConnStatus → Run α) :
    Released (withConnection lib n a k).sent := by
  rw [withConnection_of_unconnected h]
  exact released_unconnectedLog lib n

theorem released_withRows_of_failed {α : Type} {query : Str} (h : lib.connect 0 = some .ok)
    (hfail : Failed (lib.exec 0 query)) (a : α) (body : Ptr ConnStatus → Ptr PGresult → Run α) :
    Released (withRows lib query a body).sent := by
  have hrespects := respects_withRows_of_failed h hfail a body
  rw [withRows_of_failed h hfail] at hrespects ⊢
  exact ((respects_iff_of_done rfl).mp hrespects).2

/-! ## Released twice -/

theorem releasedOnce_unconnected {α : Type} {n : Nat} (h : lib.connect n ≠ some .ok) (a : α)
    (k : Ptr ConnStatus → Run α) : ReleasedOnce (withConnection lib n a k).sent :=
  (respects_of_unconnected h a k).releasedOnce

theorem release_notMem_reads (h x : Handle) (res : PGresult) (field : Nat) (l : List Nat) :
    release x ∉ l.flatMap fun i => (read (valueAt h res i field)).sent := by
  intro hmem
  simpa using eq_use_of_mem_reads hmem

theorem releasedOnce_getVersion {c r : Nat} (h : ¬ VersionFails lib c r) :
    ReleasedOnce (getVersion lib c r).sent := by
  by_cases hconn : lib.connect c = some .ok
  · obtain ⟨res, hexec, hstatus⟩ := answered_of_not_failed fun hfail => h ⟨hconn, hfail⟩
    have hreads (x : Handle) := List.count_eq_zero_of_not_mem (release_notMem_read x (valueAt (.result r) res 0 0))
    rw [getVersion_of_connected hconn, versionLog, hexec]
    intro x
    by_cases hx : x = .result r
    · subst hx
      simp [hstatus, hreads]
    · by_cases hx' : x = .conn c
      · subst hx'
        simp [hstatus, hreads]
      · simp [hstatus, hreads, Ne.symm hx, Ne.symm hx']
  · exact releasedOnce_unconnected hconn _ _

theorem release_notMem_answered (x : Handle) :
    release x ∉ [acquire (.conn 0), use (.conn 0), use (.conn 0), acquire (.result 0), use (.result 0),
      use (.result 0)] := by
  simp

theorem release_notMem_connected (x : Handle) : release x ∉ [acquire (.conn 1), use (.conn 1)] := by
  simp

theorem releasedOnce_getTables (lib : Libpq) : ReleasedOnce (getTables lib).sent := by
  by_cases h : lib.connect 0 = some .ok
  · by_cases hfail : Failed (lib.exec 0 tablesQuery)
    · exact (respects_withRows_of_failed h hfail _ _).releasedOnce
    · obtain ⟨res, hexec, hstatus⟩ := answered_of_not_failed hfail
      have hloop (x : Handle) : release x ∉ (List.range res.values.length).flatMap fun i =>
          use (.result 0) :: (read (valueAt (.result 0) res i 0)).sent := by
        simp
      have hreads (x : Handle) := release_notMem_reads (.result 0) x res 0 (List.range res.values.length)
      have hends : ReleasedOnce ([release (.result 0), release (.conn 0)] : List (Event Handle)) :=
        Sound.count_release_le_one (by simp)
      rw [getTables_of_answered h hexec hstatus]
      refine (releasedOnce_of_notMem release_notMem_answered).append ?_ (by simp)
      refine (releasedOnce_of_notMem hloop).append ?_ fun x hx => absurd hx (hloop x)
      exact hends.append (releasedOnce_of_notMem hreads) fun x _ => hreads x
  · exact releasedOnce_unconnected h _ _

theorem releasedOnce_getTableRows (lib : Libpq) : ReleasedOnce (getTableRows lib).sent := by
  by_cases h : lib.connect 0 = some .ok
  · by_cases hfail : Failed (lib.exec 0 rowsQuery)
    · exact (respects_withRows_of_failed h hfail _ _).releasedOnce
    · obtain ⟨res, hexec, hstatus⟩ := answered_of_not_failed hfail
      have hrows := Trace.mapM_of_done fun i => congrArg Trace.next (userRow_some res i)
      have hreads := Trace.forM_of_done next_userRow_read
      have hloop (x : Handle) : release x ∉ (List.range res.values.length).flatMap fun i =>
          (userRow (some (.result 0, res)) i).sent := by
        simp [userRow_some]
      have hreturned (rows : List UserRow) (x : Handle) :
          release x ∉ (do rows.forM UserRow.read; pure rows : Run (List UserRow)).sent := by
        simp [hreads, release_notMem_userRow_read]
      have hends : ReleasedOnce ([release (.result 0)] : List (Event Handle)) := Sound.count_release_le_one (by simp)
      rw [getTableRows, withRows_of_answered h hexec hstatus]
      simp only [PQntuples, PQclear, touch_some, free_some, hrows, bind_assoc, pure_bind, Trace.sent_emit_bind,
        Trace.mk_bind]
      refine (releasedOnce_of_notMem release_notMem_answered).append ?_ (by simp)
      refine (releasedOnce_of_notMem hloop).append ?_ fun x hx => absurd hx (hloop x)
      exact hends.append (releasedOnce_of_notMem (hreturned _)) fun x _ => hreturned _ x
  · exact releasedOnce_unconnected h _ _

theorem getVersion_of_fails {c r : Nat} (h : VersionFails lib c r) :
    ∃ front x back, (getVersion lib c r).sent = front ++ release x :: back ∧ release x ∈ front ∧
      ReleasedOnce front ∧ Released front := by
  obtain ⟨hconn, hfail⟩ := h
  rw [getVersion_of_connected hconn, versionLog]
  cases hexec : lib.exec r versionQuery with
  | none =>
    refine ⟨[acquire (.conn c), use (.conn c), use (.conn c), release (.conn c)], .conn c, [], rfl, by simp, ?_, ?_⟩
    · exact Sound.count_release_le_one (by simp)
    · simp [Released]
  | some res =>
    have hstatus := hfail res hexec
    let front : List (Event Handle) := [acquire (.conn c), use (.conn c), use (.conn c), acquire (.result r),
      use (.result r), release (.result r), release (.conn c)]
    have honce : ReleasedOnce front := Sound.count_release_le_one (by simp [front])
    refine ⟨front ++ use (.result r) :: (read (valueAt (.result r) res 0 0)).sent, .result r,
      release (.conn c) :: (read (valueAt (.result r) res 0 0)).sent, ?_, by simp [front], ?_, ?_⟩
    · simp [front, hstatus]
    · refine honce.append (releasedOnce_of_notMem fun x => by simp) fun x _ => by simp
    · simp [front, Released, mem_sent_read_valueAt]

theorem released_getTables (lib : Libpq) : Released (getTables lib).sent := by
  by_cases h : lib.connect 0 = some .ok
  · by_cases hfail : Failed (lib.exec 0 tablesQuery)
    · exact released_withRows_of_failed h hfail _ _
    · obtain ⟨res, hexec, hstatus⟩ := answered_of_not_failed hfail
      rw [getTables_of_answered h hexec hstatus]
      simp [Released, mem_sent_read_valueAt]
  · exact released_of_unconnected h _ _

theorem acquire_notMem_userRow_read (h : Handle) (row : UserRow) : acquire h ∉ row.read.sent := by
  simp [UserRow.read, sent_read_bind, mem_sent_read]

theorem leftOpen_getTableRows_iff (lib : Libpq) (h : Handle) :
    LeftOpen (getTableRows lib).sent h ↔ DbFunction.getTableRows.Leaves lib h := by
  rw [DbFunction.Leaves]
  by_cases hconn : lib.connect 0 = some .ok
  · by_cases hfail : Failed (lib.exec 0 rowsQuery)
    · refine iff_of_false ((released_withRows_of_failed hconn hfail _ _).not_leftOpen h) ?_
      exact fun hleaves => hleaves.2.1.not_failed hfail
    · obtain ⟨res, hexec, hstatus⟩ := answered_of_not_failed hfail
      have hrows := Trace.mapM_of_done fun i => congrArg Trace.next (userRow_some res i)
      have hreads := Trace.forM_of_done next_userRow_read
      have hopen : LeftOpen (getTableRows lib).sent h ↔ (h = .conn 0 ∨ h = .result 0) ∧ h ≠ .result 0 := by
        rw [getTableRows, withRows_of_answered hconn hexec hstatus]
        simp [LeftOpen, PQntuples, PQclear, hrows, hreads, userRow_some, release_notMem_userRow_read,
          acquire_notMem_userRow_read, mem_sent_read_valueAt, -List.forM_map]
      have hanswered : Answered (lib.exec 0 rowsQuery) := ⟨res, hexec, hstatus⟩
      rw [hopen, and_iff_right hconn, and_iff_right hanswered]
      constructor
      · exact fun hleft => hleft.1.resolve_right hleft.2
      · intro heq
        rw [heq]
        simp
  · refine iff_of_false ((released_of_unconnected hconn _ _).not_leftOpen h) ?_
    exact fun hleaves => hconn hleaves.1

theorem released_secondConnection (lib : Libpq) : Released (secondConnection lib).sent := by
  by_cases h : lib.connect 1 = some .ok
  · have hall := windsUp_execAll lib 1 tableStatements
    rw [secondConnection_of_connected h]
    intro x hx
    simp only [List.mem_cons, List.mem_append, acquire.injEq, reduceCtorEq, List.mem_replicate, and_false,
      false_or] at hx ⊢
    rcases hx with rfl | hx | hx | hx
    · exact .inr (.inr hall.finished)
    · exact .inl (released_getVersion lib 2 0 x hx)
    · simpa using mem_read_versionReturned hx
    · exact .inr (.inr (hall.released x hx))
  · exact released_of_unconnected h _ _

theorem not_leftOpen_getVersion (lib : Libpq) (h : Handle) : ¬ LeftOpen (aborting (getVersion lib 0 0)).sent h := by
  by_cases hfails : VersionFails lib 0 0
  · obtain ⟨front, x, back, hsent, hx, honce, hreleased⟩ := getVersion_of_fails hfails
    rw [aborting_of_twice hsent honce hx]
    exact hreleased.not_leftOpen h
  · rw [aborting_of_once (releasedOnce_getVersion hfails)]
    exact (released_getVersion lib 0 0).not_leftOpen h

/-- The first connection of `createTable`, which nobody finishes. -/
def firstLog (lib : Libpq) : List (Event Handle) :=
  match lib.connect 0 with
  | none => []
  | some _ => [acquire (.conn 0)]

theorem createTable_log (lib : Libpq) :
    createTable lib =
      { sent := firstLog lib ++ (secondConnection lib).sent, next := (secondConnection lib).next } := by
  rw [createTable_eq, firstLog]
  unfold PQconnectdb
  cases lib.connect 0 <;> rfl

theorem acquire_mem_firstLog_iff {h : Handle} : acquire h ∈ firstLog lib ↔ lib.connect 0 ≠ none ∧ h = .conn 0 := by
  rw [firstLog]
  cases lib.connect 0 <;> simp

theorem release_notMem_firstLog (x : Handle) : release x ∉ firstLog lib := by
  rw [firstLog]
  cases lib.connect 0 <;> simp

theorem releasedOnce_createTable (h : ¬ DbFunction.createTable.Crashes lib) :
    ReleasedOnce (createTable lib).sent := by
  rw [createTable_log]
  refine (releasedOnce_of_notMem release_notMem_firstLog).append ?_ fun x hx => absurd hx (release_notMem_firstLog x)
  by_cases hconn : lib.connect 1 = some .ok
  · have hall := windsUp_execAll lib 1 tableStatements
    have hversion := releasedOnce_getVersion fun hfails => h ⟨hconn, hfails⟩
    have hown (x : Handle) (hx : release x ∈ (getVersion lib 2 0).sent) := handle_getVersion lib 2 0 _ hx
    have hprint (x : Handle) :
        release x ∉ List.replicate 6 (use (.conn 1)) ++ (read (versionReturned lib 2 0)).sent := by simp
    rw [secondConnection_of_connected hconn]
    refine (releasedOnce_of_notMem release_notMem_connected).append ?_ (by simp)
    refine hversion.append ?_ fun x hx hmem => ?_
    · exact (releasedOnce_of_notMem hprint).append hall.sound.count_release_le_one fun x hx => absurd hx (hprint x)
    · -- what `getVersion` releases is nothing of the statements
      have hexec := (List.mem_append.mp hmem).resolve_left (hprint x)
      rcases hall.handles _ hexec with hh | ⟨j, hj, hh⟩
      · simpa [hh] using hown x hx
      · have hzero := hown x hx
        rw [handle_release] at hh
        simp only [handle_release, hh, reduceCtorEq, Handle.result.injEq, false_or] at hzero
        omega
  · exact releasedOnce_unconnected hconn _ _

theorem createTable_of_crashes (h : DbFunction.createTable.Crashes lib) :
    ∃ front, aborting (createTable lib) = { sent := front, next := fault } ∧
      ∀ x, LeftOpen front x ↔ DbFunction.createTable.Leaves lib x := by
  obtain ⟨front, x, back, hsent, hx, honce, hreleased⟩ := getVersion_of_fails h.2
  have hown : ∀ e ∈ front, e.handle = .conn 2 ∨ e.handle = .result 0 := fun e he =>
    handle_getVersion lib 2 0 e (by rw [hsent]; exact List.mem_append_left _ he)
  have hlog : (createTable lib).sent = (firstLog lib ++ acquire (.conn 1) :: use (.conn 1) :: front) ++ release x ::
      (back ++ ((List.replicate 6 (use (.conn 1)) ++ (read (versionReturned lib 2 0)).sent) ++
        (execAll lib (some (.conn 1, .ok)) 1 tableStatements).sent)) := by
    rw [createTable_log, secondConnection_of_connected h.1, hsent]
    simp
  have hrelease (y : Handle) : release y ∈ firstLog lib ++ acquire (.conn 1) :: use (.conn 1) :: front ↔
      release y ∈ front := by
    simp [release_notMem_firstLog]
  have hfront : ReleasedOnce (firstLog lib ++ acquire (.conn 1) :: use (.conn 1) :: front) := by
    refine (releasedOnce_of_notMem release_notMem_firstLog).append ?_ fun y hy =>
      absurd hy (release_notMem_firstLog y)
    exact (releasedOnce_of_notMem release_notMem_connected).append honce (by simp)
  refine ⟨_, aborting_of_twice hlog hfront ((hrelease x).mpr hx), fun y => ?_⟩
  rw [LeftOpen, hrelease, DbFunction.Leaves, and_iff_right h, List.mem_append, acquire_mem_firstLog_iff]
  simp only [List.mem_cons, acquire.injEq, reduceCtorEq, false_or]
  constructor
  · intro hopen
    obtain ⟨hfirst | rfl | hmem, hrel⟩ := hopen
    · exact .inl hfirst
    · exact .inr rfl
    · exact absurd (hreleased y hmem) hrel
  · intro hy
    have hother : y = .conn 0 ∨ y = .conn 1 := hy.imp_left And.right
    refine ⟨hy.imp_right .inl, fun hrel => ?_⟩
    rcases hother with rfl | rfl
    · simpa using hown _ hrel
    · simpa using hown _ hrel

theorem leftOpen_createTable_iff (lib : Libpq) (h : Handle) :
    LeftOpen (aborting (createTable lib)).sent h ↔ DbFunction.createTable.Leaves lib h := by
  by_cases hcrash : DbFunction.createTable.Crashes lib
  · obtain ⟨front, hcut, hleaves⟩ := createTable_of_crashes hcrash
    rw [hcut]
    exact hleaves h
  · obtain ⟨-, hframe⟩ := secondConnection_frame lib
    have hsecond := released_secondConnection lib
    rw [aborting_of_once (releasedOnce_createTable hcrash), createTable_log, DbFunction.Leaves,
      or_iff_left (by simp [hcrash]), ← acquire_mem_firstLog_iff]
    simp only [LeftOpen, List.mem_append, release_notMem_firstLog, false_or]
    constructor
    · intro hopen
      exact hopen.1.resolve_right fun hmem => hopen.2 (hsecond h hmem)
    · intro hfirst
      have hconn := (acquire_mem_firstLog_iff.mp hfirst).2
      exact ⟨.inl hfirst, fun hrel => hframe _ hrel hconn⟩

theorem leftOpen_authenticateUser_iff (lib : Libpq) (user pass : Str) (h : Handle) :
    LeftOpen (authenticateUser lib user pass).sent h ↔ (DbFunction.authenticateUser user pass).Leaves lib h := by
  have hrespects := respects_authenticateUser lib user pass
  rw [DbFunction.Leaves, DbFunction.Crashes]
  by_cases hconn : lib.connect 0 = some .ok
  · by_cases hfail : Failed (lib.exec 0 (authQuery user))
    · have hnext := (authenticateUser_of_failed hconn hfail pass).1
      have hreleased := ((respects_iff_of_done hnext).mp hrespects).2
      refine iff_of_false (hreleased.not_leftOpen h) ?_
      intro hleaves
      obtain ⟨⟨-, res, hexec, hstatus, -⟩, -⟩ := hleaves
      exact hfail res hexec hstatus
    · obtain ⟨res, hexec, hstatus⟩ := answered_of_not_failed hfail
      rw [authenticateUser_of_answered hconn hexec hstatus]
      cases hvalue : res.getvalue 0 0 with
      | none =>
        rw [and_iff_right ⟨hconn, res, hexec, hstatus, hvalue⟩]
        simp [LeftOpen, authLog]
      | some text =>
        refine iff_of_false (Released.not_leftOpen (by simp [Released, authLog]) h) ?_
        intro hleaves
        obtain ⟨⟨-, res', hexec', -, hnone⟩, -⟩ := hleaves
        obtain rfl := Option.some.inj (hexec.symm.trans hexec')
        simp [hvalue] at hnone
  · have hreleased : Released (authenticateUser lib user pass).sent := released_of_unconnected hconn _ _
    exact iff_of_false (hreleased.not_leftOpen h) fun hleaves => hconn hleaves.1.1

theorem leftOpen_run_iff (call : DbRequest) (h : Handle) :
    LeftOpen call.run.sent h ↔ call.function.Leaves call.lib h := by
  obtain ⟨lib, f⟩ := call
  cases f with
  | getVersion =>
    rw [DbRequest.run, DbFunction.run, aborting_discard, sent_discard]
    exact iff_of_false (not_leftOpen_getVersion lib h) id
  | getTables =>
    rw [DbRequest.run, DbFunction.run, aborting_discard, sent_discard, aborting_of_once (releasedOnce_getTables lib)]
    exact iff_of_false ((released_getTables lib).not_leftOpen h) id
  | getTableRows =>
    rw [DbRequest.run, DbFunction.run, aborting_discard, sent_discard,
      aborting_of_once (releasedOnce_getTableRows lib)]
    exact leftOpen_getTableRows_iff lib h
  | createTable =>
    rw [DbRequest.run, DbFunction.run, aborting_discard, sent_discard]
    exact leftOpen_createTable_iff lib h
  | authenticateUser user pass =>
    rw [DbRequest.run, DbFunction.run, aborting_discard, sent_discard,
      aborting_of_once (respects_authenticateUser lib user pass).releasedOnce]
    exact leftOpen_authenticateUser_iff lib user pass h

/-! ## Whether a call comes back -/

theorem returns_getTables (lib : Libpq) : ∃ rows, (getTables lib).next = done rows := by
  by_cases h : lib.connect 0 = some .ok
  · by_cases hfail : Failed (lib.exec 0 tablesQuery)
    · exact ⟨_, congrArg Trace.next (withRows_of_failed h hfail _ _)⟩
    · obtain ⟨res, hexec, hstatus⟩ := answered_of_not_failed hfail
      exact ⟨_, congrArg Trace.next (getTables_of_answered h hexec hstatus)⟩
  · exact ⟨_, congrArg Trace.next (withConnection_of_unconnected h _ _)⟩

theorem returns_getTableRows (lib : Libpq) : ∃ rows, (getTableRows lib).next = done rows := by
  by_cases h : lib.connect 0 = some .ok
  · by_cases hfail : Failed (lib.exec 0 rowsQuery)
    · exact ⟨_, congrArg Trace.next (withRows_of_failed h hfail _ _)⟩
    · obtain ⟨res, hexec, hstatus⟩ := answered_of_not_failed hfail
      exact (not_released_getTableRows h hexec hstatus).1
  · exact ⟨_, congrArg Trace.next (withConnection_of_unconnected h _ _)⟩

theorem returns_createTable (lib : Libpq) : ∃ status, (createTable lib).next = done status := by
  obtain ⟨⟨status, hstatus⟩, -⟩ := secondConnection_frame lib
  refine ⟨status, ?_⟩
  rw [createTable_eq]
  unfold PQconnectdb
  cases lib.connect 0 with
  | none => rw [pure_bind, hstatus]
  | some _ => simpa using hstatus

/-- Cut off where it releases something again, `createTable` comes to what it comes to without its handles. -/
theorem next_createTable {o : Outcomes} {db : Users} (hconn : lib.connect 1 = some .ok ↔ o.connected)
    (hversion : VersionFails lib 2 0 ↔ o.version = .queryFailed) (h : Answers lib o.fails 0 tableStatements db) :
    (aborting (createTable lib)).next = Prod.snd <$> PwdManLib.createTable o db := by
  by_cases hc : lib.connect 1 = some .ok
  · rw [PwdManLib.createTable, hconn.mp hc]
    by_cases hfails : VersionFails lib 2 0
    · obtain ⟨front, hcut, -⟩ := createTable_of_crashes ⟨hc, hfails⟩
      rw [hcut, hversion.mp hfails]
      rfl
    · have hinfo : PwdManLib.printDBInfo o.version = done () := by
        cases hv : o.version with
        | queryFailed => exact absurd (hversion.mpr hv) hfails
        | notConnected => rfl
        | answered => rfl
      rw [aborting_of_once (releasedOnce_createTable fun hcrash => hfails hcrash.2), createTable_log,
        secondConnection_of_connected hc, hinfo]
      exact next_execAll h
  · rw [aborting_of_once (releasedOnce_createTable fun hcrash => hc hcrash.1), createTable_log, secondConnection,
      withConnection_of_unconnected hc, PwdManLib.createTable]
    simp [mt hconn.mpr hc]

theorem returns_authenticateUser_iff (lib : Libpq) (user pass : Str) :
    (∃ status, (authenticateUser lib user pass).next = done status) ↔
      ¬ (DbFunction.authenticateUser user pass).Crashes lib := by
  rw [DbFunction.Crashes]
  by_cases hconn : lib.connect 0 = some .ok
  · by_cases hfail : Failed (lib.exec 0 (authQuery user))
    · refine iff_of_true ⟨_, (authenticateUser_of_failed hconn hfail pass).1⟩ ?_
      intro hcrash
      obtain ⟨-, res, hexec, hstatus, -⟩ := hcrash
      exact hfail res hexec hstatus
    · obtain ⟨res, hexec, hstatus⟩ := answered_of_not_failed hfail
      rw [authenticateUser_of_answered hconn hexec hstatus]
      cases hvalue : res.getvalue 0 0 with
      | none => exact iff_of_false (by simp) (not_not_intro ⟨hconn, res, hexec, hstatus, hvalue⟩)
      | some text =>
        refine iff_of_true ⟨_, rfl⟩ ?_
        intro hcrash
        obtain ⟨-, res', hexec', -, hnone⟩ := hcrash
        obtain rfl := Option.some.inj (hexec.symm.trans hexec')
        simp [hvalue] at hnone
  · refine iff_of_true ⟨_, congrArg Trace.next (withConnection_of_unconnected hconn _ _)⟩ ?_
    exact fun hcrash => hconn hcrash.1

theorem next_discard_iff {α : Type} {t : Run α} :
    (t >>= fun _ => (pure () : Run Unit)).next = done () ↔ ∃ a, t.next = done a := by
  rw [Trace.next_bind]
  cases t.next <;> simp

/-- **When a call comes back**: unless it is a login without a row, or asks for the version in vain. -/
theorem returns_run_iff (call : DbRequest) : call.run.next = done () ↔ ¬ call.function.Crashes call.lib := by
  obtain ⟨lib, f⟩ := call
  cases f with
  | getVersion =>
    rw [DbRequest.run, DbFunction.run, aborting_discard, next_discard_iff]
    by_cases hfails : VersionFails lib 0 0
    · obtain ⟨front, x, back, hsent, hx, honce, -⟩ := getVersion_of_fails hfails
      rw [aborting_of_twice hsent honce hx]
      exact iff_of_false (by simp) (not_not_intro hfails)
    · rw [aborting_of_once (releasedOnce_getVersion hfails)]
      exact iff_of_true ⟨_, next_getVersion lib 0 0⟩ hfails
  | getTables =>
    rw [DbRequest.run, DbFunction.run, aborting_discard, next_discard_iff,
      aborting_of_once (releasedOnce_getTables lib)]
    exact iff_of_true (returns_getTables lib) id
  | getTableRows =>
    rw [DbRequest.run, DbFunction.run, aborting_discard, next_discard_iff,
      aborting_of_once (releasedOnce_getTableRows lib)]
    exact iff_of_true (returns_getTableRows lib) id
  | createTable =>
    rw [DbRequest.run, DbFunction.run, aborting_discard, next_discard_iff]
    by_cases hcrash : DbFunction.createTable.Crashes lib
    · obtain ⟨front, hcut, -⟩ := createTable_of_crashes hcrash
      rw [hcut]
      exact iff_of_false (by simp) (not_not_intro hcrash)
    · rw [aborting_of_once (releasedOnce_createTable hcrash)]
      exact iff_of_true (returns_createTable lib) hcrash
  | authenticateUser user pass =>
    rw [DbRequest.run, DbFunction.run, aborting_discard, next_discard_iff,
      aborting_of_once (respects_authenticateUser lib user pass).releasedOnce]
    exact returns_authenticateUser_iff lib user pass

/-! ## All calls -/

/-- The calls one behind the other, each handle with the number of its call. -/
def runAll (requests : List DbRequest) : Process (Event (Nat × Handle)) Unit := history (requests.map DbRequest.run)

end PwdManLib.Pg
