import PwdManLib.Db.Database

/-!
# What a failed `createTable` leaves behind

Every statement of `createTable` is its own transaction. When one fails, those before it have had their
effect (`execStatements_failed`), and the first of them drops the old table: the old rows survive a
failure of the connection or of the DROP only (`usersAfter`).
-/

namespace PwdManLib

open Exec

/-- All statements, one after the other. -/
def applyAll (ss : List Statement) (db : Users) : Option Users := ss.foldlM (fun db s => s.apply db) db

theorem execStatement_ok {fails : Bool} {s : Statement} {db : Users}
    (h : (execStatement fails s db).2 = .commandOk) :
    fails = false ∧ s.apply db = some (execStatement fails s db).1 := by
  rw [execStatement] at h ⊢
  cases fails with
  | true => simp at h
  | false => cases hs : s.apply db <;> simp [hs] at h ⊢

theorem execStatement_failed {fails : Bool} {s : Statement} {db : Users}
    (h : (execStatement fails s db).2 ≠ .commandOk) :
    (execStatement fails s db).1 = db ∧ (fails = true ∨ s.apply db = none) := by
  rw [execStatement] at h ⊢
  cases fails with
  | true => simp
  | false => cases hs : s.apply db <;> simp [hs] at h ⊢

/-- **A failed sequence has carried out the statements before the failing one**, and no other. -/
theorem execStatements_failed {fails : Nat → Bool} {k : Nat} {ss : List Statement} {db db' : Users}
    (h : execStatements fails k ss db = (db', -1)) :
    ∃ before s after, ss = before ++ s :: after ∧ applyAll before db = some db' ∧
      (∀ j < before.length, fails (k + j) = false) ∧
      (fails (k + before.length) = true ∨ s.apply db' = none) := by
  induction ss generalizing k db with
  | nil => simp [execStatements] at h
  | cons s ss ih =>
    rw [execStatements] at h
    by_cases hok : (execStatement (fails k) s db).2 = .commandOk
    · simp only [hok, ne_eq, not_true_eq_false, if_false] at h
      obtain ⟨hfails, happly⟩ := execStatement_ok hok
      obtain ⟨before, s', after, rfl, hbefore, hprior, hlast⟩ := ih h
      refine ⟨s :: before, s', after, rfl, ?_, ?_, ?_⟩
      · rw [applyAll, List.foldlM_cons, happly]
        exact hbefore
      · intro j hj
        cases j with
        | zero => exact hfails
        | succ j =>
          rw [show k + (j + 1) = k + 1 + j by omega]
          exact hprior j (by simpa using hj)
      · rwa [List.length_cons, show k + (before.length + 1) = k + 1 + before.length by omega]
    · simp only [hok, ne_eq, not_false_eq_true, if_true, Prod.mk.injEq, and_true] at h
      obtain ⟨hdb, hwhy⟩ := execStatement_failed hok
      obtain rfl : db = db' := hdb.symm.trans h
      exact ⟨[], s, ss, rfl, rfl, by simp, hwhy⟩

/-- The table after the first `k` statements of `createTable`. -/
def usersAfter (db : Users) : Nat → Users
  | 0 => db
  | 1 => none
  | k + 2 => some ((firstUsers.take k).map fun u => (u.1, some u.2))

theorem usersAfter_spec (db : Users) : ∀ k < 5,
    applyAll (tableStatements.take k) db = some (usersAfter db k) ∧
      ∃ s db', tableStatements[k]? = some s ∧ s.apply (usersAfter db k) = some db'
  | 0, _ => ⟨rfl, _, _, rfl, rfl⟩
  | 1, _ => ⟨rfl, _, _, rfl, rfl⟩
  | 2, _ => ⟨rfl, _, _, rfl, rfl⟩
  | 3, _ => ⟨rfl, _, _, rfl, rfl⟩
  | 4, _ => ⟨rfl, _, _, rfl, rfl⟩
  | _ + 5, hk => absurd hk (by omega)

/-- **What is left after a failure**: the old table if the connection or the DROP failed, no table if
the CREATE failed, and otherwise a new table with the users added so far. -/
theorem createTable_failed (o : Outcomes) (db db' : Users) (h : createTable o db = done (db', -1)) :
    o.connected = false ∧ db' = db ∨
      ∃ k < 5, o.fails k = true ∧ (∀ j < k, o.fails j = false) ∧ db' = usersAfter db k := by
  rw [createTable] at h
  cases hconn : o.connected with
  | false =>
    left
    simpa [hconn, eq_comm] using h
  | true =>
    right
    simp only [hconn, Bool.not_true, Bool.false_eq_true, if_false, bind_eq_done] at h
    obtain ⟨-, -, h⟩ := h
    obtain ⟨before, s, after, hss, hbefore, hprior, hlast⟩ := execStatements_failed (done.inj h)
    have hk : before.length < 5 := by
      have hlen := congrArg List.length hss
      rw [List.length_append, List.length_cons, show tableStatements.length = 5 from rfl] at hlen
      omega
    have htake : tableStatements.take before.length = before := by
      rw [hss, List.take_left]
    have hget : tableStatements[before.length]? = some s := by
      rw [hss, List.getElem?_append_right (le_refl _), Nat.sub_self, List.getElem?_cons_zero]
    obtain ⟨hafter, s', db'', hs', happly⟩ := usersAfter_spec db _ hk
    rw [htake, hbefore, Option.some.injEq] at hafter
    obtain rfl : s = s' := Option.some.inj (hget.symm.trans hs')
    refine ⟨before.length, hk, ?_, fun j hj => by simpa using hprior j hj, hafter⟩
    rw [hafter, happly] at hlast
    simpa using hlast

/-- The second INSERT fails. -/
def secondInsertFails : Outcomes where
  connected := true
  version := .answered
  fails k := k == 3

theorem createTable_failed_insert :
    createTable secondInsertFails (some [(lit "x", none)]) =
        done (some [(lit "foo", some (lit "bar"))], -1) ∧
      (secondInsertFails.connected = false ∧
          some [(lit "foo", some (lit "bar"))] = some [(lit "x", none)] ∨
        ∃ k < 5, secondInsertFails.fails k = true ∧ (∀ j < k, secondInsertFails.fails j = false) ∧
          some [(lit "foo", some (lit "bar"))] = usersAfter (some [(lit "x", none)]) k) :=
  ⟨rfl, createTable_failed _ _ _ rfl⟩

/-- The CREATE fails after the DROP: the old table is lost. -/
theorem failed_create_loses_table :
    ¬ ∀ (o : Outcomes) (db db' : Users), createTable o db = done (db', -1) → db' = db := by
  intro hall
  have h := hall { connected := true, version := .answered, fails := fun k => k == 1 }
    (some [(lit "foo", some (lit "bar"))]) none rfl
  simp at h

end PwdManLib
