import PwdManLib.Db.Database
import PwdManLib.Lib.Quoted

/-!
# Logging in

The query of `authenticateUser` is read here as PostgreSQL reads it, with a string literal that ends at
the first quote not doubled. The user is put into the query as it is, so the literal denotes the user
only when there is no quote in it (`denotes_iff`). Whether the password is right is decided on the first
row of the result, which is missing when nobody has that name (`authenticateUser_of_notMem`).
-/

namespace PwdManLib

open Exec Quoted

def quote : UInt8 := 39

def backslash : UInt8 := 92

/-! ## The text of the query -/

/-- The query compares `username` with `value` in one literal and goes on with `rest`. -/
def Compares (query value rest : Str) : Prop :=
  firstLiteral quote query = some (lit "SELECT password FROM Users WHERE username=", value, rest)

/-- The query for a user is the statement it is meant to be: one literal that denotes the user, and
nothing behind it but the end of the statement. -/
def Denotes (user : Str) : Prop := Compares (authQuery user) user (lit ";")

theorem statement_eq :
    statement = lit "SELECT password FROM Users WHERE username=" ++ [quote] := by
  decide

theorem compares_authQuery {user value rest : Str} :
    Compares (authQuery user) value rest ↔ readQuoted quote (user ++ lit "';") = some (value, rest) := by
  have hquery : authQuery user =
      lit "SELECT password FROM Users WHERE username=" ++ quote :: (user ++ lit "';") := by
    rw [authQuery, statement_eq, List.append_assoc, List.append_assoc, List.singleton_append]
  rw [Compares, hquery, firstLiteral_append (by decide), Option.map_eq_some_iff]
  constructor
  · intro h
    obtain ⟨⟨v, r⟩, hread, heq⟩ := h
    rw [Prod.mk.injEq, Prod.mk.injEq] at heq
    rw [hread, ← heq.2.1, ← heq.2.2]
  · intro hread
    exact ⟨(value, rest), hread, rfl⟩

/-- **The literal denotes the user exactly when no quote is in it.** -/
theorem denotes_iff (user : Str) : Denotes user ↔ quote ∉ user := by
  have hend : user ++ lit "';" = user ++ quote :: lit ";" := rfl
  rw [Denotes, compares_authQuery, readQuoted_eq_some_iff, hend, List.append_left_inj,
    and_iff_left (by decide), eq_comm]
  exact double_eq_self_iff

theorem denotes_both_iff (user₁ user₂ : Str) :
    (Denotes user₁ ∧ Denotes user₂ ∧
      (user₁ ≠ user₂ → ∀ value rest₁ rest₂, Compares (authQuery user₁) value rest₁ →
        ¬ Compares (authQuery user₂) value rest₂)) ↔ quote ∉ user₁ ∧ quote ∉ user₂ := by
  rw [denotes_iff, denotes_iff, ← and_assoc]
  apply and_iff_left_of_imp
  rintro ⟨h₁, h₂⟩ hne value rest₁ rest₂ hc₁ hc₂
  have hv₁ := Option.some.inj (hc₁.symm.trans ((denotes_iff user₁).mpr h₁))
  have hv₂ := Option.some.inj (hc₂.symm.trans ((denotes_iff user₂).mpr h₂))
  rw [Prod.mk.injEq, Prod.mk.injEq] at hv₁ hv₂
  exact hne (hv₁.2.1.symm.trans hv₂.2.1)

/-- A quote in the user name ends the literal and adds a condition of its own. -/
theorem quote_changes_statement :
    ¬ ∀ user₁ user₂ : Str, Denotes user₁ ∧ Denotes user₂ ∧
      (user₁ ≠ user₂ → ∀ value rest₁ rest₂, Compares (authQuery user₁) value rest₁ →
        ¬ Compares (authQuery user₂) value rest₂) := by
  intro hall
  have hdenotes := (hall (lit "x' OR 'a'='a") (lit "foo")).1
  exact (denotes_iff _).mp hdenotes (by decide)

/-! ## The decision -/

/-- The `Users` table: names are unique, and every password is there. -/
structure UsersTable where
  rows : List (Str × Str)
  nodup : (rows.map Prod.fst).Nodup

/-- What is relied on of PostgreSQL: for a name without quotes and backslashes, the query selects the
passwords of the rows with that name, and a selection without rows is a result like any other. -/
def SelectsPasswords (exec : Str → PGresult) (table : UsersTable) : Prop :=
  ∀ user, quote ∉ user → backslash ∉ user →
    exec (authQuery user) =
      { status := .tuplesOk
        values := (table.rows.filter fun row => row.1 = user).map fun row => [row.2] }

/-- A server that executes this one query and no other. -/
def selectPasswords (table : UsersTable) (query : Str) : PGresult :=
  match firstLiteral quote query with
  | some (text, value, rest) =>
    if text = lit "SELECT password FROM Users WHERE username=" ∧ rest = lit ";" then
      { status := .tuplesOk
        values := (table.rows.filter fun row => row.1 = value).map fun row => [row.2] }
    else { status := .fatalError, values := [] }
  | none => { status := .fatalError, values := [] }

theorem selectsPasswords_selectPasswords (table : UsersTable) :
    SelectsPasswords (selectPasswords table) table := by
  intro user hquote _
  have hread : firstLiteral quote (authQuery user) = _ := (denotes_iff user).mpr hquote
  rw [selectPasswords, hread]
  exact if_pos ⟨rfl, rfl⟩

theorem UsersTable.filter_eq (table : UsersTable) {user pass : Str} (h : (user, pass) ∈ table.rows) :
    table.rows.filter (fun row => row.1 = user) = [(user, pass)] := by
  obtain ⟨l₁, l₂, hrows⟩ := List.append_of_mem h
  have hnodup := table.nodup
  rw [hrows, List.map_append, List.map_cons, List.nodup_append, List.nodup_cons] at hnodup
  have hleft : l₁.filter (fun row => row.1 = user) = [] := by
    rw [List.filter_eq_nil_iff]
    intro row hrow
    simpa using hnodup.2.2 row.1 (List.mem_map_of_mem hrow) user (by simp)
  have hright : l₂.filter (fun row => row.1 = user) = [] := by
    rw [List.filter_eq_nil_iff]
    intro row hrow
    have hne : row.1 ≠ user := fun he => hnodup.2.1.1 (List.mem_map.mpr ⟨row, hrow, he⟩)
    simpa using hne
  rw [hrows, List.filter_append, hleft, List.filter_cons, hright]
  simp

theorem authenticateUser_of_mem {exec : Str → PGresult} {table : UsersTable}
    (hexec : SelectsPasswords exec table) {user p : Str} (hquote : quote ∉ user)
    (hbackslash : backslash ∉ user) (hrow : (user, p) ∈ table.rows) (pass : Str) :
    authenticateUser (some exec) user pass = if pass = p then done 0 else done (-1) := by
  simp only [authenticateUser, hexec user hquote hbackslash, table.filter_eq hrow]
  rfl

theorem authenticateUser_of_notMem {exec : Str → PGresult} {table : UsersTable}
    (hexec : SelectsPasswords exec table) {user : Str} (hquote : quote ∉ user)
    (hbackslash : backslash ∉ user) (hrow : ∀ p, (user, p) ∉ table.rows) (pass : Str) :
    authenticateUser (some exec) user pass = fault := by
  have hempty : table.rows.filter (fun row => row.1 = user) = [] := by
    rw [List.filter_eq_nil_iff]
    intro row hmem
    have hne : row.1 ≠ user := fun he => hrow row.2 (he ▸ hmem)
    simpa using hne
  simp only [authenticateUser, hexec user hquote hbackslash, hempty]
  rfl

/-- **When the login check gives the right answer**: when the name is in the table. -/
theorem authenticateUser_correct_iff (exec : Str → PGresult) (table : UsersTable)
    (hexec : SelectsPasswords exec table) (user pass : Str) (hquote : quote ∉ user)
    (hbackslash : backslash ∉ user) :
    authenticateUser (some exec) user pass =
        done (if (user, pass) ∈ table.rows then 0 else -1) ↔
      ∃ p, (user, p) ∈ table.rows := by
  constructor
  · intro h
    by_contra hno
    push Not at hno
    rw [authenticateUser_of_notMem hexec hquote hbackslash hno] at h
    simp at h
  · rintro ⟨p, hp⟩
    have hpass : (user, pass) ∈ table.rows ↔ pass = p := by
      constructor
      · intro h
        have heq := (table.filter_eq h).symm.trans (table.filter_eq hp)
        simpa using heq
      · rintro rfl
        exact hp
    rw [authenticateUser_of_mem hexec hquote hbackslash hp]
    by_cases h : pass = p
    · rw [if_pos h, if_pos (hpass.mpr h)]
    · rw [if_neg h, if_neg (mt hpass.mp h)]

/-- The table with the first of the users `createTable` adds. -/
def fooTable : UsersTable where
  rows := [(lit "foo", lit "bar")]
  nodup := by decide

theorem authenticateUser_correct_iff_foo :
    authenticateUser (some (selectPasswords fooTable)) (lit "foo") (lit "bar") =
        done (if (lit "foo", lit "bar") ∈ fooTable.rows then 0 else -1) ↔
      ∃ p, (lit "foo", p) ∈ fooTable.rows :=
  authenticateUser_correct_iff (selectPasswords fooTable) fooTable
    (selectsPasswords_selectPasswords fooTable) (lit "foo") (lit "bar") (by decide) (by decide)

/-- A user who is not in the table gets no answer. -/
theorem unknown_user_faults :
    ¬ ∀ (exec : Str → PGresult) (table : UsersTable), SelectsPasswords exec table →
      ∀ user pass, quote ∉ user → backslash ∉ user →
        authenticateUser (some exec) user pass =
          done (if (user, pass) ∈ table.rows then 0 else -1) := by
  intro hall
  have h := hall (selectPasswords fooTable) fooTable (selectsPasswords_selectPasswords fooTable)
    (lit "nobody") (lit "x") (by decide) (by decide)
  rw [authenticateUser_of_notMem (selectsPasswords_selectPasswords fooTable) (by decide) (by decide)
    (by simp [fooTable, lit])] at h
  simp at h

end PwdManLib
