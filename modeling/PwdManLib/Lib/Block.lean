import PwdManLib.Lib.Exec

/-!
# Blocks of memory

A `Block` is what `malloc` returns: a fixed number of cells, each with a value or still as `malloc` left
it. A load from a cell without a value and an access outside the block are faults. Stores to consecutive
cells are one equation (`storeAll_append`), and so is the list in front of an end mark (`upTo_ofList`).
-/

/-- A block of cells; `none` is a cell that was not stored to. -/
abbrev Block (α : Type) := List (Option α)

namespace Block

open Exec

variable {α : Type}

/-- A block of `n` cells. -/
def malloc (n : Nat) : Block α := List.replicate n none

def load (b : Block α) (i : Nat) : Exec α :=
  match b[i]? with
  | some (some a) => done a
  | _ => fault

def store (b : Block α) (i : Nat) (a : α) : Exec (Block α) :=
  if i < b.length then done (b.set i (some a)) else fault

/-- Store into consecutive cells, from `i` on. -/
def storeAll : Block α → Nat → List α → Exec (Block α)
  | b, _, [] => done b
  | b, i, a :: as => do
    let b ← b.store i a
    storeAll b (i + 1) as

/-- The cells with the values of a list. -/
def ofList (as : List α) : Block α := as.map some

@[simp] theorem length_malloc (n : Nat) : (malloc n : Block α).length = n := List.length_replicate

theorem malloc_succ (n : Nat) : (malloc (n + 1) : Block α) = none :: malloc n := rfl

@[simp] theorem length_ofList (as : List α) : (ofList as).length = as.length := List.length_map some

@[simp] theorem ofList_nil : (ofList [] : Block α) = [] := rfl

@[simp] theorem ofList_cons (a : α) (as : List α) : ofList (a :: as) = some a :: ofList as := rfl

@[simp] theorem ofList_append (as bs : List α) : ofList (as ++ bs) = ofList as ++ ofList bs :=
  List.map_append

@[simp] theorem ofList_inj {as bs : List α} : ofList as = ofList bs ↔ as = bs :=
  List.map_inj_right fun _ _ => Option.some.inj

/-! ## One cell -/

theorem load_append {i : Nat} {b : Block α} (h : b.length = i) (a : α) (rest : Block α) :
    load (b ++ some a :: rest) i = done a := by
  subst h
  simp [load]

theorem store_append {i : Nat} {b : Block α} (h : b.length = i) (x : Option α) (a : α) (rest : Block α) :
    store (b ++ x :: rest) i a = done (b ++ some a :: rest) := by
  subst h
  simp [store]

theorem load_eq_done_iff {b : Block α} {i : Nat} {a : α} : b.load i = done a ↔ b[i]? = some (some a) := by
  rw [load]
  split
  · rename_i a' ha
    simp [ha]
  · rename_i hne
    exact iff_of_false (by simp) (hne a)

theorem lt_length_of_load {b : Block α} {i : Nat} {a : α} (h : b.load i = done a) : i < b.length :=
  (List.getElem?_eq_some_iff.mp (load_eq_done_iff.mp h)).1

theorem load_set_self {b : Block α} {i : Nat} (h : i < b.length) (a : α) : load (b.set i (some a)) i = done a := by
  rw [load_eq_done_iff, List.getElem?_set_self h]

theorem load_set_ne {b : Block α} {i j : Nat} (h : i ≠ j) (x : Option α) : load (b.set i x) j = b.load j := by
  rw [load, load, List.getElem?_set_ne h]

theorem store_of_lt {b : Block α} {i : Nat} (h : i < b.length) (a : α) :
    b.store i a = done (b.set i (some a)) :=
  if_pos h

/-! ## Consecutive cells -/

theorem storeAll_append {b mid : Block α} {as : List α} (h : mid.length = as.length) (rest : Block α) :
    storeAll (b ++ mid ++ rest) b.length as = done (b ++ ofList as ++ rest) := by
  induction as generalizing b mid with
  | nil =>
    obtain rfl := List.length_eq_zero_iff.mp h
    rfl
  | cons a as ih =>
    obtain ⟨x, mid, rfl⟩ := List.exists_cons_of_length_eq_add_one h
    have hlength : mid.length = as.length := Nat.succ.inj h
    have hrest := ih (b := b ++ [some a]) hlength
    rw [List.length_append, List.length_singleton] at hrest
    simp only [List.append_assoc, List.cons_append, List.nil_append, ofList_cons] at hrest ⊢
    rw [storeAll, store_append rfl, done_bind, hrest]

theorem storeAll_of_room {rest : Block α} {as : List α} (h : as.length ≤ rest.length) (b : Block α) :
    storeAll (b ++ rest) b.length as = done (b ++ ofList as ++ rest.drop as.length) := by
  have hfront : (rest.take as.length).length = as.length := by
    rw [List.length_take]
    omega
  have hstore := storeAll_append (b := b) hfront (rest.drop as.length)
  rwa [List.append_assoc, List.take_append_drop] at hstore

theorem storeAll_malloc {n : Nat} {as : List α} (h : as.length ≤ n) :
    storeAll (malloc n) 0 as = done (ofList as ++ malloc (n - as.length)) := by
  have hroom : as.length ≤ (malloc n : Block α).length := by rwa [length_malloc]
  have hstore := storeAll_of_room hroom []
  rwa [malloc, List.drop_replicate] at hstore

theorem storeAll_of_full {b : Block α} {i : Nat} {as : List α} (hi : i ≤ b.length)
    (hfull : b.length < i + as.length) : storeAll b i as = fault := by
  induction as generalizing b i with
  | nil => exact absurd hfull (Nat.not_lt.mpr hi)
  | cons a as ih =>
    rw [List.length_cons] at hfull
    rcases Nat.lt_or_eq_of_le hi with hlt | heq
    · have hrest := ih (b := b.set i (some a)) (i := i + 1) (by rw [List.length_set]; omega)
        (by rw [List.length_set]; omega)
      rw [storeAll, store_of_lt hlt, done_bind, hrest]
    · rw [storeAll, store, if_neg (by omega), fault_bind]

/-! ## Up to an end mark -/

/-- The values in front of the first `stop`. -/
def upTo [DecidableEq α] (stop : α) : Block α → Exec (List α)
  | [] => fault
  | none :: _ => fault
  | some a :: rest => if a = stop then done [] else (a :: ·) <$> upTo stop rest

theorem upTo_ofList [DecidableEq α] {stop : α} {as : List α} (h : stop ∉ as) (rest : Block α) :
    upTo stop (ofList (as ++ [stop]) ++ rest) = done as := by
  induction as with
  | nil => exact if_pos rfl
  | cons a as ih =>
    have ha : a ≠ stop := fun heq => h (heq ▸ List.mem_cons_self)
    have has := ih fun hmem => h (List.mem_cons_of_mem a hmem)
    rw [List.cons_append, ofList_cons, List.cons_append, upTo, if_neg ha, has, map_done]

/-- Copy a list and an end mark to the start of a block. -/
def strcpy (stop : α) (b : Block α) (as : List α) : Exec (Block α) := storeAll b 0 (as ++ [stop])

/-- Copy a list and an end mark behind the list that the block holds. -/
def strcat [DecidableEq α] (stop : α) (b : Block α) (as : List α) : Exec (Block α) := do
  let s ← upTo stop b
  storeAll b s.length (as ++ [stop])

theorem strcpy_of_room {b : Block α} {as : List α} (h : as.length < b.length) (stop : α) :
    strcpy stop b as = done (ofList (as ++ [stop]) ++ b.drop (as.length + 1)) := by
  have hlength : (as ++ [stop]).length = as.length + 1 := by rw [List.length_append, List.length_singleton]
  have hfits : (as ++ [stop]).length ≤ b.length := by omega
  have hstore := storeAll_of_room hfits []
  rwa [hlength] at hstore

theorem strcpy_of_full {b : Block α} {as : List α} (h : b.length ≤ as.length) (stop : α) :
    strcpy stop b as = fault := by
  apply storeAll_of_full (Nat.zero_le _)
  rw [List.length_append, List.length_singleton]
  omega

theorem upTo_strcpy_iff [DecidableEq α] {stop : α} {as : List α} (hstop : stop ∉ as) (b : Block α) (bs : List α) :
    (∃ b', strcpy stop b as = done b' ∧ upTo stop b' = done bs) ↔ as = bs ∧ bs.length < b.length := by
  rcases Nat.lt_or_ge as.length b.length with hroom | hfull
  · rw [strcpy_of_room hroom]
    constructor
    · intro h
      obtain ⟨b', hb', hbs⟩ := h
      obtain rfl := done.inj hb'
      rw [upTo_ofList hstop] at hbs
      obtain rfl := done.inj hbs
      exact ⟨rfl, hroom⟩
    · intro h
      obtain ⟨rfl, -⟩ := h
      exact ⟨_, rfl, upTo_ofList hstop _⟩
  · rw [strcpy_of_full hfull]
    constructor
    · intro h
      obtain ⟨b', hb', -⟩ := h
      cases hb'
    · intro h
      obtain ⟨rfl, hroom⟩ := h
      exact absurd hroom (Nat.not_lt.mpr hfull)

theorem strcpy_bind_strcat [DecidableEq α] {stop : α} {as : List α} (hstop : stop ∉ as) (b : Block α)
    (bs : List α) :
    (strcpy stop b as >>= fun b' => strcat stop b' bs) = strcpy stop b (as ++ bs) := by
  rcases Nat.lt_or_ge as.length b.length with hroom | hfull
  · have hcells : ofList (as ++ [stop]) ++ b.drop (as.length + 1) =
        ofList as ++ some stop :: b.drop (as.length + 1) := by simp
    have hcat : strcat stop (ofList (as ++ [stop]) ++ b.drop (as.length + 1)) bs =
        storeAll (ofList as ++ some stop :: b.drop (as.length + 1)) (ofList as).length (bs ++ [stop]) := by
      rw [strcat, upTo_ofList hstop, done_bind, hcells, length_ofList]
    rw [strcpy_of_room hroom, done_bind, hcat]
    rcases Nat.lt_or_ge (as ++ bs).length b.length with hboth | hfull
    · have hrest : (bs ++ [stop]).length ≤ (some stop :: b.drop (as.length + 1)).length := by
        rw [List.length_append] at hboth
        simp only [List.length_append, List.length_cons, List.length_nil, List.length_drop]
        omega
      rw [storeAll_of_room hrest, strcpy_of_room hboth]
      simp [Nat.add_right_comm, Nat.add_assoc]
    · rw [strcpy_of_full hfull]
      rw [List.length_append] at hfull
      apply storeAll_of_full
      · simp
      · simp only [List.length_append, List.length_cons, List.length_nil, List.length_drop, length_ofList]
        omega
  · have hboth : b.length ≤ (as ++ bs).length := by
      rw [List.length_append]
      omega
    rw [strcpy_of_full hfull, fault_bind, strcpy_of_full hboth]

end Block
