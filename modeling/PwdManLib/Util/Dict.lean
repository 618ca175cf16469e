import PwdManLib.Util.StringOps

/-!
# The static-size dictionary of `util/oop.h`

`entries[i]` is `table + i` from `initDict` on, so the array of pointers and the table it points into
are one list of tuples. `counter` and `size` are `unsigned int`, but `findKey` hands an index back as
an `int`, and its callers index `entries` with that `int`: the conversion and the bounds of the access
are part of the model (`Dict.slot`).
-/

namespace PwdManLib

open Exec

/-- A `void *`: NULL, `(void *) -1`, or any other address, seen as what it points to. -/
inductive VoidPtr (V : Type) where
  | null
  | minusOne
  | to (v : V)
  deriving DecidableEq, Repr

/-- A string pointer stored as a value. -/
def VoidPtr.ofStr : Option Str → VoidPtr Str
  | none => .null
  | some s => .to s

/-- `struct tuple`: a slot is free when its key is NULL. -/
structure Tuple (V : Type) where
  key : Option Str
  val : VoidPtr V
  deriving DecidableEq, Repr

/-- `struct dict`. -/
structure Dict (V : Type) where
  size : Nat
  counter : Nat
  entries : List (Tuple V)
  size_lt : size < 2 ^ 32
  length_entries : entries.length = size
  counter_le : counter ≤ size

namespace Dict

variable {V : Type}

/-- All keys start as NULL. The values start unset and are read under a key only. -/
def initDict (size : UInt32) : Dict V where
  size := size.toNat
  counter := 0
  entries := List.replicate size.toNat ⟨none, .null⟩
  size_lt := size.toNat_lt
  length_entries := List.length_replicate
  counter_le := Nat.zero_le _

/-- The test in `findKey`: both keys are there and `strcmp` finds them equal. -/
def sameKey (key check : Option Str) : Bool :=
  match key, check with
  | some k, some c => k == c
  | _, _ => false

/-- The index of a key among the first `counter` slots, returned as an `int`, or -1. -/
def findKey (d : Dict V) (check : Option Str) : Int :=
  match (d.entries.take d.counter).findIdx? fun t => sameKey t.key check with
  | some i => toInt i
  | none => -1

/-- The access `entries[i]`: the index and the tuple there. -/
def slot (d : Dict V) (i : Int) : Exec (Nat × Tuple V) :=
  if 0 ≤ i then
    match d.entries[i.toNat]? with
    | some t => done (i.toNat, t)
    | none => fault
  else
    fault

/-- Overwrite a slot. -/
def store (d : Dict V) (i : Nat) (t : Tuple V) : Dict V :=
  { d with
    entries := d.entries.set i t
    length_entries := by rw [List.length_set, d.length_entries] }

/-- The search for a free slot: the first NULL key, or `size`. -/
def firstFree (d : Dict V) : Nat := d.entries.findIdx fun t => t.key.isNone

/-- Set the value of a key, in its slot or in the first free one. -/
def setTuple (d : Dict V) (key : Option Str) (val : VoidPtr V) : Exec (Dict V × Int) :=
  let i := d.findKey key
  if i ≠ -1 then do
    let (j, t) ← d.slot i
    done (d.store j { t with val := val }, 0)
  else if h : d.counter < d.size then do
    let (j, _) ← d.slot d.firstFree
    done ({ d.store j ⟨key, val⟩ with counter := d.counter + 1, counter_le := h }, 0)
  else
    done (d, -1)

/-- The value of a key, or `(void *) -1`. -/
def getTuple (d : Dict V) (key : Option Str) : Exec (VoidPtr V) :=
  let i := d.findKey key
  if i ≠ -1 then do
    let (_, t) ← d.slot i
    done t.val
  else
    done .minusOne

/-- The value in a slot below `counter`, or `(void *) -1`. -/
def getIndex (d : Dict V) (index : Nat) : VoidPtr V :=
  match d.entries[index]? with
  | some t => if index < d.counter ∧ t.key ≠ none then t.val else .minusOne
  | none => .minusOne

/-- Free the slot of a key; the slots behind it stay where they are. -/
def removeTuple (d : Dict V) (key : Option Str) : Exec (Dict V × Int) :=
  let i := d.findKey key
  if i ≠ -1 then do
    let (j, _) ← d.slot i
    done ({ d.store j ⟨none, .null⟩ with
      counter := d.counter - 1
      counter_le := (Nat.sub_le _ _).trans d.counter_le }, 0)
  else
    done (d, -1)

/-! ## What `findKey` finds -/

theorem sameKey_some {key : Option Str} {k : Str} : sameKey key (some k) = true ↔ key = some k := by
  cases key with
  | none => simp [sameKey]
  | some c => simp [sameKey]

theorem findKey_cases (d : Dict V) (k : Str) :
    (∃ i t, i < d.counter ∧ d.entries[i]? = some t ∧ t.key = some k ∧
        d.findKey (some k) = toInt i) ∨
      ((∀ i t, i < d.counter → d.entries[i]? = some t → t.key ≠ some k) ∧
        d.findKey (some k) = -1) := by
  rw [findKey]
  cases h : (d.entries.take d.counter).findIdx? fun t => sameKey t.key (some k) with
  | some i =>
    left
    obtain ⟨hi, hkey, -⟩ := List.findIdx?_eq_some_iff_getElem.mp h
    rw [List.length_take] at hi
    rw [List.getElem_take, sameKey_some] at hkey
    exact ⟨i, d.entries.get ⟨i, by omega⟩, by omega, List.getElem?_eq_getElem _, hkey, rfl⟩
  | none =>
    right
    refine ⟨fun i t hi ht hkey => ?_, rfl⟩
    have hmem : t ∈ d.entries.take d.counter :=
      List.mem_of_getElem? (by rw [List.getElem?_take_of_lt hi, ht])
    have := List.findIdx?_eq_none_iff.mp h t hmem
    rw [sameKey_some.mpr hkey] at this
    exact Bool.noConfusion this

theorem slot_of_getElem? {d : Dict V} {i : Nat} {t : Tuple V} (h : d.entries[i]? = some t) :
    d.slot (i : Int) = done (i, t) := by
  rw [slot, if_pos (Int.natCast_nonneg i), Int.toNat_natCast, h]

/-- The number of slots that hold a key. -/
def occupied (d : Dict V) : Nat := d.entries.countP fun t => t.key.isSome

end Dict

end PwdManLib
