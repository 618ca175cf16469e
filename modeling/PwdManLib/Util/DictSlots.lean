import Mathlib.Data.Nat.Find
import PwdManLib.Util.Dict

/-!
# The slots of the dictionary and what the calls find

`findKey` looks at the first `counter` slots. What a call does is decided by where it finds its key
there (`Dict.FoundAt`, `Dict.OutOfWindow`): for each of the two there is one lemma for each call, and
what a call writes is one slot (`at_store_iff`, `occupied_store`).
-/

namespace PwdManLib

open Exec

variable {V : Type}

/-- Slot `j` holds key `k` with value `v`. -/
abbrev Dict.At (d : Dict V) (j : Nat) (k : Str) (v : VoidPtr V) : Prop :=
  d.entries[j]? = some ⟨some k, v⟩

namespace Dict

/-- The key in a slot, if there is one. -/
def keyAt (d : Dict V) (i : Nat) : Option Str := d.entries[i]?.bind Tuple.key

/-- The slot exists and holds no key. -/
def IsFree (d : Dict V) (i : Nat) : Prop := ∃ t, d.entries[i]? = some t ∧ t.key = none

/-- `findKey` stops at slot `i`: the first one of the window that holds the key. -/
structure FoundAt (d : Dict V) (i : Nat) (k : Str) : Prop where
  key : d.keyAt i = some k
  lt : i < d.counter
  first : ∀ j < i, d.keyAt j ≠ some k

/-- No slot of the window holds the key. -/
def OutOfWindow (d : Dict V) (k : Str) : Prop := ∀ i < d.counter, d.keyAt i ≠ some k

variable {d : Dict V} {i : Nat} {k : Str}

theorem keyAt_eq_some_iff : d.keyAt i = some k ↔ ∃ w, d.At i k w := by
  rw [keyAt, Option.bind_eq_some_iff]
  constructor
  · intro h
    obtain ⟨⟨key, w⟩, ht, rfl⟩ := h
    exact ⟨w, ht⟩
  · intro h
    obtain ⟨w, hw⟩ := h
    exact ⟨_, hw, rfl⟩

theorem At.keyAt {w : VoidPtr V} (h : d.At i k w) : d.keyAt i = some k := keyAt_eq_some_iff.mpr ⟨w, h⟩

theorem lt_size_of_keyAt (h : d.keyAt i = some k) : i < d.size := by
  obtain ⟨w, hw⟩ := keyAt_eq_some_iff.mp h
  rw [← d.length_entries]
  exact (List.getElem?_eq_some_iff.mp hw).1

theorem IsFree.lt_size (h : d.IsFree i) : i < d.size := by
  obtain ⟨t, ht, -⟩ := h
  rw [← d.length_entries]
  exact (List.getElem?_eq_some_iff.mp ht).1

theorem IsFree.keyAt (h : d.IsFree i) : d.keyAt i = none := by
  obtain ⟨t, ht, hkey⟩ := h
  rw [Dict.keyAt, ht, Option.bind_some, hkey]

/-! ## Writing one slot -/

theorem getElem?_store (d : Dict V) (j : Nat) (t : Tuple V) {u : Tuple V}
    (hj : d.entries[j]? = some u) (i : Nat) :
    (d.store j t).entries[i]? = if i = j then some t else d.entries[i]? := by
  have hlt := (List.getElem?_eq_some_iff.mp hj).1
  show (d.entries.set j t)[i]? = _
  rw [List.getElem?_set]
  by_cases hij : i = j
  · rw [if_pos hij.symm, if_pos hlt, if_pos hij]
  · rw [if_neg (Ne.symm hij), if_neg hij]

theorem occupied_store (d : Dict V) (j : Nat) (t : Tuple V) {u : Tuple V}
    (hj : d.entries[j]? = some u) :
    (d.store j t).occupied + (if u.key.isSome then 1 else 0) =
      d.occupied + (if t.key.isSome then 1 else 0) := by
  obtain ⟨hlt, hu⟩ := List.getElem?_eq_some_iff.mp hj
  have hle : (if u.key.isSome then 1 else 0) ≤ d.occupied := by
    split_ifs with hs
    · exact List.countP_pos_iff.mpr ⟨u, List.mem_of_getElem? hj, hs⟩
    · exact Nat.zero_le _
  show (d.entries.set j t).countP _ + _ = _
  rw [List.countP_set hlt, hu]
  unfold occupied at hle ⊢
  omega

theorem at_store_iff (t : Tuple V) (hi : i < d.size) (j : Nat) (k : Str) (w : VoidPtr V) :
    (d.store i t).At j k w ↔ if j = i then t = ⟨some k, w⟩ else d.At j k w := by
  have hlt : i < d.entries.length := d.length_entries ▸ hi
  rw [At, getElem?_store d i t (List.getElem?_eq_getElem hlt) j]
  split_ifs
  · exact Option.some_inj
  · rfl

theorem keyAt_store (t : Tuple V) (hi : i < d.size) (j : Nat) :
    (d.store i t).keyAt j = if j = i then t.key else d.keyAt j := by
  have hlt : i < d.entries.length := d.length_entries ▸ hi
  rw [Dict.keyAt, getElem?_store d i t (List.getElem?_eq_getElem hlt) j]
  split_ifs <;> rfl

theorem occupied_update (h : d.keyAt i = some k) (v : VoidPtr V) :
    (d.store i ⟨some k, v⟩).occupied = d.occupied := by
  obtain ⟨w, hw⟩ := keyAt_eq_some_iff.mp h
  have hocc := occupied_store d i ⟨some k, v⟩ hw
  simp only [Option.isSome_some, if_true] at hocc
  omega

theorem occupied_insert (h : d.IsFree i) (k : Str) (v : VoidPtr V) :
    (d.store i ⟨some k, v⟩).occupied = d.occupied + 1 := by
  obtain ⟨t, ht, hkey⟩ := h
  have hocc := occupied_store d i ⟨some k, v⟩ ht
  simp only [hkey, Option.isSome_some, Option.isSome_none, if_true, Bool.false_eq_true, if_false]
    at hocc
  omega

theorem occupied_vacate (h : d.keyAt i = some k) :
    (d.store i ⟨none, .null⟩).occupied = d.occupied - 1 := by
  obtain ⟨w, hw⟩ := keyAt_eq_some_iff.mp h
  have hocc := occupied_store d i ⟨none, .null⟩ hw
  simp only [Option.isSome_some, Option.isSome_none, if_true, Bool.false_eq_true, if_false] at hocc
  omega

/-! ## The first free slot -/

theorem isFree_firstFree (h : d.firstFree < d.size) : d.IsFree d.firstFree := by
  have hlt : d.firstFree < d.entries.length := d.length_entries ▸ h
  refine ⟨d.entries[d.firstFree], List.getElem?_eq_getElem hlt, ?_⟩
  exact Option.isNone_iff_eq_none.mp (List.findIdx_getElem (w := hlt))

theorem findIdx_le_countP {α : Type} (p : α → Bool) (l : List α) :
    l.findIdx p ≤ l.countP fun a => !p a := by
  induction l with
  | nil => exact Nat.le_refl 0
  | cons a l ih =>
    rw [List.findIdx_cons, List.countP_cons]
    cases p a with
    | true => exact Nat.zero_le _
    | false => exact Nat.succ_le_succ ih

theorem firstFree_le_occupied (d : Dict V) : d.firstFree ≤ d.occupied := by
  have h := findIdx_le_countP (fun t : Tuple V => t.key.isNone) d.entries
  simp only [Option.not_isNone] at h
  exact h

theorem firstFree_le (h : d.IsFree i) : d.firstFree ≤ i := by
  obtain ⟨t, ht, hkey⟩ := h
  obtain ⟨hlt, heq⟩ := List.getElem?_eq_some_iff.mp ht
  by_contra hgt
  have hno := List.not_of_lt_findIdx (p := fun t : Tuple V => t.key.isNone) (Nat.lt_of_not_le hgt)
  rw [heq, hkey] at hno
  exact absurd hno (by decide)

/-! ## The window -/

theorem found_or_out (d : Dict V) (k : Str) : (∃ i, d.FoundAt i k) ∨ d.OutOfWindow k := by
  by_cases hex : ∃ i, i < d.counter ∧ d.keyAt i = some k
  · left
    obtain ⟨hlt, hkey⟩ := Nat.find_spec hex
    refine ⟨Nat.find hex, hkey, hlt, fun j hj hjkey => ?_⟩
    exact Nat.find_min hex hj ⟨hj.trans hlt, hjkey⟩
  · right
    intro i hi hkey
    exact hex ⟨i, hi, hkey⟩

theorem FoundAt.not_out (h : d.FoundAt i k) : ¬ d.OutOfWindow k := fun hout => hout i h.lt h.key

theorem FoundAt.unique {j : Nat} (h : d.FoundAt i k) (h' : d.FoundAt j k) : i = j := by
  rcases Nat.lt_trichotomy i j with hlt | heq | hlt
  · exact absurd h.key (h'.first i hlt)
  · exact heq
  · exact absurd h'.key (h.first j hlt)

/-! ## What the calls return -/

theorem FoundAt.findKey (h : d.FoundAt i k) : d.findKey (some k) = toInt i := by
  have hlt := lt_size_of_keyAt h.key
  have hlen : (d.entries.take d.counter).length = d.counter := by
    rw [List.length_take, d.length_entries, Nat.min_eq_left d.counter_le]
  have hat (j : Nat) (hj : j < (d.entries.take d.counter).length) :
      sameKey ((d.entries.take d.counter)[j]).key (some k) = true ↔ d.keyAt j = some k := by
    have hj' : j < d.entries.length := by
      rw [d.length_entries]
      exact (hlen ▸ hj).trans_le d.counter_le
    rw [sameKey_some, List.getElem_take, keyAt, List.getElem?_eq_getElem hj', Option.bind_some]
  have hfind : ((d.entries.take d.counter).findIdx? fun t => sameKey t.key (some k)) = some i := by
    refine List.findIdx?_eq_some_iff_getElem.mpr ⟨by rw [hlen]; exact h.lt, (hat i _).mpr h.key, ?_⟩
    intro j hj
    rw [hat]
    exact h.first j hj
  rw [Dict.findKey, hfind]

theorem OutOfWindow.findKey (h : d.OutOfWindow k) : d.findKey (some k) = -1 := by
  rcases findKey_cases d k with ⟨j, ⟨key, w⟩, hj, ht, hkey, -⟩ | ⟨-, hfind⟩
  · obtain rfl : key = some k := hkey
    exact absurd (keyAt_eq_some_iff.mpr ⟨w, ht⟩) (h j hj)
  · exact hfind

theorem FoundAt.slot {w : VoidPtr V} (h : d.FoundAt i k) (hw : d.At i k w) :
    d.findKey (some k) ≠ -1 ∧
      d.slot (d.findKey (some k)) = if i < 2 ^ 31 then done (i, ⟨some k, w⟩) else fault := by
  have hsize := d.size_lt
  have hlt := lt_size_of_keyAt h.key
  have hwin := h.lt
  have hcounter := d.counter_le
  rw [h.findKey]
  split_ifs with hint
  · rw [toInt_of_lt hint]
    exact ⟨by omega, slot_of_getElem? hw⟩
  · rw [toInt_of_ge (by omega) (by omega), Dict.slot, if_neg (by omega)]
    exact ⟨by omega, rfl⟩

theorem FoundAt.getTuple {w : VoidPtr V} (h : d.FoundAt i k) (hw : d.At i k w) :
    d.getTuple (some k) = if i < 2 ^ 31 then done w else fault := by
  obtain ⟨hne, hslot⟩ := h.slot hw
  simp only [Dict.getTuple, if_pos hne, hslot]
  split_ifs <;> rfl

theorem OutOfWindow.getTuple (h : d.OutOfWindow k) : d.getTuple (some k) = done .minusOne := by
  simp only [Dict.getTuple, h.findKey]
  rfl

theorem FoundAt.setTuple (h : d.FoundAt i k) (v : VoidPtr V) :
    d.setTuple (some k) v = if i < 2 ^ 31 then done (d.store i ⟨some k, v⟩, 0) else fault := by
  obtain ⟨w, hw⟩ := keyAt_eq_some_iff.mp h.key
  obtain ⟨hne, hslot⟩ := h.slot hw
  simp only [Dict.setTuple, if_pos hne, hslot]
  split_ifs <;> rfl

/-- The table after a new entry in slot `i`. -/
def insertAt (d : Dict V) (hroom : d.counter < d.size) (i : Nat) (t : Tuple V) : Dict V :=
  { d.store i t with counter := d.counter + 1, counter_le := hroom }

theorem OutOfWindow.setTuple_new (h : d.OutOfWindow k) (hroom : d.counter < d.size)
    (hfree : d.IsFree d.firstFree) (v : VoidPtr V) :
    d.setTuple (some k) v = done (d.insertAt hroom d.firstFree ⟨some k, v⟩, 0) := by
  obtain ⟨t, ht, -⟩ := hfree
  simp only [Dict.setTuple, h.findKey, dif_pos hroom, slot_of_getElem? ht]
  rfl

theorem OutOfWindow.setTuple_full (h : d.OutOfWindow k) (hfull : d.counter = d.size) (v : VoidPtr V) :
    d.setTuple (some k) v = done (d, -1) := by
  simp only [Dict.setTuple, h.findKey, dif_neg (by omega : ¬ d.counter < d.size)]
  rfl

/-- The table after slot `i` has been freed. -/
def vacate (d : Dict V) (i : Nat) : Dict V :=
  { d.store i ⟨none, .null⟩ with
    counter := d.counter - 1
    counter_le := Nat.le_trans (Nat.sub_le _ _) d.counter_le }

theorem FoundAt.removeTuple (h : d.FoundAt i k) :
    d.removeTuple (some k) = if i < 2 ^ 31 then done (d.vacate i, 0) else fault := by
  obtain ⟨w, hw⟩ := keyAt_eq_some_iff.mp h.key
  obtain ⟨hne, hslot⟩ := h.slot hw
  simp only [Dict.removeTuple, if_pos hne, hslot]
  split_ifs <;> rfl

theorem OutOfWindow.removeTuple (h : d.OutOfWindow k) : d.removeTuple (some k) = done (d, -1) := by
  simp only [Dict.removeTuple, h.findKey]
  rfl

end Dict

end PwdManLib
