import Mathlib.Algebra.Group.Int.Defs
import Mathlib.Algebra.Group.Nat.Defs
import PwdManLib.Lib.Refine

/-!
# The integer vector of `util/vector.c`

`Vector` is the struct with the block its `data` points to, cell by cell: a cell that was never written
is `none`. Allocation succeeds and gives the number of bytes asked for, which is computed in `size_t`
like the capacity itself. `int_vector_get` ends the process when the index is out of bounds; what is left
then is no vector at all.

What the vector is for is a list that grows (`listStep`), and call by call it is one (`step_list`).
-/

namespace PwdManLib

open Exec Refine

/-- `Vector`. -/
structure Vector where
  size : Nat
  capacity : Nat
  data : List (Option Int32)
  deriving DecidableEq

/-- The cells of a block of `sizeof(int) * capacity` bytes. -/
def blockCells (capacity : Nat) : Nat := 4 * capacity % 2 ^ 64 / 4

/-- `realloc` to a block of `n` cells: the contents stay as far as they fit. -/
def reallocCells (data : List (Option Int32)) (n : Nat) : List (Option Int32) :=
  data.take n ++ List.replicate (n - data.length) none

/-- An `int` in a comparison with a `size_t`. -/
def sizeOfInt (index : Int32) : Nat := (index.toInt % 2 ^ 64).toNat

/-- `data[i] = value`. -/
def Vector.write (vector : Vector) (i : Nat) (value : Int32) : Exec Vector :=
  if i < vector.data.length then done { vector with data := vector.data.set i (some value) } else fault

def intVectorInit (vector_initial_capacity : UInt64) : Vector where
  size := 0
  capacity := vector_initial_capacity.toNat
  data := List.replicate (blockCells vector_initial_capacity.toNat) none

/-- Double the capacity when there is no room left. -/
def intVectorResize (vector : Vector) : Vector :=
  if vector.size ≥ vector.capacity then
    let capacity := vector.capacity * 2 % 2 ^ 64
    { vector with capacity := capacity, data := reallocCells vector.data (blockCells capacity) }
  else
    vector

def intVectorAppend (vector : Vector) (value : Int32) : Exec Vector := do
  let vector := intVectorResize vector
  let written ← vector.write vector.size value
  done { written with size := (vector.size + 1) % 2 ^ 64 }

/-- The value at an index, or none when the process ends with `exit(1)`. -/
def intVectorGet (vector : Vector) (index : Int32) : Exec (Option Int32) :=
  if sizeOfInt index ≥ vector.size ∨ index.toInt < 0 then
    done none
  else
    match vector.data[index.toInt.toNat]? with
    | some (some value) => done (some value)
    | _ => fault

/-- One round of `while (index >= vector->size)`. -/
def setStep (index : Int32) (vector : Vector) : Exec (Vector ⊕ Vector) :=
  if sizeOfInt index ≥ vector.size then do
    let vector ← intVectorAppend vector 0
    done (.inl vector)
  else
    done (.inr vector)

/-- Zero-fill up to the index, and set the value there. -/
def intVectorSet (vector : Vector) (index value : Int32) (rounds : Nat) : Exec Vector := do
  let vector ← loop (setStep index) vector rounds
  if 0 ≤ index.toInt then vector.write index.toInt.toNat value else fault

/-! ## Calls -/

inductive VectorOp where
  | append (value : Int32)
  | set (index value : Int32)
  | get (index : Int32)
  deriving DecidableEq

/-- What a call gives: nothing, a value, or the end of the process. -/
inductive VectorRes where
  | unit
  | value (value : Int32)
  | exit
  deriving DecidableEq

/-- One call, as long as the process runs. -/
def vectorStep (rounds : Nat) : Option Vector → VectorOp → Exec (Option Vector × VectorRes)
  | none, _ => done (none, .exit)
  | some vector, .append value => do
    let vector ← intVectorAppend vector value
    done (some vector, .unit)
  | some vector, .set index value => do
    let vector ← intVectorSet vector index value rounds
    done (some vector, .unit)
  | some vector, .get index => do
    match ← intVectorGet vector index with
    | some value => done (some vector, .value value)
    | none => done (none, .exit)

/-- The same call on a list that grows. -/
def listStep : Option (List Int32) → VectorOp → Option (List Int32) × VectorRes
  | none, _ => (none, .exit)
  | some xs, .append value => (some (xs ++ [value]), .unit)
  | some xs, .set index value =>
    let n := index.toInt.toNat
    (some ((xs ++ List.replicate (n + 1 - xs.length) 0).set n value), .unit)
  | some xs, .get index =>
    match if 0 ≤ index.toInt then xs[index.toInt.toNat]? else none with
    | some value => (some xs, .value value)
    | none => (none, .exit)

/-- What is asked of a call: an append does not make `size_t` overflow, in the capacity or in the number
of bytes, and the index of a set is not negative. -/
def VectorOp.Allowed : Option Vector → VectorOp → Prop
  | some vector, .append _ => vector.size ≥ vector.capacity → 4 * (vector.capacity * 2) < 2 ^ 64
  | none, .append _ => True
  | _, .set index _ => 0 ≤ index.toInt
  | _, .get _ => True

instance (vector : Option Vector) (op : VectorOp) : Decidable (VectorOp.Allowed vector op) := by
  cases vector <;> cases op <;> unfold VectorOp.Allowed <;> infer_instance

/-! ## The representation -/

/-- The vector holds the list in the first cells of its block. -/
structure Vector.Holds (initial : Nat) (v : Vector) (xs : List Int32) : Prop where
  size : v.size = xs.length
  data : v.data = xs.map some ++ List.replicate (v.capacity - xs.length) none
  size_le : xs.length ≤ v.capacity
  doubled : ∃ k, v.capacity = initial * 2 ^ k
  fits : 4 * v.capacity < 2 ^ 64

namespace Vector

variable {initial : Nat} {v : Vector} {xs : List Int32}

theorem blockCells_of_fits {capacity : Nat} (h : 4 * capacity < 2 ^ 64) : blockCells capacity = capacity := by
  rw [blockCells, Nat.mod_eq_of_lt h]
  omega

theorem holds_init {capacity : UInt64} (h : 4 * capacity.toNat < 2 ^ 64) :
    (intVectorInit capacity).Holds capacity.toNat [] where
  size := rfl
  data := by rw [intVectorInit, blockCells_of_fits h]; rfl
  size_le := Nat.zero_le _
  doubled := ⟨0, (Nat.mul_one _).symm⟩
  fits := h

theorem Holds.length_data (h : v.Holds initial xs) : v.data.length = v.capacity := by
  have hle := h.size_le
  rw [h.data, List.length_append, List.length_map, List.length_replicate]
  omega

theorem Holds.resize (h : v.Holds initial xs) (hpos : 1 ≤ initial)
    (hroom : v.size ≥ v.capacity → 4 * (v.capacity * 2) < 2 ^ 64) :
    (intVectorResize v).Holds initial xs ∧ xs.length < (intVectorResize v).capacity := by
  have hsize := h.size
  have hle := h.size_le
  obtain ⟨k, hk⟩ := h.doubled
  have hcap : 0 < v.capacity := hk ▸ Nat.mul_pos hpos (Nat.two_pow_pos k)
  rw [intVectorResize]
  split_ifs with hfull
  · have hfits := hroom hfull
    have hmod : v.capacity * 2 % 2 ^ 64 = v.capacity * 2 := Nat.mod_eq_of_lt (by omega)
    have hrest : v.capacity - xs.length = 0 := by omega
    refine ⟨⟨hsize, ?_, ?_, ⟨k + 1, ?_⟩, ?_⟩, ?_⟩ <;> simp only [hmod]
    · rw [blockCells_of_fits hfits, reallocCells, h.length_data, h.data, hrest,
        List.take_of_length_le (by simp; omega), List.append_assoc]
      congr 2
      simp
      omega
    · omega
    · rw [hk, Nat.pow_succ, Nat.mul_assoc]
    · exact hfits
    · omega
  · exact ⟨h, by omega⟩

theorem Holds.write (h : v.Holds initial xs) {i : Nat} (hi : i < xs.length) (value : Int32) :
    ∃ v', v.write i value = done v' ∧ v'.Holds initial (xs.set i value) := by
  have hle := h.size_le
  refine ⟨_, if_pos (by rw [h.length_data]; omega), ?_⟩
  refine ⟨?_, ?_, ?_, h.doubled, h.fits⟩
  · rw [List.length_set]
    exact h.size
  · show v.data.set i (some value) = _
    rw [h.data, List.set_append_left _ _ (by simpa using hi), ← List.map_set, List.length_set]
  · rw [List.length_set]
    exact hle

theorem Holds.append (h : v.Holds initial xs) (hpos : 1 ≤ initial)
    (hroom : v.size ≥ v.capacity → 4 * (v.capacity * 2) < 2 ^ 64) (value : Int32) :
    ∃ v', intVectorAppend v value = done v' ∧ v'.Holds initial (xs ++ [value]) := by
  obtain ⟨hv, hlt⟩ := h.resize hpos hroom
  have hfits := hv.fits
  have hsize := hv.size
  obtain ⟨n, hn⟩ : ∃ n, (intVectorResize v).capacity - xs.length = n + 1 :=
    ⟨(intVectorResize v).capacity - xs.length - 1, by omega⟩
  have hwrite : (intVectorResize v).write (intVectorResize v).size value = done
      { intVectorResize v with
        data := (intVectorResize v).data.set (intVectorResize v).size (some value) } :=
    if_pos (by rw [hv.length_data]; omega)
  have hmod : ((intVectorResize v).size + 1) % 2 ^ 64 = xs.length + 1 := by
    rw [Nat.mod_eq_of_lt (by omega), hsize]
  simp only [intVectorAppend, hwrite, done_bind, hmod]
  refine ⟨_, rfl, ?_, ?_, ?_, hv.doubled, hfits⟩
  · simp
  · have hrest : (intVectorResize v).capacity - (xs ++ [value]).length = n := by
      rw [List.length_append, List.length_singleton]
      omega
    show (intVectorResize v).data.set (intVectorResize v).size (some value) = _
    rw [hrest, hv.data, hn, hsize, List.set_append_right _ _ (by simp)]
    simp [List.replicate_succ]
  · rw [List.length_append, List.length_singleton]
    exact hlt

theorem sizeOfInt_of_nonneg {index : Int32} (h : 0 ≤ index.toInt) :
    sizeOfInt index = index.toInt.toNat := by
  have hlt := index.toInt_lt
  rw [sizeOfInt, Int.emod_eq_of_lt h (by omega)]

theorem Holds.fill (n : Nat) (h : v.Holds initial xs) (hpos : 1 ≤ initial) {index : Int32}
    (hindex : 0 ≤ index.toInt) (hn : index.toInt.toNat + 1 - xs.length = n) (rounds : Nat)
    (hrounds : n < rounds) :
    ∃ v', loop (setStep index) v rounds = done v' ∧
      v'.Holds initial (xs ++ List.replicate n 0) := by
  have hlt := index.toInt_lt
  have hsize := h.size
  obtain ⟨rounds, rfl⟩ : ∃ m, rounds = m + 1 := ⟨rounds - 1, by omega⟩
  induction n generalizing v xs rounds with
  | zero =>
    have hexit : setStep index v = done (.inr v) := by
      rw [setStep, sizeOfInt_of_nonneg hindex, if_neg (by omega)]
    exact ⟨v, loop_succ_of_exit hexit rounds, by simpa using h⟩
  | succ n ih =>
    obtain ⟨v₁, happend, h₁⟩ := h.append hpos (fun hfull => by omega) 0
    have hnext : setStep index v = done (.inl v₁) := by
      rw [setStep, sizeOfInt_of_nonneg hindex, if_pos (by omega), happend, done_bind]
    have hn₁ : index.toInt.toNat + 1 - (xs ++ [0]).length = n := by
      rw [List.length_append, List.length_singleton]
      omega
    obtain ⟨rounds, rfl⟩ : ∃ m, rounds = m + 1 := ⟨rounds - 1, by omega⟩
    obtain ⟨v', hloop, h'⟩ := ih h₁ hn₁ h₁.size rounds (by omega)
    refine ⟨v', by rw [loop_succ_of_next hnext, hloop], ?_⟩
    rwa [List.append_assoc, List.singleton_append, ← List.replicate_succ] at h'

theorem Holds.set (h : v.Holds initial xs) (hpos : 1 ≤ initial) {index : Int32}
    (hindex : 0 ≤ index.toInt) (value : Int32) {rounds : Nat} (hrounds : 2 ^ 31 < rounds) :
    ∃ v', intVectorSet v index value rounds = done v' ∧
      v'.Holds initial ((xs ++ List.replicate (index.toInt.toNat + 1 - xs.length) 0).set
        index.toInt.toNat value) := by
  have hlt := index.toInt_lt
  obtain ⟨v₁, hfill, h₁⟩ := h.fill _ hpos hindex rfl rounds (by omega)
  obtain ⟨v', hwrite, h'⟩ := h₁.write (i := index.toInt.toNat)
    (by rw [List.length_append, List.length_replicate]; omega) value
  exact ⟨v', by rw [intVectorSet, hfill, done_bind, if_pos hindex, hwrite], h'⟩

theorem Holds.get (h : v.Holds initial xs) (index : Int32) :
    intVectorGet v index = done (if 0 ≤ index.toInt then xs[index.toInt.toNat]? else none) := by
  have hsize := h.size
  rw [intVectorGet]
  by_cases hneg : 0 ≤ index.toInt
  · rw [sizeOfInt_of_nonneg hneg, if_pos hneg]
    by_cases hin : index.toInt.toNat < xs.length
    · have hcell : v.data[index.toInt.toNat]? = some (some xs[index.toInt.toNat]) := by
        rw [h.data, List.getElem?_append_left (by simpa using hin), List.getElem?_map,
          List.getElem?_eq_getElem hin]
        rfl
      rw [if_neg (by omega), hcell, List.getElem?_eq_getElem hin]
    · rw [if_pos (by omega), List.getElem?_eq_none (by omega)]
  · rw [if_pos (by omega), if_neg hneg]

end Vector

/-! ## Whole runs -/

/-- A vector and the list it holds, or a process that has ended. -/
def HoldsList (initial : Nat) : Option Vector → Option (List Int32) → Prop
  | some v, some xs => v.Holds initial xs
  | none, none => True
  | _, _ => False

section runs

variable {initial : Nat} {rounds : Nat}

theorem step_list (hpos : 1 ≤ initial) (hrounds : 2 ^ 31 < rounds) {vector : Option Vector}
    {list : Option (List Int32)} (h : HoldsList initial vector list) (op : VectorOp)
    (hop : VectorOp.Allowed vector op) :
    ∃ vector', vectorStep rounds vector op = done (vector', (listStep list op).2) ∧
      HoldsList initial vector' (listStep list op).1 := by
  cases vector with
  | none =>
    cases list with
    | none => exact ⟨none, rfl, trivial⟩
    | some xs => exact h.elim
  | some v =>
    cases list with
    | none => exact h.elim
    | some xs =>
      have hholds : v.Holds initial xs := h
      cases op with
      | append value =>
        obtain ⟨v', happend, h'⟩ := hholds.append hpos hop value
        exact ⟨some v', by rw [vectorStep, happend]; rfl, h'⟩
      | set index value =>
        obtain ⟨v', hset, h'⟩ := hholds.set hpos hop value hrounds
        exact ⟨some v', by rw [vectorStep, hset]; rfl, h'⟩
      | get index =>
        rw [vectorStep, hholds.get index, done_bind, listStep]
        cases if 0 ≤ index.toInt then xs[index.toInt.toNat]? else none with
        | none => exact ⟨none, rfl, trivial⟩
        | some value => exact ⟨some v, rfl, hholds⟩

end runs

/-- **The vector is a list that grows**, in every run without overflow, whatever its initial capacity. -/
theorem vector_runs_as_list (capacity : UInt64) (hpos : 1 ≤ capacity.toNat)
    (hfits : 4 * capacity.toNat < 2 ^ 64) (rounds : Nat) (hrounds : 2 ^ 31 < rounds)
    (ops : List VectorOp)
    (hops : Guarded (vectorStep rounds) VectorOp.Allowed (some (intVectorInit capacity)) ops) :
    ∃ vector, run (vectorStep rounds) (some (intVectorInit capacity)) ops =
        done (vector, (specRun listStep (some []) ops).2) ∧
      HoldsList capacity.toNat vector (specRun listStep (some []) ops).1 :=
  run_refines (S := HoldsList capacity.toNat) (fun _ _ op h hop => step_list hpos hrounds h op hop) ops
    (some (intVectorInit capacity)) (some []) (Vector.holds_init hfits) hops

theorem vector_runs_as_list_short :
    Guarded (vectorStep (2 ^ 31 + 1)) VectorOp.Allowed (some (intVectorInit 1))
        [.append 5, .set 3 7, .get 2, .get 9] ∧
      ∃ vector, run (vectorStep (2 ^ 31 + 1)) (some (intVectorInit 1))
          [.append 5, .set 3 7, .get 2, .get 9] = done (vector, [.unit, .unit, .value 0, .exit]) ∧
        HoldsList 1 vector none :=
  have hops : Guarded (vectorStep (2 ^ 31 + 1)) VectorOp.Allowed (some (intVectorInit 1))
      [.append 5, .set 3 7, .get 2, .get 9] := by decide
  ⟨hops, vector_runs_as_list 1 (by decide) (by decide) (2 ^ 31 + 1) (by decide) _ hops⟩

end PwdManLib
