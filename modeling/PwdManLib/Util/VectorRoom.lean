import PwdManLib.Lib.Trace
import PwdManLib.Util.Vector

/-!
# Room in the vector

`int_vector_resize` doubles the capacity, which makes no room in a vector of capacity 0, and neither the
doubling nor the number of bytes is checked for overflow. `appends` records the vector each append stores
into, and `appendsInside_iff` says which runs of appends stay inside the block. `int_vector_set` fills up
to its index without a look at the sign `int_vector_get` refuses (`setEnds_iff`).
-/

namespace PwdManLib

open Exec Trace

namespace Vector

/-- The block has the cells of the capacity: the number of bytes asked for has not wrapped around. -/
def HasBlock (v : Vector) : Prop := v.capacity ≤ v.data.length

theorem le_blockCells_iff {capacity : Nat} : capacity ≤ blockCells capacity ↔ 4 * capacity < 2 ^ 64 := by
  rw [blockCells]
  omega

theorem length_reallocCells (data : List (Option Int32)) (n : Nat) : (reallocCells data n).length = n := by
  rw [reallocCells, List.length_append, List.length_take, List.length_replicate]
  omega

theorem hasBlock_init_iff {capacity : UInt64} :
    (intVectorInit capacity).HasBlock ↔ 4 * capacity.toNat < 2 ^ 64 := by
  rw [← le_blockCells_iff, HasBlock, intVectorInit, List.length_replicate]

theorem resize_of_full {v : Vector} (h : v.size ≥ v.capacity) :
    intVectorResize v =
      { v with
        capacity := v.capacity * 2 % 2 ^ 64
        data := reallocCells v.data (blockCells (v.capacity * 2 % 2 ^ 64)) } :=
  if_pos h

theorem resize_of_room {v : Vector} (h : v.size < v.capacity) : intVectorResize v = v :=
  if_neg (Nat.not_le.mpr h)

@[simp] theorem size_resize (v : Vector) : (intVectorResize v).size = v.size := by
  rw [intVectorResize]
  split_ifs <;> rfl

end Vector

/-! ## Appends -/

/-- `int_vector_append` with a record of the vector it stores into. -/
def recordAppend (vector : Vector) (value : Int32) : Trace Vector Vector := do
  emit (intVectorResize vector)
  lift (intVectorAppend vector value)

/-- Appends, one after the other. -/
def appends (vector : Vector) (values : List Int32) : Trace Vector Vector :=
  values.foldlM recordAppend vector

/-- All appends are made, each at an index below the capacity and in a block with room for the capacity;
so is the block the vector starts with. -/
structure AppendsInside (capacity : UInt64) (values : List Int32) : Prop where
  start : (intVectorInit capacity).HasBlock
  stores : ∀ v ∈ (appends (intVectorInit capacity) values).sent, v.size < v.capacity ∧ v.HasBlock
  ends : ∃ v, (appends (intVectorInit capacity) values).next = done v

section appends

variable {initial : Nat} {v : Vector} {xs : List Int32}

theorem appends_cons_of_done {value : Int32} {v' : Vector} (h : intVectorAppend v value = done v')
    (values : List Int32) :
    appends v (value :: values) =
      { sent := intVectorResize v :: (appends v' values).sent, next := (appends v' values).next } := by
  have hfirst : recordAppend v value = { sent := [intVectorResize v], next := done v' } := by
    rw [recordAppend, h]
    rfl
  rw [appends, List.foldlM_cons, hfirst, mk_bind]
  rfl

theorem mem_sent_appends_cons (v : Vector) (value : Int32) (values : List Int32) :
    intVectorResize v ∈ (appends v (value :: values)).sent := by
  rw [appends, List.foldlM_cons, mem_sent_bind, recordAppend, mem_sent_bind]
  exact .inl (.inl List.mem_cons_self)

theorem Vector.Holds.of_resized (h : v.Holds initial xs)
    (hroom : (intVectorResize v).size < (intVectorResize v).capacity)
    (hblock : (intVectorResize v).HasBlock) :
    1 ≤ initial ∧ (v.size ≥ v.capacity → 4 * (v.capacity * 2) < 2 ^ 64) := by
  obtain ⟨k, hk⟩ := h.doubled
  have hfits := h.fits
  have hpos (hcap : 0 < v.capacity) : 1 ≤ initial := by
    rw [hk] at hcap
    exact Nat.pos_of_mul_pos_right hcap
  by_cases hfull : v.size ≥ v.capacity
  · have hmod : v.capacity * 2 % 2 ^ 64 = v.capacity * 2 := Nat.mod_eq_of_lt (by omega)
    rw [Vector.resize_of_full hfull, Vector.HasBlock, Vector.length_reallocCells, hmod,
      Vector.le_blockCells_iff] at hblock
    rw [Vector.resize_of_full hfull, hmod] at hroom
    exact ⟨hpos (by simp only at hroom; omega), fun _ => hblock⟩
  · exact ⟨hpos (by omega), fun h => absurd h hfull⟩

theorem Vector.Holds.append_room (h : v.Holds initial xs) (hpos : 1 ≤ initial)
    (hroom : v.size ≥ v.capacity → 4 * (v.capacity * 2) < 2 ^ 64) :
    (intVectorResize v).size < (intVectorResize v).capacity ∧ (intVectorResize v).HasBlock := by
  obtain ⟨hresize, hlt⟩ := h.resize hpos hroom
  rw [hresize.size]
  exact ⟨hlt, Nat.le_of_eq hresize.length_data.symm⟩

theorem Vector.Holds.of_inside (h : v.Holds initial xs) {values : List Int32}
    (hstores : ∀ w ∈ (appends v values).sent, w.size < w.capacity ∧ w.HasBlock) :
    ∃ w : Vector, w.Holds initial (xs ++ values) := by
  induction values generalizing v xs with
  | nil => exact ⟨v, by rwa [List.append_nil]⟩
  | cons value values ih =>
    obtain ⟨hlt, hblock⟩ := hstores _ (mem_sent_appends_cons v value values)
    obtain ⟨hpos, hroom⟩ := h.of_resized hlt hblock
    obtain ⟨v', happend, h'⟩ := h.append hpos hroom value
    rw [appends_cons_of_done happend] at hstores
    obtain ⟨w, hw⟩ := ih h' fun w hw => hstores w (List.mem_cons_of_mem _ hw)
    exact ⟨w, by rwa [List.append_assoc] at hw⟩

theorem Vector.Holds.room_of_count (h : v.Holds initial xs) {k : Nat} (hcount : xs.length < initial * 2 ^ k)
    (hfits : initial * 2 ^ k < 2 ^ 62) (hfull : v.size ≥ v.capacity) : 4 * (v.capacity * 2) < 2 ^ 64 := by
  obtain ⟨j, hj⟩ := h.doubled
  rw [h.size, hj] at hfull
  have hlt : initial * 2 ^ j < initial * 2 ^ k := by omega
  have hjk : j < k := (Nat.pow_lt_pow_iff_right (by omega)).mp (Nat.lt_of_mul_lt_mul_left hlt)
  have hle : initial * 2 ^ (j + 1) ≤ initial * 2 ^ k :=
    Nat.mul_le_mul_left _ (Nat.pow_le_pow_right (by omega) hjk)
  rw [Nat.pow_succ, ← Nat.mul_assoc, ← hj] at hle
  omega

theorem Vector.Holds.inside {values : List Int32} (h : v.Holds initial xs) {k : Nat}
    (hcount : xs.length + values.length ≤ initial * 2 ^ k) (hfits : initial * 2 ^ k < 2 ^ 62) :
    (∀ w ∈ (appends v values).sent, w.size < w.capacity ∧ w.HasBlock) ∧
      ∃ w, (appends v values).next = done w := by
  induction values generalizing v xs with
  | nil =>
    refine ⟨?_, v, rfl⟩
    intro w hw
    simp [appends] at hw
  | cons value values ih =>
    rw [List.length_cons] at hcount
    have hpos : 1 ≤ initial := by
      rcases Nat.eq_zero_or_pos initial with rfl | hpos
      · rw [Nat.zero_mul] at hcount
        omega
      · exact hpos
    have hroom := h.room_of_count (k := k) (by omega) hfits
    obtain ⟨v', happend, h'⟩ := h.append hpos hroom value
    have hcount' : (xs ++ [value]).length + values.length ≤ initial * 2 ^ k := by
      rw [List.length_append, List.length_singleton]
      omega
    obtain ⟨hrest, w, hw⟩ := ih h' hcount'
    rw [appends_cons_of_done happend]
    refine ⟨?_, w, hw⟩
    intro w hw
    rcases List.mem_cons.mp hw with rfl | hw
    · exact h.append_room hpos hroom
    · exact hrest w hw

end appends

theorem AppendsInside.exists_doubling {capacity : UInt64} {values : List Int32}
    (h : AppendsInside capacity values) :
    ∃ k, values.length ≤ capacity.toNat * 2 ^ k ∧ capacity.toNat * 2 ^ k < 2 ^ 62 := by
  obtain ⟨w, hw⟩ := (Vector.holds_init (Vector.hasBlock_init_iff.mp h.start)).of_inside h.stores
  obtain ⟨k, hk⟩ := hw.doubled
  have hsize := hw.size_le
  have hfits := hw.fits
  rw [List.nil_append, hk] at hsize
  rw [hk] at hfits
  exact ⟨k, hsize, by omega⟩

/-- **Which runs of appends stay inside**: those for which some doubling of the initial capacity has
enough slots and can be allocated. -/
theorem appendsInside_iff (capacity : UInt64) (values : List Int32) :
    AppendsInside capacity values ↔
      ∃ k, values.length ≤ capacity.toNat * 2 ^ k ∧ capacity.toNat * 2 ^ k < 2 ^ 62 := by
  refine ⟨AppendsInside.exists_doubling, ?_⟩
  intro h
  obtain ⟨k, hcount, hfits⟩ := h
  have hstart : 4 * capacity.toNat < 2 ^ 64 := by
    have hle : capacity.toNat ≤ capacity.toNat * 2 ^ k := Nat.le_mul_of_pos_right _ (Nat.two_pow_pos k)
    omega
  obtain ⟨hstores, hends⟩ := (Vector.holds_init hstart).inside (by simpa using hcount) hfits
  exact ⟨Vector.hasBlock_init_iff.mpr hstart, hstores, hends⟩

/-- A vector of capacity 0 has no room for an element, and does not get it. -/
theorem empty_vector_overruns :
    ¬ ∀ (capacity : UInt64) (values : List Int32), AppendsInside capacity values := by
  intro hall
  obtain ⟨k, hcount, -⟩ := (hall 0 [7]).exists_doubling
  rw [show (0 : UInt64).toNat = 0 from rfl, Nat.zero_mul] at hcount
  exact absurd hcount (by decide)

/-! ## Setting -/

/-- The elements of a vector. -/
def Vector.contents (v : Vector) : List (Option Int32) := v.data.take v.size

/-- `int_vector_set` comes to its end. Its loop makes as many appends as there are elements missing up to
the index, at most; a negative index leaves the contents as they are, or ends the process. -/
structure SetEnds (v : Vector) (index value : Int32) : Prop where
  appends_le : ∃ n v', n ≤ (index.toInt + 1 - v.size).toNat ∧ loop (setStep index) v (n + 1) = done v'
  ends : ∃ rounds vector res, vectorStep rounds (some v) (.set index value) = done (vector, res) ∧
    (index.toInt < 0 → ∀ v', vector = some v' → v'.contents = v.contents)

/-- The block has the cells that are stored to up to index `i`, for an index inside the vector, for a
vector with room, and for one that is resized first. -/
def Vector.RoomFor (v : Vector) (i : Nat) : Prop :=
  if i < v.size then i < v.data.length
  else if v.size < v.capacity then min v.capacity (i + 1) ≤ v.data.length
  else v.size < 2 * v.capacity

theorem Vector.HasBlock.roomFor {v : Vector} (h : v.HasBlock) (hsize : v.size ≤ v.capacity)
    (hcap : 1 ≤ v.capacity) (i : Nat) : v.RoomFor i := by
  rw [HasBlock] at h
  rw [RoomFor]
  split_ifs <;> omega

theorem Vector.Holds.roomFor {initial : Nat} {v : Vector} {xs : List Int32} (h : v.Holds initial xs)
    (hpos : 1 ≤ initial) (i : Nat) : v.RoomFor i := by
  have hblock : v.HasBlock := Nat.le_of_eq h.length_data.symm
  have hsize : v.size ≤ v.capacity := h.size ▸ h.size_le
  obtain ⟨k, hk⟩ := h.doubled
  exact hblock.roomFor hsize (hk ▸ Nat.mul_pos hpos (Nat.two_pow_pos k)) i

section setting

variable {v : Vector} {i : Nat}

theorem intVectorAppend_eq (v : Vector) (value : Int32) :
    intVectorAppend v value =
      if v.size < (intVectorResize v).data.length then
        done
          { intVectorResize v with
            size := (v.size + 1) % 2 ^ 64
            data := (intVectorResize v).data.set v.size (some value) }
      else fault := by
  rw [intVectorAppend, Vector.write, Vector.size_resize]
  split_ifs <;> rfl

/-- **An append on the way to index `i`** adds an element, and there is room for it and the others behind
it exactly when there is room for the others then. -/
theorem roomFor_iff_append (hsize : v.size ≤ i) (hi : i < 2 ^ 31) :
    v.RoomFor i ↔ ∃ v', intVectorAppend v 0 = done v' ∧ v'.size = v.size + 1 ∧ v'.RoomFor i := by
  have hmod : (v.size + 1) % 2 ^ 64 = v.size + 1 := Nat.mod_eq_of_lt (by omega)
  by_cases hroom : v.size < v.capacity
  · rw [intVectorAppend_eq, Vector.resize_of_room hroom, hmod]
    by_cases hin : v.size < v.data.length
    · simp only [if_pos hin, done.injEq, exists_eq_left', Vector.RoomFor, List.length_set, true_and]
      split_ifs <;> omega
    · simp only [if_neg hin, reduceCtorEq, false_and, exists_false, iff_false, Vector.RoomFor]
      split_ifs <;> omega
  · have hdouble : v.capacity * 2 % 2 ^ 64 = v.capacity * 2 := Nat.mod_eq_of_lt (by omega)
    have hcells : blockCells (v.capacity * 2) = v.capacity * 2 := Vector.blockCells_of_fits (by omega)
    rw [intVectorAppend_eq, Vector.resize_of_full (Nat.not_lt.mp hroom), hdouble, hcells, hmod]
    by_cases hin : v.size < v.capacity * 2
    · simp only [Vector.length_reallocCells, if_pos hin, done.injEq, exists_eq_left', Vector.RoomFor,
        List.length_set, true_and]
      split_ifs <;> omega
    · simp only [Vector.length_reallocCells, if_neg hin, reduceCtorEq, false_and, exists_false,
        iff_false, Vector.RoomFor]
      split_ifs <;> omega

variable {index : Int32} (hindex : 0 ≤ index.toInt)

include hindex

theorem setStep_of_inside (h : index.toInt.toNat < v.size) : setStep index v = done (.inr v) := by
  rw [setStep, Vector.sizeOfInt_of_nonneg hindex, if_neg (by omega)]

theorem setStep_of_behind {v' : Vector} (h : v.size ≤ index.toInt.toNat)
    (happend : intVectorAppend v 0 = done v') : setStep index v = done (.inl v') := by
  rw [setStep, Vector.sizeOfInt_of_nonneg hindex, if_pos h, happend, done_bind]

theorem fill_of_roomFor (n : Nat) (h : v.RoomFor index.toInt.toNat)
    (hn : index.toInt.toNat + 1 - v.size = n) :
    ∃ v', loop (setStep index) v (n + 1) = done v' ∧ index.toInt.toNat < v'.data.length := by
  have hlt := index.toInt_lt
  induction n generalizing v with
  | zero =>
    have hin : index.toInt.toNat < v.size := by omega
    rw [Vector.RoomFor, if_pos hin] at h
    exact ⟨v, loop_succ_of_exit (setStep_of_inside hindex hin) 0, h⟩
  | succ n ih =>
    have hsize : v.size ≤ index.toInt.toNat := by omega
    obtain ⟨v₁, happend, hsize₁, h₁⟩ := (roomFor_iff_append hsize (by omega)).mp h
    obtain ⟨v', hloop, h'⟩ := ih h₁ (by omega)
    exact ⟨v', by rw [loop_succ_of_next (setStep_of_behind hindex hsize happend), hloop], h'⟩

theorem roomFor_of_fill {rounds : Nat} {v' : Vector} (h : loop (setStep index) v rounds = done v')
    (h' : index.toInt.toNat < v'.data.length) : v.RoomFor index.toInt.toNat := by
  have hlt := index.toInt_lt
  induction rounds generalizing v with
  | zero => simp [Exec.loop] at h
  | succ rounds ih =>
    rcases Nat.lt_or_ge index.toInt.toNat v.size with hin | hsize
    · rw [loop_succ_of_exit (setStep_of_inside hindex hin), done.injEq] at h
      rw [Vector.RoomFor, if_pos hin, h]
      exact h'
    · have happend := intVectorAppend_eq v 0
      split_ifs at happend with hcell
      · rw [loop_succ_of_next (setStep_of_behind hindex hsize happend)] at h
        have hsize' : (v.size + 1) % 2 ^ 64 = v.size + 1 := Nat.mod_eq_of_lt (by omega)
        exact (roomFor_iff_append hsize (by omega)).mpr ⟨_, happend, hsize', ih h⟩
      · have hfault : setStep index v = fault := by
          rw [setStep, Vector.sizeOfInt_of_nonneg hindex, if_pos hsize, happend, fault_bind]
        exact absurd ⟨_, h⟩ (not_finishes_loop_of_fault hfault v')

end setting

theorem SetEnds.roomFor {v : Vector} {index value : Int32} (h : SetEnds v index value) :
    0 ≤ index.toInt ∧ v.RoomFor index.toInt.toNat := by
  obtain ⟨rounds, vector, res, hstep, -⟩ := h.ends
  obtain ⟨v', hset, -⟩ := bind_eq_done.mp hstep
  obtain ⟨v₁, hloop, hwrite⟩ := bind_eq_done.mp hset
  split_ifs at hwrite with hindex
  rw [Vector.write] at hwrite
  split_ifs at hwrite with hin
  exact ⟨hindex, roomFor_of_fill hindex hloop hin⟩

/-- **When `int_vector_set` comes to its end**, with not more appends than it needs: the index is not
negative, and the block has the cells. -/
theorem setEnds_iff (v : Vector) (index value : Int32) :
    SetEnds v index value ↔ 0 ≤ index.toInt ∧ v.RoomFor index.toInt.toNat := by
  refine ⟨SetEnds.roomFor, ?_⟩
  intro h
  obtain ⟨hindex, hroom⟩ := h
  obtain ⟨v', hloop, hin⟩ := fill_of_roomFor hindex _ hroom rfl
  have hwrite : v'.write index.toInt.toNat value =
      done { v' with data := v'.data.set index.toInt.toNat (some value) } := if_pos hin
  have hstep : vectorStep (index.toInt.toNat + 1 - v.size + 1) (some v) (.set index value) =
      done (some { v' with data := v'.data.set index.toInt.toNat (some value) }, .unit) := by
    rw [vectorStep, intVectorSet, hloop, done_bind, if_pos hindex, hwrite]
    rfl
  exact ⟨⟨_, v', by omega, hloop⟩, _, _, _, hstep, fun hneg => absurd hindex (Int.not_le.mpr hneg)⟩

/-- A negative index is as good as no index at all to the loop. -/
theorem negative_index_runs_on :
    ¬ ∀ v : Vector, 1 ≤ v.capacity → ∀ index value : Int32, SetEnds v index value := by
  intro hall
  have hindex := (hall (intVectorInit 1) (by decide) (-1) 5).roomFor.1
  exact absurd hindex (by decide)

end PwdManLib
