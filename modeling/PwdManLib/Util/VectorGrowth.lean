import Mathlib.Order.Bounds.Basic
import PwdManLib.Util.VectorRoom

/-!
# How the vector grows

The capacity doubles when the vector is full, and never otherwise. So behind any calls it is the least doubling of the
initial capacity that holds the elements (`capacity_isLeast`), and a run of appends moves at most two elements for each
that it adds, all its calls of `realloc` taken together (`appends_reallocate`).
-/

namespace PwdManLib

open Exec Refine

namespace Vector

/-- The vector has not been doubled, or is more than half full. -/
def Tight (initial : Nat) (v : Vector) : Prop := v.capacity = initial ∨ v.capacity < 2 * v.size

/-- The vector holds a list, in no more room than that needs. -/
def Fits (initial : Nat) (v : Vector) : Prop := (∃ xs, v.Holds initial xs) ∧ v.Tight initial

variable {initial : Nat} {v v' : Vector} {xs : List Int32}

theorem capacity_resize_le (v : Vector) : (intVectorResize v).capacity ≤ 2 * v.capacity := by
  rw [intVectorResize]
  split_ifs
  · exact (Nat.mod_le _ _).trans (Nat.le_of_eq (Nat.mul_comm _ _))
  · exact Nat.le_mul_of_pos_left _ Nat.two_pos

theorem Holds.capacity_append (h : v.Holds initial xs) (hpos : 1 ≤ initial)
    (hroom : v.size ≥ v.capacity → 4 * (v.capacity * 2) < 2 ^ 64) {value : Int32}
    (happend : intVectorAppend v value = done v') :
    v'.capacity = (intVectorResize v).capacity ∧ v'.size = v.size + 1 := by
  obtain ⟨w, hw, hholds⟩ := h.append hpos hroom value
  obtain rfl := done.inj (hw.symm.trans happend)
  have hsize := hholds.size
  rw [List.length_append, List.length_singleton, ← h.size] at hsize
  refine ⟨?_, hsize⟩
  rw [intVectorAppend_eq] at happend
  split_ifs at happend
  exact (congrArg Vector.capacity (done.inj happend)).symm

/-- **An append** doubles a full vector only, which is more than half full then. -/
theorem Fits.append (h : v.Fits initial) (hpos : 1 ≤ initial)
    (hroom : v.size ≥ v.capacity → 4 * (v.capacity * 2) < 2 ^ 64) {value : Int32}
    (happend : intVectorAppend v value = done v') : v'.Fits initial := by
  obtain ⟨⟨xs, hholds⟩, htight⟩ := h
  obtain ⟨w, hw, hholds'⟩ := hholds.append hpos hroom value
  obtain rfl := done.inj (hw.symm.trans happend)
  obtain ⟨hcapacity, hsize⟩ := hholds.capacity_append hpos hroom happend
  refine ⟨⟨_, hholds'⟩, ?_⟩
  rw [Tight, hcapacity, hsize]
  by_cases hfull : v.size ≥ v.capacity
  · right
    have hle := capacity_resize_le v
    omega
  · rw [resize_of_room (Nat.not_le.mp hfull)]
    rcases htight with heq | hlt
    · exact .inl heq
    · exact .inr (by omega)

theorem Fits.write (h : v.Fits initial) {i : Nat} (hi : i < v.size) {value : Int32}
    (hwrite : v.write i value = done v') : v'.Fits initial := by
  obtain ⟨⟨xs, hholds⟩, htight⟩ := h
  obtain ⟨w, hw, hholds'⟩ := hholds.write (i := i) (hholds.size ▸ hi) value
  obtain rfl := done.inj (hw.symm.trans hwrite)
  refine ⟨⟨_, hholds'⟩, ?_⟩
  rw [Vector.write] at hwrite
  split_ifs at hwrite
  obtain rfl := done.inj hwrite
  exact htight

theorem Fits.set (h : v.Fits initial) (hpos : 1 ≤ initial) {index : Int32} (hindex : 0 ≤ index.toInt) {value : Int32}
    {rounds : Nat} (hset : intVectorSet v index value rounds = done v') : v'.Fits initial := by
  have hlt := index.toInt_lt
  obtain ⟨v₁, hfill, hwrite⟩ := bind_eq_done.mp hset
  rw [if_pos hindex] at hwrite
  have hfilled : v₁.Fits initial ∧ index.toInt.toNat < v₁.size := by
    refine loop_invariant (I := fun v : Vector => v.Fits initial)
      (Q := fun v : Vector => v.Fits initial ∧ index.toInt.toNat < v.size) ?_ ?_ h hfill
    · intro w w' hw hround
      rw [setStep, sizeOfInt_of_nonneg hindex] at hround
      split_ifs at hround with hbehind
      · obtain ⟨w₁, happend, hnext⟩ := bind_eq_done.mp hround
        obtain rfl := Sum.inl.inj (done.inj hnext)
        exact hw.append hpos (fun hfull => by omega) happend
      · simp at hround
    · intro w b hw hround
      rw [setStep, sizeOfInt_of_nonneg hindex] at hround
      split_ifs at hround with hbehind
      · obtain ⟨w₁, -, hnext⟩ := bind_eq_done.mp hround
        simp at hnext
      · obtain rfl := Sum.inr.inj (done.inj hround)
        exact ⟨hw, Nat.not_le.mp hbehind⟩
  exact hfilled.1.write hfilled.2 hwrite

theorem Fits.isLeast (h : v.Fits initial) : IsLeast {c | v.size ≤ c ∧ ∃ k, c = initial * 2 ^ k} v.capacity := by
  obtain ⟨⟨xs, hholds⟩, htight⟩ := h
  refine ⟨⟨hholds.size ▸ hholds.size_le, hholds.doubled⟩, ?_⟩
  intro c hc
  obtain ⟨hle, k, rfl⟩ := hc
  obtain ⟨j, hj⟩ := hholds.doubled
  rcases htight with heq | hhalf
  · rw [heq]
    exact Nat.le_mul_of_pos_right _ (Nat.two_pow_pos k)
  · -- half the capacity is too little, so there is no smaller doubling
    by_contra hlt
    have hkj : k < j := by
      rw [Nat.not_le, hj] at hlt
      exact (Nat.pow_lt_pow_iff_right (by omega)).mp (Nat.lt_of_mul_lt_mul_left hlt)
    have hdouble : initial * 2 ^ (k + 1) ≤ initial * 2 ^ j :=
      Nat.mul_le_mul_left _ (Nat.pow_le_pow_right (by omega) hkj)
    rw [Nat.pow_succ, ← Nat.mul_assoc, ← hj] at hdouble
    omega

end Vector

/-! ## Whole runs -/

section runs

variable {initial rounds : Nat}

theorem fits_step (hpos : 1 ≤ initial) {v : Vector} (h : v.Fits initial) {op : VectorOp}
    (hop : VectorOp.Allowed (some v) op) {vector : Option Vector} {res : VectorRes}
    (hstep : vectorStep rounds (some v) op = done (vector, res)) : ∀ v', vector = some v' → v'.Fits initial := by
  cases op with
  | append value =>
    obtain ⟨v', happend, hres⟩ := bind_eq_done.mp hstep
    obtain ⟨rfl, -⟩ := Prod.mk.inj (done.inj hres)
    intro w hw
    exact Option.some.inj hw ▸ h.append hpos hop happend
  | set index value =>
    obtain ⟨v', hset, hres⟩ := bind_eq_done.mp hstep
    obtain ⟨rfl, -⟩ := Prod.mk.inj (done.inj hres)
    intro w hw
    exact Option.some.inj hw ▸ h.set hpos hop hset
  | get index =>
    obtain ⟨value, -, hres⟩ := bind_eq_done.mp hstep
    cases value with
    | none =>
      obtain ⟨rfl, -⟩ := Prod.mk.inj (done.inj hres)
      simp
    | some value =>
      obtain ⟨rfl, -⟩ := Prod.mk.inj (done.inj hres)
      intro w hw
      exact Option.some.inj hw ▸ h

theorem fits_run (hpos : 1 ≤ initial) {ops : List VectorOp} {vector vector' : Option Vector}
    (h : ∀ v, vector = some v → v.Fits initial) (hops : Guarded (vectorStep rounds) VectorOp.Allowed vector ops)
    {results : List VectorRes} (hrun : run (vectorStep rounds) vector ops = done (vector', results)) :
    ∀ v, vector' = some v → v.Fits initial := by
  induction ops generalizing vector results with
  | nil =>
    obtain ⟨rfl, -⟩ := Prod.mk.inj (done.inj hrun)
    exact h
  | cons op ops ih =>
    obtain ⟨hop, hrest⟩ := hops
    obtain ⟨⟨vector₁, res⟩, hstep, htail⟩ := bind_eq_done.mp hrun
    obtain ⟨⟨vector₂, results₂⟩, hrun₂, hres⟩ := bind_eq_done.mp htail
    obtain ⟨rfl, -⟩ := Prod.mk.inj (done.inj hres)
    rw [hstep] at hrest
    refine ih ?_ hrest hrun₂
    cases vector with
    | none =>
      obtain ⟨rfl, -⟩ := Prod.mk.inj (done.inj hstep)
      simp
    | some v => exact fits_step hpos (h v rfl) hop hstep

end runs

theorem Vector.fits_init {capacity : UInt64} (h : 4 * capacity.toNat < 2 ^ 64) :
    (intVectorInit capacity).Fits capacity.toNat :=
  ⟨⟨[], Vector.holds_init h⟩, .inl rfl⟩

/-- **The capacity is the least doubling of the initial one that holds the elements**, behind any run without
overflow. -/
theorem capacity_isLeast (capacity : UInt64) (hpos : 1 ≤ capacity.toNat) (hfits : 4 * capacity.toNat < 2 ^ 64)
    (rounds : Nat) (ops : List VectorOp)
    (hops : Guarded (vectorStep rounds) VectorOp.Allowed (some (intVectorInit capacity)) ops) (v : Vector)
    (results : List VectorRes)
    (hrun : run (vectorStep rounds) (some (intVectorInit capacity)) ops = done (some v, results)) :
    IsLeast {c | v.size ≤ c ∧ ∃ k, c = capacity.toNat * 2 ^ k} v.capacity := by
  have hstart : ∀ v, some (intVectorInit capacity) = some v → v.Fits capacity.toNat := by
    intro v hv
    exact Option.some.inj hv ▸ Vector.fits_init hfits
  exact (fits_run hpos hstart hops hrun v rfl).isLeast

theorem capacity_isLeast_set :
    ∃ v, run (vectorStep 8) (some (intVectorInit 1)) [.append 5, .set 4 7] = done (some v, [.unit, .unit]) ∧
      v.capacity = 8 ∧ IsLeast {c | v.size ≤ c ∧ ∃ k, c = (1 : UInt64).toNat * 2 ^ k} v.capacity := by
  have hops : Guarded (vectorStep 8) VectorOp.Allowed (some (intVectorInit 1)) [.append 5, .set 4 7] := by decide
  have hrun : run (vectorStep 8) (some (intVectorInit 1)) [.append 5, .set 4 7] = done
      (some ⟨5, 8, [some 5, some 0, some 0, some 0, some 7, none, none, none]⟩, [.unit, .unit]) := by decide
  exact ⟨_, hrun, rfl, capacity_isLeast 1 (by decide) (by decide) 8 _ hops _ _ hrun⟩

/-! ## What `realloc` moves -/

/-- The elements that are moved on the way from a capacity to the vectors that are stored into: all there are,
whenever the capacity has changed. -/
def reallocated (capacity : Nat) : List Vector → Nat
  | [] => 0
  | v :: vs => (if v.capacity = capacity then 0 else v.size) + reallocated v.capacity vs

theorem reallocated_append {initial : Nat} {v : Vector} {xs : List Int32} (h : v.Holds initial xs) (hpos : 1 ≤ initial)
    (hroom : v.size ≥ v.capacity → 4 * (v.capacity * 2) < 2 ^ 64) :
    (if (intVectorResize v).capacity = v.capacity then 0 else (intVectorResize v).size) + v.capacity =
      (intVectorResize v).capacity := by
  have hsize := h.size
  have hle := h.size_le
  obtain ⟨k, hk⟩ := h.doubled
  have hcap : 0 < v.capacity := hk ▸ Nat.mul_pos hpos (Nat.two_pow_pos k)
  by_cases hfull : v.size ≥ v.capacity
  · have hfits := hroom hfull
    have hdouble : v.capacity * 2 % 2 ^ 64 = v.capacity * 2 := Nat.mod_eq_of_lt (by omega)
    have hne : v.capacity * 2 ≠ v.capacity := by omega
    rw [Vector.resize_of_full hfull, hdouble]
    show (if v.capacity * 2 = v.capacity then 0 else v.size) + v.capacity = v.capacity * 2
    rw [if_neg hne]
    omega
  · rw [Vector.resize_of_room (Nat.not_le.mp hfull), if_pos rfl, Nat.zero_add]

theorem reallocated_appends {initial : Nat} {v : Vector} (h : v.Fits initial) {values : List Int32}
    (hstores : ∀ w ∈ (appends v values).sent, w.size < w.capacity ∧ w.HasBlock) :
    ∃ w, (appends v values).next = done w ∧ w.Fits initial ∧ w.size = v.size + values.length ∧
      reallocated v.capacity (appends v values).sent + v.capacity = w.capacity := by
  induction values generalizing v with
  | nil => exact ⟨v, rfl, h, rfl, Nat.zero_add _⟩
  | cons value values ih =>
    obtain ⟨xs, hholds⟩ := h.1
    obtain ⟨hlt, hblock⟩ := hstores _ (mem_sent_appends_cons v value values)
    obtain ⟨hpos, hroom⟩ := hholds.of_resized hlt hblock
    obtain ⟨v', happend, -⟩ := hholds.append hpos hroom value
    obtain ⟨hcapacity, hsize⟩ := hholds.capacity_append hpos hroom happend
    rw [appends_cons_of_done happend] at hstores ⊢
    obtain ⟨w, hnext, hw, hwsize, hmoved⟩ :=
      ih (h.append hpos hroom happend) fun w hw => hstores w (List.mem_cons_of_mem _ hw)
    have hfirst := reallocated_append hholds hpos hroom
    refine ⟨w, hnext, hw, ?_, ?_⟩
    · rw [hwsize, hsize, List.length_cons]
      omega
    · rw [hcapacity] at hmoved
      rw [reallocated]
      omega

/-- **Appends move at most two elements each**, on the whole: all calls of `realloc` together move as many elements as
the capacity has grown by. -/
theorem appends_reallocate (capacity : UInt64) (values : List Int32) (h : AppendsInside capacity values) :
    ∃ w, (appends (intVectorInit capacity) values).next = done w ∧
      reallocated capacity.toNat (appends (intVectorInit capacity) values).sent + capacity.toNat = w.capacity ∧
        reallocated capacity.toNat (appends (intVectorInit capacity) values).sent ≤ 2 * values.length := by
  have hstart : (intVectorInit capacity).Fits capacity.toNat := Vector.fits_init (Vector.hasBlock_init_iff.mp h.start)
  obtain ⟨w, hnext, ⟨-, htight⟩, hsize, hmoved⟩ := reallocated_appends hstart h.stores
  have hwsize : w.size = values.length := hsize.trans (Nat.zero_add _)
  have hmoved' : reallocated capacity.toNat (appends (intVectorInit capacity) values).sent + capacity.toNat =
      w.capacity := hmoved
  refine ⟨w, hnext, hmoved', ?_⟩
  rcases htight with heq | hlt
  · omega
  · omega

theorem appends_reallocate_three :
    AppendsInside 1 [5, 6, 7] ∧ reallocated 1 (appends (intVectorInit 1) [5, 6, 7]).sent = 3 ∧
      reallocated 1 (appends (intVectorInit 1) [5, 6, 7]).sent ≤ 2 * 3 := by
  have hinside : AppendsInside 1 [5, 6, 7] := by
    refine ⟨Vector.hasBlock_init_iff.mpr (by decide), ?_, _, rfl⟩
    unfold Vector.HasBlock
    decide
  obtain ⟨w, -, -, hle⟩ := appends_reallocate 1 [5, 6, 7] hinside
  exact ⟨hinside, rfl, hle⟩

end PwdManLib
