import PwdManLib.Lib.Trace

/-!
# Stores and the buffers they go to

An execution that stores into buffers is a `Trace` of cells, each a buffer with an index. A list of
stores `Fits` when every index is below the capacity of its buffer. `fits_storeBlock_iff` says this of a
block of consecutive cells, `fits_bind_iff` of a sequence. `within` is the execution in buffers of these
capacities: a store outside of them is a fault.
-/

/-- A cell of a buffer. -/
structure Cell (β : Type) where
  buffer : β
  index : Nat
  deriving DecidableEq, Repr

namespace Cell

variable {α β γ : Type}

/-- The `n` cells of a buffer from `offset` on. -/
def block (b : β) (offset n : Nat) : List (Cell β) := (List.range' offset n).map (Cell.mk b)

/-- Store into one cell. -/
def store (b : β) (i : Nat) : Trace (Cell β) Unit := Trace.emit ⟨b, i⟩

/-- Store into consecutive cells. -/
def storeBlock (b : β) (offset n : Nat) : Trace (Cell β) Unit :=
  { sent := block b offset n, next := .done () }

/-- Every store is inside its buffer. -/
def Fits (capacity : β → Nat) (cells : List (Cell β)) : Prop :=
  ∀ c ∈ cells, c.index < capacity c.buffer

variable {capacity : β → Nat}

@[simp] theorem next_store (b : β) (i : Nat) : (store b i).next = .done () := rfl

@[simp] theorem next_storeBlock (b : β) (offset n : Nat) : (storeBlock b offset n).next = .done () := rfl

@[simp] theorem fits_nil : Fits capacity [] := by simp [Fits]

@[simp] theorem fits_pure (a : α) : Fits capacity (pure a : Trace (Cell β) α).sent := fits_nil

@[simp] theorem fits_lift (x : Exec α) : Fits capacity (Trace.lift x : Trace (Cell β) α).sent := fits_nil

@[simp] theorem fits_store_iff {b : β} {i : Nat} : Fits capacity (store b i).sent ↔ i < capacity b := by
  simp [Fits, store]

theorem fits_append_iff {cs ds : List (Cell β)} :
    Fits capacity (cs ++ ds) ↔ Fits capacity cs ∧ Fits capacity ds := by
  simp [Fits, or_imp, forall_and]

theorem fits_storeBlock_iff {b : β} {offset n : Nat} :
    Fits capacity (storeBlock b offset n).sent ↔ n = 0 ∨ offset + n ≤ capacity b := by
  show Fits capacity (block b offset n) ↔ _
  constructor
  · intro h
    rcases Nat.eq_zero_or_pos n with hn | hn
    · exact .inl hn
    · have hlast : (⟨b, offset + (n - 1)⟩ : Cell β) ∈ block b offset n :=
        List.mem_map_of_mem (List.mem_range'_1.mpr ⟨by omega, by omega⟩)
      have hlt := h _ hlast
      simp only at hlt
      exact .inr (by omega)
  · intro h c hc
    obtain ⟨i, hi, rfl⟩ := List.mem_map.mp hc
    have hrange := List.mem_range'_1.mp hi
    simp only
    omega

theorem fits_bind_iff {x : Trace (Cell β) α} {f : α → Trace (Cell β) γ} :
    Fits capacity (x >>= f).sent ↔
      Fits capacity x.sent ∧ ∀ a, x.next = .done a → Fits capacity (f a).sent :=
  Trace.forall_sent_bind_iff

theorem fits_bind_of_done {x : Trace (Cell β) α} {a : α} (hx : x.next = .done a)
    {f : α → Trace (Cell β) γ} :
    Fits capacity (x >>= f).sent ↔ Fits capacity x.sent ∧ Fits capacity (f a).sent := by
  rw [Trace.bind_of_done hx, fits_append_iff]

/-! ## Inside the buffers -/

instance (cells : List (Cell β)) : Decidable (Fits capacity cells) :=
  inferInstanceAs (Decidable (∀ c ∈ cells, c.index < capacity c.buffer))

/-- The execution in buffers of these capacities. -/
def within (capacity : β → Nat) (x : Trace (Cell β) α) : Exec α :=
  if Fits capacity x.sent then x.next else .fault

theorem within_eq_done_iff {x : Trace (Cell β) α} {a : α} :
    within capacity x = .done a ↔ Fits capacity x.sent ∧ x.next = .done a := by
  rw [within]
  split_ifs with h
  · exact (and_iff_right h).symm
  · exact iff_of_false (by simp) fun hx => h hx.1

end Cell
