import Mathlib.Tactic.Common

/-!
# Registers behind one state

A `RegisterFile` is a state with named registers on which every operation writes one of them: the
register it writes gets a value that may depend on the state before, all others stay as they are. After
any run a register holds what the last operation on it wrote (`get_run_last`), or what it held before
when there was none (`get_run_of_untouched`).

The second part is about registers that share a byte: `(a & m) | (x & ~m)` takes the bits of the mask
`m` from `a` and all others from `x`.
-/

/-- Operations that write one register each. -/
structure RegisterFile (σ Op ι V : Type) where
  step : σ → Op → σ
  get : ι → σ → V
  target : Op → ι
  value : Op → σ → V
  get_target : ∀ s op, get (target op) (step s op) = value op s
  get_other : ∀ s op i, i ≠ target op → get i (step s op) = get i s

namespace RegisterFile

variable {σ Op ι V : Type} (R : RegisterFile σ Op ι V)

/-- The state after some operations. -/
def run (s : σ) (ops : List Op) : σ := ops.foldl R.step s

@[simp] theorem run_nil (s : σ) : R.run s [] = s := rfl

@[simp] theorem run_cons (s : σ) (op : Op) (ops : List Op) :
    R.run s (op :: ops) = R.run (R.step s op) ops := rfl

theorem run_append (s : σ) (ops₁ ops₂ : List Op) : R.run s (ops₁ ++ ops₂) = R.run (R.run s ops₁) ops₂ :=
  List.foldl_append

theorem get_run_of_untouched {i : ι} {ops : List Op} (h : ∀ op ∈ ops, R.target op ≠ i) (s : σ) :
    R.get i (R.run s ops) = R.get i s := by
  induction ops generalizing s with
  | nil => rfl
  | cons op ops ih =>
    have hop : i ≠ R.target op := fun he => h op (by simp) he.symm
    rw [run_cons, ih (fun o ho => h o (by simp [ho])), R.get_other s op i hop]

theorem get_run_last (s : σ) (pre : List Op) (op : Op) {post : List Op}
    (h : ∀ o ∈ post, R.target o ≠ R.target op) :
    R.get (R.target op) (R.run s (pre ++ op :: post)) = R.value op (R.run s pre) := by
  rw [run_append, run_cons, R.get_run_of_untouched h, R.get_target]

end RegisterFile

/-! ## Bits under a mask -/

namespace MaskedByte

theorem masked_keeps (a x : UInt8) {m k : UInt8} (hk : k &&& m = k) :
    ((a &&& m) ||| (x &&& ~~~m)) &&& k = a &&& k := by
  have hbits : ((a &&& m) ||| (x &&& ~~~m)) &&& m = a &&& m := by
    apply UInt8.toBitVec_inj.mp
    apply BitVec.eq_of_getLsbD_eq
    intro i hi
    cases hm : m.toBitVec.getLsbD i <;> simp [hm]
  rw [← hk, UInt8.and_comm k m, ← UInt8.and_assoc, hbits, UInt8.and_assoc]

theorem masked_sets (a x m : UInt8) : ((a &&& m) ||| (x &&& ~~~m)) &&& ~~~m = x &&& ~~~m := by
  have hswap : ((a &&& m) ||| (x &&& ~~~m)) = (x &&& ~~~m) ||| (a &&& ~~~~~~m) := by
    rw [UInt8.or_comm, UInt8.not_not]
  rw [hswap]
  exact masked_keeps x a UInt8.and_self

end MaskedByte
