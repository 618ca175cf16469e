import Mathlib.Algebra.Group.Basic
import Mathlib.Algebra.Group.Nat.Defs

/-!
# Exponentiation from right to left

`Power.run mul n p a e` is the loop that looks at the bits of `e` from the last one on, squares `a` at
each of them and multiplies `p` by it where the bit is set, for `n` rounds at most, with any operation
for the multiplication. In a commutative monoid it computes `p * a ^ e` (`run_eq`); elsewhere it does as
far as its operation agrees with one (`run_map`). An element that takes up every product is never left
again (`run_absorbing`).
-/

namespace Power

variable {M N : Type}

/-- While `e` is not 0: multiply where the last bit is set, square, shift. -/
def run (mul : M → M → M) : Nat → M → M → Nat → M
  | 0, p, _, _ => p
  | n + 1, p, a, e => if e = 0 then p else run mul n (if e % 2 = 1 then mul p a else p) (mul a a) (e / 2)

@[simp] theorem run_zero (mul : M → M → M) (n : Nat) (p a : M) : run mul n p a 0 = p := by
  cases n <;> rfl

theorem run_succ (mul : M → M → M) (n : Nat) (p a : M) {e : Nat} (he : e ≠ 0) :
    run mul (n + 1) p a e = run mul n (if e % 2 = 1 then mul p a else p) (mul a a) (e / 2) :=
  if_neg he

theorem run_add (mul : M → M → M) {n e : Nat} (he : e < 2 ^ n) (m : Nat) (p a : M) :
    run mul (n + m) p a e = run mul n p a e := by
  induction n generalizing p a e with
  | zero =>
    obtain rfl : e = 0 := by omega
    rw [run_zero, run_zero]
  | succ n ih =>
    rcases Nat.eq_zero_or_pos e with rfl | hpos
    · rw [run_zero, run_zero]
    · have hhalf : e / 2 < 2 ^ n := by
        rw [Nat.pow_succ] at he
        omega
      rw [Nat.add_right_comm, run_succ _ _ _ _ (Nat.ne_of_gt hpos), run_succ _ _ _ _ (Nat.ne_of_gt hpos), ih hhalf]

theorem run_eq {M : Type} [CommMonoid M] {n e : Nat} (he : e < 2 ^ n) (p a : M) :
    run (· * ·) n p a e = p * a ^ e := by
  induction n generalizing p a e with
  | zero =>
    obtain rfl : e = 0 := by omega
    rw [run_zero, pow_zero, mul_one]
  | succ n ih =>
    rcases Nat.eq_zero_or_pos e with rfl | hpos
    · rw [run_zero, pow_zero, mul_one]
    · have hhalf : e / 2 < 2 ^ n := by
        rw [Nat.pow_succ] at he
        omega
      have hbits := Nat.div_add_mod e 2
      rw [run_succ _ _ _ _ (Nat.ne_of_gt hpos), ih hhalf, ← pow_two, ← pow_mul]
      split_ifs with hodd
      · rw [mul_assoc, ← pow_succ', ← hodd, hbits]
      · have heven : 2 * (e / 2) = e := by omega
        rw [heven]

theorem run_map {mul : M → M → M} {mul' : N → N → N} {I : M → Prop} (f : M → N)
    (hmul : ∀ x y, I x → I y → I (mul x y) ∧ f (mul x y) = mul' (f x) (f y)) (n e : Nat) {p a : M}
    (hp : I p) (ha : I a) :
    I (run mul n p a e) ∧ f (run mul n p a e) = run mul' n (f p) (f a) e := by
  induction n generalizing p a e with
  | zero => exact ⟨hp, rfl⟩
  | succ n ih =>
    rcases Nat.eq_zero_or_pos e with rfl | hpos
    · rw [run_zero, run_zero]
      exact ⟨hp, rfl⟩
    · obtain ⟨hsquare, hsquare'⟩ := hmul a a ha ha
      rw [run_succ _ _ _ _ (Nat.ne_of_gt hpos), run_succ _ _ _ _ (Nat.ne_of_gt hpos), ← hsquare']
      split_ifs with hodd
      · obtain ⟨hprod, hprod'⟩ := hmul p a hp ha
        rw [← hprod']
        exact ih _ hprod hsquare
      · exact ih _ hp hsquare

theorem run_absorbing {mul : M → M → M} {z : M} (hz : ∀ x, mul x z = z) {n e : Nat} (hpos : 0 < e)
    (he : e < 2 ^ n) (p : M) : run mul n p z e = z := by
  induction n generalizing p e with
  | zero => omega
  | succ n ih =>
    have hhalf : e / 2 < 2 ^ n := by
      rw [Nat.pow_succ] at he
      omega
    rw [run_succ _ _ _ _ (Nat.ne_of_gt hpos), hz z]
    rcases Nat.eq_zero_or_pos (e / 2) with hlast | hmore
    · have hodd : e % 2 = 1 := by omega
      rw [hlast, run_zero, if_pos hodd, hz]
    · exact ih hmore hhalf _

end Power
