import Mathlib.Data.ZMod.Basic
import Mathlib.NumberTheory.FermatPsp
import PwdManLib.Lib.Power
import PwdManLib.Util.StringOps

/-!
# The prime numbers of `util/arithmetic.h`

`isPrime` takes an `unsigned long` and computes in `int`: a product of two `int`s wraps around at 32 bits,
and is converted to 64 bits with its sign before it is reduced. `rand()` is a parameter. The inner loop is
`Power.run` with that multiplication (`loop_powerStep`); up to 46341 nothing wraps, and the test is
Fermat's (`fermat_eq_one_iff`).
-/

namespace PwdManLib

open Exec

def RAND_MAX : Nat := 2147483647

/-- The values `rand()` returns, one after the other. -/
structure Rand where
  value : Nat → Nat
  value_le : ∀ k, value k ≤ RAND_MAX

/-! ## The code -/

/-- A product of `int`s. -/
def intMul (x y : Int) : Int := toInt (x * y % 2 ^ 32).toNat

/-- `(x*y)%val`, stored in an `int`. -/
def mulMod (val : Nat) (x y : Int) : Int := toInt (toULong (intMul x y) % val)

/-- The variables of the inner loop of `isPrime`. -/
structure PowerLoop where
  p : Int
  a : Int
  exp : Int

/-- One round of `while (exp)`. -/
def powerStep (val : Nat) (st : PowerLoop) : Exec (PowerLoop ⊕ Int) :=
  if st.exp = 0 then
    done (.inr st.p)
  else if val = 0 then
    fault
  else
    done (.inl
      { p := if st.exp % 2 = 1 then mulMod val st.p st.a else st.p
        a := mulMod val st.a st.a
        exp := st.exp / 2 })

/-- `(rand() % (val-4)) + 2`, stored in an `int`. -/
def base (val rand : Nat) : Int := toInt (rand % ((val + (2 ^ 64 - 4)) % 2 ^ 64) + 2)

/-- What is left of the rounds of `for (i = 9; i--;)`: the result, and the number of `rand()` calls made.
An exponent has 31 bits, or is negative, and then the inner loop does not end. -/
def isPrimeRounds (val : Nat) (rand : Nat → Nat) : Nat → Nat → Exec (Nat × Nat)
  | 0, calls => done (1, calls)
  | i + 1, calls =>
    if val = 4 then
      fault
    else do
      let p ← loop (powerStep val)
        { p := 1, a := base val (rand calls), exp := toInt (val + (2 ^ 64 - 1)) } 32
      if p ≠ 1 then done (0, calls + 1) else isPrimeRounds val rand i (calls + 1)

/-- Whether `val` passes nine rounds. -/
def isPrime (val : Nat) (rand : Nat → Nat) (calls : Nat) : Exec (Nat × Nat) :=
  isPrimeRounds val rand 9 calls

/-- The candidate of `findPrimeGreaterThan`, and the number of `rand()` calls made. -/
structure Search where
  val : Int
  calls : Nat

/-- One round of `while (!isPrime(val))`. -/
def searchStep (rand : Nat → Nat) (st : Search) : Exec (Search ⊕ Int) := do
  let (prime, calls) ← isPrime (toULong st.val) rand st.calls
  if prime = 0 then done (.inl { val := intAdd st.val 2, calls := calls }) else done (.inr st.val)

def findPrimeGreaterThan (val : Int) (rand : Nat → Nat) (rounds : Nat) : Exec Int :=
  loop (searchStep rand) { val := if val % 2 = 1 then intAdd val 2 else intAdd val 1, calls := 0 } rounds

/-! ## Machine numbers -/

/-- `(x*y)%val` of numbers that are not negative. -/
def wrapMul (val x y : Nat) : Nat :=
  if x * y % 2 ^ 32 < 2 ^ 31 then x * y % 2 ^ 32 % val else (x * y % 2 ^ 32 + (2 ^ 64 - 2 ^ 32)) % val

theorem mulMod_natCast {val : Nat} (hpos : 0 < val) (hmax : val < 2 ^ 31) (x y : Nat) :
    mulMod val x y = wrapMul val x y := by
  have hprod : ((x : Int) * y % 2 ^ 32).toNat = x * y % 2 ^ 32 := by
    rw [← Int.natCast_mul]
    omega
  have hlt : x * y % 2 ^ 32 < 2 ^ 32 := Nat.mod_lt _ (by omega)
  have hreduced (n : Nat) : toInt (n % val) = (n % val : Nat) :=
    toInt_of_lt ((Nat.mod_lt _ hpos).trans hmax)
  rw [mulMod, intMul, hprod, wrapMul, hreduced]
  split_ifs with hsmall
  · rw [toInt_of_lt hsmall, toULong_natCast (by omega)]
  · have hsigned : toULong ((x * y % 2 ^ 32 : Nat) - 2 ^ 32) = x * y % 2 ^ 32 + (2 ^ 64 - 2 ^ 32) := by
      rw [toULong]
      omega
    rw [toInt_of_ge (Nat.not_lt.mp hsmall) hlt, hsigned]

theorem wrapMul_lt {val : Nat} (hpos : 0 < val) (x y : Nat) : wrapMul val x y < val := by
  rw [wrapMul]
  split_ifs <;> exact Nat.mod_lt _ hpos

theorem wrapMul_of_small {val x y : Nat} (hval : val ≤ 46341) (hx : x < val) (hy : y < val) :
    wrapMul val x y = x * y % val := by
  have hle : x * y ≤ 46340 * 46340 := Nat.mul_le_mul (by omega) (by omega)
  have hmod : x * y % 2 ^ 32 = x * y := Nat.mod_eq_of_lt (by omega)
  rw [wrapMul, hmod, if_pos (by omega)]

/-! ## One round -/

/-- What a round computes with a base. -/
def fermat (val a : Nat) : Nat := Power.run (wrapMul val) 31 1 a (val - 1)

theorem loop_powerStep {val : Nat} (hval : val ≠ 0) (n : Nat) (p a : Int) {e : Nat} (he : e < 2 ^ n) :
    loop (powerStep val) { p := p, a := a, exp := e } (n + 1) =
      done (Power.run (mulMod val) n p a e) := by
  induction n generalizing p a e with
  | zero =>
    obtain rfl : e = 0 := by omega
    rfl
  | succ n ih =>
    rcases Nat.eq_zero_or_pos e with rfl | hpos
    · rfl
    · have hne : ¬ (e : Int) = 0 := by omega
      have hparity : (e : Int) % 2 = 1 ↔ e % 2 = 1 := by omega
      have hstep : powerStep val { p := p, a := a, exp := e } =
          done (.inl
            { p := if e % 2 = 1 then mulMod val p a else p, a := mulMod val a a, exp := (e / 2 : Nat) }) := by
        simp only [powerStep, if_neg hne, if_neg hval, hparity]
        rfl
      have hhalf : e / 2 < 2 ^ n := by
        rw [Nat.pow_succ] at he
        omega
      rw [loop_succ_of_next hstep, ih _ _ hhalf, Power.run_succ _ _ _ _ (Nat.ne_of_gt hpos)]

theorem loop_powerStep_eq {val : Nat} (hval : 5 ≤ val) (hmax : val < 2 ^ 31) (a : Nat) :
    loop (powerStep val) { p := 1, a := a, exp := toInt (val + (2 ^ 64 - 1)) } 32 =
      done (fermat val a : Int) := by
  have hexp : toInt (val + (2 ^ 64 - 1)) = (val - 1 : Nat) := by
    rw [toInt]
    split_ifs <;> omega
  have hrun := (Power.run_map (I := fun _ => True) (Nat.cast : Nat → Int)
    (fun x y _ _ => ⟨trivial, (mulMod_natCast (by omega) hmax x y).symm⟩) 31 (val - 1)
    (p := 1) (a := a) trivial trivial).2
  rw [hexp, loop_powerStep (by omega) 31 1 a (by omega), fermat, hrun]
  rfl

/-- The base drawn with a value of `rand()`. -/
def drawn (val r : Nat) : Nat := r % (val - 4) + 2

theorem base_eq {val r : Nat} (hval : 5 ≤ val) (hmax : val < 2 ^ 31) : base val r = drawn val r := by
  have hmod : (val + (2 ^ 64 - 4)) % 2 ^ 64 = val - 4 := by omega
  have hlt : r % (val - 4) < val - 4 := Nat.mod_lt _ (by omega)
  rw [base, hmod, toInt_of_lt (by omega), drawn]

theorem drawn_bounds {val : Nat} (hval : 5 ≤ val) (r : Nat) : 2 ≤ drawn val r ∧ drawn val r + 3 ≤ val := by
  have hlt : r % (val - 4) < val - 4 := Nat.mod_lt _ (by omega)
  rw [drawn]
  omega

theorem drawn_sub_two {val a : Nat} (ha : 2 ≤ a) (hle : a + 3 ≤ val) : drawn val (a - 2) = a := by
  rw [drawn, Nat.mod_eq_of_lt (by omega)]
  omega

/-! ## Nine rounds -/

section rounds

variable {val : Nat} (hval : 5 ≤ val) (hmax : val < 2 ^ 31) (rand : Nat → Nat)

include hval hmax

theorem isPrimeRounds_succ (i calls : Nat) :
    isPrimeRounds val rand (i + 1) calls =
      if fermat val (drawn val (rand calls)) = 1 then isPrimeRounds val rand i (calls + 1)
      else done (0, calls + 1) := by
  have h4 : ¬ val = 4 := by omega
  rw [isPrimeRounds, if_neg h4, base_eq hval hmax, loop_powerStep_eq hval hmax, done_bind]
  by_cases hone : fermat val (drawn val (rand calls)) = 1
  · rw [if_pos hone, hone]
    rfl
  · have hne : ((fermat val (drawn val (rand calls)) : Nat) : Int) ≠ 1 := by omega
    rw [if_neg hone, if_pos hne]

/-- **The rounds end with 1 when all bases drawn pass**, and with 0 otherwise. -/
theorem isPrimeRounds_eq (i calls : Nat) :
    ∃ calls', isPrimeRounds val rand i calls =
      done (if ∀ j < i, fermat val (drawn val (rand (calls + j))) = 1 then 1 else 0, calls') := by
  induction i generalizing calls with
  | zero => exact ⟨calls, by simp [isPrimeRounds]⟩
  | succ i ih =>
    have hall : (∀ j < i + 1, fermat val (drawn val (rand (calls + j))) = 1) ↔
        fermat val (drawn val (rand calls)) = 1 ∧
          ∀ j < i, fermat val (drawn val (rand (calls + 1 + j))) = 1 := by
      simp only [Nat.forall_lt_succ_left, Nat.add_zero, Nat.add_assoc, Nat.add_comm 1]
    simp only [isPrimeRounds_succ hval hmax, hall]
    by_cases hone : fermat val (drawn val (rand calls)) = 1
    · obtain ⟨calls', hrun⟩ := ih (calls + 1)
      exact ⟨calls', by simp only [hone, hrun, if_true, true_and]⟩
    · exact ⟨calls + 1, by simp only [hone, if_false, false_and]⟩

theorem isPrime_of_pass {calls : Nat}
    (h : ∀ j < 9, fermat val (drawn val (rand (calls + j))) = 1) :
    ∃ calls', isPrime val rand calls = done (1, calls') := by
  obtain ⟨calls', hrun⟩ := isPrimeRounds_eq hval hmax rand 9 calls
  rw [if_pos h] at hrun
  exact ⟨calls', hrun⟩

theorem isPrime_of_fail {calls : Nat} (h : fermat val (drawn val (rand calls)) ≠ 1) :
    isPrime val rand calls = done (0, calls + 1) := by
  rw [isPrime, isPrimeRounds_succ hval hmax, if_neg h]

end rounds

/-! ## Fermat's test -/

theorem fermat_eq_one_iff {val a : Nat} (hval : 2 ≤ val) (hsmall : val ≤ 46341) (hpos : 1 ≤ a)
    (ha : a < val) : fermat val a = 1 ↔ Nat.ProbablePrime val a := by
  have hmul (x y : Nat) (hx : x < val) (hy : y < val) :
      wrapMul val x y < val ∧ ((wrapMul val x y : Nat) : ZMod val) = x * y := by
    refine ⟨wrapMul_lt (by omega) x y, ?_⟩
    rw [wrapMul_of_small hsmall hx hy, ZMod.natCast_mod, Nat.cast_mul]
  obtain ⟨hlt, hcast⟩ := Power.run_map (I := (· < val)) (Nat.cast : Nat → ZMod val) hmul 31 (val - 1)
    (p := 1) (a := a) (by omega) ha
  rw [← fermat] at hlt hcast
  rw [Power.run_eq (by omega), Nat.cast_one, one_mul] at hcast
  calc fermat val a = 1 ↔ ((fermat val a : Nat) : ZMod val) = (1 : Nat) := by
        rw [ZMod.natCast_eq_natCast_iff', Nat.mod_eq_of_lt hlt, Nat.mod_eq_of_lt (by omega)]
    _ ↔ ((a ^ (val - 1) : Nat) : ZMod val) = (1 : Nat) := by rw [hcast, Nat.cast_pow]
    _ ↔ Nat.ProbablePrime val a := by
        rw [ZMod.natCast_eq_natCast_iff, Nat.probablePrime_iff_modEq val hpos]

end PwdManLib
