import Mathlib.Data.Nat.Prime.Factorial
import Mathlib.Data.Nat.Totient
import Mathlib.Tactic.NormNum.Prime
import PwdManLib.Util.Arithmetic

/-!
# Primes that `isPrime` rejects, and numbers it accepts

Up to 46341 a prime passes with every base (`fermat_of_prime`). Above that products wrap around, and every
prime is rejected with some base (`exists_rejecting_base`): from 65539 on with 65536, whose square is 0,
and for the primes in between by computation. A number that is not prime is accepted if the bases drawn are
its liars. So `findPrimeGreaterThan` finds the next prime when there is no liar on the way and the prime is
small (`findsNext_iff`).
-/

namespace PwdManLib

open Exec

/-! ## Small primes -/

theorem fermat_of_prime {val a : Nat} (hprime : val.Prime) (hsmall : val ≤ 46341) (hpos : 1 ≤ a)
    (ha : a < val) : fermat val a = 1 := by
  have hcoprime : a.Coprime val := (Nat.coprime_of_lt_prime (Nat.ne_of_gt hpos) ha hprime).symm
  have hpow := Nat.ModEq.pow_totient hcoprime
  rw [Nat.totient_prime hprime] at hpow
  exact (fermat_eq_one_iff hprime.two_le hsmall hpos ha).mpr
    ((Nat.probablePrime_iff_modEq val hpos).mpr hpow)

/-! ## Larger ones -/

theorem fermat_of_large {val : Nat} (hodd : val % 2 = 1) (hlarge : 65539 ≤ val) (hmax : val < 2 ^ 31) :
    fermat val 65536 = 0 := by
  have hzero (x : Nat) : wrapMul val x 0 = 0 := by
    rw [wrapMul, Nat.mul_zero]
    exact Nat.zero_mod val
  have hsquare : wrapMul val 65536 65536 = 0 := by
    rw [wrapMul]
    exact Nat.zero_mod val
  have heven : ¬ (val - 1) % 2 = 1 := by omega
  rw [fermat, Power.run_succ _ _ _ _ (by omega), hsquare]
  exact Power.run_absorbing hzero (by omega) (by omega) _

/-- `wrapMul` and `Power.run` in the form the kernel computes with fastest. -/
def fastMul (val x y : Nat) : Nat :=
  bif Nat.blt (Nat.mod (Nat.mul x y) 4294967296) 2147483648 then
    Nat.mod (Nat.mod (Nat.mul x y) 4294967296) val
  else
    Nat.mod (Nat.add (Nat.mod (Nat.mul x y) 4294967296) 18446744069414584320) val

def fastRun (val n : Nat) : Nat → Nat → Nat → Nat :=
  n.rec (fun p _ _ => p) fun _ next p a e =>
    bif Nat.beq e 0 then p
    else next (bif Nat.beq (Nat.mod e 2) 1 then fastMul val p a else p) (fastMul val a a) (Nat.div e 2)

theorem fastMul_eq (val x y : Nat) : fastMul val x y = wrapMul val x y := by
  rw [fastMul, wrapMul, Bool.cond_eq_ite]
  simp only [Nat.blt_eq]
  rfl

theorem fastRun_eq (val n p a e : Nat) : fastRun val n p a e = Power.run (wrapMul val) n p a e := by
  induction n generalizing p a e with
  | zero => rfl
  | succ n ih =>
    have hround : fastRun val (n + 1) p a e =
        bif Nat.beq e 0 then p
        else fastRun val n (bif Nat.beq (e % 2) 1 then fastMul val p a else p) (fastMul val a a) (e / 2) := rfl
    rw [hround, ih, fastMul_eq, fastMul_eq, Bool.cond_eq_ite, Bool.cond_eq_ite, Power.run]
    simp only [Nat.beq_eq]

/-- The base rejects the number. -/
def rejects (val a : Nat) : Bool := !Nat.beq (fastRun val 17 1 a (val - 1)) 1

/-- Every odd number between 46341 and 65538 without a small divisor is rejected with one of these bases. -/
theorem all_rejected : ((List.range 9598).all fun i =>
    !Nat.beq (Nat.gcd (46343 + 2 * i) 3234846615) 1 || rejects (46343 + 2 * i) 216 ||
      rejects (46343 + 2 * i) (46313 + 2 * i) || rejects (46343 + 2 * i) (46339 + 2 * i) ||
      rejects (46343 + 2 * i) (46336 + 2 * i)) = true := by
  decide +kernel

/-- **A prime above 46341 is rejected with some base.** -/
theorem exists_rejecting_base {val : Nat} (hprime : val.Prime) (hlarge : 46341 < val) (hmax : val < 2 ^ 31) :
    ∃ a, 2 ≤ a ∧ a + 3 ≤ val ∧ fermat val a ≠ 1 := by
  have hodd : val % 2 = 1 := hprime.eq_two_or_odd.resolve_left (by omega)
  rcases Nat.lt_or_ge val 65539 with hsmall | hbig
  · obtain ⟨i, hi, rfl⟩ : ∃ i < 9598, val = 46343 + 2 * i := ⟨(val - 46343) / 2, by omega, by omega⟩
    have hcoprime : Nat.gcd (46343 + 2 * i) 3234846615 = 1 := by
      have hdvd : 3234846615 ∣ Nat.factorial 29 := by decide +kernel
      refine (Nat.Prime.coprime_iff_not_dvd hprime).mpr fun h => ?_
      have hle := hprime.dvd_factorial.mp (h.trans hdvd)
      omega
    have hrejected {a : Nat} (h : rejects (46343 + 2 * i) a = true) : fermat (46343 + 2 * i) a ≠ 1 := by
      rw [fermat, Power.run_add (n := 17) _ (by omega) 14, ← fastRun_eq]
      simpa [rejects, ← Bool.not_eq_true] using h
    have hsome := List.all_eq_true.mp all_rejected i (List.mem_range.mpr hi)
    simp only [hcoprime, Bool.or_eq_true] at hsome
    rcases hsome with ((hfalse | h) | h) | h
    · rcases hfalse with hfalse | h
      · exact absurd hfalse (by decide)
      · exact ⟨216, by omega, by omega, hrejected h⟩
    · exact ⟨46313 + 2 * i, by omega, by omega, hrejected h⟩
    · exact ⟨46339 + 2 * i, by omega, by omega, hrejected h⟩
    · exact ⟨46336 + 2 * i, by omega, by omega, hrejected h⟩
  · refine ⟨65536, by omega, by omega, ?_⟩
    rw [fermat_of_large hodd hbig hmax]
    exact Nat.zero_ne_one

/-! ## A prime is never rejected -/

/-- `isPrime` returns 1 whatever `rand()` returns. -/
def NeverRejected (val : Nat) : Prop := ∀ rand : Rand, ∃ calls, isPrime val rand.value 0 = done (1, calls)

/-- One value for all draws. -/
def Rand.const (r : Nat) (h : r ≤ RAND_MAX) : Rand where
  value _ := r
  value_le _ := h

theorem exists_rand_drawing {val a : Nat} (hmax : val < 2 ^ 31) (ha : 2 ≤ a) (hle : a + 3 ≤ val) :
    ∃ rand : Rand, ∀ k, drawn val (rand.value k) = a := by
  have hbound : a - 2 ≤ RAND_MAX := by
    rw [RAND_MAX]
    omega
  exact ⟨Rand.const (a - 2) hbound, fun _ => drawn_sub_two ha hle⟩

theorem isPrime_of_small {val : Nat} (hprime : val.Prime) (hval : 5 ≤ val) (hsmall : val ≤ 46341)
    (rand : Nat → Nat) (calls : Nat) : ∃ calls', isPrime val rand calls = done (1, calls') := by
  refine isPrime_of_pass hval (by omega) rand fun j _ => ?_
  obtain ⟨hlow, hhigh⟩ := drawn_bounds hval (rand (calls + j))
  exact fermat_of_prime hprime hsmall (by omega) (by omega)

/-- **A prime is never rejected** exactly as long as no product of two residues leaves the range of `int`. -/
theorem neverRejected_iff {val : Nat} (hprime : val.Prime) (hval : 5 ≤ val) (hmax : val < 2 ^ 31) :
    NeverRejected val ↔ val ≤ 46341 := by
  constructor
  · intro h
    by_contra hlarge
    obtain ⟨a, hlow, hhigh, hreject⟩ := exists_rejecting_base hprime (Nat.not_le.mp hlarge) hmax
    obtain ⟨rand, hrand⟩ := exists_rand_drawing hmax hlow hhigh
    obtain ⟨calls, hrun⟩ := h rand
    rw [isPrime_of_fail hval hmax rand.value (by rw [hrand]; exact hreject)] at hrun
    cases hrun
  · intro hsmall rand
    exact isPrime_of_small hprime hval hsmall rand.value 0

theorem neverRejected_iff_46337 : NeverRejected 46337 :=
  (neverRejected_iff (by norm_num) (by omega) (by omega)).mpr (by omega)

/-- 65539 with 65534 drawn: the base is 65536. -/
theorem prime_65539_rejected :
    ¬ ∀ val : Nat, val.Prime → 5 ≤ val → val < 2 ^ 31 → NeverRejected val := by
  intro h
  have hprime : Nat.Prime 65539 := by norm_num
  obtain ⟨rand, hrand⟩ := @exists_rand_drawing 65539 65536 (by omega) (by omega) (by omega)
  obtain ⟨calls, hrun⟩ := h 65539 hprime (by omega) (by omega) rand
  have hreject : fermat 65539 (drawn 65539 (rand.value 0)) ≠ 1 := by
    rw [hrand, fermat_of_large (by omega) (by omega) (by omega)]
    exact Nat.zero_ne_one
  rw [isPrime_of_fail (by omega) (by omega) _ hreject] at hrun
  cases hrun

/-! ## The search -/

/-- `findPrimeGreaterThan` returns `P` whatever `rand()` returns. -/
def FindsNext (val P : Nat) : Prop := ∀ rand : Rand, Finishes (findPrimeGreaterThan val rand.value) (P : Int)

theorem searchStep_of_pass {rand : Nat → Nat} {c calls calls' : Nat} (hmax : c < 2 ^ 31)
    (h : isPrime c rand calls = done (1, calls')) :
    searchStep rand { val := c, calls := calls } = done (.inr (c : Int)) := by
  rw [searchStep, toULong_natCast (by omega), h]
  rfl

theorem searchStep_of_fail {rand : Nat → Nat} {c calls calls' : Nat} (hmax : c + 2 < 2 ^ 31)
    (h : isPrime c rand calls = done (0, calls')) :
    searchStep rand { val := c, calls := calls } = done (.inl { val := (c + 2 : Nat), calls := calls' }) := by
  have hnext : intAdd c 2 = (c + 2 : Nat) := intAdd_natCast hmax
  rw [searchStep, toULong_natCast (by omega), h, ← hnext]
  rfl

theorem passed_of_finishes {rand : Nat → Nat} {st : Search} {c : Nat} (hmax : c < 2 ^ 31)
    (h : Finishes (loop (searchStep rand) st) (c : Int)) :
    ∃ calls passed, isPrime c rand calls = done passed ∧ passed.1 ≠ 0 := by
  obtain ⟨n, hn⟩ := h
  induction n generalizing st with
  | zero => exact absurd hn (by simp [loop])
  | succ n ih =>
    cases htest : isPrime (toULong st.val) rand st.calls with
    | done passed =>
      rw [loop, searchStep, htest, done_bind] at hn
      by_cases hzero : passed.1 = 0
      · simp only [if_pos hzero] at hn
        exact ih hn
      · simp only [if_neg hzero, done.injEq] at hn
        rw [hn, toULong_natCast (by omega)] at htest
        exact ⟨st.calls, passed, htest, hzero⟩
    | fault => exact absurd hn (by simp [loop, searchStep, htest])
    | running => exact absurd hn (by simp [loop, searchStep, htest])

theorem finishes_le {rand : Nat → Nat} {c s : Nat} (hc : 5 ≤ c) (hmax : c < 2 ^ 31) (hs : 5 ≤ s)
    (hpass : ∀ k, fermat c (drawn c (rand k)) = 1) (hle : s ≤ c) (hparity : s % 2 = c % 2) (calls : Nat) :
    ∃ m : Nat, m ≤ c ∧ Finishes (loop (searchStep rand) { val := s, calls := calls }) (m : Int) := by
  obtain ⟨n, hn⟩ : ∃ n, c = s + 2 * n := ⟨(c - s) / 2, by omega⟩
  induction n generalizing s calls with
  | zero =>
    obtain rfl : s = c := by omega
    obtain ⟨calls', htest⟩ : ∃ calls', isPrime s rand calls = done (1, calls') :=
      isPrime_of_pass hc hmax rand fun j _ => hpass _
    exact ⟨s, Nat.le_refl s, (finishes_loop_exit (searchStep_of_pass hmax htest)).mpr rfl⟩
  | succ n ih =>
    obtain ⟨calls', htest⟩ := isPrimeRounds_eq hs (by omega) rand 9 calls
    rw [← isPrime] at htest
    split_ifs at htest with hall
    · exact ⟨s, hle, (finishes_loop_exit (searchStep_of_pass (by omega) htest)).mpr rfl⟩
    · obtain ⟨m, hm, hrest⟩ := ih (s := s + 2) (by omega) (by omega) (by omega) calls' (by omega)
      exact ⟨m, hm, (finishes_loop_next (searchStep_of_fail (by omega) htest)).mpr hrest⟩

theorem finishes_eq {rand : Nat → Nat} {P s : Nat} (hmax : P < 2 ^ 31) (hs : 5 ≤ s)
    (hpass : ∀ calls, ∃ calls', isPrime P rand calls = done (1, calls'))
    (hfail : ∀ c, s ≤ c → c < P → c % 2 = 1 → ∀ k, fermat c (drawn c (rand k)) ≠ 1) (hle : s ≤ P)
    (hodd : s % 2 = 1) (hparity : P % 2 = 1) (calls : Nat) :
    Finishes (loop (searchStep rand) { val := s, calls := calls }) (P : Int) := by
  obtain ⟨n, hn⟩ : ∃ n, P = s + 2 * n := ⟨(P - s) / 2, by omega⟩
  induction n generalizing s calls with
  | zero =>
    obtain rfl : s = P := by omega
    obtain ⟨calls', htest⟩ := hpass calls
    exact (finishes_loop_exit (searchStep_of_pass hmax htest)).mpr rfl
  | succ n ih =>
    have htest := isPrime_of_fail hs (by omega) rand (hfail s (Nat.le_refl s) (by omega) hodd calls)
    apply (finishes_loop_next (searchStep_of_fail (by omega) htest)).mpr
    exact ih (by omega) (fun c hc => hfail c (by omega)) (by omega) (by omega) _ (by omega)

/-! ## The next prime -/

/-- The first odd number above `val`. -/
def firstOdd (val : Nat) : Nat := if val % 2 = 1 then val + 2 else val + 1

theorem findPrimeGreaterThan_eq {val : Nat} (hmax : firstOdd val < 2 ^ 31) (rand : Nat → Nat) :
    findPrimeGreaterThan val rand = loop (searchStep rand) { val := firstOdd val, calls := 0 } := by
  funext rounds
  have hparity : (val : Int) % 2 = 1 ↔ val % 2 = 1 := by omega
  rw [findPrimeGreaterThan, firstOdd]
  simp only [hparity]
  rw [firstOdd] at hmax
  split_ifs at hmax ⊢ with hodd
  · exact congrArg (fun v => loop (searchStep rand) { val := v, calls := 0 } rounds) (intAdd_natCast hmax)
  · exact congrArg (fun v => loop (searchStep rand) { val := v, calls := 0 } rounds) (intAdd_natCast hmax)

theorem firstOdd_odd (val : Nat) : firstOdd val % 2 = 1 := by
  rw [firstOdd]
  split_ifs <;> omega

theorem lt_firstOdd (val : Nat) : val < firstOdd val := by
  rw [firstOdd]
  split_ifs <;> omega

theorem five_le_firstOdd {val : Nat} (hval : 3 ≤ val) : 5 ≤ firstOdd val := by
  rw [firstOdd]
  split_ifs <;> omega

theorem firstOdd_le {val c : Nat} (hlt : val < c) (hodd : c % 2 = 1) : firstOdd val ≤ c := by
  rw [firstOdd]
  split_ifs <;> omega

theorem exists_rand_of_lt_three {val : Nat} (hval : val < 3) :
    ∃ rand : Rand, Finishes (findPrimeGreaterThan val rand.value) (if val = 0 then 1 else 5) := by
  refine ⟨Rand.const 1 (by decide), 2, ?_⟩
  revert hval val
  decide

section next

variable {val P : Nat} (hprime : P.Prime) (hmax : P < 2 ^ 31)

include hprime

theorem FindsNext.three_le (h : FindsNext val P) (hleast : ∀ p, p.Prime → val < p → P ≤ p) : 3 ≤ val := by
  by_contra hstart
  have hthree := hleast 3 Nat.prime_three (Nat.not_le.mp hstart)
  obtain ⟨rand, hrun⟩ := exists_rand_of_lt_three (Nat.not_le.mp hstart)
  have heq := Finishes.unique (stable_loop _) (h rand) hrun
  have htwo := hprime.two_le
  split_ifs at heq <;> omega

theorem prime_odd (hval : 3 ≤ val) (hlt : val < P) : P % 2 = 1 :=
  hprime.eq_two_or_odd.resolve_left (by omega)

include hmax

theorem FindsNext.small (h : FindsNext val P) (hfirst : firstOdd val ≤ P) : P ≤ 46341 := by
  by_contra hlarge
  obtain ⟨a, hlow, hhigh, hreject⟩ := exists_rejecting_base hprime (Nat.not_le.mp hlarge) hmax
  obtain ⟨rand, hrand⟩ := exists_rand_drawing hmax hlow hhigh
  have hrun := h rand
  rw [findPrimeGreaterThan_eq (by omega)] at hrun
  obtain ⟨calls, passed, htest, hne⟩ := passed_of_finishes hmax hrun
  rw [isPrime_of_fail (by omega) hmax _ (by rw [hrand]; exact hreject)] at htest
  cases htest
  exact hne rfl

omit hprime in
theorem FindsNext.rejects (h : FindsNext val P) (hval : 3 ≤ val) {c a : Nat} (hc : val < c) (hcP : c < P)
    (hodd : c % 2 = 1) (hlow : 2 ≤ a) (hhigh : a + 3 ≤ c) : fermat c a ≠ 1 := by
  intro hpass
  have hfirst := firstOdd_le hc hodd
  obtain ⟨rand, hrand⟩ := exists_rand_drawing (by omega) hlow hhigh
  obtain ⟨m, hm, hrun⟩ := finishes_le (c := c) (by omega) (by omega) (five_le_firstOdd hval)
    (fun k => by rw [hrand]; exact hpass) hfirst (by rw [firstOdd_odd, hodd]) 0
  rw [← findPrimeGreaterThan_eq (by omega)] at hrun
  have heq := Finishes.unique (stable_loop _) hrun (h rand)
  omega

theorem findsNext_of_rejects (hval : 3 ≤ val) (hlt : val < P) (hsmall : P ≤ 46341)
    (hreject : ∀ c, val < c → c < P → c % 2 = 1 → ∀ a, 2 ≤ a → a + 3 ≤ c → fermat c a ≠ 1) :
    FindsNext val P := by
  intro rand
  have hodd := prime_odd hprime hval hlt
  have hfirst := firstOdd_le hlt hodd
  have hlow := five_le_firstOdd hval
  have hpass := isPrime_of_small hprime (by omega) hsmall rand.value
  rw [findPrimeGreaterThan_eq (by omega)]
  apply finishes_eq hmax hlow hpass _ hfirst (firstOdd_odd val) hodd 0
  intro c hc hcP hcodd k
  obtain ⟨ha, ha'⟩ := drawn_bounds (hlow.trans hc) (rand.value k)
  exact hreject c ((lt_firstOdd val).trans_le hc) hcP hcodd _ ha ha'

end next

/-- **The search finds the next prime** `P` exactly if it starts from 3 or more, no product on the way leaves
the range of `int`, and no odd number before `P` has a liar among the bases. -/
theorem findsNext_iff {val P : Nat} (hnext : IsLeast {p | p.Prime ∧ val < p} P) (hmax : P < 2 ^ 31) :
    FindsNext val P ↔ 3 ≤ val ∧ P ≤ 46341 ∧
      ∀ c, val < c → c < P → c % 2 = 1 → ∀ a, 2 ≤ a → a + 3 ≤ c → ¬ Nat.ProbablePrime c a := by
  obtain ⟨⟨hprime, hlt⟩, hleast⟩ := hnext
  constructor
  · intro h
    have hval := h.three_le hprime fun p hp hlt => hleast ⟨hp, hlt⟩
    have hsmall := h.small hprime hmax (firstOdd_le hlt (prime_odd hprime hval hlt))
    refine ⟨hval, hsmall, ?_⟩
    intro c hc hcP hodd a hlow hhigh hliar
    have hpass := (fermat_eq_one_iff (by omega) (by omega) (by omega) (by omega)).mpr hliar
    exact h.rejects hmax hval hc hcP hodd hlow hhigh hpass
  · intro h
    obtain ⟨hval, hsmall, hliars⟩ := h
    apply findsNext_of_rejects hprime hmax hval hlt hsmall
    intro c hc hcP hodd a hlow hhigh hpass
    have hliar := (fermat_eq_one_iff (by omega) (by omega) (by omega) (by omega)).mp hpass
    exact hliars c hc hcP hodd a hlow hhigh hliar

theorem isLeast_prime {val P : Nat} (hprime : P.Prime) (hlt : val < P)
    (hnone : ∀ p < P, val < p → ¬ p.Prime) : IsLeast {p | p.Prime ∧ val < p} P := by
  refine ⟨⟨hprime, hlt⟩, ?_⟩
  intro p hp
  by_contra hless
  exact hnone p (Nat.not_le.mp hless) hp.2 hp.1

/-- After 7 comes 9, which has no liar from 2 to 6, and then 11. -/
theorem findsNext_iff_seven : FindsNext 7 11 := by
  have hnext : IsLeast {p | Nat.Prime p ∧ 7 < p} 11 := by
    apply isLeast_prime (by norm_num) (by omega)
    intro p hp hlt
    interval_cases p <;> norm_num
  apply (findsNext_iff hnext (by omega)).mpr
  refine ⟨by omega, by omega, ?_⟩
  intro c hc hcP hodd a hlow hhigh
  obtain rfl : c = 9 := by omega
  have ha : a ≤ 6 := by omega
  interval_cases a <;> decide

/-- 15 after 13, with 4 drawn as base every time. -/
theorem fifteen_after_thirteen :
    ¬ ∀ val P : Nat, IsLeast {p | Nat.Prime p ∧ val < p} P → P < 2 ^ 31 → FindsNext val P := by
  intro h
  have hnext : IsLeast {p | Nat.Prime p ∧ 13 < p} 17 := by
    apply isLeast_prime (by norm_num) (by omega)
    intro p hp hlt
    interval_cases p <;> norm_num
  have hrun : Finishes (findPrimeGreaterThan 13 (Rand.const 2 (by decide)).value) 15 := ⟨1, by decide⟩
  have heq := Finishes.unique (stable_loop _) hrun (h 13 17 hnext (by omega) _)
  exact absurd heq (by decide)

end PwdManLib
