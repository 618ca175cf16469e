import Mathlib.Data.List.Basic

/-!
# Transfers in several calls

A message goes to a device that takes a part of what it is offered at each call, says how much that
was, and may refuse. The call with index `k` is offered `n` items and answers `write k n`, a number of
items or something negative. `Transfer` is the run of the loop that offers what is left until nothing is
left or a call is refused: it neither loses nor repeats anything (`Transfer.offersRest`). Such a run need
not exist, for a device may answer 0 for ever. It does when the device does not answer 0 before
(`exists_transfer`), and then it takes one call for each item at most.
-/

variable {α : Type} {write : Nat → Nat → Int}

/-- A call: what was offered, and the answer. -/
structure Attempt (α : Type) where
  offered : List α
  result : Int
  deriving DecidableEq, Repr

/-- The items a call has taken. -/
def Attempt.accepted (a : Attempt α) : List α := a.offered.take a.result.toNat

/-- The items taken by all calls, in order. -/
def taken (calls : List (Attempt α)) : List α := calls.flatMap Attempt.accepted

/-- The answer of the last call, or `n` when there was none. -/
def lastResult : Int → List (Attempt α) → Int
  | n, [] => n
  | _, a :: calls => lastResult a.result calls

/-- Every call is offered exactly what the calls before it have not taken. -/
def OffersRest (message : List α) (calls : List (Attempt α)) : Prop :=
  ∀ front a back, calls = front ++ a :: back → taken front ++ a.offered = message

/-- A run of the loop from call `k` on, with `rest` left. -/
inductive Transfer (write : Nat → Nat → Int) : Nat → List α → List (Attempt α) → Prop
  | complete {k : Nat} : Transfer write k [] []
  | refused {k : Nat} {rest : List α} (hne : rest ≠ []) (hr : write k rest.length < 0) :
      Transfer write k rest [⟨rest, write k rest.length⟩]
  | accepted {k : Nat} {rest : List α} {calls : List (Attempt α)} (hne : rest ≠ [])
      (hr : 0 ≤ write k rest.length)
      (h : Transfer write (k + 1) (rest.drop (write k rest.length).toNat) calls) :
      Transfer write k rest (⟨rest, write k rest.length⟩ :: calls)

/-- From call `k` on, with `n` items left, a call answers 0 after calls that have all taken something. -/
inductive MeetsZero (write : Nat → Nat → Int) : Nat → Nat → Prop
  | here {k n : Nat} (hn : 0 < n) (hr : write k n = 0) : MeetsZero write k n
  | later {k n : Nat} (hn : 0 < n) (hr : 0 < write k n)
      (h : MeetsZero write (k + 1) (n - (write k n).toNat)) : MeetsZero write k n

@[simp] theorem taken_nil : taken ([] : List (Attempt α)) = [] := rfl

@[simp] theorem taken_cons (a : Attempt α) (calls : List (Attempt α)) :
    taken (a :: calls) = a.accepted ++ taken calls := List.flatMap_cons

theorem length_accepted {offered : List α} {r : Int} (hr : r ≤ offered.length) :
    (Attempt.accepted ⟨offered, r⟩).length = r.toNat := by
  show (offered.take r.toNat).length = r.toNat
  rw [List.length_take]
  omega

theorem lastResult_of_ne_nil {calls : List (Attempt α)} (h : calls ≠ []) (m n : Int) :
    lastResult m calls = lastResult n calls := by
  cases calls with
  | nil => exact absurd rfl h
  | cons a calls => rfl

theorem lastResult_concat (n : Int) (front : List (Attempt α)) (a : Attempt α) :
    lastResult n (front ++ [a]) = a.result := by
  induction front generalizing n with
  | nil => rfl
  | cons b front ih => exact ih b.result

/-! ## What a run does -/

namespace Transfer

variable {k : Nat} {rest : List α} {calls : List (Attempt α)}

theorem offersRest (h : Transfer write k rest calls) : OffersRest rest calls := by
  induction h with
  | complete =>
    intro front a back hcalls
    simp at hcalls
  | refused hne hr =>
    intro front a back hcalls
    rcases List.singleton_eq_append_iff.mp hcalls with ⟨rfl, hlast⟩ | ⟨-, hlast⟩
    · obtain ⟨rfl, -⟩ := List.cons.inj hlast
      rfl
    · simp at hlast
  | accepted hne hr h ih =>
    intro front a back hcalls
    cases front with
    | nil =>
      obtain ⟨rfl, -⟩ := List.cons.inj hcalls
      rfl
    | cons first front =>
      obtain ⟨rfl, htail⟩ := List.cons.inj hcalls
      rw [taken_cons, List.append_assoc, ih front a back htail, Attempt.accepted,
        List.take_append_drop]

theorem taken_prefix (h : Transfer write k rest calls) : taken calls <+: rest := by
  induction h with
  | complete => exact List.nil_prefix
  | @refused k rest hne hr =>
    rw [taken_cons, taken_nil, List.append_nil]
    exact List.take_prefix _ rest
  | @accepted k rest calls hne hr h ih =>
    rw [taken_cons]
    calc _ <+: rest.take (write k rest.length).toNat ++ rest.drop (write k rest.length).toNat :=
          (List.prefix_append_right_inj _).mpr ih
      _ = rest := List.take_append_drop _ rest

theorem offered_ne_nil (h : Transfer write k rest calls) : ∀ a ∈ calls, a.offered ≠ [] := by
  induction h with
  | complete => simp
  | refused hne hr => simpa using hne
  | accepted hne hr h ih => simpa using ⟨hne, ih⟩

theorem result_eq (h : Transfer write k rest calls) {front back : List (Attempt α)} {a : Attempt α}
    (hcalls : calls = front ++ a :: back) : a.result = write (k + front.length) a.offered.length := by
  induction h generalizing front with
  | complete => simp at hcalls
  | refused hne hr =>
    rcases List.singleton_eq_append_iff.mp hcalls with ⟨rfl, hlast⟩ | ⟨-, hlast⟩
    · obtain ⟨rfl, -⟩ := List.cons.inj hlast
      rfl
    · simp at hlast
  | @accepted k rest calls hne hr h ih =>
    cases front with
    | nil =>
      obtain ⟨rfl, -⟩ := List.cons.inj hcalls
      rfl
    | cons first front =>
      have hrest := ih (List.cons.inj hcalls).2
      rwa [List.length_cons, Nat.add_comm front.length, ← Nat.add_assoc]

theorem nonneg_of_front (h : Transfer write k rest calls) {front back : List (Attempt α)}
    {a : Attempt α} (hcalls : calls = front ++ a :: back) (hback : back ≠ []) : 0 ≤ a.result := by
  induction h generalizing front with
  | complete => simp at hcalls
  | refused hne hr =>
    rcases List.singleton_eq_append_iff.mp hcalls with ⟨-, hlast⟩ | ⟨-, hlast⟩
    · exact absurd (List.cons.inj hlast).2 hback
    · simp at hlast
  | accepted hne hr h ih =>
    cases front with
    | nil =>
      obtain ⟨rfl, -⟩ := List.cons.inj hcalls
      exact hr
    | cons first front => exact ih (List.cons.inj hcalls).2

theorem stops (h : Transfer write k rest calls) :
    (∃ front a, calls = front ++ [a] ∧ a.result < 0) ∨ taken calls = rest := by
  induction h with
  | complete => exact .inr rfl
  | @refused k rest hne hr => exact .inl ⟨[], _, rfl, hr⟩
  | @accepted k rest calls hne hr h ih =>
    rcases ih with ⟨front, a, rfl, ha⟩ | htaken
    · exact .inl ⟨_ :: front, a, rfl, ha⟩
    · right
      rw [taken_cons, htaken, Attempt.accepted, List.take_append_drop]

theorem calls_eq_nil_iff (h : Transfer write k rest calls) : calls = [] ↔ rest = [] := by
  cases h with
  | complete => exact iff_of_true rfl rfl
  | refused hne => exact iff_of_false (List.cons_ne_nil _ _) hne
  | accepted hne => exact iff_of_false (List.cons_ne_nil _ _) hne

/-- **All is taken exactly when the last call is not refused.** -/
theorem taken_eq_iff (h : Transfer write k rest calls) {n : Int} (hn : 0 ≤ n) :
    taken calls = rest ↔ 0 ≤ lastResult n calls := by
  induction h generalizing n with
  | complete => exact iff_of_true rfl hn
  | @refused k rest hne hr =>
    refine iff_of_false ?_ (Int.not_le.mpr hr)
    have hnone : (write k rest.length).toNat = 0 := by omega
    rw [taken_cons, taken_nil, List.append_nil, Attempt.accepted, hnone, List.take_zero]
    exact hne.symm
  | @accepted k rest calls hne hr h ih =>
    have hsplit := List.take_append_drop (write k rest.length).toNat rest
    calc taken (⟨rest, write k rest.length⟩ :: calls) = rest
        ↔ taken calls = rest.drop (write k rest.length).toNat := by
          rw [taken_cons, Attempt.accepted]
          conv_lhs => rhs; rw [← hsplit]
          exact List.append_right_inj _
      _ ↔ 0 ≤ lastResult n (⟨rest, write k rest.length⟩ :: calls) := ih hr

theorem countP_pos_le (h : Transfer write k rest calls) :
    calls.countP (fun a => 0 < a.result) ≤ rest.length := by
  induction h with
  | complete => simp
  | refused hne hr =>
    have hneg : ¬ 0 < write _ _ := Int.not_lt.mpr (Int.le_of_lt hr)
    simp [hneg]
  | @accepted k rest calls hne hr h ih =>
    have hlen := List.length_pos_of_ne_nil hne
    rw [List.length_drop] at ih
    rw [List.countP_cons]
    split_ifs with hpos
    · have hpos' : 0 < write k rest.length := of_decide_eq_true hpos
      omega
    · omega

theorem countP_neg_le (h : Transfer write k rest calls) :
    calls.countP (fun a => a.result < 0) ≤ 1 := by
  induction h with
  | complete => simp
  | refused hne hr => exact List.countP_le_length
  | accepted hne hr h ih => simpa [Int.not_lt.mpr hr] using ih

end Transfer

/-! ## Devices that answer 0 -/

theorem not_meetsZero_of_ne_zero (h : ∀ k n, 0 < n → write k n ≠ 0) (k n : Nat) :
    ¬ MeetsZero write k n := by
  intro hzero
  induction hzero with
  | here hn hr => exact h _ _ hn hr
  | later hn hr _ ih => exact ih

theorem meetsZero_iff_later {k n : Nat} (hn : 0 < n) (hr : 0 < write k n) :
    MeetsZero write k n ↔ MeetsZero write (k + 1) (n - (write k n).toNat) := by
  constructor
  · rintro (⟨-, hzero⟩ | ⟨-, -, h⟩)
    · omega
    · exact h
  · exact MeetsZero.later hn hr

theorem Transfer.meetsZero_iff {k : Nat} {rest : List α} {calls : List (Attempt α)}
    (h : Transfer write k rest calls) :
    MeetsZero write k rest.length ↔ ∃ a ∈ calls, a.result = 0 := by
  induction h with
  | complete =>
    refine iff_of_false ?_ (by simp)
    rintro (⟨hn, -⟩ | ⟨hn, -, -⟩) <;> simp at hn
  | refused hne hr =>
    refine iff_of_false ?_ ?_
    · rintro (⟨-, hzero⟩ | ⟨-, hpos, -⟩) <;> omega
    · simpa using Int.ne_of_lt hr
  | @accepted k rest calls hne hr h ih =>
    have hlen := List.length_pos_of_ne_nil hne
    rw [List.length_drop] at ih
    rcases Int.lt_or_eq_of_le hr with hpos | hzero
    · rw [meetsZero_iff_later hlen hpos, ih]
      simp [Int.ne_of_gt hpos]
    · exact iff_of_true (.here hlen hzero.symm) ⟨_, List.mem_cons_self, hzero.symm⟩

/-- **A device that does not answer 0 too early comes to an end with the message**, or refuses it. -/
theorem exists_transfer {k : Nat} {rest : List α} (h : ¬ MeetsZero write k rest.length) :
    ∃ calls, Transfer write k rest calls ∧ calls.length ≤ rest.length := by
  induction hn : rest.length using Nat.strongRecOn generalizing k rest with
  | _ n ih =>
    subst hn
    by_cases hne : rest = []
    · subst hne
      exact ⟨[], .complete, Nat.le_refl _⟩
    · have hlen := List.length_pos_of_ne_nil hne
      by_cases hneg : write k rest.length < 0
      · exact ⟨_, .refused hne hneg, hlen⟩
      · have hzero : write k rest.length ≠ 0 := fun hzero => h (.here hlen hzero)
        have hpos : 0 < write k rest.length := by omega
        have hdrop := List.length_drop (i := (write k rest.length).toNat) (l := rest)
        rw [meetsZero_iff_later hlen hpos, ← hdrop] at h
        obtain ⟨calls, hcalls, hle⟩ := ih _ (by omega) h rfl
        refine ⟨_, .accepted hne (Int.not_lt.mp hneg) hcalls, ?_⟩
        rw [List.length_cons]
        omega
