import Mathlib.Data.Nat.Find
import Mathlib.Logic.Relation

/-!
# Systems that come to a standstill

A step relation, with an invariant under which every step lowers a rank. No run is longer than the rank it starts
with (`Drains.length_le`), the states in which nothing can be done are the final ones (`Drains.stuck_iff`), and from
every state one of them is reached (`Drains.reaches_final`): whatever is done first, the system stops there.
-/

namespace Standstill

variable {σ : Type}

/-- A run of `n` steps. -/
inductive Run (Next : σ → σ → Prop) : Nat → σ → σ → Prop where
  | refl (s : σ) : Run Next 0 s s
  | tail {n : Nat} {s s' s'' : σ} (run : Run Next n s s') (step : Next s' s'') : Run Next (n + 1) s s''

/-- Nothing can be done. -/
def Stuck (Next : σ → σ → Prop) (s : σ) : Prop := ∀ s', ¬ Next s s'

/-- Every step keeps `I` and lowers `rank`, and where `I` holds there is one until the state is final. -/
structure Drains (Next : σ → σ → Prop) (I Final : σ → Prop) (rank : σ → Nat) : Prop where
  keeps : ∀ s s', I s → Next s s' → I s'
  lowers : ∀ s s', I s → Next s s' → rank s' < rank s
  goes_on : ∀ s, I s → ¬ Final s → ∃ s', Next s s'
  stops : ∀ s, Final s → Stuck Next s

namespace Run

variable {Next : σ → σ → Prop} {n : Nat} {s s' : σ}

theorem invariant {I : σ → Prop} (hkeeps : ∀ s s', I s → Next s s' → I s') (h : Run Next n s s') (hs : I s) :
    I s' := by
  induction h with
  | refl s => exact hs
  | tail _ hstep ih => exact hkeeps _ _ (ih hs) hstep

end Run

namespace Drains

variable {Next : σ → σ → Prop} {I Final : σ → Prop} {rank : σ → Nat} (h : Drains Next I Final rank)

include h

theorem length_le {n : Nat} {s s' : σ} (hrun : Run Next n s s') (hs : I s) : n + rank s' ≤ rank s := by
  induction hrun with
  | refl s => exact Nat.le_of_eq (Nat.zero_add _)
  | tail hrun hstep ih =>
    have hlower := h.lowers _ _ (hrun.invariant h.keeps hs) hstep
    have hlen := ih hs
    omega

theorem stuck_iff {s : σ} (hs : I s) : Stuck Next s ↔ Final s := by
  constructor
  · intro hstuck
    by_contra hfinal
    obtain ⟨s', hstep⟩ := h.goes_on s hs hfinal
    exact hstuck s' hstep
  · exact h.stops s

theorem reaches_final {s : σ} (hs : I s) : ∃ s', Relation.ReflTransGen Next s s' ∧ I s' ∧ Final s' := by
  induction hn : rank s using Nat.strong_induction_on generalizing s with
  | _ n ih =>
    by_cases hfinal : Final s
    · exact ⟨s, .refl, hs, hfinal⟩
    · obtain ⟨s₁, hstep⟩ := h.goes_on s hs hfinal
      obtain ⟨s', hreach, hs', hfinal'⟩ := ih _ (hn ▸ h.lowers s s₁ hs hstep) (h.keeps s s₁ hs hstep) rfl
      exact ⟨s', .head hstep hreach, hs', hfinal'⟩

end Drains

end Standstill
