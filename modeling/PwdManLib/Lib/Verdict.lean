import Mathlib.Data.List.Perm.Basic

/-!
# The first verdict

A list is gone through until an item brings a verdict, as `List.findSome?` does. The order of the list
matters exactly when it has items with different verdicts (`perm_findSome?_iff`).
-/

namespace Verdict

variable {α β : Type}

theorem getD_inj {d : β} {o o' : Option β} (h : o ≠ some d) (h' : o' ≠ some d) : o.getD d = o'.getD d ↔ o = o' := by
  cases o with
  | none =>
    cases o' with
    | none => simp
    | some b' => simpa [eq_comm] using h'
  | some b =>
    cases o' with
    | none => simpa using h
    | some b' => simp

theorem exists_perm_findSome? {f : α → Option β} {as : List α} {a : α} {b : β} (ha : a ∈ as) (hb : f a = some b) :
    ∃ bs : List α, bs.Perm as ∧ bs.findSome? f = some b := by
  obtain ⟨front, back, rfl⟩ := List.append_of_mem ha
  exact ⟨a :: (front ++ back), List.perm_middle.symm, List.findSome?_cons_of_isSome (by simp [hb]) |>.trans hb⟩

/-- **When the order does not matter**: all verdicts agree. -/
theorem perm_findSome?_iff {f : α → Option β} {as : List α} :
    (∀ bs : List α, bs.Perm as → bs.findSome? f = as.findSome? f) ↔
      ∀ a ∈ as, ∀ a' ∈ as, ∀ b b', f a = some b → f a' = some b' → b = b' := by
  constructor
  · intro hsame a ha a' ha' b b' hb hb'
    obtain ⟨bs, hperm, hfirst⟩ := exists_perm_findSome? ha hb
    obtain ⟨bs', hperm', hfirst'⟩ := exists_perm_findSome? ha' hb'
    have heq := (hsame bs hperm).trans (hsame bs' hperm').symm
    rw [hfirst, hfirst'] at heq
    exact Option.some.inj heq
  · intro hagree bs hperm
    cases has : as.findSome? f with
    | none =>
      rw [List.findSome?_eq_none_iff] at has ⊢
      intro a ha
      exact has a (hperm.mem_iff.mp ha)
    | some b =>
      obtain ⟨a, ha, hb⟩ := List.exists_of_findSome?_eq_some has
      cases hbs : bs.findSome? f with
      | none =>
        have hnone := List.findSome?_eq_none_iff.mp hbs a (hperm.mem_iff.mpr ha)
        rw [hb] at hnone
        cases hnone
      | some b' =>
        obtain ⟨a', ha', hb'⟩ := List.exists_of_findSome?_eq_some hbs
        rw [hagree a' (hperm.mem_iff.mp ha') a ha b' b hb' hb]

end Verdict
