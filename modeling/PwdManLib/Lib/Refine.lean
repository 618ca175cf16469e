import PwdManLib.Lib.Exec

/-!
# Lock-step refinement of a specification under a guard

A concrete machine `step : C → Op → Exec (C × R)` and a specification `spec : A → Op → A × R` take the
same operations and give results. If a relation `S` between their states is kept by every
operation that meets a guard on the concrete state, with equal results, then it is kept by every run
whose operations all meet the guard, and the run faults nowhere and gives the specified results
(`run_refines`).
-/

namespace Refine

open Exec

universe u

variable {C A Op R : Type u}

/-- Run a list of operations and collect their results. -/
def run (step : C → Op → Exec (C × R)) : C → List Op → Exec (C × List R)
  | c, [] => done (c, [])
  | c, op :: ops => do
    let (c₁, r) ← step c op
    let (c₂, rs) ← run step c₁ ops
    done (c₂, r :: rs)

/-- The results the specification gives. -/
def specRun (spec : A → Op → A × R) : A → List Op → A × List R
  | a, [] => (a, [])
  | a, op :: ops =>
    let (a₁, r) := spec a op
    let (a₂, rs) := specRun spec a₁ ops
    (a₂, r :: rs)

/-- Every operation of the run is called in a state in which it meets the guard. -/
def Guarded (step : C → Op → Exec (C × R)) (G : C → Op → Prop) : C → List Op → Prop
  | _, [] => True
  | c, op :: ops => G c op ∧
    match step c op with
    | done (c', _) => Guarded step G c' ops
    | _ => True

instance decidableGuarded (step : C → Op → Exec (C × R)) (G : C → Op → Prop)
    [∀ c op, Decidable (G c op)] : ∀ c ops, Decidable (Guarded step G c ops)
  | _, [] => .isTrue trivial
  | c, op :: ops => by
    unfold Guarded
    cases step c op with
    | done r =>
      have := decidableGuarded step G r.1 ops
      exact instDecidableAnd
    | fault => exact instDecidableAnd
    | running => exact instDecidableAnd

theorem run_refines {step : C → Op → Exec (C × R)} {spec : A → Op → A × R} {G : C → Op → Prop}
    {S : C → A → Prop}
    (hstep : ∀ c a op, S c a → G c op →
      ∃ c', step c op = done (c', (spec a op).2) ∧ S c' (spec a op).1)
    (ops : List Op) (c : C) (a : A) (hrel : S c a) (hops : Guarded step G c ops) :
    ∃ c', run step c ops = done (c', (specRun spec a ops).2) ∧ S c' (specRun spec a ops).1 := by
  induction ops generalizing c a with
  | nil => exact ⟨c, rfl, hrel⟩
  | cons op ops ih =>
    obtain ⟨hop, hrest⟩ := hops
    obtain ⟨c₁, hc₁, hrel₁⟩ := hstep c a op hrel hop
    rw [hc₁] at hrest
    obtain ⟨c₂, hc₂, hrel₂⟩ := ih c₁ (spec a op).1 hrel₁ hrest
    exact ⟨c₂, by simp [run, specRun, hc₁, hc₂], hrel₂⟩

theorem run_append_of_done {step : C → Op → Exec (C × R)} {ops₁ ops₂ : List Op} {c c₁ c₂ : C}
    {rs₁ rs₂ : List R} (h₁ : run step c ops₁ = done (c₁, rs₁)) (h₂ : run step c₁ ops₂ = done (c₂, rs₂)) :
    run step c (ops₁ ++ ops₂) = done (c₂, rs₁ ++ rs₂) := by
  induction ops₁ generalizing c rs₁ with
  | nil =>
    obtain ⟨rfl, rfl⟩ := Prod.mk.inj (done.inj h₁)
    exact h₂
  | cons op ops₁ ih =>
    obtain ⟨⟨c', r⟩, hop, h₁⟩ := bind_eq_done.mp h₁
    obtain ⟨⟨c'', rs'⟩, hrest, h₁⟩ := bind_eq_done.mp h₁
    obtain ⟨rfl, rfl⟩ := Prod.mk.inj (done.inj h₁)
    simp only [List.cons_append, run, hop, done_bind, ih hrest]

/-! ## What runs keep -/

theorem run_keeps {step : C → Op → Exec (C × R)} {G : C → Op → Prop} {I : C → Prop}
    (hstep : ∀ c op c' r, I c → G c op → step c op = done (c', r) → I c')
    (ops : List Op) {c c' : C} {rs : List R} (hc : I c) (hops : Guarded step G c ops)
    (hrun : run step c ops = done (c', rs)) : I c' := by
  induction ops generalizing c rs with
  | nil =>
    rw [run, done.injEq, Prod.mk.injEq] at hrun
    exact hrun.1 ▸ hc
  | cons op ops ih =>
    obtain ⟨hop, hrest⟩ := hops
    rw [run, bind_eq_done] at hrun
    obtain ⟨⟨c₁, r⟩, hc₁, hrun⟩ := hrun
    obtain ⟨⟨c₂, rs₂⟩, hc₂, hrun⟩ := bind_eq_done.mp hrun
    rw [hc₁] at hrest
    obtain ⟨rfl, -⟩ := Prod.mk.inj (done.inj hrun)
    exact ih (hstep c op c₁ r hc hop hc₁) hrest hc₂

theorem Guarded.of_append {step : C → Op → Exec (C × R)} {G : C → Op → Prop} {ops₁ ops₂ : List Op} {c : C}
    (h : Guarded step G c (ops₁ ++ ops₂)) : Guarded step G c ops₁ := by
  induction ops₁ generalizing c with
  | nil => trivial
  | cons op ops₁ ih =>
    obtain ⟨hop, hrest⟩ := h
    refine ⟨hop, ?_⟩
    cases hstep : step c op with
    | done p =>
      rw [hstep] at hrest
      exact ih hrest
    | fault => trivial
    | running => trivial

theorem guarded_of_forall {step : C → Op → Exec (C × R)} {G : C → Op → Prop} (h : ∀ c op, G c op)
    (c : C) (ops : List Op) : Guarded step G c ops := by
  induction ops generalizing c with
  | nil => trivial
  | cons op ops ih =>
    refine ⟨h c op, ?_⟩
    split
    · exact ih _
    · trivial

theorem run_invariant {step : C → Op → Exec (C × R)} {I : C → Prop}
    (hstep : ∀ c op c' r, I c → step c op = done (c', r) → I c')
    (ops : List Op) {c c' : C} {rs : List R} (hc : I c) (hrun : run step c ops = done (c', rs)) :
    I c' :=
  run_keeps (G := fun _ _ => True) (fun c op c' r hI _ => hstep c op c' r hI) ops hc
    (guarded_of_forall (fun _ _ => trivial) c ops) hrun

end Refine
