import Mathlib.Tactic.Common

/-!
# Executions with a loop budget

`Exec α` is the outcome of running a piece of imperative code that may fault (dereference a null or
unset pointer, index outside an array) and may loop. A computation whose loops need not end takes a
bound on the number of rounds and answers `running` when the bound is used up, so "the code ends with
result `a`" is `Finishes f a`: some bound gives `done a`.

* `Exec.loop step` iterates a step function, `Exec.forRange body` is a loop with a known number of
  rounds;
* a finished loop keeps its result under every larger bound (`loop_done_mono`), so a result is unique
  (`Finishes.unique`);
* a loop that appends something for each element of a list appends all of it (`forRange_append`);
* the rules for a loop are `finishes_loop_next` (one round), `finishes_loop_exit` (the last one) and
  `not_halts_loop_of_stuck` (a round that changes nothing is repeated for ever).
-/

universe u

/-- The outcome of an execution: a result, a fault, or loops still running when the bound ran out. -/
inductive Exec (α : Type u) where
  | done (a : α)
  | fault
  | running
  deriving DecidableEq, Repr

namespace Exec

variable {α β σ : Type u}

/-- Run `x`, then `f` on its result; a fault or a running loop of `x` is the whole outcome. -/
def bind (x : Exec α) (f : α → Exec β) : Exec β :=
  match x with
  | done a => f a
  | fault => fault
  | running => running

instance : Monad Exec where
  pure := done
  bind := bind

@[simp] theorem pure_eq (a : α) : (pure a : Exec α) = done a := rfl

@[simp] theorem done_bind (a : α) (f : α → Exec β) : (done a >>= f) = f a := rfl

@[simp] theorem fault_bind (f : α → Exec β) : (fault >>= f) = fault := rfl

@[simp] theorem running_bind (f : α → Exec β) : (running >>= f) = running := rfl

@[simp] theorem map_done (f : α → β) (a : α) : f <$> (done a) = done (f a) := rfl

@[simp] theorem map_fault (f : α → β) : f <$> (fault : Exec α) = fault := rfl

@[simp] theorem map_running (f : α → β) : f <$> (running : Exec α) = running := rfl

instance : LawfulMonad Exec :=
  LawfulMonad.mk' Exec
    (fun {α} x => by cases x <;> rfl)
    (fun {α β} a f => rfl)
    (fun {α β γ} x f g => by cases x <;> rfl)

theorem bind_eq_done {x : Exec α} {f : α → Exec β} {b : β} :
    (x >>= f) = done b ↔ ∃ a, x = done a ∧ f a = done b := by
  cases x with
  | done a => simp
  | fault => simp
  | running => simp

/-- An execution that has gone wrong unless `c` holds. -/
def require (c : Prop) [Decidable c] : Exec Unit := if c then done () else fault

theorem require_of_pos {c : Prop} [Decidable c] (h : c) : require c = done () := if_pos h

theorem require_eq_done_iff {c : Prop} [Decidable c] (u : Unit) : require c = done u ↔ c := by
  rw [require]
  split_ifs with h
  · exact iff_of_true rfl h
  · exact iff_of_false (by simp) h

/-! ## Computations under a bound -/

/-- The bounded computation `f` ends with result `a`. -/
def Finishes (f : Nat → Exec α) (a : α) : Prop := ∃ n, f n = done a

/-- The bounded computation `f` comes to an end, with a result or a fault. -/
def Halts (f : Nat → Exec α) : Prop := ∃ n, f n ≠ running

theorem Finishes.halts {f : Nat → Exec α} {a : α} (h : Finishes f a) : Halts f := by
  obtain ⟨n, hn⟩ := h
  exact ⟨n, by simp [hn]⟩

/-- More rounds never change a result. -/
def Stable (f : Nat → Exec α) : Prop := ∀ a n m, f n = done a → n ≤ m → f m = done a

theorem Finishes.unique {f : Nat → Exec α} (hf : Stable f) {a b : α} (ha : Finishes f a)
    (hb : Finishes f b) : a = b := by
  obtain ⟨n, hn⟩ := ha
  obtain ⟨m, hm⟩ := hb
  have h₁ := hf a n (max n m) hn (Nat.le_max_left n m)
  have h₂ := hf b m (max n m) hm (Nat.le_max_right n m)
  rw [h₁] at h₂
  exact done.inj h₂

/-! ## Loops without a known number of rounds -/

/-- Iterate `step` from `s` for at most the given number of rounds: a round either moves to a next
state or leaves the loop with a result. -/
def loop (step : σ → Exec (σ ⊕ β)) : σ → Nat → Exec β
  | _, 0 => running
  | s, n + 1 =>
    match step s with
    | done (.inl s') => loop step s' n
    | done (.inr b) => done b
    | fault => fault
    | running => running

section loop

variable {step : σ → Exec (σ ⊕ β)}

theorem loop_succ_of_next {s s' : σ} (h : step s = done (.inl s')) (n : Nat) :
    loop step s (n + 1) = loop step s' n := by
  rw [loop, h]

theorem loop_succ_of_exit {s : σ} {b : β} (h : step s = done (.inr b)) (n : Nat) :
    loop step s (n + 1) = done b := by
  rw [loop, h]

theorem loop_done_mono (s : σ) (b : β) (n m : Nat) (h : loop step s n = done b) (hnm : n ≤ m) :
    loop step s m = done b := by
  induction n generalizing s m with
  | zero => simp [loop] at h
  | succ n ih =>
    obtain ⟨m, rfl⟩ : ∃ k, m = k + 1 := ⟨m - 1, by omega⟩
    rw [loop] at h ⊢
    cases hs : step s with
    | done r =>
      rw [hs] at h
      cases r with
      | inl s' => exact ih s' m h (by omega)
      | inr b' => exact h
    | fault => rw [hs] at h; exact h
    | running => rw [hs] at h; exact h

theorem stable_loop (s : σ) : Stable (loop step s) := loop_done_mono s

theorem loop_invariant {I : σ → Prop} {Q : β → Prop} (hkeep : ∀ s s', I s → step s = done (.inl s') → I s')
    (hexit : ∀ s b, I s → step s = done (.inr b) → Q b) {s : σ} (hs : I s) {n : Nat} {b : β}
    (h : loop step s n = done b) : Q b := by
  induction n generalizing s with
  | zero => simp [loop] at h
  | succ n ih =>
    rw [loop] at h
    cases hround : step s with
    | done r =>
      rw [hround] at h
      cases r with
      | inl s' => exact ih (hkeep s s' hs hround) h
      | inr b' =>
        obtain rfl := done.inj h
        exact hexit s b' hs hround
    | fault => simp [hround] at h
    | running => simp [hround] at h

theorem loop_of_rounds {s : Nat → σ} {b : β} {n : Nat} (hnext : ∀ j < n, step (s j) = done (.inl (s (j + 1))))
    (hlast : step (s n) = done (.inr b)) : loop step (s 0) (n + 1) = done b := by
  induction n generalizing s with
  | zero => exact loop_succ_of_exit hlast 0
  | succ n ih =>
    have hfirst := hnext 0 (Nat.succ_pos n)
    have hrest := ih (s := fun j => s (j + 1)) (fun j hj => hnext (j + 1) (by omega)) hlast
    rw [loop_succ_of_next hfirst, hrest]

theorem loop_map {σ' β' : Type u} {step' : σ' → Exec (σ' ⊕ β')} {f : σ → σ'} {g : β → β'} {I : σ → Prop}
    (hstep : ∀ s, I s → step' (f s) = Sum.map f g <$> step s)
    (hkeep : ∀ s s', I s → step s = done (.inl s') → I s') {s : σ} (hs : I s) (n : Nat) :
    loop step' (f s) n = g <$> loop step s n := by
  induction n generalizing s with
  | zero => rfl
  | succ n ih =>
    have hround := hstep s hs
    rw [loop, loop, hround]
    cases hs' : step s with
    | done r =>
      cases r with
      | inl s' => exact ih (hkeep s s' hs hs')
      | inr b => rfl
    | fault => rfl
    | running => rfl

theorem finishes_loop_next {s s' : σ} (h : step s = done (.inl s')) {b : β} :
    Finishes (loop step s) b ↔ Finishes (loop step s') b := by
  constructor
  · rintro ⟨n, hn⟩
    cases n with
    | zero => simp [loop] at hn
    | succ n =>
      rw [loop_succ_of_next h] at hn
      exact ⟨n, hn⟩
  · rintro ⟨n, hn⟩
    exact ⟨n + 1, by rw [loop_succ_of_next h, hn]⟩

theorem finishes_loop_exit {s : σ} {b b' : β} (h : step s = done (.inr b)) :
    Finishes (loop step s) b' ↔ b = b' := by
  constructor
  · rintro ⟨n, hn⟩
    cases n with
    | zero => simp [loop] at hn
    | succ n =>
      rw [loop_succ_of_exit h] at hn
      exact done.inj hn
  · rintro rfl
    exact ⟨1, loop_succ_of_exit h 0⟩

theorem not_finishes_loop_of_fault {s : σ} (h : step s = fault) (b : β) :
    ¬ Finishes (loop step s) b := by
  rintro ⟨n, hn⟩
  cases n with
  | zero => simp [loop] at hn
  | succ n => simp [loop, h] at hn

theorem halts_loop_next {s s' : σ} (h : step s = done (.inl s')) :
    Halts (loop step s) ↔ Halts (loop step s') := by
  constructor
  · rintro ⟨n, hn⟩
    cases n with
    | zero => simp [loop] at hn
    | succ n =>
      rw [loop_succ_of_next h] at hn
      exact ⟨n, hn⟩
  · rintro ⟨n, hn⟩
    exact ⟨n + 1, by rwa [loop_succ_of_next h]⟩

theorem not_halts_loop_of_stuck {s : σ} (h : step s = done (.inl s)) : ¬ Halts (loop step s) := by
  rintro ⟨n, hn⟩
  induction n with
  | zero => simp [loop] at hn
  | succ n ih => exact ih (by rwa [loop_succ_of_next h] at hn)

end loop

/-! ## Loops with a known number of rounds -/

/-- `forRange body n i s` is `for (k = i; k < i + n; k++) s = body(k, s)`. -/
def forRange (body : Nat → σ → Exec σ) : Nat → Nat → σ → Exec σ
  | 0, _, s => done s
  | n + 1, i, s => body i s >>= forRange body n (i + 1)

theorem forRange_succ_last (body : Nat → σ → Exec σ) (n i : Nat) (s : σ) :
    forRange body (n + 1) i s = forRange body n i s >>= body (i + n) := by
  induction n generalizing i s with
  | zero =>
    rw [forRange, forRange, done_bind, Nat.add_zero]
    cases body i s <;> rfl
  | succ n ih =>
    rw [forRange, forRange]
    cases body i s with
    | done s' => rw [done_bind, done_bind, ih, Nat.add_right_comm, Nat.add_assoc]
    | fault => rfl
    | running => rfl

theorem forRange_append {f : α → List β} {body : Nat → List β → Exec (List β)} {xs : List α} {i : Nat}
    (h : ∀ k x s, xs[k]? = some x → body (i + k) s = done (s ++ f x)) (s : List β) :
    forRange body xs.length i s = done (s ++ xs.flatMap f) := by
  induction xs generalizing i s with
  | nil => rw [List.length_nil, forRange, List.flatMap_nil, List.append_nil]
  | cons x xs ih =>
    have hrest (k : Nat) (y : α) (s : List β) (hy : xs[k]? = some y) :
        body (i + 1 + k) s = done (s ++ f y) := by
      rw [Nat.add_right_comm i 1 k]
      exact h (k + 1) y s hy
    have hfirst : body i s = done (s ++ f x) := h 0 x s rfl
    rw [List.length_cons, forRange, hfirst, done_bind, ih hrest, List.flatMap_cons, List.append_assoc]

end Exec
