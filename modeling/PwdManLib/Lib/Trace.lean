import Mathlib.Logic.Relation
import PwdManLib.Lib.Exec

/-!
# Executions that send

A `Trace ω α` is an execution together with what it has sent so far. What was sent stays sent when the
execution faults later or never ends, so "this run sends `o`" is `o ∈ t.sent` and does not ask for a
result. `mem_sent_bind` says where the output of a sequence comes from, `mem_sent_loop_iff` where that
of a loop comes from, in terms of the states the loop goes through (`Reaches`). An execution that has
ended under some bound is the same under every larger one (`Stable`), and one that has not only sends more
(`Grows`). An execution that sends what it is
about to rely on ends exactly when all of it is good (`Tells`).
-/

/-- What has been sent, and how the execution goes on from there. -/
structure Trace (ω α : Type) where
  sent : List ω
  next : Exec α

namespace Trace

open Exec

variable {ω α β σ : Type}

/-- Run `x`, then `f` on its result. -/
def bind (x : Trace ω α) (f : α → Trace ω β) : Trace ω β :=
  match x.next with
  | done a => { sent := x.sent ++ (f a).sent, next := (f a).next }
  | fault => { sent := x.sent, next := fault }
  | running => { sent := x.sent, next := running }

instance : Monad (Trace ω) where
  pure a := { sent := [], next := done a }
  bind := bind

/-- Send one item. -/
def emit (o : ω) : Trace ω Unit := { sent := [o], next := done () }

/-- An execution that sends nothing. -/
def lift (x : Exec α) : Trace ω α := { sent := [], next := x }

@[simp] theorem sent_pure (a : α) : (pure a : Trace ω α).sent = [] := rfl

@[simp] theorem next_pure (a : α) : (pure a : Trace ω α).next = done a := rfl

@[simp] theorem sent_emit (o : ω) : (emit o).sent = [o] := rfl

@[simp] theorem next_emit (o : ω) : (emit o).next = done () := rfl

@[simp] theorem sent_lift (x : Exec α) : (lift x : Trace ω α).sent = [] := rfl

@[simp] theorem next_lift (x : Exec α) : (lift x : Trace ω α).next = x := rfl

@[simp] theorem next_bind (x : Trace ω α) (f : α → Trace ω β) :
    (x >>= f).next = x.next >>= fun a => (f a).next := by
  show (bind x f).next = _
  rw [bind]
  cases x.next <;> rfl

theorem bind_of_done {x : Trace ω α} {a : α} (h : x.next = done a) (f : α → Trace ω β) :
    x >>= f = { sent := x.sent ++ (f a).sent, next := (f a).next } := by
  show bind x f = _
  rw [bind, h]

@[simp] theorem mk_bind (os : List ω) (a : α) (f : α → Trace ω β) :
    ({ sent := os, next := done a } : Trace ω α) >>= f =
      { sent := os ++ (f a).sent, next := (f a).next } := rfl

instance : LawfulMonad (Trace ω) :=
  LawfulMonad.mk' (Trace ω)
    (fun {α} x => by
      show bind x pure = x
      obtain ⟨sent, next⟩ := x
      cases next with
      | done a => simp [bind]
      | fault => rfl
      | running => rfl)
    (fun {α β} a f => by
      show bind (pure a) f = f a
      rw [bind, next_pure]
      rfl)
    (fun {α β γ} x f g => by
      show bind (bind x f) g = bind x fun a => bind (f a) g
      cases hx : x.next with
      | done a =>
        simp only [bind, hx]
        cases (f a).next <;> simp
      | fault => simp only [bind, hx]
      | running => simp only [bind, hx])

@[simp] theorem sent_emit_bind (o : ω) (f : Unit → Trace ω β) :
    (emit o >>= f).sent = o :: (f ()).sent := rfl

@[simp] theorem sent_map (f : α → β) (x : Trace ω α) : (f <$> x).sent = x.sent := by
  rw [map_eq_pure_bind]
  show (bind x fun a => pure (f a)).sent = _
  rw [bind]
  cases x.next <;> simp

@[simp] theorem next_map (f : α → β) (x : Trace ω α) : (f <$> x).next = f <$> x.next := by
  rw [map_eq_pure_bind, next_bind]
  cases x.next <;> rfl

theorem mapM_of_done {f : α → Trace ω β} {g : α → β} (h : ∀ a, (f a).next = done (g a)) (l : List α) :
    l.mapM f = { sent := l.flatMap fun a => (f a).sent, next := done (l.map g) } := by
  induction l with
  | nil => rfl
  | cons a l ih =>
    have hrest : (l.mapM f).next = done (l.map g) := by rw [ih]
    rw [List.mapM_cons, bind_of_done (h a), bind_of_done hrest, ih]
    simp

theorem forM_of_done {f : α → Trace ω Unit} (h : ∀ a, (f a).next = done ()) (l : List α) :
    forM l f = { sent := l.flatMap fun a => (f a).sent, next := done () } := by
  induction l with
  | nil => rfl
  | cons a l ih =>
    rw [List.forM_cons, bind_of_done (h a), ih]
    rfl

theorem mem_sent_bind {x : Trace ω α} {f : α → Trace ω β} {o : ω} :
    o ∈ (x >>= f).sent ↔ o ∈ x.sent ∨ ∃ a, x.next = done a ∧ o ∈ (f a).sent := by
  show o ∈ (bind x f).sent ↔ _
  rw [bind]
  cases x.next <;> simp

theorem forall_sent_bind_iff {P : ω → Prop} {x : Trace ω α} {f : α → Trace ω β} :
    (∀ o ∈ (x >>= f).sent, P o) ↔
      (∀ o ∈ x.sent, P o) ∧ ∀ a, x.next = done a → ∀ o ∈ (f a).sent, P o := by
  constructor
  · intro h
    refine ⟨fun o ho => h o (mem_sent_bind.mpr (.inl ho)), fun a ha o ho => ?_⟩
    exact h o (mem_sent_bind.mpr (.inr ⟨a, ha, ho⟩))
  · rintro ⟨hx, hf⟩ o ho
    rcases mem_sent_bind.mp ho with ho | ⟨a, ha, ho⟩
    · exact hx o ho
    · exact hf a ha o ho

/-! ## Executions that tell what stops them -/

/-- The execution ends exactly when everything it has sent is good. -/
def Tells (P : ω → Prop) (x : Trace ω α) : Prop := (∀ o ∈ x.sent, P o) ↔ ∃ a, x.next = done a

theorem tells_pure {P : ω → Prop} (a : α) : Tells P (pure a : Trace ω α) := by
  refine iff_of_true ?_ ⟨a, rfl⟩
  simp

theorem tells_emit {P : ω → Prop} {o : ω} (h : P o) : Tells P (emit o) := by
  refine iff_of_true ?_ ⟨(), rfl⟩
  simpa using h

theorem Tells.bind {P : ω → Prop} {x : Trace ω α} {f : α → Trace ω β} (hx : Tells P x)
    (hf : ∀ a, Tells P (f a)) : Tells P (x >>= f) := by
  rw [Tells, forall_sent_bind_iff, next_bind]
  constructor
  · intro h
    obtain ⟨hsent, hrest⟩ := h
    obtain ⟨a, ha⟩ := hx.mp hsent
    rw [ha, done_bind]
    exact (hf a).mp (hrest a ha)
  · intro h
    obtain ⟨b, hb⟩ := h
    obtain ⟨a, ha, hfa⟩ := bind_eq_done.mp hb
    refine ⟨hx.mpr ⟨a, ha⟩, fun a' ha' => ?_⟩
    obtain rfl := done.inj (ha.symm.trans ha')
    exact (hf a).mpr ⟨b, hfa⟩

/-! ## Renaming what is sent -/

/-- The same execution, with a name for everything it sends. -/
def mapSent {ω' : Type} (f : ω → ω') (x : Trace ω α) : Trace ω' α := { sent := x.sent.map f, next := x.next }

@[simp] theorem sent_mapSent {ω' : Type} (f : ω → ω') (x : Trace ω α) : (x.mapSent f).sent = x.sent.map f := rfl

@[simp] theorem next_mapSent {ω' : Type} (f : ω → ω') (x : Trace ω α) : (x.mapSent f).next = x.next := rfl

/-! ## Loops with a known number of rounds -/

/-- `forRange body n i s` is `for (k = i; k < i + n; k++) s = body(k, s)`. -/
def forRange (body : Nat → σ → Trace ω σ) : Nat → Nat → σ → Trace ω σ
  | 0, _, s => pure s
  | n + 1, i, s => body i s >>= forRange body n (i + 1)

theorem next_forRange (body : Nat → σ → Trace ω σ) (n i : Nat) (s : σ) :
    (forRange body n i s).next = Exec.forRange (fun i s => (body i s).next) n i s := by
  induction n generalizing i s with
  | zero => rfl
  | succ n ih => simp only [forRange, Exec.forRange, next_bind, ih]

theorem tells_forRange {P : ω → Prop} {body : Nat → σ → Trace ω σ} (h : ∀ i s, Tells P (body i s))
    (n i : Nat) (s : σ) : Tells P (forRange body n i s) := by
  induction n generalizing i s with
  | zero => exact tells_pure s
  | succ n ih => exact (h i s).bind fun s' => ih (i + 1) s'

/-! ## Loops -/

/-- Iterate `step` for at most the given number of rounds. -/
def loop (step : σ → Trace ω (σ ⊕ β)) : σ → Nat → Trace ω β
  | _, 0 => { sent := [], next := running }
  | s, n + 1 => do
    match ← step s with
    | .inl s' => loop step s' n
    | .inr b => pure b

theorem loop_succ_of_next {step : σ → Trace ω (σ ⊕ β)} {s s' : σ} {os : List ω}
    (h : step s = { sent := os, next := done (.inl s') }) (n : Nat) :
    loop step s (n + 1) = { sent := os ++ (loop step s' n).sent, next := (loop step s' n).next } := by
  rw [loop, h, mk_bind]

theorem loop_succ_of_exit {step : σ → Trace ω (σ ⊕ β)} {s : σ} {b : β} {os : List ω}
    (h : step s = { sent := os, next := done (.inr b) }) (n : Nat) :
    loop step s (n + 1) = { sent := os, next := done b } := by
  rw [loop, h, mk_bind]
  simp

theorem loop_of_rounds {step : σ → Trace ω (σ ⊕ β)} {s : Nat → σ} {o : Nat → ω} {os : List ω} {b : β} {n : Nat}
    (hnext : ∀ j < n, step (s j) = { sent := [o j], next := done (.inl (s (j + 1))) })
    (hlast : step (s n) = { sent := os, next := done (.inr b) }) :
    loop step (s 0) (n + 1) = { sent := (List.range n).map o ++ os, next := done b } := by
  induction n generalizing s o with
  | zero => exact loop_succ_of_exit hlast 0
  | succ n ih =>
    have hfirst := hnext 0 (Nat.succ_pos n)
    have hrest := ih (s := fun j => s (j + 1)) (o := fun j => o (j + 1)) (fun j hj => hnext (j + 1) (by omega)) hlast
    rw [loop_succ_of_next hfirst, hrest, List.range_succ_eq_map, List.map_cons, List.map_map]
    rfl

theorem next_loop (step : σ → Trace ω (σ ⊕ β)) (s : σ) (n : Nat) :
    (loop step s n).next = Exec.loop (fun s => (step s).next) s n := by
  induction n generalizing s with
  | zero => rfl
  | succ n ih =>
    rw [loop, next_bind, Exec.loop]
    cases (step s).next with
    | fault => rfl
    | running => rfl
    | done r =>
      cases r with
      | inl s' => exact ih s'
      | inr b => rfl

/-- A round leads from `s` to `s'`. -/
def Next (step : σ → Trace ω (σ ⊕ β)) (s s' : σ) : Prop := (step s).next = done (.inl s')

/-- Some rounds lead from `s` to `s'`. -/
def Reaches (step : σ → Trace ω (σ ⊕ β)) : σ → σ → Prop := Relation.ReflTransGen (Next step)

theorem Reaches.invariant {step : σ → Trace ω (σ ⊕ β)} {I : σ → Prop}
    (hstep : ∀ s s', I s → Next step s s' → I s') {s s' : σ} (h : Reaches step s s') (hs : I s) :
    I s' := by
  induction h with
  | refl => exact hs
  | tail _ hnext ih => exact hstep _ _ ih hnext

/-- **What a loop sends under some bound** is what a round sends in some state of the loop. -/
theorem mem_sent_loop_iff {step : σ → Trace ω (σ ⊕ β)} {s : σ} {o : ω} :
    (∃ n, o ∈ (loop step s n).sent) ↔ ∃ s', Reaches step s s' ∧ o ∈ (step s').sent := by
  constructor
  · intro h
    obtain ⟨n, ho⟩ := h
    induction n generalizing s with
    | zero => simp [loop] at ho
    | succ n ih =>
      rw [loop, mem_sent_bind] at ho
      rcases ho with ho | ⟨r, hr, ho⟩
      · exact ⟨s, .refl, ho⟩
      · cases r with
        | inl s' =>
          obtain ⟨s'', hreach, ho'⟩ := ih ho
          exact ⟨s'', .head hr hreach, ho'⟩
        | inr b => simp at ho
  · intro h
    obtain ⟨s', hreach, ho⟩ := h
    induction hreach using Relation.ReflTransGen.head_induction_on with
    | refl => exact ⟨1, by rw [loop, mem_sent_bind]; exact .inl ho⟩
    | head hnext _ ih =>
      obtain ⟨n, hn⟩ := ih
      exact ⟨n + 1, by rw [loop, mem_sent_bind]; exact .inr ⟨_, hnext, hn⟩⟩

theorem forall_sent_loop {P : ω → Prop} {step : σ → Trace ω (σ ⊕ β)}
    (hstep : ∀ s, ∀ o ∈ (step s).sent, P o) (s : σ) (n : Nat) : ∀ o ∈ (loop step s n).sent, P o := by
  intro o ho
  obtain ⟨s', -, ho'⟩ := mem_sent_loop_iff.mp ⟨n, ho⟩
  exact hstep s' o ho'

/-! ## Bounded executions that have ended -/

/-- More rounds neither change the result of an ended execution nor what it has sent. -/
def Stable (t : Nat → Trace ω α) : Prop := ∀ a n m, (t n).next = done a → n ≤ m → t m = t n

theorem Stable.next {t : Nat → Trace ω α} (ht : Stable t) : Exec.Stable fun n => (t n).next := by
  intro a n m hn hnm
  show (t m).next = done a
  rw [ht a n m hn hnm]
  exact hn

theorem Stable.eq_of_done {t : Nat → Trace ω α} (ht : Stable t) {a b : α} {n m : Nat}
    (hn : (t n).next = done a) (hm : (t m).next = done b) : t n = t m := by
  have hn' := ht a n (max n m) hn (Nat.le_max_left n m)
  have hm' := ht b m (max n m) hm (Nat.le_max_right n m)
  rw [← hn', hm']

theorem stable_const (x : Trace ω α) : Stable fun _ => x := fun _ _ _ _ _ => rfl

theorem Stable.bind {t : Nat → Trace ω α} {f : Nat → α → Trace ω β} (ht : Stable t)
    (hf : ∀ a, Stable fun n => f n a) : Stable fun n => t n >>= f n := by
  intro b n m hn hnm
  simp only [next_bind, bind_eq_done] at hn
  obtain ⟨a, ha, hb⟩ := hn
  have hm : (t m).next = done a := by rw [ht a n m ha hnm, ha]
  have hfm : f m a = f n a := hf a b n m hb hnm
  show t m >>= f m = t n >>= f n
  rw [bind_of_done ha, bind_of_done hm, ht a n m ha hnm, hfm]

theorem stable_loop (step : σ → Trace ω (σ ⊕ β)) (s : σ) : Stable (loop step s) := by
  intro b n
  induction n generalizing s with
  | zero => intro m h; simp [loop] at h
  | succ n ih =>
    intro m h hnm
    obtain ⟨m, rfl⟩ : ∃ k, m = k + 1 := ⟨m - 1, by omega⟩
    rw [loop, next_bind, bind_eq_done] at h
    obtain ⟨r, hr, hrest⟩ := h
    rw [loop, loop, bind_of_done hr, bind_of_done hr]
    cases r with
    | inl s' =>
      have hm : loop step s' m = loop step s' n := ih s' m hrest (by omega)
      simp only [hm]
    | inr b' => rfl

/-! ## Bounded executions that go on -/

/-- More rounds only add to what is sent, and nothing at all once the execution has ended. -/
def Grows (t : Nat → Trace ω α) : Prop :=
  ∀ n m, n ≤ m → (t n).sent <+: (t m).sent ∧ ∀ a, (t n).next = done a → t m = t n

theorem Grows.stable {t : Nat → Trace ω α} (ht : Grows t) : Stable t :=
  fun a n m hn hnm => (ht n m hnm).2 a hn

theorem Grows.mem_sent {t : Nat → Trace ω α} (ht : Grows t) {o : ω} {n m : Nat} (ho : o ∈ (t n).sent)
    (hnm : n ≤ m) : o ∈ (t m).sent :=
  (ht n m hnm).1.subset ho

theorem grows_const (x : Trace ω α) : Grows fun _ => x :=
  fun _ _ _ => ⟨List.prefix_refl _, fun _ _ => rfl⟩

theorem grows_lift {x : Nat → Exec α} (hx : Exec.Stable x) : Grows fun n => (lift (x n) : Trace ω α) := by
  intro n m hnm
  refine ⟨List.prefix_refl _, ?_⟩
  intro a hn
  show lift (x m) = lift (x n)
  rw [hx a n m hn hnm, show x n = done a from hn]

theorem Grows.mapSent {ω' : Type} {t : Nat → Trace ω α} (ht : Grows t) (f : ω → ω') :
    Grows fun n => (t n).mapSent f := by
  intro n m hnm
  obtain ⟨hbegins, hdone⟩ := ht n m hnm
  refine ⟨hbegins.map f, ?_⟩
  intro a hn
  show (t m).mapSent f = (t n).mapSent f
  rw [hdone a hn]

theorem sent_prefix_bind (x : Trace ω α) (f : α → Trace ω β) : x.sent <+: (x >>= f).sent := by
  show x.sent <+: (bind x f).sent
  rw [bind]
  cases x.next with
  | done a => exact List.prefix_append _ _
  | fault => exact List.prefix_refl _
  | running => exact List.prefix_refl _

theorem sent_bind_of_not_done {x : Trace ω α} (h : ∀ a, x.next ≠ done a) (f : α → Trace ω β) :
    (x >>= f).sent = x.sent := by
  show (bind x f).sent = x.sent
  rw [bind]
  cases hx : x.next with
  | done a => exact absurd hx (h a)
  | fault => rfl
  | running => rfl

theorem Grows.bind {t : Nat → Trace ω α} {f : Nat → α → Trace ω β} (ht : Grows t)
    (hf : ∀ a, Grows fun n => f n a) : Grows fun n => t n >>= f n := by
  intro n m hnm
  have hstable : Stable fun n => t n >>= f n := ht.stable.bind fun a => (hf a).stable
  refine ⟨?_, fun b hn => hstable b n m hn hnm⟩
  show (t n >>= f n).sent <+: (t m >>= f m).sent
  by_cases hdone : ∃ a, (t n).next = done a
  · obtain ⟨a, ha⟩ := hdone
    have hm : t m = t n := (ht n m hnm).2 a ha
    rw [hm, bind_of_done ha, bind_of_done ha]
    apply (List.prefix_append_right_inj _).mpr
    exact (hf a n m hnm).1
  · have hrunning : ∀ a, (t n).next ≠ done a := fun a ha => hdone ⟨a, ha⟩
    rw [sent_bind_of_not_done hrunning]
    exact (ht n m hnm).1.trans (sent_prefix_bind _ _)

theorem grows_loop (step : σ → Trace ω (σ ⊕ β)) (s : σ) : Grows (loop step s) := by
  intro n m hnm
  refine ⟨?_, fun b hn => stable_loop step s b n m hn hnm⟩
  induction n generalizing s m with
  | zero => exact List.nil_prefix
  | succ n ih =>
    obtain ⟨m, rfl⟩ : ∃ k, m = k + 1 := ⟨m - 1, by omega⟩
    rw [loop, loop]
    by_cases hdone : ∃ r, (step s).next = done r
    · obtain ⟨r, hr⟩ := hdone
      rw [bind_of_done hr, bind_of_done hr]
      apply (List.prefix_append_right_inj _).mpr
      cases r with
      | inl s' => exact ih s' m (by omega)
      | inr b => exact List.prefix_refl _
    · have hrunning : ∀ r, (step s).next ≠ done r := fun r hr => hdone ⟨r, hr⟩
      rw [sent_bind_of_not_done hrunning]
      exact sent_prefix_bind _ _

theorem finishes_bind_iff {t : Nat → Trace ω α} {f : Nat → α → Trace ω β} (ht : Grows t)
    (hf : ∀ a, Grows fun n => f n a) {b : β} :
    Finishes (fun n => (t n >>= f n).next) b ↔
      ∃ a, Finishes (fun n => (t n).next) a ∧ Finishes (fun n => (f n a).next) b := by
  constructor
  · intro h
    obtain ⟨n, hn⟩ := h
    simp only [next_bind, bind_eq_done] at hn
    obtain ⟨a, ha, hb⟩ := hn
    exact ⟨a, ⟨n, ha⟩, n, hb⟩
  · intro h
    obtain ⟨a, ⟨n, hn⟩, m, hm⟩ := h
    have hn' : (t (max n m)).next = done a := ht.stable.next a n _ hn (Nat.le_max_left n m)
    have hm' : (f (max n m) a).next = done b := (hf a).stable.next b m _ hm (Nat.le_max_right n m)
    refine ⟨max n m, ?_⟩
    simp only [next_bind, bind_eq_done]
    exact ⟨a, hn', hm'⟩

theorem exists_mem_sent_bind_iff {t : Nat → Trace ω α} {f : Nat → α → Trace ω β} (ht : Grows t)
    (hf : ∀ a, Grows fun n => f n a) {o : ω} :
    (∃ n, o ∈ (t n >>= f n).sent) ↔
      (∃ n, o ∈ (t n).sent) ∨ ∃ a, Finishes (fun n => (t n).next) a ∧ ∃ n, o ∈ (f n a).sent := by
  constructor
  · intro h
    obtain ⟨n, hn⟩ := h
    rcases mem_sent_bind.mp hn with ho | ⟨a, ha, ho⟩
    · exact .inl ⟨n, ho⟩
    · exact .inr ⟨a, ⟨n, ha⟩, n, ho⟩
  · intro h
    rcases h with ⟨n, ho⟩ | ⟨a, ⟨n, hn⟩, m, ho⟩
    · exact ⟨n, mem_sent_bind.mpr (.inl ho)⟩
    · have hn' : (t (max n m)).next = done a := ht.stable.next a n _ hn (Nat.le_max_left n m)
      have ho' := (hf a).mem_sent ho (Nat.le_max_right n m)
      exact ⟨max n m, mem_sent_bind.mpr (.inr ⟨a, hn', ho'⟩)⟩

end Trace
