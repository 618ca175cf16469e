import Mathlib.Logic.Unique
import PwdManLib.Lib.Trace

/-!
# Executions that may end the process

A `Process ω α` is a `Trace` that can also be left for good, with an exit status: nothing behind an `exit`
is run. `Returns` and `Exits` say which of the two happens, and the rules for a sequence take it apart
(`returns_bind_iff`, `exits_bind_iff`, `mem_log_bind`).

Jobs that are run one behind the other under a common bound (`serial`) all return exactly when each of them
does on its own (`returns_serial_iff`). What one of them does, it does exactly when all the ones in front of
it return (`mem_log_serial_iff`).
-/

/-- A run that logs what it does, and ends the process or returns something. -/
def Process (ω α : Type) : Type := ExceptT Int (Trace ω) α

namespace Process

open Exec

variable {ω α β : Type}

instance : Monad (Process ω) := inferInstanceAs (Monad (ExceptT Int (Trace ω)))

instance : LawfulMonad (Process ω) := inferInstanceAs (LawfulMonad (ExceptT Int (Trace ω)))

/-- The run as a trace that ends with an exit status or a result. -/
def run (p : Process ω α) : Trace ω (Except Int α) := ExceptT.run p

/-- What the run has done. -/
def log (p : Process ω α) : List ω := p.run.sent

/-- End the process. -/
def exit (status : Int) : Process ω α := ExceptT.mk (pure (.error status))

/-- A part that does not end the process. -/
def lift (t : Trace ω α) : Process ω α := ExceptT.lift t

/-- Do one thing. -/
def call (e : ω) : Process ω Unit := lift (Trace.emit e)

/-- The run comes to its end with this result. -/
def Returns (p : Process ω α) (a : α) : Prop := p.run.next = done (.ok a)

/-- The run ends the process with this status. -/
def Exits (p : Process ω α) (status : Int) : Prop := p.run.next = done (.error status)

theorem run_pure (a : α) : run (pure a : Process ω α) = pure (.ok a) := rfl

theorem run_exit (status : Int) : run (exit status : Process ω α) = pure (.error status) := rfl

theorem run_lift (t : Trace ω α) : run (lift t) = Except.ok <$> t := rfl

theorem run_bind (x : Process ω α) (f : α → Process ω β) :
    run (x >>= f) = x.run >>= fun r =>
      match r with
      | .ok a => (f a).run
      | .error status => pure (.error status) := by
  refine (ExceptT.run_bind x f).trans (congrArg _ ?_)
  funext r
  cases r <;> rfl

@[simp] theorem log_pure (a : α) : log (pure a : Process ω α) = [] := rfl

@[simp] theorem log_exit (status : Int) : log (exit status : Process ω α) = [] := rfl

@[simp] theorem log_call (e : ω) : log (call e) = [e] := rfl

@[simp] theorem log_lift (t : Trace ω α) : log (lift t) = t.sent := by
  rw [log, run_lift, Trace.sent_map]

@[simp] theorem returns_pure_iff {a b : α} : Returns (pure a : Process ω α) b ↔ a = b := by
  rw [Returns, run_pure, Trace.next_pure, done.injEq, Except.ok.injEq]

@[simp] theorem not_exits_pure (a : α) (status : Int) : ¬ Exits (pure a : Process ω α) status := by
  rw [Exits, run_pure, Trace.next_pure]
  simp

@[simp] theorem not_returns_exit (status : Int) (a : α) : ¬ Returns (exit status : Process ω α) a := by
  rw [Returns, run_exit, Trace.next_pure]
  simp

@[simp] theorem exits_exit_iff {status status' : Int} :
    Exits (exit status : Process ω α) status' ↔ status = status' := by
  rw [Exits, run_exit, Trace.next_pure, done.injEq, Except.error.injEq]

@[simp] theorem returns_lift_iff {t : Trace ω α} {a : α} : Returns (lift t) a ↔ t.next = done a := by
  rw [Returns, run_lift, Trace.next_map]
  cases t.next <;> simp

@[simp] theorem not_exits_lift (t : Trace ω α) (status : Int) : ¬ Exits (lift t) status := by
  rw [Exits, run_lift, Trace.next_map]
  cases t.next <;> simp

theorem returns_call (e : ω) : Returns (call e) () := rfl

theorem not_exits_call (e : ω) (status : Int) : ¬ Exits (call e) status := not_exits_lift _ _

theorem Returns.unique {p : Process ω α} {a b : α} (ha : p.Returns a) (hb : p.Returns b) : a = b := by
  rw [Returns, ha, done.injEq, Except.ok.injEq] at hb
  exact hb

theorem Exits.unique {p : Process ω α} {status status' : Int} (h : p.Exits status) (h' : p.Exits status') :
    status = status' := by
  rw [Exits, h, done.injEq, Except.error.injEq] at h'
  exact h'

theorem Returns.not_exits {p : Process ω α} {a : α} (h : p.Returns a) (status : Int) : ¬ p.Exits status := by
  intro hexits
  rw [Exits, h] at hexits
  simp at hexits

/-! ## Sequences -/

theorem returns_bind_iff {x : Process ω α} {f : α → Process ω β} {b : β} :
    (x >>= f).Returns b ↔ ∃ a, x.Returns a ∧ (f a).Returns b := by
  rw [Returns, run_bind, Trace.next_bind, bind_eq_done]
  refine ⟨fun h => ?_, fun h => ?_⟩
  · obtain ⟨r, hr, hrest⟩ := h
    cases r with
    | ok a => exact ⟨a, hr, hrest⟩
    | error status => simp at hrest
  · obtain ⟨a, ha, hrest⟩ := h
    exact ⟨.ok a, ha, hrest⟩

theorem exits_bind_iff {x : Process ω α} {f : α → Process ω β} {status : Int} :
    (x >>= f).Exits status ↔ x.Exits status ∨ ∃ a, x.Returns a ∧ (f a).Exits status := by
  rw [Exits, run_bind, Trace.next_bind, bind_eq_done]
  refine ⟨fun h => ?_, fun h => ?_⟩
  · obtain ⟨r, hr, hrest⟩ := h
    cases r with
    | ok a => exact .inr ⟨a, hr, hrest⟩
    | error status' =>
      obtain rfl : status' = status := by simpa using hrest
      exact .inl hr
  · rcases h with h | ⟨a, ha, hrest⟩
    · exact ⟨.error status, h, rfl⟩
    · exact ⟨.ok a, ha, hrest⟩

theorem mem_log_bind {x : Process ω α} {f : α → Process ω β} {e : ω} :
    e ∈ (x >>= f).log ↔ e ∈ x.log ∨ ∃ a, x.Returns a ∧ e ∈ (f a).log := by
  rw [log, run_bind, Trace.mem_sent_bind]
  apply or_congr_right
  refine ⟨fun h => ?_, fun h => ?_⟩
  · obtain ⟨r, hr, he⟩ := h
    cases r with
    | ok a => exact ⟨a, hr, he⟩
    | error status => simp at he
  · obtain ⟨a, ha, he⟩ := h
    exact ⟨.ok a, ha, he⟩

theorem log_bind_of_returns {x : Process ω α} {a : α} (h : x.Returns a) (f : α → Process ω β) :
    (x >>= f).log = x.log ++ (f a).log := by
  rw [log, run_bind, Trace.bind_of_done h]
  rfl

theorem log_bind_of_not_returns {x : Process ω α} (h : ∀ a, ¬ x.Returns a) (f : α → Process ω β) :
    (x >>= f).log = x.log := by
  rw [log, run_bind]
  show (Trace.bind x.run _).sent = x.run.sent
  rw [Trace.bind]
  cases hx : x.run.next with
  | done r =>
    cases r with
    | ok a => exact absurd hx (h a)
    | error status => simp
  | fault => rfl
  | running => rfl

/-! ## Steps in front of a process -/

section steps

variable {e e' : ω} {c : Prop} [Decidable c] {fail p : Process ω Unit} {f : Unit → Process ω β} {b : β} {status : Int}

@[simp] theorem log_call_bind : (call e >>= f).log = e :: (f ()).log :=
  log_bind_of_returns (returns_call e) f

@[simp] theorem returns_call_bind_iff : (call e >>= f).Returns b ↔ (f ()).Returns b := by
  rw [returns_bind_iff, Unique.exists_iff]
  exact and_iff_right (returns_call e)

@[simp] theorem exits_call_bind_iff : (call e >>= f).Exits status ↔ (f ()).Exits status := by
  rw [exits_bind_iff, or_iff_right (not_exits_call e status), Unique.exists_iff]
  exact and_iff_right (returns_call e)

/-- `if (!c) fail`, for a `fail` that does not return. -/
def check (c : Prop) [Decidable c] (fail : Process ω Unit) : Process ω Unit := if c then pure () else fail

theorem check_of_pos (h : c) : check c fail = pure () := if_pos h

theorem check_of_neg (h : ¬ c) : check c fail = fail := if_neg h

theorem returns_check_iff (hfail : ∀ u, ¬ fail.Returns u) : (check c fail).Returns () ↔ c := by
  by_cases h : c
  · rw [check_of_pos h]
    exact iff_of_true rfl h
  · rw [check_of_neg h]
    exact iff_of_false (hfail ()) h

theorem exits_check_iff : (check c fail).Exits status ↔ ¬ c ∧ fail.Exits status := by
  by_cases h : c
  · rw [check_of_pos h]
    exact iff_of_false (not_exits_pure () status) fun hc => hc.1 h
  · rw [check_of_neg h, and_iff_right h]

theorem mem_log_check_iff : e ∈ (check c fail).log ↔ ¬ c ∧ e ∈ fail.log := by
  by_cases h : c
  · rw [check_of_pos h, log_pure]
    exact iff_of_false List.not_mem_nil fun hc => hc.1 h
  · rw [check_of_neg h, and_iff_right h]

theorem returns_check_bind_iff (hfail : ∀ u, ¬ fail.Returns u) :
    (check c fail >>= f).Returns b ↔ c ∧ (f ()).Returns b := by
  by_cases h : c
  · rw [check_of_pos h, pure_bind, and_iff_right h]
  · rw [check_of_neg h, returns_bind_iff]
    refine iff_of_false ?_ fun hc => h hc.1
    intro hret
    obtain ⟨u, hu, -⟩ := hret
    exact hfail u hu

theorem exits_check_bind_iff (hfail : ∀ u, ¬ fail.Returns u) :
    (check c fail >>= f).Exits status ↔ (¬ c ∧ fail.Exits status) ∨ c ∧ (f ()).Exits status := by
  by_cases h : c
  · rw [check_of_pos h, pure_bind]
    simp [h]
  · rw [check_of_neg h, exits_bind_iff, or_iff_left]
    · simp [h]
    · intro hret
      obtain ⟨u, hu, -⟩ := hret
      exact hfail u hu

theorem mem_log_check_bind_iff (hfail : ∀ u, ¬ fail.Returns u) :
    e ∈ (check c fail >>= f).log ↔ (¬ c ∧ e ∈ fail.log) ∨ c ∧ e ∈ (f ()).log := by
  by_cases h : c
  · rw [check_of_pos h, pure_bind]
    simp [h]
  · rw [check_of_neg h, log_bind_of_not_returns hfail]
    simp [h]

end steps

/-- A fault. -/
def crash : Process ω α := lift (Trace.lift fault)

@[simp] theorem log_crash : log (crash : Process ω α) = [] := rfl

@[simp] theorem not_returns_crash (a : α) : ¬ (crash : Process ω α).Returns a := by
  rw [crash, returns_lift_iff, Trace.next_lift]
  simp

@[simp] theorem not_exits_crash (status : Int) : ¬ (crash : Process ω α).Exits status :=
  not_exits_lift _ _

/-! ## Bounded runs -/

/-- More rounds only add to what the run does, and nothing once it has come to its end. -/
def Grows (p : Nat → Process ω α) : Prop := Trace.Grows fun n => (p n).run

/-- The run returns under some bound. -/
def Completes (p : Nat → Process ω α) (a : α) : Prop := ∃ n, (p n).Returns a

/-- The run ends the process under some bound. -/
def Ends (p : Nat → Process ω α) (status : Int) : Prop := ∃ n, (p n).Exits status

theorem grows_const (p : Process ω α) : Grows fun _ => p := Trace.grows_const p.run

theorem grows_lift {t : Nat → Trace ω α} (ht : Trace.Grows t) : Grows fun n => lift (t n) := by
  have hrun (n : Nat) : (lift (t n)).run = t n >>= fun a => pure (.ok a) := by
    rw [run_lift, map_eq_pure_bind]
  simp only [Grows, hrun]
  exact ht.bind fun a => Trace.grows_const _

theorem grows_rest {f : Nat → α → Process ω β} (hf : ∀ a, Grows fun n => f n a) (r : Except Int α) :
    Trace.Grows fun n =>
      match r with
      | .ok a => (f n a).run
      | .error status => pure (.error status) := by
  cases r with
  | ok a => exact hf a
  | error status => exact Trace.grows_const _

theorem Grows.bind {p : Nat → Process ω α} {f : Nat → α → Process ω β} (hp : Grows p)
    (hf : ∀ a, Grows fun n => f n a) : Grows fun n => p n >>= f n := by
  simp only [Grows, run_bind]
  exact Trace.Grows.bind hp (grows_rest hf)

theorem completes_bind_iff {p : Nat → Process ω α} {f : Nat → α → Process ω β} (hp : Grows p)
    (hf : ∀ a, Grows fun n => f n a) {b : β} :
    Completes (fun n => p n >>= f n) b ↔ ∃ a, Completes p a ∧ Completes (fun n => f n a) b := by
  have hrest := grows_rest hf
  simp only [Completes, Returns, run_bind]
  refine (Trace.finishes_bind_iff hp hrest).trans ?_
  refine ⟨fun h => ?_, fun h => ?_⟩
  · obtain ⟨r, hr, n, hn⟩ := h
    cases r with
    | ok a => exact ⟨a, hr, n, hn⟩
    | error status => simp at hn
  · obtain ⟨a, ha, hb⟩ := h
    exact ⟨.ok a, ha, hb⟩

theorem ends_bind_iff {p : Nat → Process ω α} {f : Nat → α → Process ω β} (hp : Grows p)
    (hf : ∀ a, Grows fun n => f n a) {status : Int} :
    Ends (fun n => p n >>= f n) status ↔
      Ends p status ∨ ∃ a, Completes p a ∧ Ends (fun n => f n a) status := by
  have hrest := grows_rest hf
  simp only [Ends, Exits, run_bind]
  refine (Trace.finishes_bind_iff hp hrest).trans ?_
  refine ⟨fun h => ?_, fun h => ?_⟩
  · obtain ⟨r, hr, n, hn⟩ := h
    cases r with
    | ok a => exact .inr ⟨a, hr, n, hn⟩
    | error status' =>
      obtain rfl : status' = status := by simpa using hn
      exact .inl hr
  · rcases h with h | ⟨a, ha, hend⟩
    · exact ⟨.error status, h, 0, rfl⟩
    · exact ⟨.ok a, ha, hend⟩

theorem exists_mem_log_bind_iff {p : Nat → Process ω α} {f : Nat → α → Process ω β} (hp : Grows p)
    (hf : ∀ a, Grows fun n => f n a) {e : ω} :
    (∃ n, e ∈ (p n >>= f n).log) ↔
      (∃ n, e ∈ (p n).log) ∨ ∃ a, Completes p a ∧ ∃ n, e ∈ (f n a).log := by
  have hrest := grows_rest hf
  simp only [log, run_bind]
  refine (Trace.exists_mem_sent_bind_iff hp hrest).trans (or_congr_right ?_)
  refine ⟨fun h => ?_, fun h => ?_⟩
  · obtain ⟨r, hr, n, hn⟩ := h
    cases r with
    | ok a => exact ⟨a, hr, n, hn⟩
    | error status => simp at hn
  · obtain ⟨a, ha, he⟩ := h
    exact ⟨.ok a, ha, he⟩

/-! ## Jobs one behind the other -/

/-- Run the jobs in order. -/
def serial : List (Nat → Process ω Unit) → Nat → Process ω Unit
  | [], _ => pure ()
  | job :: jobs, n => job n >>= fun _ => serial jobs n

section serial

variable {jobs : List (Nat → Process ω Unit)} (hjobs : ∀ job ∈ jobs, Grows job)

include hjobs

theorem grows_serial : Grows (serial jobs) := by
  induction jobs with
  | nil => exact grows_const _
  | cons job jobs ih =>
    obtain ⟨hjob, hrest⟩ := List.forall_mem_cons.mp hjobs
    exact hjob.bind fun _ => ih hrest

/-- **All jobs return** exactly when each of them does. -/
theorem completes_serial_iff : Completes (serial jobs) () ↔ ∀ job ∈ jobs, Completes job () := by
  induction jobs with
  | nil => exact iff_of_true ⟨0, rfl⟩ (by simp)
  | cons job jobs ih =>
    obtain ⟨hjob, hrest⟩ := List.forall_mem_cons.mp hjobs
    have hseq := completes_bind_iff (b := ()) hjob fun _ => grows_serial hrest
    rw [List.forall_mem_cons, ← ih hrest]
    exact hseq.trans Unique.exists_iff

/-- The job with index `k` is run once the ones in front of it have returned. -/
def Reached (jobs : List (Nat → Process ω Unit)) (k : Nat) : Prop :=
  ∀ j < k, ∀ job, jobs[j]? = some job → Completes job ()

omit hjobs in
theorem reached_cons_iff {job : Nat → Process ω Unit} {k : Nat} :
    Reached (job :: jobs) (k + 1) ↔ Completes job () ∧ Reached jobs k := by
  constructor
  · intro h
    refine ⟨h 0 (Nat.succ_pos k) job rfl, fun j hj job' hjob' => ?_⟩
    exact h (j + 1) (Nat.succ_lt_succ hj) job' hjob'
  · intro h j hj job' hjob'
    obtain ⟨hjob, hrest⟩ := h
    cases j with
    | zero =>
      obtain rfl := Option.some.inj hjob'
      exact hjob
    | succ j => exact hrest j (Nat.lt_of_succ_lt_succ hj) job' hjob'

omit hjobs in
theorem exists_reached_cons_iff {job : Nat → Process ω Unit} {P : (Nat → Process ω Unit) → Prop} :
    (∃ k job', (job :: jobs)[k]? = some job' ∧ Reached (job :: jobs) k ∧ P job') ↔
      P job ∨ Completes job () ∧ ∃ k job', jobs[k]? = some job' ∧ Reached jobs k ∧ P job' := by
  refine ⟨fun h => ?_, fun h => ?_⟩
  · obtain ⟨k, job', hget, hreached, hP⟩ := h
    cases k with
    | zero =>
      obtain rfl := Option.some.inj hget
      exact .inl hP
    | succ k =>
      obtain ⟨hjob, hrest⟩ := reached_cons_iff.mp hreached
      exact .inr ⟨hjob, k, job', hget, hrest, hP⟩
  · rcases h with hP | ⟨hjob, k, job', hget, hrest, hP⟩
    · exact ⟨0, job, rfl, fun j hj => absurd hj (Nat.not_lt_zero j), hP⟩
    · exact ⟨k + 1, job', hget, reached_cons_iff.mpr ⟨hjob, hrest⟩, hP⟩

/-- **What a job does is done** exactly when it is reached. -/
theorem mem_log_serial_iff {e : ω} :
    (∃ n, e ∈ (serial jobs n).log) ↔
      ∃ k job, jobs[k]? = some job ∧ Reached jobs k ∧ ∃ n, e ∈ (job n).log := by
  induction jobs with
  | nil => simp [serial]
  | cons job jobs ih =>
    obtain ⟨hjob, hrest⟩ := List.forall_mem_cons.mp hjobs
    rw [exists_reached_cons_iff (P := fun job => ∃ n, e ∈ (job n).log), ← ih hrest]
    exact (exists_mem_log_bind_iff hjob fun _ => grows_serial hrest).trans (or_congr_right Unique.exists_iff)

/-- **A job ends the process** exactly when it is reached. -/
theorem ends_serial_iff {status : Int} :
    Ends (serial jobs) status ↔
      ∃ k job, jobs[k]? = some job ∧ Reached jobs k ∧ Ends job status := by
  induction jobs with
  | nil => simp [serial, Ends]
  | cons job jobs ih =>
    obtain ⟨hjob, hrest⟩ := List.forall_mem_cons.mp hjobs
    rw [exists_reached_cons_iff (P := fun job => Ends job status), ← ih hrest]
    exact (ends_bind_iff hjob fun _ => grows_serial hrest).trans (or_congr_right Unique.exists_iff)

omit hjobs in
theorem serial_const (h : ∀ job ∈ jobs, ∀ n, job n = job 0) (n : Nat) : serial jobs n = serial jobs 0 := by
  induction jobs with
  | nil => rfl
  | cons job jobs ih =>
    obtain ⟨hjob, hrest⟩ := List.forall_mem_cons.mp h
    rw [serial, serial, hjob n, ih hrest]

omit hjobs in
theorem returns_serial_iff {n : Nat} : (serial jobs n).Returns () ↔ ∀ job ∈ jobs, (job n).Returns () := by
  induction jobs with
  | nil => exact iff_of_true (returns_pure_iff.mpr rfl) (by simp)
  | cons job jobs ih =>
    rw [List.forall_mem_cons, ← ih, serial, returns_bind_iff]
    exact Unique.exists_iff

omit hjobs in
theorem log_serial_of_returns {n : Nat} (h : (serial jobs n).Returns ()) :
    (serial jobs n).log = jobs.flatMap fun job => (job n).log := by
  induction jobs with
  | nil => rfl
  | cons job jobs ih =>
    obtain ⟨⟨⟩, hjob, hrest⟩ := returns_bind_iff.mp h
    rw [List.flatMap_cons, ← ih hrest]
    exact log_bind_of_returns hjob _

end serial

end Process
