import PwdManLib.Lib.Process

/-!
# Watching what a process does

A `Monitor` follows the log of a process with a state of its own and says of each thing done whether it is
allowed at that point. `m.Triple s p Q R` is a triple for it: from state `s` on everything `p` does is
allowed, and the monitor is left in a state that satisfies `Q` where `p` returns and `R` where it ends the
process. A process that faults or does not end has to do what is allowed as far as it comes. The rules follow
the process (`triple_bind`, `triple_call`, `triple_serial`), and `Accepts.of_append` reads a triple off at
any point of the log.
-/

/-- A state that follows what is done, and what may be done in it. -/
structure Monitor (σ ω : Type) where
  next : σ → ω → σ
  Allowed : σ → ω → Prop

namespace Monitor

variable {σ ω α β : Type} (m : Monitor σ ω)

/-- The state behind a log. -/
def after (s : σ) (es : List ω) : σ := es.foldl m.next s

/-- Everything in the log is allowed when it comes. -/
def Accepts : σ → List ω → Prop
  | _, [] => True
  | s, e :: es => m.Allowed s e ∧ Accepts (m.next s e) es

@[simp] theorem after_nil (s : σ) : m.after s [] = s := rfl

@[simp] theorem after_cons (s : σ) (e : ω) (es : List ω) :
    m.after s (e :: es) = m.after (m.next s e) es := rfl

theorem after_append (s : σ) (es es' : List ω) :
    m.after s (es ++ es') = m.after (m.after s es) es' := List.foldl_append

@[simp] theorem accepts_nil (s : σ) : m.Accepts s [] := trivial

@[simp] theorem accepts_cons {s : σ} {e : ω} {es : List ω} :
    m.Accepts s (e :: es) ↔ m.Allowed s e ∧ m.Accepts (m.next s e) es := Iff.rfl

theorem accepts_append {s : σ} {es es' : List ω} :
    m.Accepts s (es ++ es') ↔ m.Accepts s es ∧ m.Accepts (m.after s es) es' := by
  induction es generalizing s with
  | nil => simp
  | cons e es ih => rw [List.cons_append, accepts_cons, accepts_cons, ih, after_cons, and_assoc]

variable {m}

theorem Accepts.of_append {s : σ} {front back : List ω} {e : ω} (h : m.Accepts s (front ++ e :: back)) :
    m.Allowed (m.after s front) e := by
  obtain ⟨-, he⟩ := m.accepts_append.mp h
  exact (m.accepts_cons.mp he).1

theorem Accepts.invariant {I : σ → Prop} (hstep : ∀ s e, I s → m.Allowed s e → I (m.next s e)) {s : σ}
    {es : List ω} (h : m.Accepts s es) (hs : I s) : I (m.after s es) := by
  induction es generalizing s with
  | nil => exact hs
  | cons e es ih =>
    obtain ⟨he, hes⟩ := m.accepts_cons.mp h
    exact ih hes (hstep s e hs he)

theorem accepts_of_forall {I : σ → Prop} {s : σ} {l : List ω} (hs : I s)
    (h : ∀ e ∈ l, ∀ s, I s → m.Allowed s e ∧ I (m.next s e)) :
    m.Accepts s l ∧ I (m.after s l) := by
  induction l generalizing s with
  | nil => exact ⟨trivial, hs⟩
  | cons e l ih =>
    obtain ⟨he, hrest⟩ := List.forall_mem_cons.mp h
    obtain ⟨hallowed, hnext⟩ := he s hs
    obtain ⟨haccepts, hafter⟩ := ih hnext hrest
    exact ⟨⟨hallowed, haccepts⟩, hafter⟩

/-! ## The log as the state -/

/-- The monitor that remembers everything. -/
def ofHistory (Allowed : List ω → ω → Prop) : Monitor (List ω) ω where
  next s e := s ++ [e]
  Allowed := Allowed

theorem after_ofHistory (Allowed : List ω → ω → Prop) (s es : List ω) :
    (ofHistory Allowed).after s es = s ++ es := by
  induction es generalizing s with
  | nil => rw [after_nil, List.append_nil]
  | cons e es ih =>
    rw [after_cons, ih]
    exact List.append_assoc s [e] es

/-! ## Monitors without a state -/

/-- The monitor that allows what satisfies `P`. -/
def only (P : ω → Prop) : Monitor Unit ω where
  next s _ := s
  Allowed _ e := P e

theorem accepts_only_iff {P : ω → Prop} {s : Unit} {es : List ω} : (only P).Accepts s es ↔ ∀ e ∈ es, P e := by
  induction es with
  | nil => simp
  | cons e es ih =>
    rw [accepts_cons, List.forall_mem_cons]
    exact and_congr_right fun _ => ih

/-! ## Triples -/

variable (m)

/-- From state `s` on `p` does what is allowed, and leaves the monitor in a state with `Q` where it returns
and with `R` where it ends the process. -/
structure Triple (s : σ) (p : Process ω α) (Q : α → σ → Prop) (R : Int → σ → Prop) : Prop where
  accepts : m.Accepts s p.log
  returns : ∀ a, p.Returns a → Q a (m.after s p.log)
  exits : ∀ status, p.Exits status → R status (m.after s p.log)

variable {m} {s : σ} {Q : α → σ → Prop} {R : Int → σ → Prop}

theorem Triple.mono {p : Process ω α} {Q' : α → σ → Prop} {R' : Int → σ → Prop} (h : m.Triple s p Q R)
    (hQ : ∀ a s, Q a s → Q' a s) (hR : ∀ status s, R status s → R' status s) : m.Triple s p Q' R' where
  accepts := h.accepts
  returns a ha := hQ a _ (h.returns a ha)
  exits status hstatus := hR status _ (h.exits status hstatus)

theorem triple_pure {a : α} (h : Q a s) : m.Triple s (pure a) Q R where
  accepts := trivial
  returns b hb := by
    obtain rfl := Process.returns_pure_iff.mp hb
    exact h
  exits status hstatus := absurd hstatus (Process.not_exits_pure a status)

theorem triple_exit {status : Int} (h : R status s) : m.Triple s (Process.exit status : Process ω α) Q R where
  accepts := trivial
  returns a ha := absurd ha (Process.not_returns_exit status a)
  exits status' hstatus := by
    obtain rfl := Process.exits_exit_iff.mp hstatus
    exact h

theorem triple_call {e : ω} {Q : Unit → σ → Prop} (he : m.Allowed s e) (h : Q () (m.next s e)) :
    m.Triple s (Process.call e) Q R where
  accepts := ⟨he, trivial⟩
  returns _ _ := h
  exits status hstatus := absurd hstatus (Process.not_exits_call e status)

theorem triple_lift {t : Trace ω α} (ht : m.Accepts s t.sent)
    (h : ∀ a, t.next = .done a → Q a (m.after s t.sent)) : m.Triple s (Process.lift t) Q R where
  accepts := by
    rw [Process.log_lift]
    exact ht
  returns a ha := by
    rw [Process.log_lift]
    exact h a (Process.returns_lift_iff.mp ha)
  exits status hstatus := absurd hstatus (Process.not_exits_lift t status)

theorem triple_bind {x : Process ω α} {f : α → Process ω β} {P : α → σ → Prop} {Q : β → σ → Prop}
    (hx : m.Triple s x P R) (hf : ∀ a s', P a s' → m.Triple s' (f a) Q R) : m.Triple s (x >>= f) Q R := by
  by_cases hret : ∃ a, x.Returns a
  · obtain ⟨a, ha⟩ := hret
    have hrest := hf a _ (hx.returns a ha)
    have hlog := Process.log_bind_of_returns ha f
    constructor
    · rw [hlog, accepts_append]
      exact ⟨hx.accepts, hrest.accepts⟩
    · intro b hb
      obtain ⟨a', ha', hb⟩ := Process.returns_bind_iff.mp hb
      obtain rfl := ha.unique ha'
      rw [hlog, after_append]
      exact hrest.returns b hb
    · intro status hstatus
      rcases Process.exits_bind_iff.mp hstatus with hexits | ⟨a', ha', hexits⟩
      · exact absurd hexits (ha.not_exits status)
      · obtain rfl := ha.unique ha'
        rw [hlog, after_append]
        exact hrest.exits status hexits
  · have hnot : ∀ a, ¬ x.Returns a := fun a ha => hret ⟨a, ha⟩
    have hlog := Process.log_bind_of_not_returns hnot f
    constructor
    · rw [hlog]
      exact hx.accepts
    · intro b hb
      obtain ⟨a, ha, -⟩ := Process.returns_bind_iff.mp hb
      exact absurd ha (hnot a)
    · intro status hstatus
      rw [hlog]
      rcases Process.exits_bind_iff.mp hstatus with hexits | ⟨a, ha, -⟩
      · exact hx.exits status hexits
      · exact absurd ha (hnot a)

theorem triple_ite {c : Prop} [Decidable c] {x y : Process ω α} (hx : c → m.Triple s x Q R)
    (hy : ¬ c → m.Triple s y Q R) : m.Triple s (if c then x else y) Q R := by
  split_ifs with h
  · exact hx h
  · exact hy h

/-! ## Steps in front of a process -/

section steps

variable {e : ω} {c : Prop} [Decidable c] {fail : Process ω Unit} {f : Unit → Process ω β} {Q : β → σ → Prop}

theorem triple_call_bind (he : m.Allowed s e) (hf : m.Triple (m.next s e) (f ()) Q R) :
    m.Triple s (Process.call e >>= f) Q R := by
  refine triple_bind (P := fun _ s' => s' = m.next s e) (triple_call he rfl) ?_
  rintro - s' rfl
  exact hf

theorem triple_check_bind (hfail : ¬ c → m.Triple s fail (fun _ _ => False) R)
    (hf : c → m.Triple s (f ()) Q R) : m.Triple s (Process.check c fail >>= f) Q R := by
  by_cases h : c
  · rw [Process.check_of_pos h, pure_bind]
    exact hf h
  · rw [Process.check_of_neg h]
    refine triple_bind (hfail h) fun _ s' hs' => ?_
    exact hs'.elim

theorem triple_check {Q : Unit → σ → Prop} (hfail : ¬ c → m.Triple s fail (fun _ _ => False) R)
    (h : c → Q () s) : m.Triple s (Process.check c fail) Q R := by
  have hbind := triple_check_bind (f := pure) hfail fun hc => triple_pure (h hc)
  rwa [bind_pure] at hbind

theorem triple_crash {Q : α → σ → Prop} : m.Triple s (Process.crash : Process ω α) Q R where
  accepts := trivial
  returns a ha := absurd ha (Process.not_returns_crash a)
  exits status hstatus := absurd hstatus (Process.not_exits_crash status)

end steps

theorem triple_serial {I : σ → Prop} {n : Nat} {jobs : List (Nat → Process ω Unit)} (hs : I s)
    (hjobs : ∀ job ∈ jobs, ∀ s, I s → m.Triple s (job n) (fun _ => I) R) :
    m.Triple s (Process.serial jobs n) (fun _ => I) R := by
  induction jobs generalizing s with
  | nil => exact triple_pure hs
  | cons job jobs ih =>
    obtain ⟨hjob, hrest⟩ := List.forall_mem_cons.mp hjobs
    exact triple_bind (hjob s hs) fun _ s' hs' => ih hs' hrest

end Monitor
