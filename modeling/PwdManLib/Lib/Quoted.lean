import Mathlib.Data.List.Basic
import Mathlib.Tactic.Common

/-!
# Quoted literals with doubled quotes

A literal ends at the first quote that is not doubled, and a doubled quote inside it stands for one
quote. `readQuoted q` reads a literal from behind its opening quote, `double q` is the way to write a
value down. `readQuoted_eq_some_iff` says that reading and writing are inverse to each other, and
`double_eq_self_iff` which values may be written down as they are.
-/

namespace Quoted

variable {α : Type*} [DecidableEq α]

/-- The value of the literal and what stands behind its closing quote. -/
def readQuoted (q : α) : List α → Option (List α × List α)
  | [] => none
  | [c] => if c = q then some ([], []) else none
  | c :: d :: s =>
    if c = q then
      if d = q then (readQuoted q s).map fun r => (q :: r.1, r.2)
      else some ([], d :: s)
    else
      (readQuoted q (d :: s)).map fun r => (c :: r.1, r.2)

/-- The value with its quotes doubled. -/
def double (q : α) : List α → List α
  | [] => []
  | c :: s => if c = q then q :: q :: double q s else c :: double q s

variable {q : α}

theorem readQuoted_double (v : List α) {r : List α} (hr : r.head? ≠ some q) :
    readQuoted q (double q v ++ q :: r) = some (v, r) := by
  induction v with
  | nil =>
    cases r with
    | nil => simp [double, readQuoted]
    | cons d r =>
      have hd : d ≠ q := by simpa using hr
      simp [double, readQuoted, hd]
  | cons c v ih =>
    by_cases hc : c = q
    · subst hc
      simp only [double, if_true, List.cons_append, readQuoted, ih]
      rfl
    · rw [double, if_neg hc, List.cons_append]
      obtain ⟨d, s, hds⟩ : ∃ d s, double q v ++ q :: r = d :: s :=
        List.exists_cons_of_ne_nil (by simp)
      rw [hds] at ih ⊢
      rw [readQuoted, if_neg hc, ih]
      rfl

theorem eq_of_readQuoted {s v r : List α} (h : readQuoted q s = some (v, r)) :
    s = double q v ++ q :: r ∧ r.head? ≠ some q := by
  fun_induction readQuoted q s generalizing v r with
  | case1 => simp at h
  | case2 =>
    obtain ⟨rfl, rfl⟩ := Prod.mk.inj (Option.some.inj h)
    simp [double]
  | case3 => simp at h
  | case4 s ih =>
    obtain ⟨⟨v', r'⟩, hread, heq⟩ := Option.map_eq_some_iff.mp h
    obtain ⟨rfl, rfl⟩ := Prod.mk.inj heq
    obtain ⟨hs, hr⟩ := ih hread
    exact ⟨by rw [hs]; simp [double], hr⟩
  | case5 d s hd =>
    obtain ⟨rfl, rfl⟩ := Prod.mk.inj (Option.some.inj h)
    simpa [double] using hd
  | case6 c d s hc ih =>
    obtain ⟨⟨v', r'⟩, hread, heq⟩ := Option.map_eq_some_iff.mp h
    obtain ⟨rfl, rfl⟩ := Prod.mk.inj heq
    obtain ⟨hs, hr⟩ := ih hread
    exact ⟨by rw [hs]; simp [double, hc], hr⟩

/-- **Reading and writing a literal are inverse to each other.** -/
theorem readQuoted_eq_some_iff {s v r : List α} :
    readQuoted q s = some (v, r) ↔ s = double q v ++ q :: r ∧ r.head? ≠ some q := by
  constructor
  · exact eq_of_readQuoted
  · intro h
    obtain ⟨rfl, hr⟩ := h
    exact readQuoted_double v hr

theorem length_le_length_double (v : List α) : v.length ≤ (double q v).length := by
  induction v with
  | nil => simp [double]
  | cons c v ih =>
    rw [double]
    split_ifs <;> simp only [List.length_cons] <;> omega

theorem double_eq_self_iff {v : List α} : double q v = v ↔ q ∉ v := by
  induction v with
  | nil => simp [double]
  | cons c v ih =>
    by_cases hc : c = q
    · subst hc
      simp only [double, if_true, List.mem_cons, true_or, not_true, iff_false]
      intro h
      have hlen := congrArg List.length h
      have := length_le_length_double (q := c) v
      simp only [List.length_cons] at hlen
      omega
    · rw [double, if_neg hc, List.cons_inj_right, ih, List.mem_cons, not_or]
      exact ⟨fun h => ⟨Ne.symm hc, h⟩, fun h => h.2⟩

/-! ## A text with a literal in it -/

/-- The text before the first quote, the value of the literal there, and the text behind it. -/
def firstLiteral (q : α) (s : List α) : Option (List α × List α × List α) :=
  match s.dropWhile (· ≠ q) with
  | [] => none
  | _ :: rest => (readQuoted q rest).map fun r => (s.takeWhile (· ≠ q), r.1, r.2)

theorem firstLiteral_append {head : List α} (hhead : q ∉ head) (s : List α) :
    firstLiteral q (head ++ q :: s) = (readQuoted q s).map fun r => (head, r.1, r.2) := by
  have hall : ∀ c ∈ head, decide (c ≠ q) = true := by
    intro c hc
    simpa using fun h : c = q => hhead (h ▸ hc)
  have htake : (head ++ q :: s).takeWhile (· ≠ q) = head := by
    rw [List.takeWhile_append_of_pos hall]
    simp
  have hdrop : (head ++ q :: s).dropWhile (· ≠ q) = q :: s := by
    rw [List.dropWhile_append_of_pos hall]
    simp
  rw [firstLiteral, hdrop, htake]

end Quoted
