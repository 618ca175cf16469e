import Mathlib.Data.List.Infix
import Mathlib.Data.List.TakeWhile
import Mathlib.Tactic.Common

/-!
# Splitting a list at a delimiter

`find d s` is the offset of the first occurrence of `d` in `s`, and `split d s` cuts `s` at the
leftmost non-overlapping occurrences of `d`. For a delimiter that does not overlap itself
(`Borderless`), occurrences never straddle a joint, so splitting is compositional:

* `find_append_delim`: behind a text free of `d`, the first occurrence is the delimiter that follows;
* `split_append_delim`: `split d (x ++ d ++ y) = split d x ++ split d y`;
* `intercalate_split` and `split_intercalate`: splitting and joining are inverse to each other.
-/

namespace Delim

variable {α : Type*} [DecidableEq α]

/-- The offset of the first occurrence of `d`. -/
def find (d : List α) : List α → Option Nat
  | [] => if d = [] then some 0 else none
  | a :: s => if d <+: a :: s then some 0 else (find d s).map (· + 1)

/-- Cut at most `n` times. -/
def pieces (d : List α) : Nat → List α → List (List α)
  | 0, s => [s]
  | n + 1, s =>
    match find d s with
    | none => [s]
    | some k => s.take k :: pieces d n (s.drop (k + d.length))

/-- Cut at every occurrence: each cut of a non-empty `d` removes at least one element. -/
def split (d s : List α) : List (List α) := pieces d s.length s

/-- No proper non-empty beginning of `d` is also an end of `d`. -/
def Borderless (d : List α) : Prop := ∀ p, p <+: d → p <:+ d → p = [] ∨ p = d

/-! ## The first occurrence -/

theorem find_of_starts {d s : List α} (h : d <+: s) : find d s = some 0 := by
  cases s with
  | nil => simp [find, List.prefix_nil.mp h]
  | cons a s => rw [find, if_pos h]

theorem find_cons_of_not_starts {d s : List α} {a : α} (h : ¬ d <+: a :: s) :
    find d (a :: s) = (find d s).map (· + 1) := by
  rw [find, if_neg h]

theorem find_eq_none_iff {d s : List α} : find d s = none ↔ ¬ d <:+: s := by
  induction s with
  | nil => simp [find]
  | cons a s ih =>
    by_cases h : d <+: a :: s
    · rw [find_of_starts h]
      simp [h.isInfix]
    · rw [find_cons_of_not_starts h, Option.map_eq_none_iff, ih, List.infix_cons_iff]
      simp [h]

theorem find_starts {d s : List α} {k : Nat} (h : find d s = some k) : d <+: s.drop k := by
  induction s generalizing k with
  | nil =>
    by_cases hd : d = []
    · simp [hd]
    · simp [find, hd] at h
  | cons a s ih =>
    by_cases hp : d <+: a :: s
    · rw [find_of_starts hp, Option.some.injEq] at h
      rwa [← h]
    · rw [find_cons_of_not_starts hp, Option.map_eq_some_iff] at h
      obtain ⟨j, hj, rfl⟩ := h
      exact ih hj

theorem find_le {d s : List α} {k : Nat} (h : find d s = some k) : k + d.length ≤ s.length := by
  have hlen := (find_starts h).length_le
  rw [List.length_drop] at hlen
  by_cases hd : d = []
  · subst hd
    cases s with
    | nil => simp [find] at h; simp [← h]
    | cons a s => rw [find_of_starts List.nil_prefix] at h; simp [← Option.some.inj h]
  · have := List.length_pos_of_ne_nil hd
    omega

theorem take_append_drop_of_find {d s : List α} {k : Nat} (h : find d s = some k) :
    s.take k ++ (d ++ s.drop (k + d.length)) = s := by
  obtain ⟨t, ht⟩ := find_starts h
  rw [← List.drop_drop, ← ht, List.drop_left, ht, List.take_append_drop]

theorem find_append_of_some {d x : List α} {k : Nat} (h : find d x = some k) (z : List α) :
    find d (x ++ z) = some k := by
  induction x generalizing k with
  | nil =>
    by_cases hd : d = []
    · rw [hd, find_of_starts List.nil_prefix]
      simpa [find, hd] using h
    · simp [find, hd] at h
  | cons a x ih =>
    by_cases hp : d <+: a :: x
    · rw [find_of_starts hp] at h
      rw [find_of_starts (hp.trans (List.prefix_append _ _)), h]
    · have hlen := find_le h
      rw [find_cons_of_not_starts hp, Option.map_eq_some_iff] at h
      obtain ⟨j, hj, rfl⟩ := h
      have hp' : ¬ d <+: a :: (x ++ z) := fun h' =>
        hp (List.prefix_of_prefix_length_le h' (List.prefix_append (a :: x) z) (by omega))
      rw [List.cons_append, find_cons_of_not_starts hp', ih hj, Option.map_some]

/-! ## Delimiters that do not overlap themselves -/

omit [DecidableEq α] in
theorem borderless_singleton (a : α) : Borderless [a] := by
  intro p hp _
  rcases List.prefix_cons_iff.mp hp with h | ⟨t, h, ht⟩
  · exact Or.inl h
  · exact Or.inr (by rw [h, List.prefix_nil.mp ht])

omit [DecidableEq α] in
theorem borderless_pair {a b : α} (h : a ≠ b) : Borderless [a, b] := by
  intro p hp hs
  rcases List.prefix_cons_iff.mp hp with hp | ⟨t, rfl, ht⟩
  · exact Or.inl hp
  · rcases List.prefix_cons_iff.mp ht with rfl | ⟨u, rfl, hu⟩
    · exact absurd (by simpa using hs.getLast (by simp)) h
    · exact Or.inr (by rw [List.prefix_nil.mp hu])

omit [DecidableEq α] in
theorem Borderless.not_prefix_append {d u : List α} (hd : Borderless d) (hu : u ≠ [])
    (hlen : u.length < d.length) (y : List α) : ¬ d <+: u ++ (d ++ y) := by
  intro h
  obtain ⟨v, rfl⟩ := List.prefix_of_prefix_length_le (List.prefix_append u _) h hlen.le
  have hv : v <+: u ++ v := by
    refine List.prefix_of_prefix_length_le ((List.prefix_append_right_inj u).mp h)
      (List.prefix_append _ y) ?_
    simp
  rcases hd v hv (List.suffix_append u v) with h0 | h0
  · simp [h0] at hlen
  · have := congrArg List.length h0
    simp only [List.length_append] at this
    have := List.length_pos_of_ne_nil hu
    omega

theorem find_append_delim {d x : List α} (hd : Borderless d) (hx : ¬ d <:+: x) (y : List α) :
    find d (x ++ (d ++ y)) = some x.length := by
  induction x with
  | nil => exact find_of_starts (List.prefix_append d y)
  | cons a x ih =>
    have hp : ¬ d <+: a :: (x ++ (d ++ y)) := by
      intro h
      by_cases hlen : (a :: x).length < d.length
      · exact hd.not_prefix_append (List.cons_ne_nil a x) hlen y h
      · have hpx : d <+: a :: x :=
          List.prefix_of_prefix_length_le h (List.prefix_append (a :: x) _) (by omega)
        exact hx hpx.isInfix
    have hx' : ¬ d <:+: x := fun h => hx (h.trans (List.suffix_cons a x).isInfix)
    rw [List.cons_append, find_cons_of_not_starts hp, ih hx', Option.map_some, List.length_cons]

theorem append_delim_inj {d x x' y y' : List α} (hd : Borderless d) (hx : ¬ d <:+: x)
    (hx' : ¬ d <:+: x') (h : x ++ d ++ y = x' ++ d ++ y') : x = x' ∧ y = y' := by
  rw [List.append_assoc, List.append_assoc] at h
  have hfind := find_append_delim hd hx y
  rw [h, find_append_delim hd hx' y', Option.some.injEq] at hfind
  obtain ⟨rfl, hrest⟩ := List.append_inj h hfind.symm
  exact ⟨rfl, List.append_cancel_left hrest⟩

omit [DecidableEq α] in
theorem not_infix_append_cons {d x y : List α} {c : α} (hc : c ∉ d) (hx : ¬ d <:+: x)
    (hy : ¬ d <:+: y) : ¬ d <:+: x ++ c :: y := by
  induction x with
  | nil =>
    rw [List.nil_append, List.infix_cons_iff]
    rintro (h | h)
    · rcases List.prefix_cons_iff.mp h with rfl | ⟨t, rfl, -⟩
      · exact hx List.nil_infix
      · exact hc (by simp)
    · exact hy h
  | cons a x ih =>
    rw [List.cons_append, List.infix_cons_iff]
    rintro (h | h)
    · rcases Nat.le_total d.length (a :: x).length with hlen | hlen
      · exact hx (List.prefix_of_prefix_length_le h (List.prefix_append (a :: x) _) hlen).isInfix
      · obtain ⟨t, rfl⟩ := List.prefix_of_prefix_length_le (List.prefix_append (a :: x) (c :: y)) h hlen
        have ht : t <+: c :: y := (List.prefix_append_right_inj (a :: x)).mp h
        rcases List.prefix_cons_iff.mp ht with rfl | ⟨u, rfl, -⟩
        · exact hx (by simp)
        · exact hc (by simp)
    · exact ih (fun hx' => hx (hx'.trans (List.suffix_cons a x).isInfix)) h

omit [DecidableEq α] in
theorem not_infix_intercalate {d : List α} {c : α} (hne : d ≠ []) (hc : c ∉ d) {xs : List (List α)}
    (hxs : ∀ x ∈ xs, ¬ d <:+: x) : ¬ d <:+: [c].intercalate xs := by
  induction xs with
  | nil => simpa using hne
  | cons x xs ih =>
    cases xs with
    | nil => simpa using hxs x
    | cons y ys =>
      rw [List.intercalate_cons_cons, List.append_assoc, List.singleton_append]
      exact not_infix_append_cons hc (hxs x (by simp)) (ih fun z hz => hxs z (by simp [hz]))

/-! ## Splitting -/

theorem pieces_eq_split {d : List α} (hd : d ≠ []) {n : Nat} {s : List α} (hn : s.length ≤ n) :
    pieces d n s = split d s := by
  have hpos := List.length_pos_of_ne_nil hd
  -- both budgets outlast the text, so they stop at the same cut
  suffices h : ∀ n m (s : List α), s.length ≤ n → s.length ≤ m → pieces d n s = pieces d m s from
    h n s.length s hn le_rfl
  intro n
  induction n with
  | zero =>
    intro m s hn hm
    have hs : s = [] := List.length_eq_zero_iff.mp (by omega)
    subst hs
    cases m with
    | zero => rfl
    | succ m => simp [pieces, find, hd]
  | succ n ih =>
    intro m s hn hm
    cases m with
    | zero =>
      have hs : s = [] := List.length_eq_zero_iff.mp (by omega)
      subst hs
      simp [pieces, find, hd]
    | succ m =>
      simp only [pieces]
      cases hf : find d s with
      | none => rfl
      | some k =>
        have hk := find_le hf
        simp only [List.cons.injEq, true_and]
        apply ih <;> rw [List.length_drop] <;> omega

theorem split_of_find {d s : List α} (hd : d ≠ []) {k : Nat} (h : find d s = some k) :
    split d s = s.take k :: split d (s.drop (k + d.length)) := by
  have hk := find_le h
  have hpos := List.length_pos_of_ne_nil hd
  obtain ⟨n, hn⟩ : ∃ n, s.length = n + 1 := ⟨s.length - 1, by omega⟩
  rw [split, hn, pieces, h]
  simp only [List.cons.injEq, true_and]
  exact pieces_eq_split hd (by rw [List.length_drop]; omega)

theorem split_of_absent {d s : List α} (h : ¬ d <:+: s) : split d s = [s] := by
  rw [split]
  cases s.length with
  | zero => rfl
  | succ n => rw [pieces, find_eq_none_iff.mpr h]

theorem split_ne_nil (d s : List α) : split d s ≠ [] := by
  rw [split]
  cases s.length with
  | zero => simp [pieces]
  | succ n =>
    rw [pieces]
    cases find d s <;> simp

theorem split_append_delim {d : List α} (hd : Borderless d) (hne : d ≠ []) (x y : List α) :
    split d (x ++ (d ++ y)) = split d x ++ split d y := by
  have hpos := List.length_pos_of_ne_nil hne
  induction hn : x.length using Nat.strong_induction_on generalizing x with
  | _ n ih =>
    cases hf : find d x with
    | none =>
      have hx := find_eq_none_iff.mp hf
      rw [split_of_absent hx, split_of_find hne (find_append_delim hd hx y)]
      rw [List.take_left, ← List.append_assoc, List.drop_left' (by simp)]
      rfl
    | some k =>
      have hk := find_le hf
      rw [split_of_find hne hf, split_of_find hne (find_append_of_some hf _)]
      rw [List.take_append_of_le_length (by omega), List.drop_append_of_le_length hk]
      rw [ih (x.drop (k + d.length)).length (by rw [List.length_drop]; omega) _ rfl]
      rfl

theorem split_cons_delim {d : List α} (hd : Borderless d) (hne : d ≠ []) {x : List α}
    (hx : ¬ d <:+: x) (y : List α) : split d (x ++ (d ++ y)) = x :: split d y := by
  rw [split_append_delim hd hne, split_of_absent hx]
  rfl

theorem split_intercalate {d : List α} (hd : Borderless d) (hne : d ≠ []) {x : List α}
    {xs : List (List α)} (hxs : ∀ y ∈ x :: xs, ¬ d <:+: y) :
    split d (d.intercalate (x :: xs)) = x :: xs := by
  induction xs generalizing x with
  | nil =>
    rw [List.intercalate_singleton]
    exact split_of_absent (hxs x (by simp))
  | cons y ys ih =>
    rw [List.intercalate_cons_cons, List.append_assoc, split_cons_delim hd hne (hxs x (by simp)),
      ih (fun z hz => hxs z (by simp [hz]))]

omit [DecidableEq α] in
theorem intercalate_append_delim (d x : List α) (xs : List (List α)) :
    d.intercalate (x :: xs) ++ d = x ++ d ++ xs.flatMap (· ++ d) := by
  induction xs generalizing x with
  | nil => simp
  | cons y ys ih =>
    rw [List.intercalate_cons_cons, List.append_assoc, List.append_assoc, ih y, List.flatMap_cons]
    simp only [List.append_assoc]

theorem intercalate_split {d : List α} (hne : d ≠ []) (s : List α) :
    d.intercalate (split d s) = s := by
  have hpos := List.length_pos_of_ne_nil hne
  induction hn : s.length using Nat.strong_induction_on generalizing s with
  | _ n ih =>
    cases hf : find d s with
    | none => rw [split_of_absent (find_eq_none_iff.mp hf), List.intercalate_singleton]
    | some k =>
      have hk := find_le hf
      obtain ⟨y, ys, hy⟩ := List.exists_cons_of_ne_nil (split_ne_nil d (s.drop (k + d.length)))
      have hrest := ih (s.drop (k + d.length)).length (by rw [List.length_drop]; omega) _ rfl
      rw [hy] at hrest
      rw [split_of_find hne hf, hy, List.intercalate_cons_cons, hrest, List.append_assoc,
        take_append_drop_of_find hf]

omit [DecidableEq α] in
theorem intercalate_concat_nil (d : List α) {xs : List (List α)} (hxs : xs ≠ []) :
    d.intercalate (xs ++ [[]]) = d.intercalate xs ++ d := by
  induction xs with
  | nil => exact absurd rfl hxs
  | cons x xs ih =>
    cases xs with
    | nil => simp [List.intercalate_cons_cons]
    | cons y ys =>
      have h := ih (List.cons_ne_nil y ys)
      rw [List.cons_append] at h
      rw [List.cons_append, List.cons_append, List.intercalate_cons_cons, h,
        List.intercalate_cons_cons]
      simp only [List.append_assoc]

theorem getLast?_split_eq_nil_iff {d : List α} (hd : Borderless d) (hne : d ≠ []) (s : List α) :
    (split d s).getLast? = some [] ↔ s = [] ∨ d <:+ s := by
  rw [List.getLast?_eq_some_iff]
  constructor
  · intro h
    obtain ⟨ys, hys⟩ := h
    have hs := intercalate_split hne s
    rw [hys] at hs
    by_cases hys' : ys = []
    · left
      simpa [hys'] using hs.symm
    · right
      exact ⟨d.intercalate ys, by rw [← hs, intercalate_concat_nil d hys']⟩
  · rintro (rfl | ⟨x, rfl⟩)
    · exact ⟨[], split_of_absent (by simpa using hne)⟩
    · refine ⟨split d x, ?_⟩
      rw [← List.append_nil (x ++ d), List.append_assoc, split_append_delim hd hne,
        split_of_absent (s := []) (by simpa using hne)]

theorem infix_iff_length_split {d : List α} (hne : d ≠ []) (s : List α) :
    d <:+: s ↔ 2 ≤ (split d s).length := by
  constructor
  · intro h
    cases hf : find d s with
    | none => exact absurd h (find_eq_none_iff.mp hf)
    | some k =>
      have := List.length_pos_of_ne_nil (split_ne_nil d (s.drop (k + d.length)))
      rw [split_of_find hne hf, List.length_cons]
      omega
  · intro h
    by_contra hs
    rw [split_of_absent hs] at h
    simp at h

theorem not_infix_take_of_find {d s : List α} (hne : d ≠ []) {k : Nat} (h : find d s = some k) :
    ¬ d <:+: s.take k := by
  have hpos := List.length_pos_of_ne_nil hne
  intro hin
  cases hj : find d (s.take k) with
  | none => exact find_eq_none_iff.mp hj hin
  | some j =>
    have hle := find_le hj
    have hsame := find_append_of_some hj (s.drop k)
    rw [List.take_append_drop, h, Option.some.injEq] at hsame
    have htake := List.length_take_le k s
    omega

theorem exists_eq_append_of_infix {d s : List α} (hne : d ≠ []) (h : d <:+: s) :
    ∃ x y, s = x ++ d ++ y ∧ ¬ d <:+: x := by
  cases hf : find d s with
  | none => exact absurd h (find_eq_none_iff.mp hf)
  | some k =>
    refine ⟨s.take k, s.drop (k + d.length), ?_, not_infix_take_of_find hne hf⟩
    rw [List.append_assoc, take_append_drop_of_find hf]

omit [DecidableEq α] in
theorem infix_intercalate (d : List α) {xs : List (List α)} {p : List α} (hp : p ∈ xs) :
    p <:+: d.intercalate xs := by
  induction xs with
  | nil => simp at hp
  | cons x xs ih =>
    cases xs with
    | nil =>
      rw [List.mem_singleton] at hp
      rw [hp, List.intercalate_singleton]
    | cons y ys =>
      rw [List.intercalate_cons_cons]
      rcases List.mem_cons.mp hp with rfl | hp
      · rw [List.append_assoc]
        exact (List.prefix_append _ _).isInfix
      · exact (ih hp).trans (List.suffix_append _ _).isInfix

theorem infix_of_mem_split {d : List α} (hne : d ≠ []) {s p : List α} (hp : p ∈ split d s) :
    p <:+: s := by
  have h := infix_intercalate d hp
  rwa [intercalate_split hne] at h

theorem not_infix_of_mem_split {d : List α} (hne : d ≠ []) {s p : List α} (hp : p ∈ split d s) :
    ¬ d <:+: p := by
  have hpos := List.length_pos_of_ne_nil hne
  induction hn : s.length using Nat.strong_induction_on generalizing s with
  | _ n ih =>
    cases hf : find d s with
    | none =>
      have hs := find_eq_none_iff.mp hf
      rw [split_of_absent hs, List.mem_singleton] at hp
      rwa [hp]
    | some k =>
      have hk := find_le hf
      rw [split_of_find hne hf, List.mem_cons] at hp
      rcases hp with rfl | hp
      · exact not_infix_take_of_find hne hf
      · exact ih (s.drop (k + d.length)).length (by rw [List.length_drop]; omega) hp rfl

/-- A text of pieces with a delimiter behind each of them, where no delimiter ends earlier. -/
def Terminated (d s : List α) : Prop :=
  ∃ ps : List (List α), s = ps.flatMap (· ++ d) ∧ ∀ p ∈ ps, find d (p ++ d) = some p.length

theorem find_take_append {d s : List α} {k : Nat} (h : find d s = some k) :
    find d (s.take k ++ d) = some (s.take k).length := by
  have hk := find_le h
  cases hj : find d (s.take k ++ d) with
  | none => exact absurd (List.suffix_append (s.take k) d).isInfix (find_eq_none_iff.mp hj)
  | some j =>
    have hsame := find_append_of_some hj (s.drop (k + d.length))
    rw [List.append_assoc, take_append_drop_of_find h, h] at hsame
    rw [← hsame, List.length_take_of_le (by omega)]

theorem getLast?_split_eq_nil_iff_terminated {d : List α} (hne : d ≠ []) (s : List α) :
    (split d s).getLast? = some [] ↔ Terminated d s := by
  constructor
  · intro h
    have hpos := List.length_pos_of_ne_nil hne
    induction hn : s.length using Nat.strong_induction_on generalizing s with
    | _ n ih =>
      cases hf : find d s with
      | none =>
        rw [split_of_absent (find_eq_none_iff.mp hf)] at h
        exact ⟨[], by simpa using h, by simp⟩
      | some k =>
        have hk := find_le hf
        obtain ⟨y, ys, hy⟩ := List.exists_cons_of_ne_nil (split_ne_nil d (s.drop (k + d.length)))
        rw [split_of_find hne hf, hy, List.getLast?_cons_cons, ← hy] at h
        obtain ⟨ps, hps, hfind⟩ := ih _ (by rw [List.length_drop]; omega) _ h rfl
        refine ⟨s.take k :: ps, ?_, ?_⟩
        · rw [List.flatMap_cons, ← hps, List.append_assoc, take_append_drop_of_find hf]
        · intro p hp
          rcases List.mem_cons.mp hp with rfl | hp
          · exact find_take_append hf
          · exact hfind p hp
  · rintro ⟨ps, rfl, hfind⟩
    induction ps with
    | nil => rfl
    | cons p ps ih =>
      have hf := find_append_of_some (hfind p (by simp)) (ps.flatMap (· ++ d))
      obtain ⟨y, ys, hy⟩ := List.exists_cons_of_ne_nil (split_ne_nil d (ps.flatMap (· ++ d)))
      rw [List.flatMap_cons, split_of_find hne hf, List.drop_left' (by simp), hy,
        List.getLast?_cons_cons, ← hy]
      exact ih fun q hq => hfind q (by simp [hq])

theorem split_singleton (c : α) (s : List α) :
    ∃ rest, split [c] s = s.takeWhile (· ≠ c) :: rest := by
  by_cases h : c ∈ s
  · obtain ⟨x, y, rfl, hx⟩ := List.eq_append_cons_of_mem h
    refine ⟨split [c] y, ?_⟩
    rw [show x ++ c :: y = x ++ ([c] ++ y) by simp,
      split_cons_delim (borderless_singleton c) (by simp) (by rwa [List.singleton_infix_iff]),
      List.takeWhile_append_of_pos (by intro a ha; simp; rintro rfl; exact hx ha)]
    simp
  · refine ⟨[], ?_⟩
    rw [split_of_absent (by rwa [List.singleton_infix_iff]), List.takeWhile_eq_self_iff.mpr]
    intro a ha
    simp only [decide_eq_true_eq]
    rintro rfl
    exact h ha

end Delim
