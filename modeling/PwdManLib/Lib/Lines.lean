import PwdManLib.Lib.Delim

/-!
# Lines, a blank line, and a body

A text of lines, each ended by the delimiter `d` (`unlines`), behind them a blank line and a body. Its
lines come back by splitting (`split_unlines_append`). When none of them is blank, the first `d ++ d` is
the one in front of the body (`behindBlank_unlines`), and when one is, it comes earlier
(`behindBlank_append`). What a line is extended by stays in the line (`split_append_cons`,
`split_cons_append`).
-/

namespace Delim

variable {α : Type*} [DecidableEq α] {d : List α}

omit [DecidableEq α] in
/-- Lines, each ended by the delimiter. -/
def unlines (d : List α) (ls : List (List α)) : List α := ls.flatMap (· ++ d)

/-- The lines in front of the first blank one. -/
def headLines (d s : List α) : List (List α) := (split d s).takeWhile (· ≠ [])

/-- What stands behind the first two delimiters in a row. -/
def behindBlank (d s : List α) : Option (List α) :=
  (find (d ++ d) s).map fun k => s.drop (k + (d ++ d).length)

omit [DecidableEq α] in
@[simp] theorem unlines_nil (d : List α) : unlines d [] = [] := rfl

omit [DecidableEq α] in
@[simp] theorem unlines_cons (d l : List α) (ls : List (List α)) :
    unlines d (l :: ls) = l ++ (d ++ unlines d ls) := by
  rw [unlines, List.flatMap_cons, List.append_assoc]
  rfl

omit [DecidableEq α] in
@[simp] theorem unlines_append (d : List α) (ls ls' : List (List α)) :
    unlines d (ls ++ ls') = unlines d ls ++ unlines d ls' :=
  List.flatMap_append

theorem unlines_split (hne : d ≠ []) (s : List α) : unlines d (split d s) = s ++ d := by
  obtain ⟨p, ps, hsplit⟩ := List.exists_cons_of_ne_nil (split_ne_nil d s)
  have hjoin := intercalate_append_delim d p ps
  rw [← hsplit, intercalate_split hne] at hjoin
  rw [hjoin, hsplit, unlines_cons, List.append_assoc]
  rfl

omit [DecidableEq α] in
theorem takeWhile_append_of_blank {ls : List (List α)} (h : [] ∈ ls) (ls' : List (List α)) :
    (ls ++ ls').takeWhile (· ≠ []) = ls.takeWhile (· ≠ []) := by
  induction ls with
  | nil => simp at h
  | cons l ls ih =>
    by_cases hl : l = []
    · simp [hl]
    · simpa [hl] using ih (by simpa [Ne.symm hl] using h)

omit [DecidableEq α] in
theorem takeWhile_of_clean {ls : List (List α)} (h : [] ∉ ls) : ls.takeWhile (· ≠ []) = ls := by
  rw [List.takeWhile_eq_self_iff]
  intro l hl
  rw [decide_eq_true_eq]
  rintro rfl
  exact h hl

/-! ## Reading the lines -/

section lines

variable {ls : List (List α)}

theorem split_unlines_append (hd : Borderless d) (hne : d ≠ []) (hls : ∀ l ∈ ls, ¬ d <:+: l)
    (s : List α) : split d (unlines d ls ++ s) = ls ++ split d s := by
  induction ls with
  | nil => rfl
  | cons l ls ih =>
    rw [unlines_cons, List.append_assoc, List.append_assoc, split_cons_delim hd hne (hls l (by simp)),
      ih fun x hx => hls x (by simp [hx])]
    rfl

theorem headLines_unlines (hd : Borderless d) (hne : d ≠ []) (hls : ∀ l ∈ ls, ¬ d <:+: l)
    (body : List α) : headLines d (unlines d ls ++ (d ++ body)) = ls.takeWhile (· ≠ []) := by
  have hblank : split d (d ++ body) = [] :: split d body :=
    split_cons_delim hd hne (x := []) (by simpa using hne) body
  rw [headLines, split_unlines_append hd hne hls, hblank]
  by_cases h : [] ∈ ls
  · rw [takeWhile_append_of_blank h]
  · rw [List.takeWhile_append, takeWhile_of_clean h, if_pos rfl]
    simp

theorem length_le_of_blank (hd : Borderless d) (hne : d ≠ []) (hls : ∀ l ∈ ls, ¬ d <:+: l)
    (hblank : [] ∉ ls) {body p q : List α}
    (h : unlines d ls ++ (d ++ body) = p ++ (d ++ d ++ q)) :
    (unlines d ls).length ≤ p.length + d.length := by
  have hempty : ∀ s, split d (d ++ s) = [] :: split d s := fun s =>
    split_cons_delim hd hne (x := []) (by simpa using hne) s
  have htokens := congrArg (split d) h
  rw [split_unlines_append hd hne hls, hempty, List.append_assoc, split_append_delim hd hne, hempty,
    List.append_eq_append_iff] at htokens
  have hstarts : ls <+: split d p := by
    rcases htokens with ⟨t, hp, -⟩ | ⟨t, hp, ht⟩
    · exact ⟨t, hp.symm⟩
    · cases t with
      | nil => rw [hp, List.append_nil]
      | cons x t =>
        rw [List.cons_append, List.cons.injEq] at ht
        exact absurd (by rw [hp, ← ht.1]; simp) hblank
  obtain ⟨t, ht⟩ := hstarts
  rw [← List.length_append, ← unlines_split hne p, ← ht, unlines_append, List.length_append]
  omega

/-- **Behind lines of which none is blank, the first blank line is the one in front of the body.** -/
theorem behindBlank_unlines (hd : Borderless d) (hne : d ≠ []) (hls : ∀ l ∈ ls, ¬ d <:+: l)
    (hblank : [] ∉ ls) (hlines : ls ≠ []) (body : List α) :
    behindBlank d (unlines d ls ++ (d ++ body)) = some body := by
  obtain ⟨u, hu⟩ : ∃ u, unlines d ls = u ++ d := by
    obtain ⟨ls', l, hlast⟩ := (List.eq_nil_or_concat ls).resolve_left hlines
    exact ⟨unlines d ls' ++ l, by simp [hlast]⟩
  have htext : unlines d ls ++ (d ++ body) = u ++ (d ++ d) ++ body := by
    rw [hu]
    simp only [List.append_assoc]
  -- the first `d ++ d` is not behind the one that ends the lines
  cases hk : find (d ++ d) (u ++ (d ++ d)) with
  | none => exact absurd (List.suffix_append u (d ++ d)).isInfix (find_eq_none_iff.mp hk)
  | some k =>
    have hle := find_le hk
    have hfind := find_append_of_some hk body
    rw [← htext] at hfind
    -- and all lines are in front of it
    have hcut := take_append_drop_of_find hfind
    have hge := length_le_of_blank hd hne hls hblank hcut.symm
    have htake := List.length_take_le k (unlines d ls ++ (d ++ body))
    simp only [List.length_append] at hle
    rw [hu, List.length_append] at hge
    rw [hu] at htake
    obtain rfl : k = u.length := by omega
    rw [behindBlank, hfind, htext, Option.map_some, ← List.length_append, List.drop_left]

omit [DecidableEq α] in
theorem infix_unlines_of_blank {l : List α} (h : [] ∈ ls) : d ++ d <:+: unlines d (l :: ls) := by
  induction ls generalizing l with
  | nil => simp at h
  | cons x ls ih =>
    by_cases hx : x = []
    · refine ⟨l, unlines d ls, ?_⟩
      simp [hx]
    · have hrest : [] ∈ ls := by simpa [Ne.symm hx] using h
      have hin := ih hrest (l := x)
      rw [unlines_cons]
      exact hin.trans ((List.suffix_append d _).isInfix.trans (List.suffix_append l _).isInfix)

theorem behindBlank_append {front : List α} (h : d ++ d <:+: front) (s : List α) :
    ∃ rest, behindBlank d (front ++ s) = some (rest ++ s) := by
  cases hk : find (d ++ d) front with
  | none => exact absurd h (find_eq_none_iff.mp hk)
  | some k =>
    have hle := find_le hk
    refine ⟨front.drop (k + (d ++ d).length), ?_⟩
    rw [behindBlank, find_append_of_some hk, Option.map_some, List.drop_append_of_le_length hle]

end lines

/-! ## Extending a line -/

theorem split_append_cons (hd : Borderless d) (hne : d ≠ []) {c : α} {y : List α} (hc : c ∉ d)
    (hy : ¬ d <:+: y) (x : List α) :
    ∃ l, split d (x ++ c :: y) = (split d x).dropLast ++ [l ++ c :: y] := by
  induction hn : x.length using Nat.strong_induction_on generalizing x with
  | _ n ih =>
    by_cases hx : d <:+: x
    · obtain ⟨u, v, rfl, hu⟩ := exists_eq_append_of_infix hne hx
      have hpos := List.length_pos_of_ne_nil hne
      obtain ⟨l, hl⟩ := ih v.length (by rw [← hn]; simp; omega) v rfl
      refine ⟨l, ?_⟩
      rw [List.append_assoc, List.append_assoc, List.append_assoc, split_cons_delim hd hne hu, hl,
        split_cons_delim hd hne hu, List.dropLast_cons_of_ne_nil (split_ne_nil d v)]
      rfl
    · refine ⟨x, ?_⟩
      rw [split_of_absent hx, split_of_absent (not_infix_append_cons hc hx hy)]
      rfl

theorem split_cons_append (hd : Borderless d) (hne : d ≠ []) {c : α} {x : List α} (hc : c ∉ d)
    (hx : ¬ d <:+: x) (y : List α) :
    ∃ l, split d (x ++ c :: y) = (x ++ c :: l) :: (split d y).tail := by
  by_cases hy : d <:+: y
  · obtain ⟨u, v, rfl, hu⟩ := exists_eq_append_of_infix hne hy
    refine ⟨u, ?_⟩
    have hline : ¬ d <:+: x ++ c :: u := not_infix_append_cons hc hx hu
    have htext : x ++ c :: (u ++ d ++ v) = (x ++ c :: u) ++ (d ++ v) := by simp
    rw [htext, split_cons_delim hd hne hline, List.append_assoc, split_cons_delim hd hne hu]
    rfl
  · refine ⟨y, ?_⟩
    rw [split_of_absent hy, split_of_absent (not_infix_append_cons hc hx hy)]
    rfl

theorem eq_of_append_cons_eq {c : α} {x y p q : List α} (hp : c ∉ p) (hq : c ∉ q)
    (h : x ++ c :: p = y ++ c :: q) : p = q := by
  have hrev := congrArg List.reverse h
  simp only [List.reverse_append, List.reverse_cons] at hrev
  have hp' : ¬ [c] <:+: p.reverse := by rwa [List.singleton_infix_iff, List.mem_reverse]
  have hq' : ¬ [c] <:+: q.reverse := by rwa [List.singleton_infix_iff, List.mem_reverse]
  exact List.reverse_injective (append_delim_inj (borderless_singleton c) hp' hq' hrev).1

theorem length_split_singleton (c : α) (s : List α) : (split [c] s).length = s.count c + 1 := by
  induction hn : s.length using Nat.strong_induction_on generalizing s with
  | _ n ih =>
    by_cases hc : c ∈ s
    · obtain ⟨x, y, rfl, hx⟩ := List.eq_append_cons_of_mem hc
      have hxc : ¬ [c] <:+: x := mt (List.singleton_infix_iff _ _).mp hx
      rw [show x ++ c :: y = x ++ ([c] ++ y) from rfl,
        split_cons_delim (borderless_singleton c) (by simp) hxc, List.length_cons,
        ih y.length (by rw [← hn]; simp; omega) y rfl, List.singleton_append, List.count_append,
        List.count_cons_self, List.count_eq_zero_of_not_mem hx]
      omega
    · rw [split_of_absent (mt (List.singleton_infix_iff _ _).mp hc), List.count_eq_zero_of_not_mem hc]
      rfl

end Delim
