import PwdManLib.Lib.Block

/-!
# Reversal in place

Two indices run towards each other over a block and exchange what they meet, until they meet themselves.
Behind `k` rounds the first and the last `k` values have changed places (`swapOuter`, `swap_swapOuter`), so
half as many rounds as there are values reverse them (`swapOuter_half`), and fewer do when what is left in the
middle reads the same from both ends (`swapOuter_eq_reverse_iff`). The other cells are as they were.
-/

namespace Block

open Exec

variable {α : Type}

/-- Exchange two cells by way of a variable. -/
def swap (b : Block α) (p q : Nat) : Exec (Block α) := do
  let c ← b.load p
  let d ← b.load q
  let b ← b.store p d
  b.store q c

structure Ends (α : Type) where
  cells : Block α
  p : Nat
  q : Nat

/-- One round of `for (; p < q; ++p, --q)`. -/
def swapStep (st : Ends α) : Exec (Ends α ⊕ Block α) :=
  if st.p < st.q then do
    let cells ← st.cells.swap st.p st.q
    done (.inl { cells := cells, p := st.p + 1, q := st.q - 1 })
  else done (.inr st.cells)

theorem swap_append {b mid : Block α} {p q : Nat} (hp : b.length = p) (hq : p + mid.length + 1 = q) (a c : α)
    (rest : Block α) :
    swap (b ++ some a :: (mid ++ some c :: rest)) p q = done (b ++ some c :: (mid ++ some a :: rest)) := by
  have hlast (x : Option α) : (b ++ x :: mid).length = q := by
    rw [List.length_append, List.length_cons]
    omega
  have hreadLast := load_append (hlast (some a)) c rest
  have hstoreLast := store_append (hlast (some c)) (some c) a rest
  rw [List.append_assoc, List.cons_append] at hreadLast hstoreLast
  rw [swap, load_append hp, done_bind, hreadLast, done_bind, store_append hp, done_bind, hstoreLast,
    List.append_assoc, List.cons_append]

/-! ## A number of exchanges -/

/-- What lies between the first and the last `k` values. -/
def middle (k : Nat) (as : List α) : List α := (as.drop k).take (as.length - 2 * k)

/-- The first and the last `k` values have changed places. -/
def swapOuter (k : Nat) (as : List α) : List α :=
  (as.drop (as.length - k)).reverse ++ (middle k as ++ (as.take k).reverse)

theorem middle_append {xs ys : List α} (h : ys.length = xs.length) (mid : List α) :
    middle xs.length (xs ++ (mid ++ ys)) = mid := by
  have hcount : (xs ++ (mid ++ ys)).length - 2 * xs.length = mid.length := by
    simp only [List.length_append]
    omega
  rw [middle, hcount, List.drop_left, List.take_left]

theorem swapOuter_append {xs ys : List α} (h : ys.length = xs.length) (mid : List α) :
    swapOuter xs.length (xs ++ (mid ++ ys)) = ys.reverse ++ (mid ++ xs.reverse) := by
  have hfront : (xs ++ (mid ++ ys)).length - xs.length = (xs ++ mid).length := by
    simp only [List.length_append]
    omega
  rw [swapOuter, middle_append h, hfront, List.take_left, ← List.append_assoc xs mid ys, List.drop_left]

theorem exists_outer {k : Nat} {as : List α} (h : 2 * k ≤ as.length) :
    ∃ xs ys, as = xs ++ (middle k as ++ ys) ∧ xs.length = k ∧ ys.length = k := by
  refine ⟨as.take k, (as.drop k).drop (as.length - 2 * k), ?_, ?_, ?_⟩
  · rw [middle, List.take_append_drop, List.take_append_drop]
  · rw [List.length_take]
    omega
  · rw [List.length_drop, List.length_drop]
    omega

@[simp] theorem swapOuter_zero (as : List α) : swapOuter 0 as = as := by
  simp [swapOuter, middle]

/-- **The values are reversed** exactly when the middle is its own reverse. -/
theorem swapOuter_eq_reverse_iff {k : Nat} {as : List α} (h : 2 * k ≤ as.length) :
    swapOuter k as = as.reverse ↔ (middle k as).reverse = middle k as := by
  obtain ⟨xs, ys, has, rfl, hys⟩ := exists_outer h
  have hreverse : as.reverse = ys.reverse ++ ((middle xs.length as).reverse ++ xs.reverse) := by
    conv_lhs => rw [has, List.reverse_append, List.reverse_append, List.append_assoc]
  have hswapped : swapOuter xs.length as = ys.reverse ++ (middle xs.length as ++ xs.reverse) := by
    conv_lhs => rw [has, swapOuter_append hys]
  rw [hreverse, hswapped, List.append_cancel_left_eq, List.append_cancel_right_eq]
  exact eq_comm

theorem reverse_eq_self {as : List α} (h : as.length ≤ 1) : as.reverse = as := by
  rcases Nat.le_one_iff_eq_zero_or_eq_one.mp h with hzero | hone
  · rw [List.eq_nil_of_length_eq_zero hzero]
    rfl
  · obtain ⟨a, rfl⟩ := List.length_eq_one_iff.mp hone
    rfl

theorem length_middle_le (k : Nat) (as : List α) : (middle k as).length ≤ as.length - 2 * k := by
  rw [middle, List.length_take]
  exact Nat.min_le_left _ _

theorem middle_reverse (k : Nat) (as : List α) : middle k as.reverse = (middle k as).reverse := by
  rcases Nat.lt_or_ge as.length (2 * k) with hfew | henough
  · have hnone (bs : List α) (h : bs.length = as.length) : middle k bs = [] := by
      have hle := length_middle_le k bs
      exact List.eq_nil_of_length_eq_zero (by omega)
    rw [hnone as rfl, hnone as.reverse List.length_reverse, List.reverse_nil]
  · obtain ⟨xs, ys, has, hxs, hys⟩ := exists_outer henough
    have hreverse : as.reverse = ys.reverse ++ ((middle k as).reverse ++ xs.reverse) := by
      conv_lhs => rw [has, List.reverse_append, List.reverse_append, List.append_assoc]
    have hlength : xs.reverse.length = ys.reverse.length := by rw [List.length_reverse, List.length_reverse, hxs, hys]
    have hmiddle := middle_append hlength (middle k as).reverse
    rw [List.length_reverse, hys] at hmiddle
    rw [hreverse, hmiddle]

theorem swapOuter_half (as : List α) : swapOuter (as.length / 2) as = as.reverse := by
  have hshort := length_middle_le (as.length / 2) as
  exact (swapOuter_eq_reverse_iff (by omega)).mpr (reverse_eq_self (by omega))

theorem swap_swapOuter {as : List α} {k : Nat} (h : 2 * (k + 1) ≤ as.length) {b : Block α} {p q : Nat}
    (hp : p = b.length + k) (hq : q + (k + 1) = b.length + as.length) (rest : Block α) :
    swap (b ++ (ofList (swapOuter k as) ++ rest)) p q = done (b ++ (ofList (swapOuter (k + 1) as) ++ rest)) := by
  obtain ⟨xs', ys', has, hxs', hys'⟩ := exists_outer h
  obtain ⟨xs, a, rfl⟩ : ∃ xs a, xs' = xs ++ [a] := ⟨_, _, (List.dropLast_concat_getLast (by
    rw [← List.length_pos_iff]
    omega)).symm⟩
  obtain ⟨c, ys, rfl⟩ := List.exists_cons_of_length_eq_add_one hys'
  have hxs : xs.length = k := by simpa using hxs'
  have hys : ys.length = xs.length := by
    rw [hxs]
    simpa using hys'
  generalize middle (k + 1) as = mid at has
  have hbefore : swapOuter k as = ys.reverse ++ ((a :: mid ++ [c]) ++ xs.reverse) := by
    rw [← hxs, ← swapOuter_append hys, has]
    simp
  have hbehind : swapOuter (k + 1) as = ys.reverse ++ (c :: mid ++ [a] ++ xs.reverse) := by
    rw [← hxs', has, swapOuter_append (hys'.trans hxs'.symm)]
    simp
  have hlength := congrArg List.length has
  simp only [List.length_append, List.length_cons, List.length_nil] at hlength
  have hswap := swap_append (b := b ++ ofList ys.reverse) (p := p) (q := q)
    (by rw [List.length_append, length_ofList, List.length_reverse]; omega)
    (by rw [length_ofList mid]; omega) a c (ofList xs.reverse ++ rest)
  rw [hbefore, hbehind]
  simpa using hswap

/-- **The cells from `p` to `q` are reversed**, in half as many rounds as there are cells. -/
theorem loop_swapStep (as : List α) {b : Block α} {q n : Nat} (hq : q + 1 = b.length + as.length)
    (hn : as.length < 2 * n) (rest : Block α) :
    loop swapStep { cells := b ++ (ofList as ++ rest), p := b.length, q := q } n =
      done (b ++ (ofList as.reverse ++ rest)) := by
  let state (j : Nat) : Ends α :=
    { cells := b ++ (ofList (swapOuter j as) ++ rest), p := b.length + j, q := q - j }
  have hnext : ∀ j < as.length / 2, swapStep (state j) = done (.inl (state (j + 1))) := by
    intro j hj
    have hapart : b.length + j < q - j := by omega
    have hroom : 2 * (j + 1) ≤ as.length := by omega
    have hswap := swap_swapOuter hroom (b := b) (q := q - j) rfl (by omega) rest
    simp only [state, swapStep, if_pos hapart, hswap, done_bind, Nat.sub_sub, Nat.add_assoc]
  have hlast : swapStep (state (as.length / 2)) = done (.inr (b ++ (ofList as.reverse ++ rest))) := by
    have hmet : ¬ b.length + as.length / 2 < q - as.length / 2 := by omega
    simp only [state, swapStep, if_neg hmet, swapOuter_half]
  have hrun := loop_of_rounds hnext hlast
  simp only [state, swapOuter_zero, Nat.add_zero, Nat.sub_zero] at hrun
  exact loop_done_mono _ _ _ _ hrun (by omega)

end Block
