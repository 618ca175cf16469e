import Mathlib.Tactic.Common

/-!
# Format strings

`Format.render esc conv` writes out a format string: `esc conv` stands for the next argument, `esc esc`
for `esc` itself, and everything else for itself. An escape character in front of something else, or at
the end, and an argument that is missing are errors; arguments too many are not.

Arguments are not looked into, so what stands in them plays no role. `render_pieces` is the rule for a
format string cut at its conversions.
-/

namespace Format

variable {α : Type} [DecidableEq α] {esc conv : α}

/-- The text that a format string makes with its arguments. -/
def render (esc conv : α) : List α → List (List α) → Option (List α)
  | [], _ => some []
  | [c], _ => if c = esc then none else some [c]
  | c :: d :: rest, args =>
    if c ≠ esc then (c :: ·) <$> render esc conv (d :: rest) args
    else if d = esc then (esc :: ·) <$> render esc conv rest args
    else if d = conv then do
      let a ← args.head?
      (a ++ ·) <$> render esc conv rest args.tail
    else none

theorem render_cons {c : α} (hc : c ≠ esc) (rest : List α) (args : List (List α)) :
    render esc conv (c :: rest) args = (c :: ·) <$> render esc conv rest args := by
  cases rest with
  | nil => simp [render, hc]
  | cons d rest => rw [render, if_pos hc]

theorem render_plain {p : List α} (hp : esc ∉ p) (rest : List α) (args : List (List α)) :
    render esc conv (p ++ rest) args = (p ++ ·) <$> render esc conv rest args := by
  induction p with
  | nil => simp
  | cons c p ih =>
    have hc : c ≠ esc := fun h => hp (h ▸ List.mem_cons_self)
    have hrest : esc ∉ p := fun h => hp (List.mem_cons_of_mem c h)
    rw [List.cons_append, render_cons hc, ih hrest, Option.map_eq_map, Option.map_eq_map, Option.map_map]
    rfl

theorem render_conv (hconv : conv ≠ esc) (rest : List α) (a : List α) (args : List (List α)) :
    render esc conv (esc :: conv :: rest) (a :: args) = (a ++ ·) <$> render esc conv rest args := by
  rw [render, if_neg (not_not.mpr rfl), if_neg hconv, if_pos rfl]
  rfl

/-- A format string: text, and conversions each with the text behind it. -/
def spell (esc conv : α) (p : List α) (ps : List (List α)) : List α :=
  p ++ ps.flatMap fun q => esc :: conv :: q

theorem render_pieces (hconv : conv ≠ esc) {p : List α} (hp : esc ∉ p) {ps : List (List α × List α)}
    (hps : ∀ q ∈ ps, esc ∉ q.1) :
    render esc conv (spell esc conv p (ps.map Prod.fst)) (ps.map Prod.snd) =
      some (p ++ ps.flatMap fun q => q.2 ++ q.1) := by
  induction ps generalizing p with
  | nil =>
    rw [spell, List.map_nil, List.flatMap_nil, render_plain hp, render]
    rfl
  | cons q ps ih =>
    have hrest := ih (hps q List.mem_cons_self) fun q' hq' => hps q' (List.mem_cons_of_mem q hq')
    rw [spell, List.map_cons, List.flatMap_cons, List.map_cons, render_plain hp, List.cons_append,
      List.cons_append, render_conv hconv, ← spell, hrest, List.flatMap_cons, List.append_assoc]
    rfl

end Format
