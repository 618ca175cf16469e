import Mathlib.Data.List.Infix
import Mathlib.Tactic.Common

/-!
# Lexical path resolution

A path is a list of moves in a directory tree: stay (an empty component or `.`), go up (`..`), or go
down into a name. The place reached is the stack of names from the root, innermost first; going up from
the root stays there.

`climb` summarises a list of moves: how many levels it leaves its starting place by, and what it then
goes down into. `walk_eq` is its meaning, and `suffix_walk_iff` says when a walk ends inside the
directory it started from.
-/

namespace LexPath

variable {β : Type*}

/-- One component of a path. -/
inductive Move (β : Type*) where
  | stay
  | up
  | down (name : β)
  deriving DecidableEq, Repr

/-- Make one move. -/
def go (place : List β) : Move β → List β
  | .stay => place
  | .up => place.tail
  | .down name => name :: place

/-- Make all moves, from a given place. -/
def walk (place : List β) (moves : List (Move β)) : List β := moves.foldl go place

/-- A number of levels to go up, and the names to go down into then, innermost first. -/
structure Climb (β : Type*) where
  ups : Nat
  downs : List β

/-- Add one move behind a climb: going up takes back a name, if there is one. -/
def Climb.step (c : Climb β) : Move β → Climb β
  | .stay => c
  | .up =>
    match c.downs with
    | [] => { c with ups := c.ups + 1 }
    | _ :: downs => { c with downs := downs }
  | .down name => { c with downs := name :: c.downs }

/-- The moves as one climb. -/
def climb (moves : List (Move β)) : Climb β := moves.foldl Climb.step { ups := 0, downs := [] }

/-- The place a climb leads to. -/
def Climb.apply (c : Climb β) (place : List β) : List β := c.downs ++ place.drop c.ups

theorem Climb.apply_step (c : Climb β) (m : Move β) (place : List β) :
    (c.step m).apply place = go (c.apply place) m := by
  cases m with
  | stay => rfl
  | down name => rfl
  | up =>
    rw [Climb.step]
    cases hd : c.downs with
    | nil => simp [Climb.apply, go, hd]
    | cons name downs => simp [Climb.apply, go, hd]

theorem Climb.apply_foldl (c : Climb β) (moves : List (Move β)) (place : List β) :
    (moves.foldl Climb.step c).apply place = walk (c.apply place) moves := by
  induction moves generalizing c with
  | nil => rfl
  | cons m moves ih =>
    rw [List.foldl_cons, ih, Climb.apply_step]
    rfl

/-- **Where a walk leads**: up as far as it climbs, then down. -/
theorem walk_eq (place : List β) (moves : List (Move β)) :
    walk place moves = (climb moves).downs ++ place.drop (climb moves).ups :=
  (Climb.apply_foldl { ups := 0, downs := [] } moves place).symm

theorem walk_append (place : List β) (moves moves' : List (Move β)) :
    walk place (moves ++ moves') = walk (walk place moves) moves' :=
  List.foldl_append

/-- **When a walk ends inside the place it started from**: it goes down into all the directories it
left on its way up. -/
theorem suffix_walk_iff (place : List β) (moves : List (Move β)) :
    place <:+ walk place moves ↔ place.take (climb moves).ups <:+ (climb moves).downs := by
  rw [walk_eq]
  constructor
  · intro h
    obtain ⟨t, ht⟩ := h
    refine ⟨t, ?_⟩
    rw [← List.take_append_drop (climb moves).ups place, ← List.append_assoc] at ht
    have hdrop : (place.take (climb moves).ups ++ place.drop (climb moves).ups).drop
        (climb moves).ups = place.drop (climb moves).ups := by
      rw [List.take_append_drop]
    rw [hdrop] at ht
    exact List.append_cancel_right ht
  · intro h
    obtain ⟨t, ht⟩ := h
    refine ⟨t, ?_⟩
    rw [← ht, List.append_assoc, List.take_append_drop]

/-- The moves that take back one move from the given place. -/
def back (place : List β) : Move β → List (Move β)
  | .stay => []
  | .up => (place.take 1).map .down
  | .down _ => [.up]

theorem walk_back (place : List β) (m : Move β) : walk (go place m) (back place m) = place := by
  cases m with
  | stay => rfl
  | down name => rfl
  | up => cases place <;> rfl

end LexPath
