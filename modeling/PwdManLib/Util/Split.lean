import PwdManLib.Util.StringOps

/-!
# What `strsplit` promises its callers

A caller of `strsplit` reads the entries below `*len`. Read with NULL as the empty string they are the
pieces of the string (`entries_tokensOf`), so nothing is lost, and splitting inverts joining. But the
last entry is NULL, and the terminator is missing behind it, when the string ends in the delimiter
(`shaped_tokensOf_iff`): the counting pass adds one token that the other pass does not store.
-/

namespace PwdManLib

open Exec

/-- The entries below `*len`, a NULL read as the empty string. -/
def SplitResult.entries (r : SplitResult) : Exec (List Str) :=
  forRange (fun i es => do
      let p ← r.slots.read i
      done (es ++ [p.getD []]))
    r.len 0 []

/-- The documented result: strings below `*len`, and NULL at `*len`. -/
structure SplitResult.Shaped (r : SplitResult) : Prop where
  strings : ∀ i < r.len, ∃ s, r.slots[i]? = some (some s)
  terminator : r.slots[r.len]? = some none

theorem entries_tokensOf (ps : List Str) : (tokensOf ps).entries = done ps := by
  have hbody (i : Nat) (p : Str) (es : List Str) (hp : ps[i]? = some p) :
      (do
        let p ← (slotsOf ps).read (0 + i)
        done (es ++ [p.getD []])) = done (es ++ [p]) := by
    have hentry : (if p = [] ∧ i + 1 = ps.length then none else some p : Option Str).getD [] = p := by
      split_ifs with hnull
      · exact hnull.1.symm
      · rfl
    rw [Nat.zero_add, Slots.read_of_getElem? (slotsOf_getElem? hp), done_bind, hentry]
  have hloop : (tokensOf ps).entries = done ([] ++ ps.flatMap fun p => [p]) := forRange_append hbody []
  rwa [List.nil_append, List.flatMap_singleton'] at hloop

theorem slotsOf_eq_map {ps : List Str} (hne : ps ≠ []) (hlast : ps.getLast? ≠ some []) :
    slotsOf ps = ps.map some ++ [none] := by
  have hps := List.dropLast_append_getLast hne
  have hp : ps.getLast hne ≠ [] := fun h => hlast (by rw [List.getLast?_eq_some_getLast hne, h])
  rw [← hps, slotsOf_append_singleton, if_pos hp]

theorem shaped_tokensOf_iff {ps : List Str} (hne : ps ≠ []) :
    (tokensOf ps).Shaped ↔ ps.getLast? ≠ some [] := by
  constructor
  · rintro ⟨hstrings, -⟩ hlast
    obtain ⟨pre, rfl⟩ := List.getLast?_eq_some_iff.mp hlast
    obtain ⟨s, hs⟩ := hstrings pre.length (by simp [tokensOf])
    have hnull : (slotsOf (pre ++ [[]]))[pre.length]? = some none := by
      rw [getElem?_slotsOf_last, if_pos rfl]
    rw [tokensOf, hnull] at hs
    simp at hs
  · intro hlast
    have hslots := slotsOf_eq_map hne hlast
    constructor
    · intro i hi
      have hi' : i < ps.length := hi
      refine ⟨ps[i], ?_⟩
      rw [tokensOf, hslots, List.getElem?_append_left (by rwa [List.length_map]), List.getElem?_map,
        List.getElem?_eq_getElem hi', Option.map_some]
    · rw [tokensOf, hslots, List.getElem?_append_right (by rw [List.length_map]), List.length_map,
        Nat.sub_self, List.getElem?_cons_zero]

/-! ## Splitting and joining -/

theorem borderless_of_mem_program {delims : Str}
    (h : delims ∈ [lit "\r\n", lit " ", lit "?", lit "&", lit "\n"]) :
    delims ≠ [] ∧ Delim.Borderless delims := by
  simp only [List.mem_cons, List.not_mem_nil, or_false] at h
  rcases h with rfl | rfl | rfl | rfl | rfl
  · exact ⟨by decide, Delim.borderless_pair (by decide)⟩
  all_goals exact ⟨by decide, Delim.borderless_singleton _⟩

/-- **When the result is as documented**: unless the string is made of tokens with a delimiter behind
each of them, the last one included. -/
theorem strsplit_shaped_iff (str delims : Str) (hne : delims ≠ []) :
    (strsplit str delims).Shaped ↔ ¬ Delim.Terminated delims str := by
  rw [strsplit_eq, shaped_tokensOf_iff (Delim.split_ne_nil delims str), ne_eq,
    Delim.getLast?_split_eq_nil_iff_terminated hne]

theorem strsplit_shaped_iff_line :
    lit "\r\n" ≠ [] ∧ ((strsplit (lit "a\r\nb") (lit "\r\n")).Shaped ↔
      ¬ Delim.Terminated (lit "\r\n") (lit "a\r\nb")) :=
  ⟨by decide, strsplit_shaped_iff _ _ (by decide)⟩

theorem terminated_iff {delims : Str} (hne : delims ≠ []) (hborder : Delim.Borderless delims)
    (str : Str) : Delim.Terminated delims str ↔ str = [] ∨ delims <:+ str := by
  rw [← Delim.getLast?_split_eq_nil_iff_terminated hne, Delim.getLast?_split_eq_nil_iff hborder hne]

/-- A line with its end leaves a NULL below `*len`. -/
theorem ended_line_not_shaped :
    ¬ ∀ str delims : Str, delims ≠ [] → (strsplit str delims).Shaped := by
  intro hall
  obtain ⟨s, hs⟩ := (hall (lit "a\r\n") (lit "\r\n") (by decide)).strings 1 (by decide)
  rw [show (strsplit (lit "a\r\n") (lit "\r\n")).slots[1]? = some none by decide] at hs
  simp at hs

end PwdManLib
