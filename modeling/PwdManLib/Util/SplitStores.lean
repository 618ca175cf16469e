import PwdManLib.Lib.Bounds
import PwdManLib.Util.Split

/-!
# The stores of `strsplit`

`strsplit` allocates `count` slots for its result and `strlen(str)` bytes for `save`, and fills both in
its second pass. `strsplitStores` is `strsplit` with a record of these stores. The bytes of a token and
its NUL stay inside `save`; the slots stay inside `result` as long as no trailing token is stored, for
the NULL goes one slot further than the last token (`strsplit_stores_fit_iff`).
-/

namespace PwdManLib

open Exec Trace Cell

/-- The buffers `strsplit` allocates. -/
inductive SplitBuffer where
  | result
  | save
  deriving DecidableEq, Repr

/-- The slots of `result`, and the bytes of `save`. -/
def splitCapacity (str delims : Str) : SplitBuffer → Nat
  | .result => countDelims delims str.length str + 1
  | .save => str.length

/-- The second pass: a token is copied to `save`, its NUL behind it, and goes to the next slot. -/
def cutStores (delims : Str) : Nat → Str → List Str → Trace (Cell SplitBuffer) (List Str × Str)
  | 0, tmp, result => pure (result, tmp)
  | n + 1, tmp, result =>
    match strstr tmp delims with
    | none => pure (result, tmp)
    | some tok => do
      storeBlock .save 0 tok
      store .save tok
      store .result result.length
      cutStores delims n (tmp.drop (tok + delims.length)) (result ++ [tmp.take tok])

/-- `strsplit` with its stores. -/
def strsplitStores (str delims : Str) : Trace (Cell SplitBuffer) SplitResult := do
  let count := countDelims delims str.length str + 1
  let (result, tmp) ← cutStores delims str.length str []
  let result ← if tmp ≠ [] then do
      store .result result.length
      pure (result ++ [tmp])
    else
      pure result
  store .result result.length
  pure { slots := result.map some ++ [none], len := count }

theorem next_cutStores (delims : Str) (n : Nat) (tmp : Str) (result : List Str) :
    (cutStores delims n tmp result).next =
      done (result ++ (cutTokens delims n tmp).1, (cutTokens delims n tmp).2) := by
  induction n generalizing tmp result with
  | zero => simp [cutStores, cutTokens]
  | succ n ih =>
    rw [cutStores, cutTokens]
    cases strstr tmp delims with
    | none => simp
    | some tok =>
      simp only [next_bind, next_storeBlock, next_store, done_bind, ih]
      rw [List.append_assoc, List.singleton_append]

theorem next_strsplitStores (str delims : Str) :
    (strsplitStores str delims).next = done (strsplit str delims) := by
  rw [strsplitStores, strsplit, next_bind, next_cutStores, done_bind, List.nil_append]
  by_cases htmp : (cutTokens delims str.length str).2 ≠ []
  · simp [htmp]
  · simp [htmp]

theorem length_slotsOf_le_iff {ps : List Str} (hne : ps ≠ []) :
    (slotsOf ps).length ≤ ps.length ↔ ps.getLast? = some [] := by
  obtain ⟨toks, tmp, rfl⟩ := (List.eq_nil_or_concat' ps).resolve_left hne
  rw [slotsOf_append_singleton, List.getLast?_concat, Option.some.injEq]
  by_cases htmp : tmp = []
  · simp [htmp]
  · simp [htmp]

theorem length_slotsOf_le_succ {ps : List Str} (hne : ps ≠ []) : ps.length ≤ (slotsOf ps).length ∧
    (slotsOf ps).length ≤ ps.length + 1 := by
  obtain ⟨toks, tmp, rfl⟩ := (List.eq_nil_or_concat' ps).resolve_left hne
  rw [slotsOf_append_singleton]
  by_cases htmp : tmp = []
  · simp [htmp]
  · simp [htmp]

theorem fits_cutStores {delims : Str} (hne : delims ≠ []) {capacity : SplitBuffer → Nat} (n : Nat)
    (tmp : Str) (result : List Str) (hsave : tmp.length ≤ capacity .save)
    (hresult : result.length + (cutTokens delims n tmp).1.length ≤ capacity .result) :
    Fits capacity (cutStores delims n tmp result).sent := by
  have hpos := List.length_pos_of_ne_nil hne
  induction n generalizing tmp result with
  | zero => exact fits_nil
  | succ n ih =>
    rw [cutStores]
    rw [cutTokens] at hresult
    cases hfind : strstr tmp delims with
    | none => exact fits_nil
    | some tok =>
      have htok := Delim.find_le hfind
      simp only [hfind, List.length_cons] at hresult
      have hdrop : (tmp.drop (tok + delims.length)).length ≤ capacity .save := by
        rw [List.length_drop]
        omega
      have hnext : (result ++ [tmp.take tok]).length +
          (cutTokens delims n (tmp.drop (tok + delims.length))).1.length ≤ capacity .result := by
        rw [List.length_append, List.length_singleton]
        omega
      rw [fits_bind_of_done rfl, fits_bind_of_done rfl, fits_bind_of_done rfl]
      exact ⟨fits_storeBlock_iff.mpr (by omega), fits_store_iff.mpr (by omega),
        fits_store_iff.mpr (by omega), ih _ _ hdrop hnext⟩

theorem fits_strsplitStores_iff {str delims : Str} (hne : delims ≠ []) {capacity : SplitBuffer → Nat}
    (hsave : str.length ≤ capacity .save) :
    Fits capacity (strsplitStores str delims).sent ↔
      (strsplit str delims).slots.length ≤ capacity .result := by
  have hcut := next_cutStores delims str.length str []
  rw [List.nil_append] at hcut
  rw [strsplitStores, fits_bind_of_done hcut, strsplit]
  generalize hpass : cutTokens delims str.length str = pass at hcut
  obtain ⟨toks, tmp⟩ := pass
  have hfits (h : toks.length ≤ capacity .result) :
      Fits capacity (cutStores delims str.length str []).sent :=
    fits_cutStores hne _ _ _ hsave (by rwa [hpass, List.length_nil, Nat.zero_add])
  by_cases htmp : tmp = []
  · simp only [htmp, ne_eq, not_true_eq_false, if_false, pure_bind, fits_bind_of_done (next_store _ _),
      fits_store_iff, fits_pure, and_true, List.append_nil, List.length_append, List.length_map,
      List.length_singleton]
    constructor
    · exact fun h => h.2
    · exact fun h => ⟨hfits (by omega), h⟩
  · simp only [htmp, ne_eq, not_false_eq_true, if_true, pure_bind,
      fits_bind_of_done (next_store _ _), fits_store_iff, fits_pure, and_true, List.length_append,
      List.length_map, List.length_singleton]
    constructor
    · exact fun h => h.2.2
    · exact fun h => ⟨hfits (by omega), by omega, h⟩

/-- Every store of `strsplit` is inside its buffer. -/
def StoresFit (str delims : Str) : Prop :=
  Fits (splitCapacity str delims) (strsplitStores str delims).sent

/-- **When `strsplit` stays inside its buffers**: when there is no trailing token, so that the NULL has
the slot that was counted for it. -/
theorem strsplit_stores_fit_iff (str delims : Str) (hne : delims ≠ []) :
    StoresFit str delims ↔ Delim.Terminated delims str := by
  rw [StoresFit, fits_strsplitStores_iff hne (show str.length ≤ str.length from le_rfl), splitCapacity,
    countDelims_eq, ← Delim.split, strsplit_eq, tokensOf, length_slotsOf_le_iff
      (Delim.split_ne_nil delims str), Delim.getLast?_split_eq_nil_iff_terminated hne]

theorem strsplit_stores_fit_iff_line :
    lit "\r\n" ≠ [] ∧ (StoresFit (lit "a\r\nb\r\n") (lit "\r\n") ↔
      Delim.Terminated (lit "\r\n") (lit "a\r\nb\r\n")) :=
  ⟨by decide, strsplit_stores_fit_iff _ _ (by decide)⟩

/-- A string without the delimiter is one token, and its NULL is stored behind the one slot. -/
theorem trailing_token_overruns : ¬ ∀ str delims : Str, delims ≠ [] → StoresFit str delims := by
  intro hall
  have hlt := hall (lit "abc") (lit " ") (by decide) ⟨.result, 1⟩ (by decide)
  exact absurd hlt (by decide)

theorem save_fits {str delims : Str} (hne : delims ≠ []) {i : Nat}
    (hi : ⟨.save, i⟩ ∈ (strsplitStores str delims).sent) : i < str.length := by
  let capacity : SplitBuffer → Nat
    | .result => (strsplit str delims).slots.length
    | .save => str.length
  have hfits : Fits capacity (strsplitStores str delims).sent :=
    (fits_strsplitStores_iff hne le_rfl).mpr le_rfl
  exact hfits _ hi

end PwdManLib
