import PwdManLib.Lib.Refine
import PwdManLib.Util.DictSlots
import Mathlib.Data.Finmap

/-!
# The dictionary against a finite map

What the dictionary is for is a finite map bounded by `size` (`mapStep`). `removeTuple` leaves a hole
where the key was and lowers `counter`, while `findKey` scans the first `counter` slots only, so a key
behind the hole drops out of the scanned window: it is still stored, but no call finds it
(`hidden_key`). As long as every call is about a key that is inside the window when it is stored at
all (`InWindow`), the dictionary and the map give the same results (`run_map`).
-/

namespace PwdManLib

open Exec Refine

variable {V : Type}

/-- A call with a key that is not NULL. -/
inductive DictOp (V : Type) where
  | set (key : Str) (val : VoidPtr V)
  | get (key : Str)
  | remove (key : Str)

/-- What a call returns: an `int` code, or a `void *`. -/
inductive DictRes (V : Type) where
  | code (n : Int)
  | ptr (p : VoidPtr V)
  deriving DecidableEq, Repr

namespace DictOp

/-- The key a call is about. -/
def key : DictOp V → Str
  | set k _ => k
  | get k => k
  | remove k => k

end DictOp

/-- One call on a dictionary. -/
def Dict.step (d : Dict V) : DictOp V → Exec (Dict V × DictRes V)
  | .set k v => do
    let (d', n) ← d.setTuple (some k) v
    done (d', .code n)
  | .get k => do
    let p ← d.getTuple (some k)
    done (d, .ptr p)
  | .remove k => do
    let (d', n) ← d.removeTuple (some k)
    done (d', .code n)

/-- A finite map from keys to values. -/
abbrev KeyMap (V : Type) := Finmap fun _ : Str => VoidPtr V

/-- The same call on a finite map that holds at most `size` keys. -/
def mapStep (size : Nat) (M : KeyMap V) : DictOp V → KeyMap V × DictRes V
  | .set k v =>
    if k ∈ M ∨ M.keys.card < size then (M.insert k v, .code 0) else (M, .code (-1))
  | .get k => (M, .ptr ((M.lookup k).getD .minusOne))
  | .remove k => if k ∈ M then (M.erase k, .code 0) else (M, .code (-1))

/-- If the key is stored, then in a slot `findKey` scans and whose index an `int` can hold. -/
def Dict.InWindow (d : Dict V) (k : Str) : Prop :=
  ∀ j v, d.At j k v → j < d.counter ∧ j < 2 ^ 31

instance (d : Dict V) (k : Str) : Decidable (d.InWindow k) :=
  decidable_of_iff
    (∀ j : Fin d.entries.length, (d.entries[j]).key = some k → j.val < d.counter ∧ j.val < 2 ^ 31) <| by
    constructor
    · intro h j v hj
      obtain ⟨hlt, ht⟩ := List.getElem?_eq_some_iff.mp hj
      exact h ⟨j, hlt⟩ (by rw [Fin.getElem_fin, ht])
    · intro h j hkey
      exact h j (d.entries[j]).val (List.getElem?_eq_some_iff.mpr ⟨j.isLt, by rw [← hkey]; rfl⟩)

/-! ## The representation -/

/-- The slots of `d` hold the map `M`, each key in one slot. -/
structure Dict.Holds (d : Dict V) (M : KeyMap V) : Prop where
  lookup : ∀ k v, M.lookup k = some v ↔ ∃ j, d.At j k v
  distinct : ∀ i j k v w, d.At i k v → d.At j k w → i = j
  count : d.occupied = d.counter
  card : M.keys.card = d.counter

namespace Dict

theorem holds_initDict (size : UInt32) : (initDict size : Dict V).Holds ∅ where
  lookup k v := by simp [initDict, List.getElem?_replicate]
  distinct i j k v w hi := by simp [At, initDict, List.getElem?_replicate] at hi
  count := by simp [initDict, occupied, List.countP_replicate]
  card := by simp [initDict]

theorem Holds.mem_iff {d : Dict V} {M : KeyMap V} (h : d.Holds M) (k : Str) :
    k ∈ M ↔ ∃ j v, d.At j k v := by
  rw [Finmap.mem_iff]
  constructor
  · rintro ⟨v, hv⟩
    obtain ⟨j, hj⟩ := (h.lookup k v).mp hv
    exact ⟨j, v, hj⟩
  · rintro ⟨j, v, hj⟩
    exact ⟨v, (h.lookup k v).mpr ⟨j, hj⟩⟩

theorem Holds.not_at {d : Dict V} {M : KeyMap V} (h : d.Holds M) {k : Str} (hk : k ∉ M) (j : Nat)
    (v : VoidPtr V) : ¬ d.At j k v := fun hj => hk ((h.mem_iff k).mpr ⟨j, v, hj⟩)

theorem Holds.foundAt {d : Dict V} {M : KeyMap V} (h : d.Holds M) {k : Str} (hmem : k ∈ M)
    (hw : d.InWindow k) : ∃ j v, d.At j k v ∧ d.FoundAt j k ∧ j < 2 ^ 31 := by
  obtain ⟨j, v, hj⟩ := (h.mem_iff k).mp hmem
  obtain ⟨hlt, hint⟩ := hw j v hj
  refine ⟨j, v, hj, ⟨hj.keyAt, hlt, fun i hi hkey => ?_⟩, hint⟩
  obtain ⟨w, hiw⟩ := keyAt_eq_some_iff.mp hkey
  have heq := h.distinct i j k w v hiw hj
  omega

theorem Holds.outOfWindow {d : Dict V} {M : KeyMap V} (h : d.Holds M) {k : Str} (hk : k ∉ M) :
    d.OutOfWindow k := by
  intro i _ hkey
  obtain ⟨w, hw⟩ := keyAt_eq_some_iff.mp hkey
  exact hk ((h.mem_iff k).mpr ⟨i, w, hw⟩)

/-! ## Writing one slot -/

theorem lookup_store {d : Dict V} {M : KeyMap V} (h : d.Holds M) {j : Nat} {k : Str} (hlt : j < d.size)
    (hown : ∀ k', d.keyAt j = some k' → k' = k) (hno : ∀ i v, i ≠ j → ¬ d.At i k v) (v : VoidPtr V)
    (k' : Str) (v' : VoidPtr V) :
    (M.insert k v).lookup k' = some v' ↔ ∃ i, (d.store j ⟨some k, v⟩).At i k' v' := by
  simp only [at_store_iff _ hlt]
  by_cases hk : k' = k
  · subst hk
    rw [Finmap.lookup_insert]
    constructor
    · intro hv
      exact ⟨j, by rw [if_pos rfl, Option.some.inj hv]⟩
    · rintro ⟨i, hi⟩
      by_cases hij : i = j
      · rw [if_pos hij] at hi
        simpa using hi
      · rw [if_neg hij] at hi
        exact absurd hi (hno i v' hij)
  · rw [Finmap.lookup_insert_of_ne _ hk, h.lookup]
    refine exists_congr fun i => ?_
    by_cases hij : i = j
    · rw [if_pos hij]
      apply iff_of_false (fun hi => hk (hown k' (hij ▸ hi.keyAt)))
      simp [Ne.symm hk]
    · rw [if_neg hij]

theorem lookup_vacate {d : Dict V} {M : KeyMap V} (h : d.Holds M) {j : Nat} {k : Str} {v : VoidPtr V}
    (hj : d.At j k v) (k' : Str) (v' : VoidPtr V) :
    (M.erase k).lookup k' = some v' ↔ ∃ i, (d.store j ⟨none, .null⟩).At i k' v' := by
  simp only [at_store_iff _ (lt_size_of_keyAt hj.keyAt)]
  by_cases hk : k' = k
  · subst hk
    rw [Finmap.lookup_erase]
    apply iff_of_false (by simp)
    rintro ⟨i, hi⟩
    by_cases hij : i = j
    · simp [if_pos hij] at hi
    · rw [if_neg hij] at hi
      exact hij (h.distinct i j k' v' v hi hj)
  · rw [Finmap.lookup_erase_ne hk, h.lookup]
    refine exists_congr fun i => ?_
    by_cases hij : i = j
    · rw [if_pos hij]
      refine iff_of_false (fun hi => hk ?_) (by simp)
      exact Option.some.inj ((hij ▸ hi.keyAt).symm.trans hj.keyAt)
    · rw [if_neg hij]

theorem distinct_store {d : Dict V} {M : KeyMap V} (h : d.Holds M) {j : Nat} {t : Tuple V}
    (hlt : j < d.size) (hno : ∀ k i v, t.key = some k → i ≠ j → ¬ d.At i k v) :
    ∀ i i' k v w, (d.store j t).At i k v → (d.store j t).At i' k w → i = i' := by
  intro i i' k v w hi hi'
  rw [at_store_iff t hlt] at hi hi'
  by_cases hij : i = j
  · by_cases hij' : i' = j
    · rw [hij, hij']
    · rw [if_pos hij] at hi
      rw [if_neg hij'] at hi'
      exact absurd hi' (hno k i' w (by rw [hi]) hij')
  · by_cases hij' : i' = j
    · rw [if_neg hij] at hi
      rw [if_pos hij'] at hi'
      exact absurd hi (hno k i v (by rw [hi']) hij)
    · rw [if_neg hij] at hi
      rw [if_neg hij'] at hi'
      exact h.distinct i i' k v w hi hi'

/-! ## One call -/

theorem keys_insert (M : KeyMap V) (k : Str) (v : VoidPtr V) :
    (M.insert k v).keys = insert k M.keys := by
  ext a
  rw [Finmap.mem_keys, Finmap.mem_insert, Finset.mem_insert, Finmap.mem_keys]

theorem Holds.update {d : Dict V} {M : KeyMap V} (h : d.Holds M) {j : Nat} {k : Str} {v₀ : VoidPtr V}
    (hj : d.At j k v₀) (v : VoidPtr V) : (d.store j ⟨some k, v⟩).Holds (M.insert k v) := by
  have hlt := lt_size_of_keyAt hj.keyAt
  have hother : ∀ i w, i ≠ j → ¬ d.At i k w := fun i w hij hi => hij (h.distinct i j k w v₀ hi hj)
  refine ⟨lookup_store h hlt ?_ hother v, distinct_store h hlt ?_, ?_, ?_⟩
  · intro k' hk'
    exact Option.some.inj (hk'.symm.trans hj.keyAt)
  · intro k' i w hk' hij
    obtain rfl := Option.some.inj hk'
    exact hother i w hij
  · exact (occupied_update hj.keyAt v).trans h.count
  · have hmem : k ∈ M.keys := Finmap.mem_keys.mpr ((h.mem_iff k).mpr ⟨j, v₀, hj⟩)
    rw [keys_insert, Finset.insert_eq_of_mem hmem]
    exact h.card

theorem Holds.insert {d : Dict V} {M : KeyMap V} (h : d.Holds M) {k : Str} (hk : k ∉ M)
    (hroom : d.counter < d.size) (hfree : d.IsFree d.firstFree) (v : VoidPtr V) :
    (d.insertAt hroom d.firstFree ⟨some k, v⟩).Holds (M.insert k v) := by
  have hno := h.not_at hk
  refine ⟨lookup_store h hfree.lt_size ?_ (fun i w _ => hno i w) v, distinct_store h hfree.lt_size ?_, ?_, ?_⟩
  · intro k' hk'
    rw [hfree.keyAt] at hk'
    cases hk'
  · intro k' i w hk' _
    obtain rfl := Option.some.inj hk'
    exact hno i w
  · have hocc := occupied_insert hfree k v
    rw [h.count] at hocc
    exact hocc
  · rw [keys_insert, Finset.card_insert_of_notMem (mt Finmap.mem_keys.mp hk), h.card]
    rfl

theorem Holds.vacate {d : Dict V} {M : KeyMap V} (h : d.Holds M) {j : Nat} {k : Str} {v : VoidPtr V}
    (hj : d.At j k v) : (d.vacate j).Holds (M.erase k) := by
  refine ⟨lookup_vacate h hj, distinct_store h (lt_size_of_keyAt hj.keyAt) ?_, ?_, ?_⟩
  · intro k' i w hk'
    cases hk'
  · have hocc := occupied_vacate hj.keyAt
    rw [h.count] at hocc
    exact hocc
  · have hmem : k ∈ M.keys := Finmap.mem_keys.mpr ((h.mem_iff k).mpr ⟨j, v, hj⟩)
    rw [Finmap.keys_erase, Finset.card_erase_of_mem hmem, h.card]
    rfl

theorem set_map {d : Dict V} {M : KeyMap V} (h : d.Holds M) {k : Str} (hw : d.InWindow k)
    (v : VoidPtr V) :
    ∃ d', d.step (.set k v) = done (d', (mapStep d.size M (.set k v)).2) ∧
      d'.Holds (mapStep d.size M (.set k v)).1 ∧ d'.size = d.size := by
  by_cases hmem : k ∈ M
  · obtain ⟨j, v₀, hj, hfound, hint⟩ := h.foundAt hmem hw
    rw [step, hfound.setTuple, if_pos hint, mapStep, if_pos (Or.inl hmem)]
    exact ⟨d.store j ⟨some k, v⟩, rfl, h.update hj v, rfl⟩
  · have hout := h.outOfWindow hmem
    rcases Nat.lt_or_eq_of_le d.counter_le with hroom | hfull
    · have hfree : d.IsFree d.firstFree :=
        isFree_firstFree (d.firstFree_le_occupied.trans_lt (h.count.trans_lt hroom))
      rw [step, hout.setTuple_new hroom hfree, mapStep, h.card, if_pos (Or.inr hroom)]
      exact ⟨_, rfl, h.insert hmem hroom hfree v, rfl⟩
    · rw [step, hout.setTuple_full hfull, mapStep, h.card, if_neg (not_or.mpr ⟨hmem, by omega⟩)]
      exact ⟨d, rfl, h, rfl⟩

theorem get_map {d : Dict V} {M : KeyMap V} (h : d.Holds M) {k : Str} (hw : d.InWindow k) :
    d.step (.get k) = done (d, (mapStep d.size M (.get k)).2) := by
  by_cases hmem : k ∈ M
  · obtain ⟨j, v, hj, hfound, hint⟩ := h.foundAt hmem hw
    rw [step, hfound.getTuple hj, if_pos hint, mapStep, (h.lookup k v).mpr ⟨j, hj⟩]
    rfl
  · rw [step, (h.outOfWindow hmem).getTuple, mapStep, Finmap.lookup_eq_none.mpr hmem]
    rfl

theorem remove_map {d : Dict V} {M : KeyMap V} (h : d.Holds M) {k : Str} (hw : d.InWindow k) :
    ∃ d', d.step (.remove k) = done (d', (mapStep d.size M (.remove k)).2) ∧
      d'.Holds (mapStep d.size M (.remove k)).1 ∧ d'.size = d.size := by
  by_cases hmem : k ∈ M
  · obtain ⟨j, v, hj, hfound, hint⟩ := h.foundAt hmem hw
    rw [step, hfound.removeTuple, if_pos hint, mapStep, if_pos hmem]
    exact ⟨d.vacate j, rfl, h.vacate hj, rfl⟩
  · rw [step, (h.outOfWindow hmem).removeTuple, mapStep, if_neg hmem]
    exact ⟨d, rfl, h, rfl⟩

/-- **A call about a key inside the window does what the finite map does.** -/
theorem step_map {d : Dict V} {M : KeyMap V} (h : d.Holds M) (op : DictOp V)
    (hw : d.InWindow op.key) :
    ∃ d', d.step op = done (d', (mapStep d.size M op).2) ∧ d'.Holds (mapStep d.size M op).1 ∧
      d'.size = d.size := by
  cases op with
  | set k v => exact set_map h hw v
  | get k => exact ⟨d, get_map h hw, h, rfl⟩
  | remove k => exact remove_map h hw

/-- Outside the window a stored key is lost: `getTuple` does not give its value (unless that is
`(void *) -1`), and `removeTuple` does not report success. -/
theorem hidden_key {d : Dict V} {M : KeyMap V} (h : d.Holds M) {k : Str} (hw : ¬ d.InWindow k) :
    k ∈ M ∧ (∀ v, M.lookup k = some v → d.getTuple (some k) = done v → v = .minusOne) ∧
      ∀ d', d.removeTuple (some k) ≠ done (d', 0) := by
  simp only [InWindow, not_forall, not_and_or, Nat.not_lt] at hw
  obtain ⟨j, v, hj, hout⟩ := hw
  refine ⟨(h.mem_iff k).mpr ⟨j, v, hj⟩, ?_⟩
  rcases d.found_or_out k with ⟨i, hfound⟩ | hmissed
  · -- found, but at an index the `int` cannot hold
    obtain ⟨w, hi⟩ := keyAt_eq_some_iff.mp hfound.key
    obtain rfl := h.distinct i j k w v hi hj
    have hlt := hfound.lt
    have hint : ¬ i < 2 ^ 31 := by omega
    rw [hfound.getTuple hi, hfound.removeTuple, if_neg hint, if_neg hint]
    exact ⟨by simp, by simp⟩
  · rw [hmissed.getTuple, hmissed.removeTuple]
    exact ⟨fun v' _ hget => (done.inj hget).symm, by simp⟩

end Dict

/-! ## Whole runs -/

/-- The run of calls `ops` on a new dictionary gives the results a map of at most `size` keys gives. -/
def DictRun.Agrees (size : UInt32) (ops : List (DictOp V)) : Prop :=
  ∃ d, run Dict.step (Dict.initDict size) ops =
    done (d, (specRun (mapStep size.toNat) ∅ ops).2)

/-- Every call of the run finds its key inside the window, if the key is stored. -/
def DictRun.InWindow (size : UInt32) (ops : List (DictOp V)) : Prop :=
  Guarded Dict.step (fun d op => d.InWindow op.key) (Dict.initDict size) ops

instance (size : UInt32) (ops : List (DictOp V)) : Decidable (DictRun.InWindow size ops) :=
  decidableGuarded _ _ _ _

/-- **The dictionary is a bounded finite map** in every run whose calls stay inside the window, and
at its end the slots hold the map. -/
theorem run_map (size : UInt32) (ops : List (DictOp V)) (h : DictRun.InWindow size ops) :
    ∃ d, run Dict.step (Dict.initDict size) ops =
        done (d, (specRun (mapStep size.toNat) ∅ ops).2) ∧
      d.Holds (specRun (mapStep size.toNat) ∅ ops).1 := by
  obtain ⟨d, hrun, hholds, -⟩ := run_refines
    (S := fun d M => d.Holds M ∧ d.size = size.toNat)
    (fun d M op hrel hw => by
      obtain ⟨d', hstep, hd', hsize⟩ := Dict.step_map hrel.1 op hw
      rw [hrel.2] at hstep hd' hsize
      exact ⟨d', hstep, hd', hsize⟩)
    ops (Dict.initDict size) ∅ ⟨Dict.holds_initDict size, rfl⟩ h
  exact ⟨d, hrun, hholds⟩

theorem dict_agrees_of_inWindow (size : UInt32) (ops : List (DictOp V))
    (h : DictRun.InWindow size ops) : DictRun.Agrees size ops := by
  obtain ⟨d, hrun, -⟩ := run_map size ops h
  exact ⟨d, hrun⟩

theorem dict_agrees_of_inWindow_refill :
    DictRun.InWindow 2 [.set (lit "a") (.to 1), .set (lit "b") (.to 2), .remove (lit "a"),
      .set (lit "c") (.to 3), .get (lit "b")] ∧
    DictRun.Agrees 2 [.set (lit "a") (.to 1), .set (lit "b") (.to 2), .remove (lit "a"),
      .set (lit "c") (.to 3), .get (lit "b")] :=
  have h : DictRun.InWindow 2 [.set (lit "a") (.to 1), .set (lit "b") (.to 2), .remove (lit "a"),
      .set (lit "c") (.to 3), .get (lit "b")] := by decide
  ⟨h, dict_agrees_of_inWindow 2 _ h⟩

/-- Removing the first of two keys hides the second one. -/
theorem dict_hides_key : ¬ ∀ (size : UInt32) (ops : List (DictOp Nat)), DictRun.Agrees size ops := by
  intro h
  obtain ⟨d, hd⟩ := h 2 [.set (lit "a") (.to 1), .set (lit "b") (.to 2), .remove (lit "a"),
    .get (lit "b")]
  have hres := congrArg (Prod.snd <$> ·) hd
  revert hres
  simp only [map_done]
  decide

end PwdManLib
