import PwdManLib.Util.DictOrder

/-!
# When `setTuple` refuses

`setTuple` is to refuse a new key when every slot holds a key, and to leave a value behind that `getTuple`
finds otherwise (`Dict.SetsOrRefuses`). In the reachable states, holes and keys behind the window
included, it does so as long as the slot in question has an index an `int` can hold
(`Counts.setsOrRefuses_iff_slotFits`).
-/

namespace PwdManLib

open Exec Refine

variable {V : Type}

namespace Dict

/-- All slots hold keys, and none of them this one. -/
def FullWithout (d : Dict V) (k : Str) : Prop := ∀ t ∈ d.entries, t.key ≠ none ∧ t.key ≠ some k

/-- A key is refused by a full table without it, which stays as it is; any other table takes it, and
`getTuple` finds its value at once. -/
structure SetsOrRefuses (d : Dict V) (k : Str) (v : VoidPtr V) : Prop where
  refuses : (∃ d', d.setTuple (some k) v = done (d', -1)) ↔ d.FullWithout k
  unchanged : ∀ d', d.setTuple (some k) v = done (d', -1) → d' = d
  sets : ¬ d.FullWithout k →
    ∃ d', d.setTuple (some k) v = done (d', 0) ∧ d'.getTuple (some k) = done v

/-- An `int` can hold the index of the slot `setTuple` is to write, if there is one: a slot of the window
that holds the key, or else a free one. -/
def SlotFits (d : Dict V) (k : Str) : Prop :=
  (∃ i < 2 ^ 31, i < d.counter ∧ d.keyAt i = some k) ∨
    d.OutOfWindow k ∧ (d.counter = d.size ∨ ∃ i < 2 ^ 31, d.IsFree i)

variable {d : Dict V} {i : Nat} {k : Str}

/-! ## The three branches of `setTuple` -/

theorem not_fullWithout_of_keyAt (h : d.keyAt i = some k) : ¬ d.FullWithout k := by
  intro hfull
  obtain ⟨w, hw⟩ := keyAt_eq_some_iff.mp h
  exact (hfull _ (List.mem_of_getElem? hw)).2 rfl

theorem not_fullWithout_of_isFree (h : d.IsFree i) : ¬ d.FullWithout k := by
  intro hfull
  obtain ⟨t, ht, hkey⟩ := h
  exact (hfull t (List.mem_of_getElem? ht)).1 hkey

theorem OutOfWindow.fullWithout (h : d.OutOfWindow k) (hd : d.Counts) (hfull : d.counter = d.size) :
    d.FullWithout k := by
  have hall : ∀ t ∈ d.entries, t.key.isSome = true := by
    rw [← List.countP_eq_length, d.length_entries, ← hfull]
    exact hd
  intro t ht
  refine ⟨fun hnone => by simpa [hnone] using hall t ht, fun hkey => ?_⟩
  obtain ⟨i, hi, rfl⟩ := List.getElem_of_mem ht
  apply h i (by rw [hfull, ← d.length_entries]; exact hi)
  rw [keyAt, List.getElem?_eq_getElem hi, Option.bind_some, hkey]

theorem FoundAt.store (h : d.FoundAt i k) (v : VoidPtr V) : (d.store i ⟨some k, v⟩).FoundAt i k := by
  have hkeyAt := keyAt_store (d := d) ⟨some k, v⟩ (lt_size_of_keyAt h.key)
  refine ⟨by rw [hkeyAt, if_pos rfl], h.lt, fun j hj => ?_⟩
  rw [hkeyAt, if_neg (by omega)]
  exact h.first j hj

theorem OutOfWindow.insertAt (h : d.OutOfWindow k) (hd : d.Counts) (hroom : d.counter < d.size)
    (v : VoidPtr V) : (d.insertAt hroom d.firstFree ⟨some k, v⟩).FoundAt d.firstFree k := by
  obtain ⟨hlt, hle⟩ := hd.firstFree_lt hroom
  have hkeyAt := keyAt_store (d := d) ⟨some k, v⟩ hlt
  refine ⟨?_, Nat.lt_succ_of_le hle, fun j hj => ?_⟩
  · show (d.store d.firstFree ⟨some k, v⟩).keyAt d.firstFree = some k
    rw [hkeyAt, if_pos rfl]
  · show (d.store d.firstFree ⟨some k, v⟩).keyAt j ≠ some k
    rw [hkeyAt, if_neg (by omega)]
    exact h j (by omega)

theorem at_store (hi : i < d.size) (v : VoidPtr V) : (d.store i ⟨some k, v⟩).At i k v := by
  rw [at_store_iff _ hi, if_pos rfl]

/-! ## The condition -/

theorem FoundAt.sets_iff (h : d.FoundAt i k) (v : VoidPtr V) :
    d.SetsOrRefuses k v ↔ i < 2 ^ 31 := by
  have hnot := not_fullWithout_of_keyAt h.key
  constructor
  · intro hsets
    obtain ⟨d', hset, -⟩ := hsets.sets hnot
    rw [h.setTuple v] at hset
    by_contra hbig
    rw [if_neg hbig] at hset
    cases hset
  · intro hint
    have hset := h.setTuple v
    rw [if_pos hint] at hset
    have hcode (d' : Dict V) : d.setTuple (some k) v ≠ done (d', -1) := by simp [hset]
    refine ⟨iff_of_false ?_ hnot, fun d' hd' => absurd hd' (hcode d'), fun _ => ⟨_, hset, ?_⟩⟩
    · rintro ⟨d', hd'⟩
      exact hcode d' hd'
    · rw [(h.store v).getTuple (at_store (lt_size_of_keyAt h.key) v), if_pos hint]

theorem OutOfWindow.sets_iff (h : d.OutOfWindow k) (hd : d.Counts) (v : VoidPtr V) :
    d.SetsOrRefuses k v ↔ (d.counter = d.size ∨ d.firstFree < 2 ^ 31) := by
  rcases Nat.lt_or_eq_of_le d.counter_le with hroom | hfull
  · obtain ⟨hlt, -⟩ := hd.firstFree_lt hroom
    have hfree := isFree_firstFree hlt
    have hnot : ¬ d.FullWithout k := not_fullWithout_of_isFree hfree
    have hset := h.setTuple_new hroom hfree v
    have hcode (d' : Dict V) : d.setTuple (some k) v ≠ done (d', -1) := by simp [hset]
    have hget := (h.insertAt hd hroom v).getTuple (at_store hlt v)
    constructor
    · intro hsets
      obtain ⟨d', hset', hget'⟩ := hsets.sets hnot
      rw [hset, done.injEq, Prod.mk.injEq] at hset'
      rw [← hset'.1, hget] at hget'
      right
      by_contra hbig
      rw [if_neg hbig] at hget'
      cases hget'
    · intro hint
      refine ⟨iff_of_false ?_ hnot, fun d' hd' => absurd hd' (hcode d'), fun _ => ⟨_, hset, ?_⟩⟩
      · rintro ⟨d', hd'⟩
        exact hcode d' hd'
      · rw [hget, if_pos (by omega)]
  · have hset := h.setTuple_full hfull v
    refine iff_of_true ⟨?_, fun d' hd' => ?_, fun hnot => ?_⟩ (.inl hfull)
    · exact iff_of_true ⟨d, hset⟩ (h.fullWithout hd hfull)
    · rw [hset, done.injEq, Prod.mk.injEq] at hd'
      exact hd'.1.symm
    · exact absurd (h.fullWithout hd hfull) hnot

theorem Counts.setsOrRefuses_iff_slotFits (hd : d.Counts) (k : Str) (v : VoidPtr V) :
    d.SetsOrRefuses k v ↔ d.SlotFits k := by
  rcases d.found_or_out k with ⟨i, hfound⟩ | hout
  · rw [hfound.sets_iff v]
    constructor
    · intro hint
      exact .inl ⟨i, hint, hfound.lt, hfound.key⟩
    · rintro (⟨j, hint, -, hkey⟩ | ⟨hout, -⟩)
      · by_contra hbig
        exact hfound.first j (by omega) hkey
      · exact absurd hout hfound.not_out
  · rw [hout.sets_iff hd v]
    constructor
    · rintro (hfull | hint)
      · exact .inr ⟨hout, .inl hfull⟩
      · rcases Nat.lt_or_eq_of_le d.counter_le with hroom | hfull
        · exact .inr ⟨hout, .inr ⟨_, hint, isFree_firstFree (hd.firstFree_lt hroom).1⟩⟩
        · exact .inr ⟨hout, .inl hfull⟩
    · rintro (⟨j, -, hj, hkey⟩ | ⟨-, hfull | ⟨j, hint, hfree⟩⟩)
      · exact absurd hkey (hout j hj)
      · exact .inl hfull
      · exact .inr ((firstFree_le hfree).trans_lt hint)

theorem Counts.slotFits_of_small (hd : d.Counts) (hsmall : d.size ≤ 2 ^ 31) (k : Str) : d.SlotFits k := by
  rcases d.found_or_out k with ⟨i, hfound⟩ | hout
  · have hlt := lt_size_of_keyAt hfound.key
    exact .inl ⟨i, by omega, hfound.lt, hfound.key⟩
  · rcases Nat.lt_or_eq_of_le d.counter_le with hroom | hfull
    · have hlt := (hd.firstFree_lt hroom).1
      exact .inr ⟨hout, .inr ⟨d.firstFree, by omega, isFree_firstFree hlt⟩⟩
    · exact .inr ⟨hout, .inl hfull⟩

end Dict

/-- **When `setTuple` sets or refuses as it should**, in any reachable state: when its slot is one `findKey` can
name. -/
theorem setsOrRefuses_iff (size : UInt32) (d : Dict V) (h : d.Reached size) (k : Str)
    (v : VoidPtr V) : d.SetsOrRefuses k v ↔ d.SlotFits k :=
  h.counts.setsOrRefuses_iff_slotFits k v

theorem setsOrRefuses_iff_hole :
    ∃ d : Dict Nat, d.Reached 3 ∧ (d.SetsOrRefuses (lit "c") (.to 3) ↔ d.SlotFits (lit "c")) := by
  let calls : List (DictCall Nat) := [.op (.set (lit "a") (.to 1)), .op (.set (lit "b") (.to 2)),
    .op (.remove (lit "a"))]
  obtain ⟨d, res, hrun⟩ : ∃ d res, run Dict.call (Dict.initDict 3) calls = done (d, res) :=
    ⟨_, _, rfl⟩
  exact ⟨d, ⟨calls, res, hrun⟩, setsOrRefuses_iff 3 d ⟨calls, res, hrun⟩ (lit "c") (.to 3)⟩

/-! ## A table an `int` cannot index -/

theorem run_call_ops (ops : List (DictOp V)) (d : Dict V) :
    run Dict.call d (ops.map .op) = run Dict.step d ops := by
  induction ops generalizing d with
  | nil => rfl
  | cons op ops ih =>
    simp only [List.map_cons, run, ih]
    rfl

theorem exists_reached_filled (size : UInt32) {n : Nat} (hn : n ≤ size.toNat) (hint : n ≤ 2 ^ 31) :
    ∃ (d : Dict Nat) (kvs : List (Str × VoidPtr Nat)), d.Reached size ∧ d.Filled kvs ∧
      kvs.length = n ∧ ∀ p ∈ kvs, p.1.length < n := by
  have hcard : ((manyPairs n).map Prod.fst).toFinset.card = n := by
    rw [List.toFinset_card_of_nodup (nodup_manyPairs n), List.length_map, length_manyPairs]
  have hlen := length_foldl_fillStep size.toNat (manyPairs n)
  rw [hcard, Nat.min_eq_right hn] at hlen
  obtain ⟨d, hrun, hfilled, -⟩ := Dict.run_fill (manyPairs n) (Dict.filled_initDict size)
    (hlen.trans_le hint)
  have hreached : d.Reached size :=
    ⟨((manyPairs n).map setCall).map .op, _, (run_call_ops _ _).trans hrun⟩
  refine ⟨d, _, hreached, hfilled, hlen, fun p hp => ?_⟩
  have hkey := List.mem_map_of_mem (f := Prod.fst) hp
  rw [map_fst_foldl_fillStep] at hkey
  have hmem := List.mem_eraseDups.mp (List.mem_of_mem_take hkey)
  rw [manyPairs, List.map_map, List.mem_map] at hmem
  obtain ⟨i, hi, hkey⟩ := hmem
  have hlt := List.mem_range.mp hi
  rw [← hkey]
  simpa using hlt

/-- A new key for slot `2 ^ 31` is reported as set, and not found. -/
theorem huge_table_loses_key :
    ¬ ∀ (size : UInt32) (d : Dict Nat), d.Reached size → ∀ k v, d.SetsOrRefuses k v := by
  intro hall
  obtain ⟨d, kvs, hreached, hfilled, hlen, hshort⟩ := exists_reached_filled 2147483649
    (n := 2 ^ 31) (by decide) le_rfl
  have hcounter : d.counter = 2 ^ 31 := hfilled.counter.trans hlen
  have hsize : d.size = 2 ^ 31 + 1 := hreached.size_eq
  let k : Str := List.replicate (2 ^ 31) 97
  have hfits := (hreached.counts.setsOrRefuses_iff_slotFits k .null).mp (hall _ d hreached k .null)
  rcases hfits with ⟨i, -, hi, hkey⟩ | ⟨-, hfull | ⟨i, hint, hfree⟩⟩
  · rw [hfilled.keyAt (by omega), List.getElem?_map, Option.map_eq_some_iff] at hkey
    obtain ⟨p, hp, hpk⟩ := hkey
    have hlt := hshort p (List.mem_of_getElem? hp)
    rw [hpk, List.length_replicate] at hlt
    omega
  · omega
  · obtain ⟨t, ht, hkey⟩ := hfree
    rw [hfilled.getElem? (by omega)] at ht
    rw [← Option.some.inj ht] at hkey
    cases hkey

end PwdManLib
