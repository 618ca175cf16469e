import PwdManLib.Util.Dict
import Mathlib.Data.Finset.Card

/-!
# A dictionary that is only filled

Without removals the occupied slots are the first `counter` ones, so the table is a list of pairs in
the order of their first insertion (`Dict.Filled`) and `setTuple` is `fillStep` on that list as long as
the `int` of `findKey` holds every index. This is how `parseRequest` uses its two dictionaries. Their
sizes are far below `2 ^ 31` (`Dict.Lists`).
-/

namespace PwdManLib

open Exec

variable {V : Type}

/-- Set a pair in a list that holds at most `size` of them: in the place of its key, or at the end
while there is room. -/
def fillStep (size : Nat) (kvs : List (Str × VoidPtr V)) (kv : Str × VoidPtr V) :
    List (Str × VoidPtr V) :=
  match kvs.findIdx? fun p => p.1 == kv.1 with
  | some i => kvs.set i kv
  | none => if kvs.length < size then kvs ++ [kv] else kvs

/-- The slot of a pair. -/
def pairTuple (p : Str × VoidPtr V) : Tuple V := ⟨some p.1, p.2⟩

/-- The table holds the pairs `kvs` in its first slots and nothing behind them. -/
structure Dict.Filled (d : Dict V) (kvs : List (Str × VoidPtr V)) : Prop where
  entries : d.entries = kvs.map pairTuple ++ List.replicate (d.size - kvs.length) ⟨none, .null⟩
  counter : d.counter = kvs.length

/-- A filled table with indices that are no problem for an `int`. -/
structure Dict.Lists (d : Dict V) (kvs : List (Str × VoidPtr V)) : Prop extends d.Filled kvs where
  size_le : d.size ≤ 2 ^ 31

theorem lookup_cons_eq (kv : Str × VoidPtr V) (kvs : List (Str × VoidPtr V)) (k : Str) :
    (kv :: kvs).lookup k = if k = kv.1 then some kv.2 else kvs.lookup k := by
  rw [List.lookup_cons]
  by_cases hk : k = kv.1
  · rw [if_pos hk, beq_iff_eq.mpr hk]
  · rw [if_neg hk, beq_eq_false_iff_ne.mpr hk]

theorem lookup_eq_none {kvs : List (Str × VoidPtr V)} {k : Str} (h : k ∉ kvs.map Prod.fst) :
    kvs.lookup k = none := by
  rw [List.lookup_eq_none_iff]
  intro p hp
  rw [bne_iff_ne]
  exact fun he => h (he ▸ List.mem_map_of_mem hp)

theorem eraseDups_append_singleton (ks : List Str) (k : Str) :
    (ks ++ [k]).eraseDups = if k ∈ ks then ks.eraseDups else ks.eraseDups ++ [k] := by
  rw [List.eraseDups_append]
  split_ifs with hmem <;> simp [List.removeAll, hmem, List.eraseDups_cons]

theorem nodup_eraseDups (ks : List Str) : ks.eraseDups.Nodup := by
  induction ks using List.reverseRecOn with
  | nil => exact List.nodup_nil
  | append_singleton ks k ih =>
    rw [eraseDups_append_singleton]
    split_ifs with hmem
    · exact ih
    · rw [List.nodup_append]
      refine ⟨ih, List.nodup_singleton k, ?_⟩
      rintro x hx y hy rfl
      exact hmem (List.mem_singleton.mp hy ▸ List.mem_eraseDups.mp hx)

theorem length_eraseDups (ks : List Str) : ks.eraseDups.length = ks.toFinset.card := by
  rw [← List.toFinset_card_of_nodup (nodup_eraseDups ks)]
  congr 1
  ext k
  rw [List.mem_toFinset, List.mem_toFinset, List.mem_eraseDups]

theorem findIdx?_isSome_iff (kvs : List (Str × VoidPtr V)) (k : Str) :
    (∃ i, (kvs.findIdx? fun p => p.1 == k) = some i) ↔ k ∈ kvs.map Prod.fst := by
  rw [← Option.isSome_iff_exists, List.findIdx?_isSome, List.any_eq_true, List.mem_map]
  simp only [beq_iff_eq]

theorem map_fst_set {kvs : List (Str × VoidPtr V)} {i : Nat} {kv : Str × VoidPtr V}
    (hi : (kvs.findIdx? fun p => p.1 == kv.1) = some i) :
    (kvs.set i kv).map Prod.fst = kvs.map Prod.fst := by
  obtain ⟨hlt, hkey, -⟩ := List.findIdx?_eq_some_iff_getElem.mp hi
  have hkey' : (kvs.map Prod.fst).get ⟨i, by simpa using hlt⟩ = kv.1 := by simpa using hkey
  rw [List.map_set, ← hkey', List.get_eq_getElem, List.set_getElem_self]

theorem lookup_set {kvs : List (Str × VoidPtr V)} {i : Nat} {kv : Str × VoidPtr V}
    (hi : (kvs.findIdx? fun p => p.1 == kv.1) = some i) (k : Str) :
    (kvs.set i kv).lookup k = if k = kv.1 then some kv.2 else kvs.lookup k := by
  induction kvs generalizing i with
  | nil => simp at hi
  | cons p kvs ih =>
    rw [List.findIdx?_cons] at hi
    by_cases hp : p.1 = kv.1
    · obtain rfl : 0 = i := by simpa [hp] using hi
      rw [List.set_cons_zero, lookup_cons_eq, lookup_cons_eq, hp]
      by_cases hk : k = kv.1 <;> simp [hk]
    · obtain ⟨j, hj, rfl⟩ : ∃ j, (kvs.findIdx? fun p => p.1 == kv.1) = some j ∧ j + 1 = i := by
        simpa [hp] using hi
      rw [List.set_cons_succ, lookup_cons_eq, ih hj, lookup_cons_eq]
      by_cases hk : k = kv.1
      · rw [hk, if_neg (Ne.symm hp), if_pos rfl, if_pos rfl]
      · rw [if_neg hk, if_neg hk]

theorem map_fst_fillStep (size : Nat) (kvs : List (Str × VoidPtr V)) (kv : Str × VoidPtr V) :
    (fillStep size kvs kv).map Prod.fst =
      if kv.1 ∉ kvs.map Prod.fst ∧ kvs.length < size then kvs.map Prod.fst ++ [kv.1]
      else kvs.map Prod.fst := by
  unfold fillStep
  cases hi : kvs.findIdx? fun p => p.1 == kv.1 with
  | some i =>
    have hmem := (findIdx?_isSome_iff kvs kv.1).mp ⟨i, hi⟩
    simp only [hmem, not_true_eq_false, false_and, if_false]
    exact map_fst_set hi
  | none =>
    have hfresh : kv.1 ∉ kvs.map Prod.fst := by
      rw [← findIdx?_isSome_iff, hi]
      simp
    by_cases hroom : kvs.length < size
    · simp only [hfresh, hroom, not_false_eq_true, and_self, if_true, List.map_append,
        List.map_singleton]
    · simp only [hroom, and_false, if_false]

theorem lookup_fillStep (size : Nat) (kvs : List (Str × VoidPtr V)) (kv : Str × VoidPtr V) (k : Str) :
    (fillStep size kvs kv).lookup k =
      if k = kv.1 ∧ (kv.1 ∈ kvs.map Prod.fst ∨ kvs.length < size) then some kv.2
      else kvs.lookup k := by
  unfold fillStep
  cases hi : kvs.findIdx? fun p => p.1 == kv.1 with
  | some i =>
    have hmem := (findIdx?_isSome_iff kvs kv.1).mp ⟨i, hi⟩
    simp only [hmem, true_or, and_true]
    exact lookup_set hi k
  | none =>
    have hfresh : kv.1 ∉ kvs.map Prod.fst := by
      rw [← findIdx?_isSome_iff, hi]
      simp
    by_cases hroom : kvs.length < size
    · simp only [hroom, or_true, and_true, if_true, List.lookup_append, lookup_cons_eq,
        List.lookup_nil]
      by_cases hk : k = kv.1
      · simp [hk, lookup_eq_none hfresh]
      · simp [hk]
    · simp [hfresh, hroom]

/-! ### Filling a table -/

theorem map_fst_prefix_foldl (size : Nat) (kvs acc : List (Str × VoidPtr V)) :
    acc.map Prod.fst <+: (kvs.foldl (fillStep size) acc).map Prod.fst := by
  induction kvs generalizing acc with
  | nil => exact List.prefix_rfl
  | cons kv kvs ih =>
    refine List.IsPrefix.trans ?_ (ih (fillStep size acc kv))
    rw [map_fst_fillStep]
    split_ifs
    · exact List.prefix_append _ _
    · exact List.prefix_rfl

theorem map_fst_foldl_of_full {size : Nat} (kvs : List (Str × VoidPtr V))
    {acc : List (Str × VoidPtr V)} (hfull : size ≤ acc.length) :
    (kvs.foldl (fillStep size) acc).map Prod.fst = acc.map Prod.fst := by
  induction kvs generalizing acc with
  | nil => rfl
  | cons kv kvs ih =>
    have hkeys : (fillStep size acc kv).map Prod.fst = acc.map Prod.fst := by
      rw [map_fst_fillStep, if_neg]
      omega
    have hlen := congrArg List.length hkeys
    rw [List.length_map, List.length_map] at hlen
    rw [List.foldl_cons, ih (by omega), hkeys]

theorem mem_keys_foldl_fillStep (size : Nat) (kvs acc : List (Str × VoidPtr V)) (kv : Str × VoidPtr V) :
    kv.1 ∈ ((kv :: kvs).foldl (fillStep size) acc).map Prod.fst ↔
      kv.1 ∈ acc.map Prod.fst ∨ acc.length < size := by
  constructor
  · intro hmem
    by_contra hno
    push Not at hno
    rw [map_fst_foldl_of_full _ hno.2] at hmem
    exact hno.1 hmem
  · intro hin
    apply (map_fst_prefix_foldl size kvs (fillStep size acc kv)).subset
    rw [map_fst_fillStep]
    split_ifs with hnew
    · simp
    · tauto

/-- **The keys of a filled table** are the first `size` distinct ones, in the order in which they come. -/
theorem map_fst_foldl_fillStep (size : Nat) (kvs : List (Str × VoidPtr V)) :
    (kvs.foldl (fillStep size) []).map Prod.fst = (kvs.map Prod.fst).eraseDups.take size := by
  induction kvs using List.reverseRecOn with
  | nil => simp
  | append_singleton kvs kv ih =>
    have hlen := congrArg List.length ih
    rw [List.length_map, List.length_take] at hlen
    rw [List.foldl_append, List.foldl_cons, List.foldl_nil, map_fst_fillStep, ih, List.map_append,
      List.map_singleton, eraseDups_append_singleton]
    by_cases hmem : kv.1 ∈ kvs.map Prod.fst
    · rw [if_pos hmem, if_neg]
      rintro ⟨hnew, hroom⟩
      rw [List.take_of_length_le (by omega), List.mem_eraseDups] at hnew
      exact hnew hmem
    · have hnew : kv.1 ∉ (kvs.map Prod.fst).eraseDups.take size := fun h =>
        hmem (List.mem_eraseDups.mp (List.mem_of_mem_take h))
      rw [if_neg hmem]
      split_ifs with hroom
      · rw [List.take_of_length_le (by omega), List.take_of_length_le]
        rw [List.length_append, List.length_singleton]
        omega
      · rw [List.take_append_of_le_length]
        have hfull := mt (And.intro hnew) hroom
        omega

/-- **The values of a filled table**: every key in it has its last value. -/
theorem lookup_foldl_fillStep (size : Nat) (kvs : List (Str × VoidPtr V)) (k : Str) :
    (kvs.foldl (fillStep size) []).lookup k =
      if k ∈ (kvs.foldl (fillStep size) []).map Prod.fst then kvs.reverse.lookup k else none := by
  induction kvs using List.reverseRecOn with
  | nil => simp
  | append_singleton kvs kv ih =>
    rw [List.foldl_append, List.foldl_cons, List.foldl_nil, lookup_fillStep, map_fst_fillStep,
      List.reverse_append, List.reverse_singleton, List.singleton_append, lookup_cons_eq, ih]
    by_cases hk : k = kv.1
    · subst hk
      split_ifs <;> simp_all
    · have hmem : k ∈ (kvs.foldl (fillStep size) []).map Prod.fst ++ [kv.1] ↔
          k ∈ (kvs.foldl (fillStep size) []).map Prod.fst := by simp [hk]
      simp only [hk, false_and, if_false]
      split_ifs <;> simp_all

theorem lookup_filled {size : Nat} (kvs : List (Str × VoidPtr V))
    (hroom : (kvs.map Prod.fst).toFinset.card ≤ size) (k : Str) :
    (kvs.foldl (fillStep size) []).lookup k = kvs.reverse.lookup k := by
  have hlen : (kvs.map Prod.fst).eraseDups.length ≤ size := by
    rwa [length_eraseDups]
  rw [lookup_foldl_fillStep, map_fst_foldl_fillStep, List.take_of_length_le hlen]
  split_ifs with hmem
  · rfl
  · rw [lookup_eq_none]
    simpa using hmem

theorem lookup_of_mem {kvs : List (Str × VoidPtr V)} (hnodup : (kvs.map Prod.fst).Nodup)
    {p : Str × VoidPtr V} (hp : p ∈ kvs) : kvs.lookup p.1 = some p.2 := by
  obtain ⟨l₁, l₂, rfl⟩ := List.append_of_mem hp
  refine List.lookup_eq_some_iff.mpr ⟨l₁, l₂, rfl, ?_⟩
  intro x hx
  rw [List.map_append, List.nodup_append] at hnodup
  rw [bne_iff_ne]
  exact (hnodup.2.2 x.1 (List.mem_map_of_mem hx) p.1 (by simp)).symm

theorem lookup_eq_findIdx? (kvs : List (Str × VoidPtr V)) (k : Str) :
    kvs.lookup k = (kvs.findIdx? fun p => p.1 == k).bind fun i => kvs[i]?.map Prod.snd := by
  induction kvs with
  | nil => rfl
  | cons p kvs ih =>
    rw [List.lookup_cons, List.findIdx?_cons, ih, BEq.comm (a := k)]
    cases p.1 == k with
    | true => rfl
    | false => cases kvs.findIdx? fun p => p.1 == k <;> rfl

namespace Dict

variable {d : Dict V} {kvs : List (Str × VoidPtr V)}

theorem filled_initDict (size : UInt32) : (initDict size : Dict V).Filled [] where
  entries := rfl
  counter := rfl

theorem Filled.length_le (h : d.Filled kvs) : kvs.length ≤ d.size := h.counter ▸ d.counter_le

theorem Filled.findKey (h : d.Filled kvs) (k : Str) :
    d.findKey (some k) =
      match kvs.findIdx? fun p => p.1 == k with
      | some i => toInt i
      | none => -1 := by
  have htake : d.entries.take d.counter = kvs.map pairTuple := by
    rw [h.entries, h.counter]
    exact List.take_left' (List.length_map _)
  rw [Dict.findKey, htake, List.findIdx?_map]
  rfl

theorem Filled.getElem? (h : d.Filled kvs) {i : Nat} (hi : i < kvs.length) :
    d.entries[i]? = some (pairTuple kvs[i]) := by
  rw [h.entries, List.getElem?_append_left (by simpa using hi), List.getElem?_map,
    List.getElem?_eq_getElem hi]
  rfl

theorem Filled.getElem?_of_ge (h : d.Filled kvs) {i : Nat} (hi : kvs.length ≤ i) (hroom : i < d.size) :
    d.entries[i]? = some ⟨none, .null⟩ := by
  have hlen : (kvs.map pairTuple).length = kvs.length := List.length_map _
  rw [h.entries, List.getElem?_append_right (by omega), hlen, List.getElem?_replicate,
    if_pos (by omega)]

theorem Filled.firstFree (h : d.Filled kvs) (hroom : kvs.length < d.size) :
    d.firstFree = kvs.length := by
  obtain ⟨n, hn⟩ : ∃ n, d.size - kvs.length = n + 1 := ⟨d.size - kvs.length - 1, by omega⟩
  rw [Dict.firstFree, h.entries, hn, List.findIdx_append, List.findIdx_eq_length_of_false]
  · simp [List.replicate_succ, List.findIdx_cons]
  · intro t ht
    obtain ⟨p, -, rfl⟩ := List.mem_map.mp ht
    rfl

theorem setTuple_filled_some (h : d.Filled kvs) (k : Str) (v : VoidPtr V) {i : Nat}
    (hi : (kvs.findIdx? fun p => p.1 == k) = some i) (hint : i < 2 ^ 31) :
    d.setTuple (some k) v = done (d.store i ⟨some k, v⟩, 0) ∧
      (d.store i ⟨some k, v⟩).Filled (kvs.set i (k, v)) := by
  obtain ⟨hlt, hkey, -⟩ := List.findIdx?_eq_some_iff_getElem.mp hi
  have hkey' : (kvs[i]).1 = k := by simpa using hkey
  refine ⟨?_, ?_, ?_⟩
  · simp only [setTuple, h.findKey, hi, toInt_of_lt hint, slot_of_getElem? (h.getElem? hlt)]
    rw [if_pos (by omega), done_bind, ← hkey']
    rfl
  · show d.entries.set i (pairTuple (k, v)) = _
    rw [h.entries, List.set_append_left _ _ (by simpa using hlt), ← List.map_set, List.length_set]
    rfl
  · show d.counter = _
    rw [h.counter, List.length_set]

theorem setTuple_filled_none (h : d.Filled kvs) (k : Str) (v : VoidPtr V)
    (hi : (kvs.findIdx? fun p => p.1 == k) = none) (hroom : kvs.length < d.size) :
    ∃ d', d.setTuple (some k) v = done (d', 0) ∧ d'.Filled (kvs ++ [(k, v)]) ∧ d'.size = d.size := by
  have hc : d.counter < d.size := by rwa [h.counter]
  refine ⟨{ d.store kvs.length ⟨some k, v⟩ with counter := d.counter + 1, counter_le := hc },
    ?_, ⟨?_, ?_⟩, rfl⟩
  · simp only [setTuple, h.findKey, hi, dif_pos hc, h.firstFree hroom,
      slot_of_getElem? (h.getElem?_of_ge le_rfl hroom)]
    rfl
  · obtain ⟨n, hn⟩ : ∃ n, d.size = kvs.length + 1 + n := ⟨d.size - kvs.length - 1, by omega⟩
    have hn₁ : d.size - kvs.length = n + 1 := by omega
    have hn₂ : d.size - (kvs ++ [(k, v)]).length = n := by
      rw [List.length_append, List.length_singleton]
      omega
    show d.entries.set kvs.length (pairTuple (k, v)) = _ ++ List.replicate (d.size - _) _
    rw [hn₂, h.entries, hn₁, List.set_append_right _ _ (by simp)]
    simp [List.replicate_succ]
  · show d.counter + 1 = _
    rw [h.counter, List.length_append, List.length_singleton]

theorem setTuple_filled (h : d.Filled kvs) (hint : kvs.length ≤ 2 ^ 31) (k : Str) (v : VoidPtr V) :
    ∃ d', d.setTuple (some k) v =
        done (d', if k ∈ kvs.map Prod.fst ∨ kvs.length < d.size then 0 else -1) ∧
      d'.Filled (fillStep d.size kvs (k, v)) ∧ d'.size = d.size := by
  unfold fillStep
  cases hi : kvs.findIdx? fun p => p.1 == k with
  | some i =>
    have hlt := (List.findIdx?_eq_some_iff_getElem.mp hi).1
    obtain ⟨hset, hfilled⟩ := setTuple_filled_some h k v hi (by omega)
    have hmem := (findIdx?_isSome_iff kvs k).mp ⟨i, hi⟩
    exact ⟨_, by rw [hset, if_pos (.inl hmem)], hfilled, rfl⟩
  | none =>
    have hfresh : k ∉ kvs.map Prod.fst := by
      rw [← findIdx?_isSome_iff, hi]
      simp
    by_cases hroom : kvs.length < d.size
    · obtain ⟨d', hset, hfilled, hsize⟩ := setTuple_filled_none h k v hi hroom
      exact ⟨d', by rw [hset, if_pos (.inr hroom)], by simpa only [if_pos hroom] using hfilled, hsize⟩
    · refine ⟨d, ?_, by simpa only [if_neg hroom] using h, rfl⟩
      have hc : ¬ d.counter < d.size := by rwa [h.counter]
      rw [if_neg (not_or.mpr ⟨hfresh, hroom⟩)]
      simp only [setTuple, h.findKey, hi, dif_neg hc]
      rfl

theorem getTuple_filled (h : d.Filled kvs) (hint : kvs.length ≤ 2 ^ 31) (k : Str) :
    d.getTuple (some k) = done ((kvs.lookup k).getD .minusOne) := by
  rw [getTuple, h.findKey, lookup_eq_findIdx?]
  cases hi : kvs.findIdx? fun p => p.1 == k with
  | none => rfl
  | some i =>
    obtain ⟨hlt, -⟩ := List.findIdx?_eq_some_iff_getElem.mp hi
    simp only [toInt_of_lt (by omega : i < 2 ^ 31), slot_of_getElem? (h.getElem? hlt), Option.bind_some,
      List.getElem?_eq_getElem hlt]
    rw [if_pos (by omega)]
    rfl

/-! ### Small tables -/

theorem lists_initDict {size : UInt32} (h : size.toNat ≤ 2 ^ 31) :
    (initDict size : Dict V).Lists [] where
  entries := rfl
  counter := rfl
  size_le := h

theorem Lists.length_le (h : d.Lists kvs) : kvs.length ≤ 2 ^ 31 :=
  h.toFilled.length_le.trans h.size_le

theorem Lists.unique {d' : Dict V} (h : d.Lists kvs) (h' : d'.Lists kvs) (hsize : d.size = d'.size) :
    d = d' := by
  have hentries := h'.entries
  rw [← hsize, ← h.entries] at hentries
  have hcounter := h'.counter.trans h.counter.symm
  cases d
  cases d'
  simp only at hsize hentries hcounter
  subst hsize hentries hcounter
  rfl

theorem setTuple_lists (h : d.Lists kvs) (k : Str) (v : VoidPtr V) :
    ∃ d' n, d.setTuple (some k) v = done (d', n) ∧ d'.Lists (fillStep d.size kvs (k, v)) ∧
      d'.size = d.size := by
  obtain ⟨d', hset, hfilled, hsize⟩ := setTuple_filled h.toFilled h.length_le k v
  exact ⟨d', _, hset, ⟨hfilled, hsize ▸ h.size_le⟩, hsize⟩

theorem getTuple_lists (h : d.Lists kvs) (k : Str) :
    d.getTuple (some k) = done ((kvs.lookup k).getD .minusOne) :=
  getTuple_filled h.toFilled h.length_le k

theorem getTuple_foldl {size : Nat} (h : d.Lists (kvs.foldl (fillStep size) [])) (k : Str) :
    d.getTuple (some k) = done ((if k ∈ (kvs.map Prod.fst).eraseDups.take size then
      kvs.reverse.lookup k else none).getD .minusOne) := by
  rw [getTuple_lists h, lookup_foldl_fillStep, map_fst_foldl_fillStep]

theorem exists_absent {size : Nat} (h : d.Lists (kvs.foldl (fillStep size) [])) {ks : List Str}
    (hmany : size < ks.toFinset.card) : ∃ k ∈ ks, d.getTuple (some k) = done .minusOne := by
  have hcard : ((kvs.map Prod.fst).eraseDups.take size).toFinset.card < ks.toFinset.card := by
    apply lt_of_le_of_lt (List.toFinset_card_le _)
    rw [List.length_take]
    omega
  obtain ⟨k, hk, hout⟩ := Finset.exists_mem_notMem_of_card_lt_card hcard
  rw [List.mem_toFinset] at hk hout
  refine ⟨k, hk, ?_⟩
  rw [getTuple_foldl h, if_neg hout]
  rfl

end Dict

end PwdManLib
