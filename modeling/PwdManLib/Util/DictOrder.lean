import PwdManLib.Util.DictFill
import PwdManLib.Util.DictEffect

/-!
# The order of a dictionary that is only filled

Calls of `setTuple` alone leave the distinct keys in the first slots, in the order in which they got in
(`Dict.InOrder`), and `getIndex` and `getTuple` give the same values. The index of a slot goes through
the `int` of `findKey`, so this ends at slot `2 ^ 31` (`fillsInOrder_iff`).
-/

namespace PwdManLib

open Exec Refine

variable {V : Type}

/-- The call that sets a pair. -/
def setCall (kv : Str × VoidPtr V) : DictOp V := .set kv.1 kv.2

/-- The call returned 0. -/
def DictRes.succeeded : DictRes V → Bool
  | .code n => n == 0
  | .ptr _ => false

/-- The keys of the calls that succeeded, in the order of their first success. -/
def insertedKeys (kvs : List (Str × VoidPtr V)) (res : List (DictRes V)) : List Str :=
  (((kvs.zip res).filter fun p => p.2.succeeded).map fun p => p.1.1).eraseDups

/-- The first `counter` slots hold these distinct keys with the values last set for them, and no index
behind them has a value. -/
structure Dict.InOrder (d : Dict V) (kvs : List (Str × VoidPtr V)) (keys : List Str) : Prop where
  counter : d.counter = keys.length
  distinct : keys.Nodup
  keyAt : ∀ i < d.counter, d.keyAt i = keys[i]?
  value : ∀ i < d.counter, ∀ k, d.keyAt i = some k →
    ∃ v, kvs.reverse.lookup k = some v ∧ d.getIndex i = v ∧ d.getTuple (some k) = done v
  behind : ∀ i, d.counter ≤ i → d.getIndex i = .minusOne

/-- Setting these pairs in a new dictionary ends, with the inserted keys in order. -/
def FillsInOrder (size : UInt32) (kvs : List (Str × VoidPtr V)) : Prop :=
  ∃ d res, run Dict.step (Dict.initDict size) (kvs.map setCall) = done (d, res) ∧
    d.InOrder kvs (insertedKeys kvs res)

/-! ## A run of `setTuple` -/

namespace Dict

variable {d : Dict V} {acc : List (Str × VoidPtr V)}

theorem filled_of_setTuple (h : d.Filled acc) {k : Str} {v : VoidPtr V} {d' : Dict V} {n : Int}
    (hset : d.setTuple (some k) v = done (d', n)) : d'.Filled (fillStep d.size acc (k, v)) := by
  unfold fillStep
  cases hi : acc.findIdx? fun p => p.1 == k with
  | some i =>
    obtain ⟨hlt, hkey, -⟩ := List.findIdx?_eq_some_iff_getElem.mp hi
    by_cases hint : i < 2 ^ 31
    · obtain ⟨hset', hfilled⟩ := setTuple_filled_some h k v hi hint
      rw [hset', done.injEq, Prod.mk.injEq] at hset
      exact hset.1 ▸ hfilled
    · have hsize := d.size_lt
      have hle := h.length_le
      have hneg := toInt_of_ge (n := i) (by omega) (by omega)
      have hslot : d.slot (toInt i) = fault := by rw [slot, if_neg (by omega)]
      simp only [setTuple, h.findKey, hi, hslot] at hset
      rw [if_pos (by omega)] at hset
      cases hset
  | none =>
    by_cases hroom : acc.length < d.size
    · obtain ⟨d₁, hset', hfilled, -⟩ := setTuple_filled_none h k v hi hroom
      rw [hset', done.injEq, Prod.mk.injEq] at hset
      simp only [if_pos hroom]
      exact hset.1 ▸ hfilled
    · have hc : ¬ d.counter < d.size := by rwa [h.counter]
      simp only [setTuple, h.findKey, hi, dif_neg hc] at hset
      rw [if_neg (by decide), done.injEq, Prod.mk.injEq] at hset
      simp only [if_neg hroom]
      exact hset.1 ▸ h

theorem step_setCall_of_done {kv : Str × VoidPtr V} {d' : Dict V} {r : DictRes V}
    (hstep : d.step (setCall kv) = done (d', r)) :
    ∃ n, d.setTuple (some kv.1) kv.2 = done (d', n) ∧ r = .code n := by
  obtain ⟨⟨d₁, n⟩, hset, hrest⟩ := bind_eq_done.mp hstep
  obtain ⟨rfl, rfl⟩ := Prod.mk.inj (done.inj hrest)
  exact ⟨n, hset, rfl⟩

theorem filled_of_run (kvs : List (Str × VoidPtr V)) (h : d.Filled acc) {d' : Dict V}
    {res : List (DictRes V)} (hrun : run step d (kvs.map setCall) = done (d', res)) :
    d'.Filled (kvs.foldl (fillStep d.size) acc) := by
  induction kvs generalizing d acc res with
  | nil =>
    obtain ⟨rfl, -⟩ := Prod.mk.inj (done.inj hrun)
    exact h
  | cons kv kvs ih =>
    obtain ⟨⟨d₁, r⟩, hstep, hrun⟩ := bind_eq_done.mp hrun
    obtain ⟨⟨d₂, rs⟩, hrest, hrun⟩ := bind_eq_done.mp hrun
    obtain ⟨rfl, -⟩ := Prod.mk.inj (done.inj hrun)
    obtain ⟨n, hset, -⟩ := step_setCall_of_done hstep
    have hfilled := ih (filled_of_setTuple h hset) hrest
    rwa [(step_effect hstep).size_eq] at hfilled

/-- The result codes of setting these pairs, by the keys that are in the table at the end. -/
def fillCodes (kvs : List (Str × VoidPtr V)) (keys : List Str) : List (DictRes V) :=
  kvs.map fun kv => .code (if keys.contains kv.1 then 0 else -1)

theorem fillCodes_cons (kv : Str × VoidPtr V) (kvs : List (Str × VoidPtr V)) (keys : List Str) :
    fillCodes (kv :: kvs) keys = .code (if kv.1 ∈ keys then 0 else -1) :: fillCodes kvs keys := by
  simp [fillCodes]

theorem run_fill (kvs : List (Str × VoidPtr V)) (h : d.Filled acc)
    (hint : (kvs.foldl (fillStep d.size) acc).length ≤ 2 ^ 31) :
    ∃ d', run step d (kvs.map setCall) =
        done (d', fillCodes kvs ((kvs.foldl (fillStep d.size) acc).map Prod.fst)) ∧
      d'.Filled (kvs.foldl (fillStep d.size) acc) ∧ d'.size = d.size := by
  induction kvs generalizing d acc with
  | nil => exact ⟨d, rfl, h, rfl⟩
  | cons kv kvs ih =>
    have hle := (map_fst_prefix_foldl d.size (kv :: kvs) acc).length_le
    rw [List.length_map, List.length_map] at hle
    obtain ⟨d₁, hset, hfilled₁, hsize₁⟩ := setTuple_filled h (by omega) kv.1 kv.2
    obtain ⟨d₂, hrun, hfilled₂, hsize₂⟩ := ih hfilled₁ (by rw [hsize₁]; exact hint)
    rw [hsize₁] at hrun hfilled₂ hsize₂
    refine ⟨d₂, ?_, hfilled₂, hsize₂⟩
    have hmem := mem_keys_foldl_fillStep d.size kvs acc kv
    have hstep : d.step (setCall kv) = done (d₁,
        .code (if kv.1 ∈ ((kv :: kvs).foldl (fillStep d.size) acc).map Prod.fst then 0 else -1)) := by
      simp only [step, setCall, hset, done_bind, hmem]
    rw [List.map_cons, run, hstep, fillCodes_cons]
    simp only [done_bind]
    rw [show run step d₁ (kvs.map setCall) = _ from hrun]
    rfl

end Dict

/-! ## The inserted keys -/

theorem filter_eraseDups (p : Str → Bool) (ks : List Str) :
    (ks.filter p).eraseDups = ks.eraseDups.filter p := by
  induction ks using List.reverseRecOn with
  | nil => rfl
  | append_singleton ks k ih =>
    rw [List.filter_append, List.filter_singleton, eraseDups_append_singleton]
    cases hp : p k with
    | true =>
      have hmem : k ∈ ks.filter p ↔ k ∈ ks := by simp [hp]
      simp only [cond_true, eraseDups_append_singleton, hmem, ih]
      split_ifs
      · rfl
      · rw [List.filter_append, List.filter_singleton, hp, cond_true]
    | false =>
      rw [cond_false, List.append_nil, ih]
      split_ifs
      · rfl
      · rw [List.filter_append, List.filter_singleton, hp, cond_false, List.append_nil]

theorem filter_mem_take {ks : List Str} (hnodup : ks.Nodup) (n : Nat) :
    ks.filter (fun k => decide (k ∈ ks.take n)) = ks.take n := by
  have hsplit := List.take_append_drop n ks
  have hnodup' : (ks.take n ++ ks.drop n).Nodup := by rwa [hsplit]
  obtain ⟨-, -, hdisjoint⟩ := List.nodup_append.mp hnodup'
  have htake : (ks.take n).filter (fun k => decide (k ∈ ks.take n)) = ks.take n :=
    List.filter_eq_self.mpr fun k hk => decide_eq_true hk
  have hdrop : (ks.drop n).filter (fun k => decide (k ∈ ks.take n)) = [] := by
    refine List.filter_eq_nil_iff.mpr fun k hk => ?_
    rw [decide_eq_true_eq]
    exact fun hk' => hdisjoint k hk' k hk rfl
  calc ks.filter (fun k => decide (k ∈ ks.take n))
      = (ks.take n ++ ks.drop n).filter (fun k => decide (k ∈ ks.take n)) := by rw [hsplit]
    _ = ks.take n := by rw [List.filter_append, htake, hdrop, List.append_nil]

/-- **The keys that get in** are the first `size` distinct ones. -/
theorem insertedKeys_fillCodes (size : Nat) (kvs : List (Str × VoidPtr V)) :
    insertedKeys kvs (Dict.fillCodes kvs ((kvs.foldl (fillStep size) []).map Prod.fst)) =
      (kvs.foldl (fillStep size) []).map Prod.fst := by
  have hzip (keys : List Str) (l : List (Str × VoidPtr V)) :
      ((l.zip (Dict.fillCodes l keys)).filter fun p => p.2.succeeded).map (fun p => p.1.1) =
        (l.map Prod.fst).filter fun k => decide (k ∈ keys) := by
    induction l with
    | nil => rfl
    | cons kv l ih =>
      rw [Dict.fillCodes_cons, List.zip_cons_cons, List.filter_cons, List.map_cons, List.filter_cons]
      by_cases hmem : kv.1 ∈ keys
      · simpa [hmem, DictRes.succeeded] using ih
      · simpa [hmem, DictRes.succeeded] using ih
  rw [insertedKeys, hzip, filter_eraseDups, map_fst_foldl_fillStep]
  exact filter_mem_take (nodup_eraseDups _) size

/-! ## Positions and keys -/

namespace Dict

variable {d : Dict V} {kvs : List (Str × VoidPtr V)}

theorem Filled.keyAt (h : d.Filled kvs) {i : Nat} (hi : i < kvs.length) :
    d.keyAt i = (kvs.map Prod.fst)[i]? := by
  rw [Dict.keyAt, h.getElem? hi, Option.bind_some, List.getElem?_map, List.getElem?_eq_getElem hi]
  rfl

theorem Filled.getIndex (h : d.Filled kvs) {i : Nat} (hi : i < kvs.length) :
    d.getIndex i = (kvs[i]).2 := by
  rw [Dict.getIndex, h.getElem? hi]
  exact if_pos ⟨h.counter ▸ hi, by simp [pairTuple]⟩

theorem getIndex_of_ge {i : Nat} (hi : d.counter ≤ i) : d.getIndex i = .minusOne := by
  unfold Dict.getIndex
  split
  · rw [if_neg (by omega)]
  · rfl

theorem Filled.inOrder {size : Nat} (h : d.Filled (kvs.foldl (fillStep size) []))
    (hint : (kvs.foldl (fillStep size) []).length ≤ 2 ^ 31) :
    d.InOrder kvs ((kvs.foldl (fillStep size) []).map Prod.fst) := by
  have hnodup : ((kvs.foldl (fillStep size) []).map Prod.fst).Nodup := by
    rw [map_fst_foldl_fillStep]
    exact (nodup_eraseDups _).sublist (List.take_sublist _ _)
  refine ⟨by rw [h.counter, List.length_map], hnodup, ?_, ?_, fun i hi => getIndex_of_ge hi⟩
  · intro i hi
    exact h.keyAt (h.counter ▸ hi)
  · intro i hi k hk
    have hi' : i < (kvs.foldl (fillStep size) []).length := h.counter ▸ hi
    -- the pair in slot `i` carries the last value of its key
    have hpair := List.getElem_mem hi'
    have hkey : ((kvs.foldl (fillStep size) [])[i]).1 = k := by
      rw [h.keyAt hi', List.getElem?_map, List.getElem?_eq_getElem hi'] at hk
      exact Option.some.inj hk
    have hlookup := lookup_of_mem hnodup hpair
    rw [hkey] at hlookup
    refine ⟨((kvs.foldl (fillStep size) [])[i]).2, ?_, h.getIndex hi', ?_⟩
    · rw [← hlookup, lookup_foldl_fillStep, if_pos]
      exact hkey ▸ List.mem_map_of_mem hpair
    · rw [getTuple_filled h hint, hlookup]
      rfl

theorem InOrder.counter_le {keys : List Str} (h : d.InOrder kvs keys) : d.counter ≤ 2 ^ 31 := by
  by_contra hmany
  have hlt : 2 ^ 31 < d.counter := by omega
  have hlt' : 2 ^ 31 < keys.length := h.counter ▸ hlt
  have hkey : d.keyAt (2 ^ 31) = some (keys.get ⟨2 ^ 31, hlt'⟩) := by
    rw [h.keyAt _ hlt, List.getElem?_eq_getElem hlt']
    rfl
  obtain ⟨w, hw⟩ := keyAt_eq_some_iff.mp hkey
  have hfound : d.FoundAt (2 ^ 31) (keys.get ⟨2 ^ 31, hlt'⟩) := by
    refine ⟨hkey, hlt, fun j hj hjkey => ?_⟩
    rw [h.keyAt j (hj.trans hlt), List.getElem?_eq_some_iff] at hjkey
    obtain ⟨hjlt, hjkey⟩ := hjkey
    have hsame := (List.Nodup.getElem_inj_iff h.distinct).mp hjkey
    omega
  obtain ⟨v, -, -, hget⟩ := h.value _ hlt _ hkey
  rw [hfound.getTuple hw, if_neg (Nat.lt_irrefl _)] at hget
  cases hget

end Dict

/-! ## Which fillings stay in order -/

theorem length_foldl_fillStep (size : Nat) (kvs : List (Str × VoidPtr V)) :
    (kvs.foldl (fillStep size) []).length = min size (kvs.map Prod.fst).toFinset.card := by
  have h := congrArg List.length (map_fst_foldl_fillStep size kvs)
  rwa [List.length_map, List.length_take, length_eraseDups] at h

theorem FillsInOrder.small {size : UInt32} {kvs : List (Str × VoidPtr V)} (h : FillsInOrder size kvs) :
    size.toNat ≤ 2 ^ 31 ∨ (kvs.map Prod.fst).toFinset.card ≤ 2 ^ 31 := by
  obtain ⟨d, res, hrun, horder⟩ := h
  have hlen := length_foldl_fillStep size.toNat kvs
  have hfilled := Dict.filled_of_run kvs (Dict.filled_initDict size) hrun
  have hcounter := hfilled.counter.symm.trans_le horder.counter_le
  rw [show (Dict.initDict size : Dict V).size = size.toNat from rfl, hlen] at hcounter
  omega

theorem fillsInOrder_of_small {size : UInt32} {kvs : List (Str × VoidPtr V)}
    (h : size.toNat ≤ 2 ^ 31 ∨ (kvs.map Prod.fst).toFinset.card ≤ 2 ^ 31) : FillsInOrder size kvs := by
  have hlen := length_foldl_fillStep size.toNat kvs
  have hint : (kvs.foldl (fillStep size.toNat) []).length ≤ 2 ^ 31 := by omega
  obtain ⟨d, hrun, hfilled, -⟩ := Dict.run_fill kvs (Dict.filled_initDict size) hint
  refine ⟨d, _, hrun, ?_⟩
  show d.InOrder kvs (insertedKeys kvs (Dict.fillCodes kvs
    ((kvs.foldl (fillStep size.toNat) []).map Prod.fst)))
  rw [insertedKeys_fillCodes]
  exact hfilled.inOrder hint

/-- **Which fillings stay in order**: all that do not go beyond the slots an `int` can index. -/
theorem fillsInOrder_iff (size : UInt32) (kvs : List (Str × VoidPtr V)) :
    FillsInOrder size kvs ↔ size.toNat ≤ 2 ^ 31 ∨ (kvs.map Prod.fst).toFinset.card ≤ 2 ^ 31 :=
  ⟨FillsInOrder.small, fillsInOrder_of_small⟩

/-- Distinct keys, as many as there should be. -/
def manyPairs (n : Nat) : List (Str × VoidPtr Nat) :=
  (List.range n).map fun i => (List.replicate i 97, .to i)

theorem nodup_manyPairs (n : Nat) : ((manyPairs n).map Prod.fst).Nodup := by
  rw [manyPairs, List.map_map]
  refine List.nodup_range.map fun i j hij => ?_
  have hlen := congrArg List.length hij
  simpa using hlen

theorem length_manyPairs (n : Nat) : (manyPairs n).length = n := by
  rw [manyPairs, List.length_map, List.length_range]

/-- The key in slot `2 ^ 31` is out of the reach of `getTuple`. -/
theorem huge_table_out_of_order :
    ¬ ∀ (size : UInt32) (kvs : List (Str × VoidPtr Nat)), FillsInOrder size kvs := by
  intro hall
  have hcard : ((manyPairs (2 ^ 31 + 1)).map Prod.fst).toFinset.card = 2 ^ 31 + 1 := by
    rw [List.toFinset_card_of_nodup (nodup_manyPairs _), List.length_map, length_manyPairs]
  rcases (hall 2147483649 (manyPairs (2 ^ 31 + 1))).small with h | h
  · exact absurd h (by decide)
  · omega

end PwdManLib
