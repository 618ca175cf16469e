import Mathlib.Data.Fintype.EquivFin
import PwdManLib.Util.DictEffect

/-!
# Several copies of a key

A key behind the window is not found, so setting it makes a second copy of it, and nothing else does
(`keepsDistinct_iff_guarded`). What is left of a removed key is its other copies. They come back into the
window as other keys are set and show up there, one after the other (`Dict.Counts.forgotten_iff_blank`).
-/

namespace PwdManLib

open Exec Refine

variable {V : Type}

namespace Dict

/-- The key is in one slot at most. -/
def StoredOnce (d : Dict V) (k : Str) : Prop :=
  ∀ i j, d.keyAt i = some k → d.keyAt j = some k → i = j

/-- No two slots hold equal keys. -/
def Distinct (d : Dict V) : Prop := ∀ k, d.StoredOnce k

/-- If the key is stored, then in the window. -/
def SeesKey (d : Dict V) (k : Str) : Prop := ∀ i < d.size, d.keyAt i = some k → i < d.counter

instance (d : Dict V) (k : Str) : Decidable (d.SeesKey k) := by
  unfold SeesKey
  infer_instance

/-- A call of `setTuple` that sees its key if it is there. -/
def SetsInWindow (d : Dict V) : DictOp V → Prop
  | .set k _ => d.SeesKey k
  | .get _ => True
  | .remove _ => True

instance (d : Dict V) (op : DictOp V) : Decidable (d.SetsInWindow op) := by
  cases op <;> unfold SetsInWindow <;> infer_instance

variable {d d' : Dict V} {k : Str} {op : DictOp V} {r : DictRes V}

/-! ## One call -/

theorem Effect.at_of_at (h : d.Effect op d' r) (hop : ∀ v, op ≠ .set k v) {j : Nat} {w : VoidPtr V}
    (hj : d'.At j k w) : d.At j k w := by
  cases h with
  | update k' v i hfound =>
    rw [at_store_iff _ (lt_size_of_keyAt hfound.key)] at hj
    split_ifs at hj
    · simp only [Tuple.mk.injEq, Option.some.injEq] at hj
      exact absurd (by rw [hj.1]) (hop v)
    · exact hj
  | insert k' v hout hroom hfree =>
    have hj' := (at_store_iff _ hfree.lt_size j k w).mp hj
    split_ifs at hj'
    · simp only [Tuple.mk.injEq, Option.some.injEq] at hj'
      exact absurd (by rw [hj'.1]) (hop v)
    · exact hj'
  | full => exact hj
  | get => exact hj
  | vacate k' i hfound =>
    have hj' := (at_store_iff _ (lt_size_of_keyAt hfound.key) j k w).mp hj
    split_ifs at hj'
    · simp at hj'
    · exact hj'
  | absent => exact hj

theorem Effect.storedOnce (h : d.Effect op d' r) (hd : d.StoredOnce k)
    (hop : op.key = k → d.SetsInWindow op) : d'.StoredOnce k := by
  by_cases hset : ∃ v, op = .set k v
  · obtain ⟨v, rfl⟩ := hset
    have hsees : d.SeesKey k := hop rfl
    cases h with
    | update _ _ i hfound =>
      -- the key stays where it was
      have hkeyAt (j : Nat) (hj : (d.store i ⟨some k, v⟩).keyAt j = some k) : d.keyAt j = some k := by
        rw [keyAt_store _ (lt_size_of_keyAt hfound.key)] at hj
        split_ifs at hj with hji
        · exact hji ▸ hfound.key
        · exact hj
      exact fun i j hi hj => hd i j (hkeyAt i hi) (hkeyAt j hj)
    | insert _ _ hout hroom hfree =>
      -- the key was nowhere
      have hkeyAt (j : Nat) (hj : (d.store d.firstFree ⟨some k, v⟩).keyAt j = some k) :
          j = d.firstFree := by
        rw [keyAt_store _ hfree.lt_size] at hj
        split_ifs at hj with hji
        · exact hji
        · exact absurd hj (hout j (hsees j (lt_size_of_keyAt hj) hj))
      exact fun i j hi hj => (hkeyAt i hi).trans (hkeyAt j hj).symm
    | full => exact hd
  · push Not at hset
    intro i j hi hj
    obtain ⟨v, hi⟩ := keyAt_eq_some_iff.mp hi
    obtain ⟨w, hj⟩ := keyAt_eq_some_iff.mp hj
    exact hd i j (h.at_of_at hset hi).keyAt (h.at_of_at hset hj).keyAt

theorem not_distinct_of_hidden (hd : d.Counts) {i : Nat} (hi : d.keyAt i = some k)
    (hhidden : d.counter ≤ i) (hout : d.OutOfWindow k) (v : VoidPtr V) :
    ∃ d', d.setTuple (some k) v = done (d', 0) ∧ ¬ d'.Distinct := by
  have hroom : d.counter < d.size := hhidden.trans_lt (lt_size_of_keyAt hi)
  have hfree := isFree_firstFree (hd.firstFree_lt hroom).1
  refine ⟨_, hout.setTuple_new hroom hfree v, fun hdistinct => ?_⟩
  have hne : i ≠ d.firstFree := by
    rintro rfl
    rw [hfree.keyAt] at hi
    cases hi
  have hkeyAt := keyAt_store (d := d) ⟨some k, v⟩ hfree.lt_size
  refine hne (hdistinct k i d.firstFree ?_ ?_)
  · show (d.store d.firstFree ⟨some k, v⟩).keyAt i = some k
    rw [hkeyAt, if_neg hne, hi]
  · show (d.store d.firstFree ⟨some k, v⟩).keyAt d.firstFree = some k
    rw [hkeyAt, if_pos rfl]

/-! ## Which runs keep the keys distinct -/

/-- In every state the run goes through the keys are distinct. -/
def KeepsDistinct (d : Dict V) (ops : List (DictOp V)) : Prop :=
  ∀ pre, pre <+: ops → ∀ d' res, run step d pre = done (d', res) → d'.Distinct

theorem KeepsDistinct.head {op : DictOp V} {ops : List (DictOp V)} (h : d.KeepsDistinct (op :: ops))
    (hstep : d.step op = done (d', r)) : d'.Distinct := by
  apply h [op] (List.prefix_append [op] ops) d' [r]
  simp only [run, hstep, done_bind]

theorem KeepsDistinct.setsInWindow {ops : List (DictOp V)} (h : d.KeepsDistinct (op :: ops))
    (hd : d.Counts) (hdistinct : d.Distinct) : d.SetsInWindow op := by
  cases op with
  | get => trivial
  | remove => trivial
  | set k v =>
    by_contra hno
    obtain ⟨i, hi, hhidden⟩ : ∃ i, d.keyAt i = some k ∧ d.counter ≤ i := by
      unfold SetsInWindow SeesKey at hno
      push Not at hno
      obtain ⟨i, -, hi, hhidden⟩ := hno
      exact ⟨i, hi, hhidden⟩
    have hout : d.OutOfWindow k := fun j hj hkey => by
      have heq := hdistinct k i j hi hkey
      omega
    obtain ⟨d', hset, hnot⟩ := not_distinct_of_hidden hd hi hhidden hout v
    have hstep : d.step (.set k v) = done (d', .code 0) := by
      simp only [step, hset, done_bind]
    exact hnot (h.head hstep)

theorem keepsDistinct_iff_guarded (ops : List (DictOp V)) {d : Dict V} (hd : d.Counts)
    (hdistinct : d.Distinct) : d.KeepsDistinct ops ↔ Guarded step SetsInWindow d ops := by
  constructor
  · intro h
    induction ops generalizing d with
    | nil => trivial
    | cons op ops ih =>
      refine ⟨h.setsInWindow hd hdistinct, ?_⟩
      cases hstep : d.step op with
      | fault => trivial
      | running => trivial
      | done p =>
        have heffect := step_effect (r := p.2) hstep
        refine ih (heffect.counts hd) (h.head hstep) fun pre hpre d₂ res hrun => ?_
        apply h (op :: pre) (List.cons_prefix_cons.mpr ⟨rfl, hpre⟩) d₂ (p.2 :: res)
        simp only [run, hstep, done_bind, hrun]
  · intro hguarded pre hpre d' res hrun
    obtain ⟨rest, rfl⟩ := hpre
    refine run_keeps (G := SetsInWindow) (I := Distinct) ?_ pre hdistinct ?_ hrun
    · intro c op c' r hc hop hstep k
      exact (step_effect hstep).storedOnce (hc k) fun _ => hop
    · exact hguarded.of_append

end Dict

theorem Dict.distinct_initDict (size : UInt32) : (Dict.initDict size : Dict V).Distinct := by
  intro k i j hi
  obtain ⟨v, hv⟩ := Dict.keyAt_eq_some_iff.mp hi
  simp [Dict.At, Dict.initDict, List.getElem?_replicate] at hv

/-- **Which runs keep the keys distinct**: those in which every call of `setTuple` has its key in the
window if the key is there. -/
theorem keepsDistinct_iff (size : UInt32) (ops : List (DictOp V)) :
    (Dict.initDict size).KeepsDistinct ops ↔
      Guarded Dict.step Dict.SetsInWindow (Dict.initDict size) ops :=
  Dict.keepsDistinct_iff_guarded ops (Dict.counts_initDict size) (Dict.distinct_initDict size)

/-- A key that a removal has hidden is stored a second time. -/
theorem hidden_key_doubled :
    ¬ ∀ (size : UInt32) (ops : List (DictOp Nat)), (Dict.initDict size).KeepsDistinct ops := by
  intro hall
  have h := hall 2 [.set (lit "a") (.to 1), .set (lit "b") (.to 2), .remove (lit "a"),
    .set (lit "b") (.to 3)]
  rw [Dict.keepsDistinct_iff_guarded _ (Dict.counts_initDict 2) (Dict.distinct_initDict 2)] at h
  revert h
  decide

/-! ## What is left of a removed key -/

namespace Dict

/-- No call sets the key. -/
def NeverSets (k : Str) (ops : List (DictOp V)) : Prop := ∀ op ∈ ops, ∀ v, op ≠ .set k v

/-- The key is not found, now and after any further calls that do not set it. -/
def Forgotten (d : Dict V) (k : Str) : Prop :=
  ∀ ops, NeverSets k ops → ∀ d' res, run step d ops = done (d', res) →
    d'.getTuple (some k) = done .minusOne

/-- Every copy of the key is one that `getTuple` cannot tell from none. -/
def Blank (d : Dict V) (k : Str) : Prop := ∀ j w, d.At j k w → w = .minusOne ∧ j < 2 ^ 31

variable {d d' : Dict V} {k : Str}

theorem Blank.getTuple (h : d.Blank k) : d.getTuple (some k) = done .minusOne := by
  rcases d.found_or_out k with ⟨i, hfound⟩ | hout
  · obtain ⟨w, hw⟩ := keyAt_eq_some_iff.mp hfound.key
    obtain ⟨rfl, hint⟩ := h i w hw
    rw [hfound.getTuple hw, if_pos hint]
  · exact hout.getTuple

theorem Blank.forgotten (h : d.Blank k) : d.Forgotten k := by
  intro ops hops d' res hrun
  have hblank : d'.Blank k := by
    induction ops generalizing d res with
    | nil =>
      obtain ⟨rfl, -⟩ := Prod.mk.inj (done.inj hrun)
      exact h
    | cons op ops ih =>
      obtain ⟨⟨d₁, r⟩, hstep, hrun⟩ := bind_eq_done.mp hrun
      obtain ⟨⟨d₂, rs⟩, hrest, hrun⟩ := bind_eq_done.mp hrun
      obtain ⟨rfl, -⟩ := Prod.mk.inj (done.inj hrun)
      refine ih (fun j w hj => ?_) (fun op' hop' => hops op' (List.mem_cons_of_mem _ hop')) rs hrest
      exact h j w ((step_effect hstep).at_of_at (hops op List.mem_cons_self) hj)
  exact hblank.getTuple

/-! ### Making a copy show -/

theorem exists_fresh (d : Dict V) (k : Str) : ∃ f, f ≠ k ∧ ∀ j, d.keyAt j ≠ some f := by
  obtain ⟨f, hf⟩ := Infinite.exists_notMem_finset (k :: d.entries.filterMap Tuple.key).toFinset
  rw [List.mem_toFinset, List.mem_cons, not_or] at hf
  refine ⟨f, hf.1, fun j hj => hf.2 ?_⟩
  obtain ⟨w, hw⟩ := keyAt_eq_some_iff.mp hj
  exact List.mem_filterMap.mpr ⟨_, List.mem_of_getElem? hw, rfl⟩

theorem exists_filling (n : Nat) (hd : d.Counts) (k : Str) (hn : d.size - d.counter = n) :
    ∃ ops d' res, NeverSets k ops ∧ run step d ops = done (d', res) ∧ d'.Counts ∧
      d'.counter = d'.size ∧ ∀ j w, d'.At j k w ↔ d.At j k w := by
  induction n generalizing d with
  | zero =>
    have hle := d.counter_le
    exact ⟨[], d, [], by simp [NeverSets], rfl, hd, by omega, fun j w => Iff.rfl⟩
  | succ n ih =>
    have hroom : d.counter < d.size := by omega
    obtain ⟨f, hne, hfresh⟩ := d.exists_fresh k
    have hout : d.OutOfWindow f := fun j _ => hfresh j
    have hfree := isFree_firstFree (hd.firstFree_lt hroom).1
    have hset := hout.setTuple_new hroom hfree .null
    have hstep : d.step (.set f .null) =
        done (d.insertAt hroom d.firstFree ⟨some f, .null⟩, .code 0) := by
      simp only [step, hset, done_bind]
    have heffect := step_effect hstep
    obtain ⟨ops, d', res, hops, hrun, hd', hfull, hat⟩ := ih (heffect.counts hd)
      (by show d.size - (d.counter + 1) = n; omega)
    refine ⟨.set f .null :: ops, d', .code 0 :: res, ?_, ?_, hd', hfull, fun j w => ?_⟩
    · intro op hop v
      rcases List.mem_cons.mp hop with rfl | hop
      · simp [hne]
      · exact hops op hop v
    · simp only [run, hstep, done_bind, hrun]
    · rw [hat]
      refine ⟨heffect.at_of_at (by simp [hne]), fun hj => ?_⟩
      apply (at_store_iff _ hfree.lt_size j k w).mpr
      rw [if_neg]
      · exact hj
      · rintro rfl
        have hkey := hfree.keyAt
        rw [At.keyAt hj] at hkey
        cases hkey

/-- A copy of a key that is more than blank shows in the end: the table is filled up, and the blank
copies in front of it are removed one by one. -/
theorem exists_showing (n : Nat) (hd : d.Counts) {m j : Nat} {w : VoidPtr V}
    (hbelow : ∀ i < m, d.keyAt i ≠ some k) (hj : d.At j k w) (hshow : w = .minusOne → 2 ^ 31 ≤ j)
    (hn : j < m + n) :
    ∃ ops d' res, NeverSets k ops ∧ run step d ops = done (d', res) ∧
      d'.getTuple (some k) ≠ done .minusOne := by
  induction n generalizing d m with
  | zero => exact absurd hj.keyAt (hbelow j (by omega))
  | succ n ih =>
    obtain ⟨ops, d₁, res, hops, hrun, hd₁, hfull, hat⟩ := exists_filling _ hd k rfl
    have hj₁ : d₁.At j k w := (hat j w).mpr hj
    rcases d₁.found_or_out k with ⟨i, hfound⟩ | hout
    · obtain ⟨w', hw'⟩ := keyAt_eq_some_iff.mp hfound.key
      have hmi : m ≤ i := by
        by_contra hlt
        exact hbelow i (by omega) ((hat i w').mp hw').keyAt
      by_cases hblank : w' = .minusOne ∧ i < 2 ^ 31
      · obtain ⟨rfl, hint⟩ := hblank
        have hne : j ≠ i := by
          rintro rfl
          have hw : w = .minusOne := congrArg Tuple.val (Option.some.inj (hj₁.symm.trans hw'))
          have hbig := hshow hw
          omega
        have hrem := hfound.removeTuple
        rw [if_pos hint] at hrem
        have hstep : d₁.step (.remove k) = done (d₁.vacate i, .code 0) := by
          simp only [step, hrem, done_bind]
        have hlt := lt_size_of_keyAt hfound.key
        -- in the table without this copy, no copy is left up to slot `i`
        have hbelow' : ∀ l < i + 1, (d₁.vacate i).keyAt l ≠ some k := by
          intro l hl hkey
          have hkey' := (keyAt_store ⟨none, .null⟩ hlt l).symm.trans hkey
          split_ifs at hkey' with hli
          exact hfound.first l (by omega) hkey'
        have hj₂ : (d₁.vacate i).At j k w := by
          apply (at_store_iff _ hlt j k w).mpr
          rwa [if_neg hne]
        obtain ⟨ops₂, d₂, res₂, hops₂, hrun₂, hget⟩ :=
          ih ((step_effect hstep).counts hd₁) hbelow' hj₂ (by omega)
        refine ⟨ops ++ .remove k :: ops₂, d₂, res ++ .code 0 :: res₂, ?_, ?_, hget⟩
        · intro op hop v
          rcases List.mem_append.mp hop with hop | hop
          · exact hops op hop v
          · rcases List.mem_cons.mp hop with rfl | hop
            · simp
            · exact hops₂ op hop v
        · apply run_append_of_done hrun
          simp only [run, hstep, done_bind, hrun₂]
      · refine ⟨ops, d₁, res, hops, hrun, ?_⟩
        rw [hfound.getTuple hw']
        split_ifs with hint
        · intro heq
          exact hblank ⟨done.inj heq, hint⟩
        · simp
    · exact absurd hj₁.keyAt (hout j (hfull ▸ lt_size_of_keyAt hj₁.keyAt))

theorem Counts.forgotten_iff_blank (hd : d.Counts) (k : Str) : d.Forgotten k ↔ d.Blank k := by
  refine ⟨fun h => ?_, Blank.forgotten⟩
  by_contra hnot
  unfold Blank at hnot
  push Not at hnot
  obtain ⟨j, w, hj, hshow⟩ := hnot
  obtain ⟨ops, d', res, hops, hrun, hget⟩ :=
    exists_showing (j + 1) hd (m := 0) (fun i hi => absurd hi (Nat.not_lt_zero i)) hj hshow (by omega)
  exact hget (h ops hops d' res hrun)

/-- Every copy of the key but the one that `findKey` finds is blank. -/
def LeavesBlank (d : Dict V) (k : Str) : Prop :=
  ∀ i j w, d.FoundAt i k → d.At j k w → j ≠ i → w = .minusOne ∧ j < 2 ^ 31

theorem StoredOnce.leavesBlank (h : d.StoredOnce k) : d.LeavesBlank k :=
  fun i j _ hi hj hne => absurd (h j i hj.keyAt hi.key) hne

theorem forgotten_removeTuple_iff (hd : d.Counts) (hrem : d.removeTuple (some k) = done (d', 0)) :
    d'.Forgotten k ↔ d.LeavesBlank k := by
  have heffect := removeTuple_effect hrem
  rw [(heffect.counts hd).forgotten_iff_blank]
  cases heffect with
  | vacate _ i hfound =>
    have hat (j : Nat) (w : VoidPtr V) : (d.vacate i).At j k w ↔ j ≠ i ∧ d.At j k w := by
      apply (at_store_iff _ (lt_size_of_keyAt hfound.key) j k w).trans
      split_ifs with hji <;> simp [hji]
    constructor
    · intro h i' j w hi' hj hne
      obtain rfl := hfound.unique hi'
      exact h j w ((hat j w).mpr ⟨hne, hj⟩)
    · intro h j w hj
      obtain ⟨hne, hj⟩ := (hat j w).mp hj
      exact h i j w hfound hj hne

theorem storedOnce_of_run (size : UInt32) (ops : List (DictOp V)) {res : List (DictRes V)}
    (hsets : Guarded step (fun d op => op.key = k → d.SetsInWindow op) (initDict size) ops)
    (hrun : run step (initDict size) ops = done (d, res)) : d.StoredOnce k := by
  refine run_keeps (I := fun d => d.StoredOnce k) ?_ ops (distinct_initDict size k) hsets hrun
  intro c op c' r hc hop hstep
  exact (step_effect hstep).storedOnce hc hop

theorem counts_of_run (size : UInt32) (ops : List (DictOp V)) {res : List (DictRes V)}
    (hrun : run step (initDict size) ops = done (d, res)) : d.Counts :=
  run_invariant (fun _ _ _ _ hc hstep => (step_effect hstep).counts hc) ops (counts_initDict size) hrun

end Dict

/-- **When a removed key stays away**: exactly when it leaves no copy that shows; and it leaves none when
every call of the run that set it had it in the window if it was there. -/
theorem forgotten_iff (size : UInt32) (ops : List (DictOp V)) (d d' : Dict V) (res : List (DictRes V))
    (k : Str) (hrun : run Dict.step (Dict.initDict size) ops = done (d, res))
    (hrem : d.removeTuple (some k) = done (d', 0)) :
    (d'.Forgotten k ↔ d.LeavesBlank k) ∧
      (Guarded Dict.step (fun d op => op.key = k → d.SetsInWindow op) (Dict.initDict size) ops →
        d.LeavesBlank k) :=
  ⟨Dict.forgotten_removeTuple_iff (Dict.counts_of_run size ops hrun) hrem,
    fun hsets => (Dict.storedOnce_of_run size ops hsets hrun).leavesBlank⟩

theorem forgotten_iff_two :
    ∃ (d d' : Dict Nat) (res : List (DictRes Nat)),
      run Dict.step (Dict.initDict 2) [.set (lit "a") (.to 1), .set (lit "b") (.to 2)] = done (d, res) ∧
      d.removeTuple (some (lit "a")) = done (d', 0) ∧
      (d'.Forgotten (lit "a") ↔ d.LeavesBlank (lit "a")) ∧
      (Guarded Dict.step (fun d op => op.key = lit "a" → d.SetsInWindow op) (Dict.initDict 2)
          [.set (lit "a") (.to 1), .set (lit "b") (.to 2)] →
        d.LeavesBlank (lit "a")) := by
  obtain ⟨d, d', res, hrun, hrem⟩ : ∃ (d d' : Dict Nat) (res : List (DictRes Nat)),
      run Dict.step (Dict.initDict 2) [.set (lit "a") (.to 1), .set (lit "b") (.to 2)] = done (d, res) ∧
      d.removeTuple (some (lit "a")) = done (d', 0) := ⟨_, _, _, rfl, rfl⟩
  exact ⟨d, d', res, hrun, hrem, forgotten_iff 2 _ d d' res _ hrun hrem⟩

/-- A second copy shows as soon as the first one is removed. -/
theorem removed_key_comes_back :
    ¬ ∀ (size : UInt32) (ops : List (DictOp Nat)) (d d' : Dict Nat) (res : List (DictRes Nat)) (k : Str),
      run Dict.step (Dict.initDict size) ops = done (d, res) → d.removeTuple (some k) = done (d', 0) →
        d'.Forgotten k := by
  intro hall
  obtain ⟨d, d', res, hrun, hrem, hget⟩ : ∃ (d d' : Dict Nat) (res : List (DictRes Nat)),
      run Dict.step (Dict.initDict 4) [.set (lit "a") (.to 1), .set (lit "b") (.to 2),
        .set (lit "c") (.to 3), .remove (lit "a"), .set (lit "c") (.to 4), .set (lit "d") (.to 5)] =
          done (d, res) ∧
      d.removeTuple (some (lit "c")) = done (d', 0) ∧ d'.getTuple (some (lit "c")) = done (.to 3) :=
    ⟨_, _, _, rfl, rfl, rfl⟩
  have hlost := hall 4 _ d d' res _ hrun hrem [] (by simp [Dict.NeverSets]) d' [] rfl
  rw [hget] at hlost
  cases hlost

end PwdManLib
