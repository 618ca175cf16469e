import PwdManLib.Util.DictMap

/-!
# What calls do to the dictionary

`step_effect` lists everything a call can do to the table. From this list follows what holds in every
reachable state: `counter` is the number of keys in the table, so there is a free slot for every new
entry (`Counts.firstFree_lt`).
-/

namespace PwdManLib

open Exec Refine

variable {V : Type}

namespace Dict

variable {d : Dict V} {i : Nat} {k : Str}

/-! ## What a call can do -/

/-- The effect of a call that returns. -/
inductive Effect (d : Dict V) : DictOp V → Dict V → DictRes V → Prop where
  | update (k : Str) (v : VoidPtr V) (i : Nat) (hfound : d.FoundAt i k) :
    Effect d (.set k v) (d.store i ⟨some k, v⟩) (.code 0)
  | insert (k : Str) (v : VoidPtr V) (hout : d.OutOfWindow k) (hroom : d.counter < d.size)
    (hfree : d.IsFree d.firstFree) :
    Effect d (.set k v) (d.insertAt hroom d.firstFree ⟨some k, v⟩) (.code 0)
  | full (k : Str) (v : VoidPtr V) (hout : d.OutOfWindow k) (hfull : d.counter = d.size) :
    Effect d (.set k v) d (.code (-1))
  | get (k : Str) (p : VoidPtr V) (hget : d.getTuple (some k) = done p) : Effect d (.get k) d (.ptr p)
  | vacate (k : Str) (i : Nat) (hfound : d.FoundAt i k) : Effect d (.remove k) (d.vacate i) (.code 0)
  | absent (k : Str) (hout : d.OutOfWindow k) : Effect d (.remove k) d (.code (-1))

theorem setTuple_effect {v : VoidPtr V} {d' : Dict V} {n : Int}
    (h : d.setTuple (some k) v = done (d', n)) : d.Effect (.set k v) d' (.code n) := by
  rcases d.found_or_out k with ⟨i, hfound⟩ | hout
  · rw [hfound.setTuple v] at h
    split_ifs at h
    obtain ⟨rfl, rfl⟩ := Prod.mk.inj (done.inj h)
    exact .update k v i hfound
  · rcases Nat.lt_or_eq_of_le d.counter_le with hroom | hfull
    · by_cases hin : d.firstFree < d.size
      · have hfree := isFree_firstFree hin
        rw [hout.setTuple_new hroom hfree] at h
        obtain ⟨rfl, rfl⟩ := Prod.mk.inj (done.inj h)
        exact .insert k v hout hroom hfree
      · -- the access behind the table
        have hslot : d.slot (d.firstFree : Int) = fault := by
          rw [slot, if_pos (by omega), Int.toNat_natCast,
            List.getElem?_eq_none (by rw [d.length_entries]; omega)]
        simp [setTuple, hout.findKey, dif_pos hroom, hslot] at h
    · rw [hout.setTuple_full hfull] at h
      obtain ⟨rfl, rfl⟩ := Prod.mk.inj (done.inj h)
      exact .full k v hout hfull

theorem removeTuple_effect {d' : Dict V} {n : Int} (h : d.removeTuple (some k) = done (d', n)) :
    d.Effect (.remove k) d' (.code n) := by
  rcases d.found_or_out k with ⟨i, hfound⟩ | hout
  · rw [hfound.removeTuple] at h
    split_ifs at h
    obtain ⟨rfl, rfl⟩ := Prod.mk.inj (done.inj h)
    exact .vacate k i hfound
  · rw [hout.removeTuple] at h
    obtain ⟨rfl, rfl⟩ := Prod.mk.inj (done.inj h)
    exact .absent k hout

theorem step_effect {op : DictOp V} {d' : Dict V} {r : DictRes V} (h : d.step op = done (d', r)) :
    d.Effect op d' r := by
  cases op with
  | set k v =>
    obtain ⟨⟨d₁, n⟩, hset, h⟩ := bind_eq_done.mp h
    obtain ⟨rfl, rfl⟩ := Prod.mk.inj (done.inj h)
    exact setTuple_effect hset
  | get k =>
    obtain ⟨p, hget, h⟩ := bind_eq_done.mp h
    obtain ⟨rfl, rfl⟩ := Prod.mk.inj (done.inj h)
    exact .get k p hget
  | remove k =>
    obtain ⟨⟨d₁, n⟩, hrem, h⟩ := bind_eq_done.mp h
    obtain ⟨rfl, rfl⟩ := Prod.mk.inj (done.inj h)
    exact removeTuple_effect hrem

theorem Effect.size_eq {op : DictOp V} {d' : Dict V} {r : DictRes V} (h : d.Effect op d' r) :
    d'.size = d.size := by
  cases h <;> rfl

/-! ## Counting the keys -/

/-- The counter is the number of keys in the table. -/
def Counts (d : Dict V) : Prop := d.occupied = d.counter

theorem counts_initDict (size : UInt32) : (initDict size : Dict V).Counts :=
  (holds_initDict size).count

theorem Effect.counts {op : DictOp V} {d' : Dict V} {r : DictRes V} (h : d.Effect op d' r)
    (hd : d.Counts) : d'.Counts := by
  unfold Counts at hd ⊢
  cases h with
  | update k v i hfound => exact (occupied_update hfound.key v).trans hd
  | insert k v hout hroom hfree =>
    have hocc := occupied_insert hfree k v
    rw [hd] at hocc
    exact hocc
  | full => exact hd
  | get => exact hd
  | vacate k i hfound =>
    have hocc := occupied_vacate hfound.key
    rw [hd] at hocc
    exact hocc
  | absent => exact hd

theorem Counts.firstFree_lt (hd : d.Counts) (hroom : d.counter < d.size) :
    d.firstFree < d.size ∧ d.firstFree ≤ d.counter := by
  have hle := d.firstFree_le_occupied
  rw [hd] at hle
  exact ⟨by omega, hle⟩

end Dict

/-! ## Reachable states -/

/-- A call with a key that is not NULL, or with an index. -/
inductive DictCall (V : Type) where
  | op (op : DictOp V)
  | index (index : UInt32)

/-- One of these calls on a dictionary. -/
def Dict.call (d : Dict V) : DictCall V → Exec (Dict V × DictRes V)
  | .op op => d.step op
  | .index index => done (d, .ptr (d.getIndex index.toNat))

/-- Some calls lead from `initDict(size)` to this state. -/
def Dict.Reached (size : UInt32) (d : Dict V) : Prop :=
  ∃ calls res, run Dict.call (Dict.initDict size) calls = done (d, res)

theorem Dict.Reached.invariant {I : Dict V → Prop} {size : UInt32} {d : Dict V}
    (hinit : I (Dict.initDict size))
    (hstep : ∀ (d d' : Dict V) op r, I d → d.Effect op d' r → I d') (h : d.Reached size) : I d := by
  obtain ⟨calls, res, hrun⟩ := h
  refine run_invariant (I := I) ?_ calls hinit hrun
  intro d call d' r hd hcall
  cases call with
  | op op => exact hstep d d' op r hd (Dict.step_effect hcall)
  | index index =>
    obtain ⟨rfl, -⟩ := Prod.mk.inj (done.inj hcall)
    exact hd

theorem Dict.Reached.counts {size : UInt32} {d : Dict V} (h : d.Reached size) : d.Counts :=
  h.invariant (Dict.counts_initDict size) fun _ _ _ _ hd heffect => heffect.counts hd

theorem Dict.Reached.size_eq {size : UInt32} {d : Dict V} (h : d.Reached size) :
    d.size = size.toNat :=
  h.invariant (I := fun d => d.size = size.toNat) rfl fun _ _ _ _ hd heffect => heffect.size_eq.trans hd

/-- **The counter counts the keys** in every reachable state, so a new entry finds a free slot in the
table. -/
theorem reached_counts (size : UInt32) (d : Dict V) (h : d.Reached size) :
    d.occupied = d.counter ∧ d.counter ≤ size.toNat ∧
      ∀ k, d.findKey (some k) = -1 → d.counter < d.size →
        d.firstFree < d.size ∧ d.firstFree ≤ d.counter :=
  ⟨h.counts, h.size_eq ▸ d.counter_le, fun _ _ hroom => h.counts.firstFree_lt hroom⟩

theorem reached_counts_hole :
    ∃ d : Dict Nat, d.Reached 3 ∧ d.occupied = d.counter ∧ d.counter ≤ 3 ∧
      ∀ k, d.findKey (some k) = -1 → d.counter < d.size →
        d.firstFree < d.size ∧ d.firstFree ≤ d.counter := by
  let calls : List (DictCall Nat) := [.op (.set (lit "a") (.to 1)), .op (.set (lit "b") (.to 2)),
    .op (.remove (lit "a")), .index 0]
  obtain ⟨d, res, hrun⟩ : ∃ d res, run Dict.call (Dict.initDict 3) calls = done (d, res) :=
    ⟨_, _, rfl⟩
  exact ⟨d, ⟨calls, res, hrun⟩, reached_counts 3 d ⟨calls, res, hrun⟩⟩

end PwdManLib
