import PwdManLib.Lib.SwapEnds
import PwdManLib.Util.ReadFile

/-!
# `itoa` with its buffer

`itoaStores` is `itoa` of `util/stringops.h` with the stores into the block that `str` points to: digits
from the last one on, a sign, a NUL, and the reversal in place. In a block with room it leaves the string
`itoa` (`itoaStores_eq`), and that reads back to the number (`IsNumeral`, `ReadsBack`).
-/

namespace PwdManLib

open Exec

/-! ## The code -/

/-- The variables of the digit loop. -/
structure Digits where
  str : Block UInt8
  n : Nat
  v : Nat

/-- One round of `do { str[n++] = dig[v%radix]; v /= radix; } while (v)`. -/
def digitStep (radix : Nat) (st : Digits) : Exec (Digits ⊕ Digits) :=
  if radix = 0 then fault
  else
    match (dig ++ [0])[st.v % radix]? with
    | none => fault
    | some c => do
      let str ← st.str.store st.n c
      let st := { str := str, n := st.n + 1, v := st.v / radix }
      done (if st.v ≠ 0 then .inl st else .inr st)

/-- Convert an `int` to a string in a block of `size` bytes. An `unsigned int` has at most 32 digits. -/
def itoaStores (size : Nat) (value : Int) (radix : Nat) : Exec (Block UInt8) := do
  let neg := radix = 10 ∧ value < 0
  let value := if neg then toInt (-value % 2 ^ 32).toNat else value
  let st ← loop (digitStep radix) { str := Block.malloc size, n := 0, v := (value % 2 ^ 32).toNat } 32
  let str ← if neg then st.str.store st.n 45 else done st.str
  let n := if neg then st.n + 1 else st.n
  let str ← str.store n 0
  loop Block.swapStep { cells := str, p := 0, q := n - 1 } n

/-! ## Numerals -/

/-- The string denotes the number, without needless zeros in front. -/
structure IsNumeral (radix m : Nat) (s : Str) : Prop where
  digits : ∀ c ∈ s, isDigit radix c = true
  value : numeral radix s = m
  ne_nil : s ≠ []
  leading : s.head? = some 48 → s = [48]

theorem IsNumeral.nul_not_mem {radix m : Nat} {s : Str} (h : IsNumeral radix m s) : 0 ∉ s := by
  intro hmem
  exact absurd (h.digits 0 hmem) (by simp [isDigit, show digitValue 0 = none by decide])

theorem digitValue_dig {d : Nat} (h : d < 36) : digitValue (dig.getD d 0) = some d := by
  revert d
  decide

theorem dig_getElem? {d : Nat} (h : d < 36) : (dig ++ [0])[d]? = some (dig.getD d 0) := by
  revert d
  decide

theorem isDigit_dig {radix d : Nat} (hradix : radix ≤ 36) (hd : d < radix) :
    isDigit radix (dig.getD d 0) = true := by
  rw [isDigit, digitValue_dig (by omega)]
  exact decide_eq_true hd

theorem numeral_of_digits {radix : Nat} {s : Str} (h : ∀ c ∈ s, isDigit radix c = true) :
    numeral radix s = s.foldl (fun n c => n * radix + (digitValue c).getD 0) 0 := by
  rw [numeral, List.takeWhile_eq_self_iff.mpr h]

theorem isNumeral_singleton {radix d : Nat} (hradix : radix ≤ 36) (hd : d < radix) :
    IsNumeral radix d [dig.getD d 0] where
  digits := by simpa using isDigit_dig hradix hd
  value := by
    rw [numeral_of_digits (by simpa using isDigit_dig hradix hd), List.foldl_cons, List.foldl_nil,
      digitValue_dig (by omega), Option.getD_some, Nat.zero_mul, Nat.zero_add]
  ne_nil := List.cons_ne_nil _ _
  leading h := by simpa using h

theorem IsNumeral.snoc {radix m d : Nat} {s : Str} (h : IsNumeral radix m s) (hm : m ≠ 0) (hradix : radix ≤ 36)
    (hd : d < radix) : IsNumeral radix (m * radix + d) (s ++ [dig.getD d 0]) := by
  have hdigits : ∀ c ∈ s ++ [dig.getD d 0], isDigit radix c = true := by
    intro c hc
    rcases List.mem_append.mp hc with hc | hc
    · exact h.digits c hc
    · rw [List.mem_singleton.mp hc]
      exact isDigit_dig hradix hd
  refine ⟨hdigits, ?_, by simp, ?_⟩
  · have hvalue := h.value
    rw [numeral_of_digits h.digits] at hvalue
    rw [numeral_of_digits hdigits, List.foldl_append, hvalue, List.foldl_cons, List.foldl_nil,
      digitValue_dig (by omega), Option.getD_some]
  · intro hhead
    rw [List.head?_append_of_ne_nil s h.ne_nil] at hhead
    have hzero := h.value
    rw [numeral_of_digits h.digits, h.leading hhead] at hzero
    have hempty : [(48 : UInt8)].foldl (fun n c => n * radix + (digitValue c).getD 0) 0 = 0 := by
      simp [show digitValue 48 = some 0 by decide]
    exact absurd (hzero.symm.trans hempty) hm

theorem div_lt_two_pow {radix v n : Nat} (hlow : 2 ≤ radix) (hv : v < 2 ^ (n + 1)) : v / radix < 2 ^ n := by
  rw [Nat.pow_succ'] at hv
  exact Nat.div_lt_of_lt_mul (hv.trans_le (Nat.mul_le_mul_right _ hlow))

/-- **The digits of `itoa` denote the number.** -/
theorem isNumeral_itoaDigits {radix : Nat} (hlow : 2 ≤ radix) (hhigh : radix ≤ 36) (n : Nat) {v : Nat}
    (hv : v < 2 ^ (n + 1)) : IsNumeral radix v (itoaDigits radix (n + 1) v).reverse := by
  induction n generalizing v with
  | zero =>
    have hmod : v % radix = v := Nat.mod_eq_of_lt (by omega)
    have hlast : ¬ v / radix ≠ 0 := not_not.mpr (Nat.div_eq_of_lt (by omega))
    rw [itoaDigits, if_neg hlast, hmod]
    exact isNumeral_singleton hhigh (by omega)
  | succ n ih =>
    have hd : v % radix < radix := Nat.mod_lt _ (by omega)
    rw [itoaDigits]
    by_cases hmore : v / radix ≠ 0
    · have hnumeral := (ih (div_lt_two_pow hlow hv)).snoc hmore hhigh hd
      rw [Nat.div_add_mod'] at hnumeral
      rw [if_pos hmore, List.reverse_cons]
      exact hnumeral
    · have hmod : v % radix = v := by
        have hdiv := Nat.div_add_mod' v radix
        rw [not_not.mp hmore] at hdiv
        omega
      rw [if_neg hmore, hmod]
      exact isNumeral_singleton hhigh (hmod ▸ hd)

/-! ## The digit loop -/

theorem length_itoaDigits_pos (radix n v : Nat) : 0 < (itoaDigits radix (n + 1) v).length := by
  rw [itoaDigits]
  exact Nat.succ_pos _

theorem loop_digitStep {radix : Nat} (hlow : 2 ≤ radix) (hhigh : radix ≤ 36) (n : Nat) {v : Nat}
    (hv : v < 2 ^ (n + 1)) (ds : Str) {room : Nat} (hroom : (itoaDigits radix (n + 1) v).length ≤ room) :
    loop (digitStep radix) { str := Block.ofList ds ++ Block.malloc room, n := ds.length, v := v } (n + 1) =
      done
        { str := Block.ofList (ds ++ itoaDigits radix (n + 1) v) ++
            Block.malloc (room - (itoaDigits radix (n + 1) v).length)
          n := (ds ++ itoaDigits radix (n + 1) v).length
          v := 0 } := by
  have hround (ds : Str) (room v : Nat) : digitStep radix
      { str := Block.ofList ds ++ Block.malloc (room + 1), n := ds.length, v := v } =
      let st : Digits :=
        { str := Block.ofList (ds ++ [dig.getD (v % radix) 0]) ++ Block.malloc room
          n := (ds ++ [dig.getD (v % radix) 0]).length
          v := v / radix }
      done (if v / radix ≠ 0 then .inl st else .inr st) := by
    have hd : v % radix < radix := Nat.mod_lt _ (by omega)
    have hpos : ¬ radix = 0 := by omega
    rw [digitStep, if_neg hpos]
    simp only [dig_getElem? (Nat.lt_of_lt_of_le hd hhigh), Block.malloc_succ,
      Block.store_append (Block.length_ofList ds), done_bind, Block.ofList_append, Block.ofList_cons,
      Block.ofList_nil, List.length_append, List.length_singleton, List.append_assoc, List.cons_append,
      List.nil_append]
  induction n generalizing v ds room with
  | zero =>
    obtain ⟨room, rfl⟩ := Nat.exists_eq_add_of_le' ((length_itoaDigits_pos radix 0 v).trans_le hroom)
    have hlast : ¬ v / radix ≠ 0 := not_not.mpr (Nat.div_eq_of_lt (by omega))
    have hexit := hround ds room v
    simp only [if_neg hlast] at hexit
    rw [loop_succ_of_exit hexit, itoaDigits, if_neg hlast, not_not.mp hlast]
    rfl
  | succ n ih =>
    obtain ⟨room, rfl⟩ := Nat.exists_eq_add_of_le' ((length_itoaDigits_pos radix (n + 1) v).trans_le hroom)
    have hnext := hround ds room v
    rw [itoaDigits] at hroom ⊢
    by_cases hmore : v / radix ≠ 0
    · simp only [if_pos hmore, List.length_cons] at hnext hroom ⊢
      rw [loop_succ_of_next hnext, ih (div_lt_two_pow hlow hv) _ (by omega)]
      simp only [List.append_assoc, List.singleton_append, Nat.add_sub_add_right]
    · simp only [if_neg hmore] at hnext ⊢
      rw [loop_succ_of_exit hnext, not_not.mp hmore]
      rfl

/-! ## The whole function -/

theorem itoa_of_neg {value : Int} {radix : Nat} (h : radix = 10 ∧ value < 0) :
    itoa value radix = (itoaDigits radix 32 (-value).toNat ++ [45]).reverse := by
  simp only [itoa, if_pos h]
  rfl

theorem itoa_of_not_neg {value : Int} {radix : Nat} (h : ¬ (radix = 10 ∧ value < 0)) :
    itoa value radix = (itoaDigits radix 32 (value % 2 ^ 32).toNat).reverse := by
  simp only [itoa, if_neg h, List.append_nil]

theorem toNat_negated {value : Int} (hlow : -2 ^ 31 ≤ value) (hneg : value < 0) :
    (toInt (-value % 2 ^ 32).toNat % 2 ^ 32).toNat = (-value).toNat := by
  have hmod : (-value % 2 ^ 32).toNat = (-value).toNat := by omega
  rw [hmod, toInt]
  split_ifs <;> omega

theorem stores_stop {ds : Str} (hne : ds ≠ []) (room : Nat) :
    (do
      let str ← Block.store (Block.ofList ds ++ Block.malloc (room + 1)) ds.length 0
      loop Block.swapStep { cells := str, p := 0, q := ds.length - 1 } ds.length) =
      done (Block.ofList (ds.reverse ++ [0]) ++ Block.malloc room) := by
  have hpos := List.length_pos_iff.mpr hne
  have hreversed := Block.loop_swapStep ds (b := []) (q := ds.length - 1) (n := ds.length)
    (by rw [List.length_nil]; omega) (by omega) (some 0 :: Block.malloc room)
  rw [Block.malloc_succ, Block.store_append (Block.length_ofList ds), done_bind]
  simpa using hreversed

/-- **In a block with room, the string of `itoa` and its NUL are stored.** -/
theorem itoaStores_eq {value : Int} (hvalue : -2 ^ 31 ≤ value) {radix : Nat} (hlow : 2 ≤ radix)
    (hhigh : radix ≤ 36) {size : Nat} (hsize : (itoa value radix).length < size) :
    itoaStores size value radix =
      done (Block.ofList (itoa value radix ++ [0]) ++ Block.malloc (size - (itoa value radix).length - 1)) := by
  have hdigits {v : Nat} (hv : v < 2 ^ 32) (hroom : (itoaDigits radix 32 v).length ≤ size) :
      loop (digitStep radix) { str := Block.malloc size, n := 0, v := v } 32 =
        done
          { str := Block.ofList (itoaDigits radix 32 v) ++ Block.malloc (size - (itoaDigits radix 32 v).length)
            n := (itoaDigits radix 32 v).length
            v := 0 } := loop_digitStep hlow hhigh 31 hv [] hroom
  by_cases hneg : radix = 10 ∧ value < 0
  · have hv : (-value).toNat < 2 ^ 32 := by omega
    have hrun := hdigits hv
    simp only [itoaStores, if_pos hneg, toNat_negated hvalue hneg.2]
    rw [itoa_of_neg hneg, List.length_reverse, List.length_append, List.length_singleton] at hsize ⊢
    generalize itoaDigits radix 32 (-value).toNat = ds at hrun hsize ⊢
    obtain ⟨room, rfl⟩ : ∃ k, size = ds.length + (k + 1 + 1) := ⟨size - ds.length - 2, by omega⟩
    have hspare : ds.length + (room + 1 + 1) - (ds.length + 1) - 1 = room := by omega
    have hsign := Block.store_append (Block.length_ofList ds) none 45 (Block.malloc (room + 1))
    have hstop := @stores_stop (ds ++ [45]) (by simp) room
    rw [Block.ofList_append, Block.ofList_cons, Block.ofList_nil, List.append_assoc, List.singleton_append,
      List.length_append, List.length_singleton] at hstop
    rw [hrun (by omega), done_bind, Nat.add_sub_cancel_left, Block.malloc_succ (room + 1), hsign, done_bind,
      hspare]
    exact hstop
  · have hv : (value % 2 ^ 32).toNat < 2 ^ 32 := by omega
    have hrun := hdigits hv
    have hpos := length_itoaDigits_pos radix 31 (value % 2 ^ 32).toNat
    simp only [itoaStores, if_neg hneg]
    rw [itoa_of_not_neg hneg, List.length_reverse] at hsize ⊢
    generalize itoaDigits radix 32 (value % 2 ^ 32).toNat = ds at hrun hsize hpos ⊢
    obtain ⟨room, rfl⟩ : ∃ k, size = ds.length + (k + 1) := ⟨size - ds.length - 1, by omega⟩
    rw [hrun (by omega), done_bind, Nat.add_sub_cancel_left, done_bind, Nat.add_sub_cancel]
    exact stores_stop (List.length_pos_iff.mp hpos) room

/-- The four bytes of the source are enough for the number of `readFile`. -/
example : itoaStores 4 (-1) 10 = done [some 45, some 49, some 0, none] := by decide

/-- What the string is to be read as: in base 10 a sign and the absolute value, in other bases the value of
the `unsigned int`. -/
def ReadsBack (value : Int) (radix : Nat) (s : Str) : Prop :=
  if radix = 10 then
    if value < 0 then ∃ ds, s = lit "-" ++ ds ∧ IsNumeral 10 (-value).toNat ds
    else IsNumeral 10 value.toNat s
  else IsNumeral radix (value % 2 ^ 32).toNat s

theorem readsBack_itoa {value : Int} (hvalue : -2 ^ 31 ≤ value) (hmax : value < 2 ^ 31) {radix : Nat}
    (hlow : 2 ≤ radix) (hhigh : radix ≤ 36) : ReadsBack value radix (itoa value radix) := by
  have hnumeral {v : Nat} (hv : v < 2 ^ 32) := isNumeral_itoaDigits hlow hhigh 31 hv
  by_cases hneg : radix = 10 ∧ value < 0
  · rw [ReadsBack, if_pos hneg.1, if_pos hneg.2, itoa_of_neg hneg, List.reverse_append]
    exact ⟨_, rfl, hneg.1 ▸ hnumeral (by omega)⟩
  · have hdigits := hnumeral (v := (value % 2 ^ 32).toNat) (by omega)
    rw [ReadsBack, itoa_of_not_neg hneg]
    split_ifs with hbase hnegative
    · exact absurd ⟨hbase, hnegative⟩ hneg
    · have hvalue : (value % 2 ^ 32).toNat = value.toNat := by omega
      rwa [hvalue, hbase] at hdigits ⊢
    · exact hdigits

theorem ReadsBack.nul_not_mem {value : Int} {radix : Nat} {s : Str} (h : ReadsBack value radix s) : 0 ∉ s := by
  rw [ReadsBack] at h
  split_ifs at h with hbase hneg
  · obtain ⟨ds, rfl, hds⟩ := h
    intro hmem
    rcases List.mem_append.mp hmem with hsign | hdigits
    · exact absurd hsign (by decide)
    · exact hds.nul_not_mem hdigits
  · exact h.nul_not_mem
  · exact h.nul_not_mem

/-- **The string in the block reads back to the value**, for every `int`, the most negative one included. -/
theorem itoa_reads_back (value : Int32) {radix : Nat} (hlow : 2 ≤ radix) (hhigh : radix ≤ 36) {size : Nat}
    (hsize : (itoa value.toInt radix).length < size) :
    ∃ str s, itoaStores size value.toInt radix = done str ∧ str.upTo 0 = done s ∧
      ReadsBack value.toInt radix s := by
  have hread := readsBack_itoa value.le_toInt value.toInt_lt hlow hhigh
  exact ⟨_, _, itoaStores_eq value.le_toInt hlow hhigh hsize, Block.upTo_ofList hread.nul_not_mem _, hread⟩

theorem itoa_reads_back_min : ∃ str s, itoaStores 12 (-2147483648) 10 = done str ∧ str.upTo 0 = done s ∧
    ReadsBack (-2147483648) 10 s :=
  itoa_reads_back (-2147483648) (by omega) (by omega) (by decide)

end PwdManLib
