import PwdManLib.Lib.SwapEnds
import PwdManLib.Lib.Trace
import PwdManLib.Util.StringOps

/-!
# `strReverse`

`strReverse` of `util/stringops.h` on a string somewhere in memory, with a record of the addresses that each
`XOR_SWAP` touches. Its `start` is an `int`, which wraps around, and its `end` a `size_t`. For the empty
string `end` is the largest `size_t`, and the first exchange is with the byte in front of the string. Otherwise
2^31 exchanges are made at most, before `start` is negative and by that, as a `size_t`, behind `end`; so the
string is reversed when that is enough, or what is left between reads the same from both ends
(`reversesAndBack_iff`).
-/

namespace PwdManLib

open Exec Trace Block

/-! ## The code -/

/-- `*p ^= *q`. -/
def xorInto (m : Block UInt8) (p q : Nat) : Exec (Block UInt8) := do
  let a ← m.load p
  let b ← m.load q
  m.store p (a ^^^ b)

/-- `XOR_SWAP(*p, *q)`. -/
def XOR_SWAP (m : Block UInt8) (p q : Nat) : Exec (Block UInt8) := do
  let m ← xorInto m p q
  let m ← xorInto m q p
  xorInto m p q

/-- The variables of `strReverse`, with the memory. -/
structure ReverseLoop where
  start : Int
  last : Nat
  m : Block UInt8

/-- One round of `while (start < end)`: an address is a number of 64 bits. -/
def reverseRound (str : Nat) (st : ReverseLoop) : Trace (Nat × Nat) (ReverseLoop ⊕ Block UInt8) :=
  if toULong st.start < st.last then do
    let p := toULong (str + st.start)
    let q := (str + st.last) % 2 ^ 64
    emit (p, q)
    let m ← lift (XOR_SWAP st.m p q)
    pure (.inl { start := intAdd st.start 1, last := (st.last + (2 ^ 64 - 1)) % 2 ^ 64, m := m })
  else pure (.inr st.m)

/-- Reverse the string at the address `str`. -/
def strReverse (m : Block UInt8) (str rounds : Nat) : Trace (Nat × Nat) (Block UInt8) := do
  let s ← lift (Block.upTo 0 (m.drop str))
  Trace.loop (reverseRound str) { start := 0, last := (s.length + (2 ^ 64 - 1)) % 2 ^ 64, m := m } rounds

/-! ## `XOR_SWAP` -/

theorem xorInto_of_loads {m : Block UInt8} {p q : Nat} {a b : UInt8} (hp : m.load p = done a)
    (hq : m.load q = done b) : xorInto m p q = done (m.set p (some (a ^^^ b))) := by
  rw [xorInto, hp, done_bind, hq, done_bind, store_of_lt (lt_length_of_load hp)]

theorem XOR_SWAP_of_loads {m : Block UInt8} {p q : Nat} {a b : UInt8} (hne : p ≠ q) (hp : m.load p = done a)
    (hq : m.load q = done b) : XOR_SWAP m p q = m.swap p q := by
  have hpl := lt_length_of_load hp
  have hql := lt_length_of_load hq
  have hb : b ^^^ (a ^^^ b) = a := by rw [UInt8.xor_comm a b, ← UInt8.xor_assoc, UInt8.xor_self, UInt8.zero_xor]
  have ha : (a ^^^ b) ^^^ a = b := by rw [UInt8.xor_comm a b, UInt8.xor_assoc, UInt8.xor_self, UInt8.xor_zero]
  have hfirst := xorInto_of_loads hp hq
  have hsecond := xorInto_of_loads ((load_set_ne hne (some (a ^^^ b))).trans hq) (load_set_self hpl (a ^^^ b))
  rw [hb] at hsecond
  have hp' : Block.load ((m.set p (some (a ^^^ b))).set q (some a)) p = done (a ^^^ b) :=
    (load_set_ne hne.symm (some a)).trans (load_set_self hpl _)
  have hq' : Block.load ((m.set p (some (a ^^^ b))).set q (some a)) q = done a :=
    load_set_self (by rwa [List.length_set]) a
  have hthird := xorInto_of_loads hp' hq'
  rw [ha] at hthird
  have hstore := store_of_lt (show q < (m.set p (some b)).length by rwa [List.length_set]) a
  rw [XOR_SWAP, hfirst, done_bind, hsecond, done_bind, hthird, swap, hp, done_bind, hq, done_bind,
    store_of_lt hpl, done_bind, hstore, List.set_comm _ _ hne.symm, List.set_set]

theorem XOR_SWAP_of_swap {m m' : Block UInt8} {p q : Nat} (hne : p ≠ q) (h : m.swap p q = done m') :
    XOR_SWAP m p q = done m' := by
  obtain ⟨a, ha, hrest⟩ := bind_eq_done.mp h
  obtain ⟨b, hb, -⟩ := bind_eq_done.mp hrest
  rw [XOR_SWAP_of_loads hne ha hb, h]

/-! ## Strings in memory -/

/-- A string in memory, and the bytes before and behind it. -/
structure Placed where
  before : Block UInt8
  s : Str
  behind : Block UInt8
  no_nul : 0 ∉ s
  addressable : before.length + s.length + 1 + behind.length ≤ 2 ^ 64

namespace Placed

def memory (p : Placed) : Block UInt8 := p.before ++ (ofList p.s ++ some 0 :: p.behind)

/-- The address of the string. -/
def str (p : Placed) : Nat := p.before.length

/-- The addresses of the characters. -/
def Own (p : Placed) (a : Nat) : Prop := p.str ≤ a ∧ a < p.str + p.s.length

/-- The same memory with the string reversed. -/
def reversed (p : Placed) : Placed where
  before := p.before
  s := p.s.reverse
  behind := p.behind
  no_nul := by simpa using p.no_nul
  addressable := by simpa using p.addressable

/-- `strReverse` ends, has touched nothing but characters of the string, and leaves it reversed. -/
def Reverses (p : Placed) : Prop :=
  ∃ rounds touched, strReverse p.memory p.str rounds = { sent := touched, next := done p.reversed.memory } ∧
    ∀ pq ∈ touched, p.Own pq.1 ∧ p.Own pq.2

/-- It does, and a second call restores the memory. -/
structure ReversesAndBack (p : Placed) : Prop where
  reverses : p.Reverses
  back : ∃ rounds touched, strReverse p.reversed.memory p.str rounds = { sent := touched, next := done p.memory }

/-! ## The run -/

variable (p : Placed)

/-- The memory behind `k` exchanges. -/
def swapped (k : Nat) : Block UInt8 := p.before ++ (ofList (swapOuter k p.s) ++ some 0 :: p.behind)

/-- The variables behind `k` rounds. -/
def state (k : Nat) : ReverseLoop where
  start := toInt k
  last := p.s.length - 1 - k
  m := p.swapped k

/-- What round `k` touches. -/
def touches (k : Nat) : Nat × Nat := (p.str + k, p.str + (p.s.length - 1 - k))

theorem reverseRound_of_lt {k : Nat} (hk : 2 * (k + 1) ≤ p.s.length) (hint : k < 2 ^ 31) :
    reverseRound p.str (p.state k) = { sent := [p.touches k], next := done (.inl (p.state (k + 1))) } := by
  have haddr := p.addressable
  have hstart : toULong (toInt k) = k := by rw [toInt_of_lt hint, toULong_natCast (by omega)]
  have hp : toULong (p.str + toInt k) = p.str + k := by
    rw [toInt_of_lt hint, str]
    exact toULong_natCast (n := p.before.length + k) (by omega)
  have hq : (p.str + (p.s.length - 1 - k)) % 2 ^ 64 = p.str + (p.s.length - 1 - k) := by
    rw [str]
    exact Nat.mod_eq_of_lt (by omega)
  have hlast : (p.s.length - 1 - k + (2 ^ 64 - 1)) % 2 ^ 64 = p.s.length - 1 - (k + 1) := by omega
  have hlt : k < p.s.length - 1 - k := by omega
  have hswap : (p.swapped k).swap (p.str + k) (p.str + (p.s.length - 1 - k)) = done (p.swapped (k + 1)) :=
    swap_swapOuter hk rfl (by rw [str]; omega) _
  have hxor := XOR_SWAP_of_swap (by omega) hswap
  rw [reverseRound]
  simp only [state, hstart, if_pos hlt, hp, hq, hlast, hxor, intAdd_toInt]
  rfl

/-- The number of exchanges made. -/
def exchanges : Nat := min (p.s.length / 2) (2 ^ 31)

theorem reverseRound_exit (hne : p.s ≠ []) :
    reverseRound p.str (p.state p.exchanges) = { sent := [], next := done (.inr (p.swapped p.exchanges)) } := by
  have hpos := List.length_pos_iff.mpr hne
  have haddr := p.addressable
  have hmet : ¬ toULong (toInt p.exchanges) < p.s.length - 1 - p.exchanges := by
    rw [exchanges]
    rcases Nat.lt_or_ge (p.s.length / 2) (2 ^ 31) with hless | hwrap
    · rw [Nat.min_eq_left (by omega), toInt_of_lt hless, toULong_natCast (by omega)]
      omega
    · rw [Nat.min_eq_right hwrap, toInt_of_ge (by omega) (by omega), toULong]
      omega
  exact if_neg hmet

theorem strReverse_eq_loop (rounds : Nat) :
    strReverse p.memory p.str rounds =
      Trace.loop (reverseRound p.str)
        { start := 0, last := (p.s.length + (2 ^ 64 - 1)) % 2 ^ 64, m := p.memory } rounds := by
  have hstring : Block.upTo 0 (p.memory.drop p.str) = done p.s := by
    have hupTo := Block.upTo_ofList p.no_nul p.behind
    simpa [memory, str] using hupTo
  rw [strReverse, hstring]
  rfl

theorem strReverse_eq (hne : p.s ≠ []) :
    strReverse p.memory p.str (p.exchanges + 1) =
      { sent := (List.range p.exchanges).map p.touches, next := done (p.swapped p.exchanges) } := by
  have hpos := List.length_pos_iff.mpr hne
  have haddr := p.addressable
  have hnext : ∀ k < p.exchanges,
      reverseRound p.str (p.state k) = { sent := [p.touches k], next := done (.inl (p.state (k + 1))) } := by
    intro k hk
    rw [exchanges] at hk
    exact p.reverseRound_of_lt (by omega) (by omega)
  have hrun := Trace.loop_of_rounds hnext (p.reverseRound_exit hne)
  have hstart : p.state 0 = { start := 0, last := (p.s.length + (2 ^ 64 - 1)) % 2 ^ 64, m := p.memory } := by
    have hlast : (p.s.length + (2 ^ 64 - 1)) % 2 ^ 64 = p.s.length - 1 - 0 := by omega
    rw [hlast, state, swapped, swapOuter_zero]
    rfl
  rw [hstart, List.append_nil, ← strReverse_eq_loop] at hrun
  exact hrun

theorem stable_strReverse (m : Block UInt8) (str : Nat) : Trace.Stable (strReverse m str) :=
  (stable_const _).bind fun _ => Trace.stable_loop _ _

/-! ## When the string is reversed -/

theorem reversed_memory : p.reversed.memory = p.before ++ (ofList p.s.reverse ++ some 0 :: p.behind) := rfl

theorem reversed_reversed_memory : p.reversed.reversed.memory = p.memory := by
  rw [reversed_memory, reversed, List.reverse_reverse, memory]

theorem middle_reverse_of_short {s : Str} (h : s.length ≤ 2 ^ 32 + 1) :
    (middle (2 ^ 31) s).reverse = middle (2 ^ 31) s := by
  have hshort := length_middle_le (2 ^ 31) s
  apply reverse_eq_self
  omega

theorem swapped_eq_iff :
    p.swapped p.exchanges = p.reversed.memory ↔ (middle (2 ^ 31) p.s).reverse = middle (2 ^ 31) p.s := by
  have hmemory : p.swapped p.exchanges = p.reversed.memory ↔ swapOuter p.exchanges p.s = p.s.reverse := by
    rw [swapped, reversed_memory, List.append_cancel_left_eq]
    exact (List.append_cancel_right_eq _ _ _).to_iff.trans ofList_inj
  rw [hmemory]
  rcases Nat.lt_or_ge (p.s.length / 2) (2 ^ 31) with hless | hwrap
  · rw [exchanges, Nat.min_eq_left (by omega)]
    exact iff_of_true (swapOuter_half p.s) (middle_reverse_of_short (by omega))
  · rw [exchanges, Nat.min_eq_right hwrap]
    exact swapOuter_eq_reverse_iff (by omega)

theorem own_touches {k : Nat} (hk : k < p.exchanges) : p.Own (p.touches k).1 ∧ p.Own (p.touches k).2 := by
  rw [exchanges] at hk
  simp only [touches, Own]
  omega

theorem reverses_iff_of_ne_nil (hne : p.s ≠ []) :
    p.Reverses ↔ (middle (2 ^ 31) p.s).reverse = middle (2 ^ 31) p.s := by
  have hrun := p.strReverse_eq hne
  rw [← swapped_eq_iff]
  constructor
  · intro h
    obtain ⟨rounds, touched, hreverses, -⟩ := h
    have hend := (stable_strReverse _ _).eq_of_done (congrArg Trace.next hrun) (congrArg Trace.next hreverses)
    rw [hrun, hreverses, Trace.mk.injEq] at hend
    exact Exec.done.inj hend.2
  · intro h
    rw [h] at hrun
    refine ⟨_, _, hrun, ?_⟩
    intro pq hpq
    obtain ⟨k, hk, rfl⟩ := List.mem_map.mp hpq
    exact p.own_touches (List.mem_range.mp hk)

theorem mem_sent_of_empty (hempty : p.s = []) (rounds : Nat) :
    (p.str, (p.str + (2 ^ 64 - 1)) % 2 ^ 64) ∈ (strReverse p.memory p.str (rounds + 1)).sent := by
  have haddr := p.addressable
  have hp : toULong p.str = p.str := by
    rw [str]
    exact toULong_natCast (by omega)
  have hlt : toULong 0 < 2 ^ 64 - 1 := by decide
  rw [strReverse_eq_loop, hempty, Trace.loop]
  apply mem_sent_bind.mpr
  left
  show _ ∈ (reverseRound p.str { start := 0, last := 2 ^ 64 - 1, m := p.memory }).sent
  rw [reverseRound, if_pos hlt]
  simp [hp]

theorem not_reverses_of_empty (hempty : p.s = []) : ¬ p.Reverses := by
  intro h
  obtain ⟨rounds, touched, hrun, hown⟩ := h
  obtain _ | rounds := rounds
  · rw [strReverse_eq_loop] at hrun
    cases congrArg Trace.next hrun
  · have hmem := p.mem_sent_of_empty hempty rounds
    rw [hrun] at hmem
    obtain ⟨⟨-, hbehind⟩, -⟩ := hown _ hmem
    rw [hempty] at hbehind
    exact Nat.lt_irrefl _ hbehind

/-- **`strReverse` reverses** what is not empty and is reversed by 2^31 exchanges at most; and then a second call
restores the string. -/
theorem reversesAndBack_iff :
    p.ReversesAndBack ↔ p.s ≠ [] ∧ (middle (2 ^ 31) p.s).reverse = middle (2 ^ 31) p.s := by
  constructor
  · intro h
    have hne : p.s ≠ [] := fun hempty => p.not_reverses_of_empty hempty h.reverses
    exact ⟨hne, (p.reverses_iff_of_ne_nil hne).mp h.reverses⟩
  · intro h
    obtain ⟨hne, hmiddle⟩ := h
    have hback : p.reversed.Reverses := by
      rw [reverses_iff_of_ne_nil _ (List.reverse_ne_nil_iff.mpr hne)]
      show (middle (2 ^ 31) p.s.reverse).reverse = middle (2 ^ 31) p.s.reverse
      rw [middle_reverse, hmiddle, hmiddle]
    obtain ⟨rounds, touched, hrun, -⟩ := hback
    rw [reversed_reversed_memory] at hrun
    exact ⟨(p.reverses_iff_of_ne_nil hne).mpr hmiddle, rounds, touched, hrun⟩

/-- The empty string at address 1, behind an `'A'`. -/
def emptyBehindByte : Placed where
  before := [some 65]
  s := []
  behind := []
  no_nul := by simp
  addressable := by decide

theorem not_reversesAndBack_emptyBehindByte : ¬ emptyBehindByte.ReversesAndBack :=
  fun h => emptyBehindByte.not_reverses_of_empty rfl h.reverses

end Placed

end PwdManLib
