import Mathlib.Algebra.Group.Int.Defs
import Mathlib.Algebra.Group.Nat.Defs
import PwdManLib.Lib.Delim
import PwdManLib.Lib.Exec

/-!
# Strings and `util/stringops.h`

A C string is the list of its bytes before the terminating NUL (`Str`), a `char *` is an
`Option Str` with `none` for NULL. Lengths and indices are natural numbers; where the code squeezes
one into an `int` the conversion is written out (`toInt`).

`strsplit` is modelled with its two passes, one counting the delimiters and one cutting the tokens
off. Its result is the list of the stored slots, the terminating NULL included: what lies behind
them was never written. The stores themselves are taken to succeed, whatever the size of the block
they go to. `strsplit_eq` says what both passes compute in terms of `Delim.split`.
-/

namespace PwdManLib

open Exec

/-- The bytes of a C string, without the terminating NUL. -/
abbrev Str := List UInt8

/-- A string literal of the source. -/
def lit (s : String) : Str := s.toList.map fun ch => UInt8.ofNat ch.toNat

theorem lit_append (s t : String) : lit (s ++ t) = lit s ++ lit t := by simp [lit]

/-- The value an `int` takes when `n` is converted to it. -/
def toInt (n : Nat) : Int :=
  if n % 2 ^ 32 < 2 ^ 31 then (n % 2 ^ 32 : Nat) else (n % 2 ^ 32 : Nat) - 2 ^ 32

theorem toInt_of_lt {n : Nat} (h : n < 2 ^ 31) : toInt n = n := by
  rw [toInt, if_pos (by omega), Nat.mod_eq_of_lt (by omega)]

theorem toInt_of_ge {n : Nat} (h : 2 ^ 31 ≤ n) (h' : n < 2 ^ 32) : toInt n = n - 2 ^ 32 := by
  rw [toInt, Nat.mod_eq_of_lt h', if_neg (by omega)]

theorem toInt_lt (n : Nat) : toInt n < 2 ^ 31 := by
  rw [toInt]
  split_ifs <;> omega

theorem toInt_le (n : Nat) : toInt n ≤ n := by
  rw [toInt]
  split_ifs <;> omega

theorem toInt_eq_natCast_iff {n k : Nat} : toInt n = k ↔ k < 2 ^ 31 ∧ n % 2 ^ 32 = k := by
  rw [toInt]
  split_ifs <;> omega

theorem toInt_eq_self_iff {n : Nat} : toInt n = n ↔ n < 2 ^ 31 := by
  rw [toInt_eq_natCast_iff]
  omega

/-- An `int` in an expression with an `unsigned long`. -/
def toULong (x : Int) : Nat := (x % 2 ^ 64).toNat

/-- A sum of `int`s. -/
def intAdd (x y : Int) : Int := toInt ((x + y) % 2 ^ 32).toNat

theorem toULong_natCast {n : Nat} (h : n < 2 ^ 64) : toULong n = n := by
  rw [toULong]
  omega

theorem intAdd_natCast {m n : Nat} (h : m + n < 2 ^ 31) : intAdd m n = (m + n : Nat) := by
  have hmod : (((m : Int) + n) % 2 ^ 32).toNat = m + n := by omega
  rw [intAdd, hmod, toInt_of_lt h]

theorem intAdd_toInt (n : Nat) : intAdd (toInt n) 1 = toInt (n + 1) := by
  have hmod : ((toInt n + 1) % 2 ^ 32).toNat = (n + 1) % 2 ^ 32 := by
    rw [toInt]
    split_ifs <;> omega
  rw [intAdd, hmod, toInt, toInt, Nat.mod_mod]

/-- The string in a buffer: everything before the first NUL byte. -/
def cstr (buf : List UInt8) : Str := buf.takeWhile (· ≠ 0)

theorem cstr_eq_self_iff (bytes : List UInt8) : cstr bytes = bytes ↔ 0 ∉ bytes := by
  rw [cstr, List.takeWhile_eq_self_iff]
  constructor
  · intro h hmem
    simpa using h 0 hmem
  · intro h c hc
    have hne : c ≠ 0 := fun h0 => h (h0 ▸ hc)
    simpa using hne

theorem length_cstr_eq_iff (bytes : List UInt8) : bytes.length = (cstr bytes).length ↔ 0 ∉ bytes := by
  have hpre : cstr bytes <+: bytes := List.takeWhile_prefix _
  rw [← cstr_eq_self_iff]
  constructor
  · intro h
    exact hpre.eq_of_length h.symm
  · intro h
    rw [h]

theorem zero_notMem_cstr (bytes : List UInt8) : 0 ∉ cstr bytes := by
  intro h
  have hne := List.mem_takeWhile_imp h
  simp at hne

/-! ## Arrays of strings -/

/-- The slots of a `char **` that have been stored, from index 0 on. -/
abbrev Slots := List (Option Str)

/-- Read a slot; a slot that was never stored holds nothing that may be used. -/
def Slots.read (ts : Slots) (i : Nat) : Exec (Option Str) :=
  match ts[i]? with
  | some p => done p
  | none => fault

/-- Use a `char *` as a string. -/
def deref (p : Option Str) : Exec Str :=
  match p with
  | some s => done s
  | none => fault

@[simp] theorem deref_some (s : Str) : deref (some s) = done s := rfl

@[simp] theorem deref_none : deref none = fault := rfl

theorem deref_eq_done_iff {p : Option Str} {s : Str} : deref p = done s ↔ p = some s := by
  cases p <;> simp

/-- Use the string a slot points to. -/
def Slots.str (ts : Slots) (i : Nat) : Exec Str := ts.read i >>= deref

theorem Slots.read_of_getElem? {ts : Slots} {i : Nat} {p : Option Str} (h : ts[i]? = some p) :
    ts.read i = done p := by
  rw [Slots.read, h]

theorem str_eq_done_iff {slots : Slots} {i : Nat} {s : Str} :
    slots.str i = done s ↔ slots[i]? = some (some s) := by
  rw [Slots.str, Slots.read]
  cases slots[i]? with
  | none => simp
  | some p => cases p <;> simp

/-! ## `strsplit` -/

/-- `strstr`, as the offset of the occurrence from the start of the string. -/
abbrev strstr (s delims : Str) : Option Nat := Delim.find delims s

/-- The first pass: the number of rounds of `while ((tmp = strstr(tmp, delims)) != NULL)`. A round
moves `tmp` by at least the delimiter's length, so `strlen(str)` rounds are enough for the loop. -/
def countDelims (delims : Str) : Nat → Str → Nat
  | 0, _ => 0
  | n + 1, tmp =>
    match strstr tmp delims with
    | none => 0
    | some tok => countDelims delims n (tmp.drop (tok + delims.length)) + 1

/-- The second pass: the tokens cut off by the loop, and what `tmp` points to behind it. -/
def cutTokens (delims : Str) : Nat → Str → List Str × Str
  | 0, tmp => ([], tmp)
  | n + 1, tmp =>
    match strstr tmp delims with
    | none => ([], tmp)
    | some tok =>
      let (toks, trailing) := cutTokens delims n (tmp.drop (tok + delims.length))
      (tmp.take tok :: toks, trailing)

/-- What `strsplit` hands back: the stored slots of `result`, and `*len`. -/
structure SplitResult where
  slots : Slots
  len : Nat
  deriving DecidableEq, Repr

/-- Tokenize a string. The trailing token is stored only when it is not empty; the NULL goes into
the slot after the last stored token. -/
def strsplit (str delims : Str) : SplitResult :=
  let count := countDelims delims str.length str + 1
  let (toks, tmp) := cutTokens delims str.length str
  let result := toks ++ (if tmp ≠ [] then [tmp] else [])
  { slots := result.map some ++ [none], len := count }

/-- The slots that hold the given pieces: an empty last piece is left out. -/
def slotsOf : List Str → Slots
  | [] => [none]
  | [p] => if p = [] then [none] else [some p, none]
  | p :: q :: ps => some p :: slotsOf (q :: ps)

theorem countDelims_eq (delims : Str) (n : Nat) (tmp : Str) :
    countDelims delims n tmp + 1 = (Delim.pieces delims n tmp).length := by
  induction n generalizing tmp with
  | zero => rfl
  | succ n ih =>
    simp only [countDelims, Delim.pieces, strstr]
    cases Delim.find delims tmp with
    | none => rfl
    | some tok => simp only [List.length_cons, ih]

theorem cutTokens_eq (delims : Str) (n : Nat) (tmp : Str) :
    (cutTokens delims n tmp).1 ++ [(cutTokens delims n tmp).2] = Delim.pieces delims n tmp := by
  induction n generalizing tmp with
  | zero => rfl
  | succ n ih =>
    simp only [cutTokens, Delim.pieces, strstr]
    cases Delim.find delims tmp with
    | none => rfl
    | some tok => simp only [List.cons_append, ih]

theorem slotsOf_append_singleton (toks : List Str) (tmp : Str) :
    slotsOf (toks ++ [tmp]) = (toks ++ (if tmp ≠ [] then [tmp] else [])).map some ++ [none] := by
  induction toks with
  | nil =>
    by_cases h : tmp = []
    · simp [slotsOf, h]
    · simp [slotsOf, h]
  | cons t toks ih =>
    obtain ⟨q, ps, hq⟩ : ∃ q ps, toks ++ [tmp] = q :: ps := by
      cases toks with
      | nil => exact ⟨tmp, [], rfl⟩
      | cons q qs => exact ⟨q, qs ++ [tmp], rfl⟩
    rw [List.cons_append, hq, slotsOf, ← hq, ih]
    rfl

/-- The result of `strsplit` on a string with the given pieces. -/
def tokensOf (ps : List Str) : SplitResult := { slots := slotsOf ps, len := ps.length }

/-- **Both passes of `strsplit` walk the pieces of the string.** -/
theorem strsplit_eq (str delims : Str) : strsplit str delims = tokensOf (Delim.split delims str) := by
  rw [strsplit, tokensOf, Delim.split, ← countDelims_eq, ← cutTokens_eq, slotsOf_append_singleton]

theorem slotsOf_getElem? {ps : List Str} {i : Nat} {p : Str} (h : ps[i]? = some p) :
    (slotsOf ps)[i]? = some (if p = [] ∧ i + 1 = ps.length then none else some p) := by
  induction ps generalizing i with
  | nil => simp at h
  | cons q ps ih =>
    cases ps with
    | nil =>
      cases i with
      | zero =>
        obtain rfl : q = p := by simpa using h
        by_cases hq : q = [] <;> simp [slotsOf, hq]
      | succ i => simp at h
    | cons r ps =>
      cases i with
      | zero =>
        obtain rfl : q = p := by simpa using h
        simp [slotsOf]
      | succ i => simpa [slotsOf] using ih h

theorem slotsOf_getElem?_of_le {ps : List Str} {i : Nat} (h : ps.length ≤ i) :
    (slotsOf ps)[i]? = none ∨ (slotsOf ps)[i]? = some none := by
  induction ps generalizing i with
  | nil => cases i <;> simp [slotsOf]
  | cons q ps ih =>
    obtain ⟨i, rfl⟩ : ∃ k, i = k + 1 := ⟨i - 1, by simp at h; omega⟩
    cases ps with
    | nil =>
      by_cases hq : q = []
      · simp [slotsOf, hq]
      · cases i <;> simp [slotsOf, hq]
    | cons r ps => simpa [slotsOf] using ih (by simpa using h)

/-- **What a caller of `strsplit` gets from slot `i`**: the piece of that index, except that an
empty last piece reads as NULL. -/
theorem str_slotsOf (ps : List Str) (i : Nat) :
    (slotsOf ps).str i =
      match ps[i]? with
      | some p => if p = [] ∧ i + 1 = ps.length then fault else done p
      | none => fault := by
  cases h : ps[i]? with
  | some p =>
    rw [Slots.str, Slots.read_of_getElem? (slotsOf_getElem? h), done_bind]
    by_cases hp : p = [] ∧ i + 1 = ps.length <;> simp [hp]
  | none =>
    rw [Slots.str, Slots.read]
    rcases slotsOf_getElem?_of_le (List.getElem?_eq_none_iff.mp h) with h' | h' <;> simp [h']

theorem getElem?_of_str {ps : List Str} {i : Nat} {p : Str} (h : (slotsOf ps).str i = done p) :
    ps[i]? = some p := by
  rw [str_slotsOf] at h
  cases hq : ps[i]? with
  | none => simp [hq] at h
  | some q =>
    simp only [hq] at h
    split_ifs at h
    rw [done.inj h]

theorem getElem?_slotsOf_append (pre : List Str) (p : Str) {rest : List Str} (h : rest ≠ []) :
    (slotsOf (pre ++ p :: rest))[pre.length]? = some (some p) := by
  have hlen := List.length_pos_of_ne_nil h
  rw [slotsOf_getElem? (p := p) (by simp), if_neg]
  rintro ⟨-, hlast⟩
  rw [List.length_append, List.length_cons] at hlast
  omega

theorem str_slotsOf_append (pre : List Str) (p : Str) {rest : List Str} (h : rest ≠ []) :
    (slotsOf (pre ++ p :: rest)).str pre.length = done p := by
  rw [Slots.str, Slots.read_of_getElem? (getElem?_slotsOf_append pre p h), done_bind, deref_some]

theorem getElem?_slotsOf_last (pre : List Str) (p : Str) :
    (slotsOf (pre ++ [p]))[pre.length]? = some (if p = [] then none else some p) := by
  rw [slotsOf_getElem? (p := p) (by simp)]
  simp

end PwdManLib
