import PwdManLib.Util.StringOps

/-!
# Reading a file

`readFile` and `itoa` of `util/stringops.h`, and the `strtol` call by which the server looks for the
error string of `readFile`. The file system is a function from paths to what the calls of `readFile`
meet there.
-/

namespace PwdManLib

/-- What `readFile` meets at a path: the first of its calls that fails, or the bytes it reads. -/
inductive FileResult where
  | openError
  | seekError
  | tellError
  | rewindError
  | readError
  | contents (bytes : List UInt8)
  deriving DecidableEq, Repr

/-- A file tree, by path. -/
abbrev FileTree := Str → FileResult

/-- The digits of `itoa`. -/
def dig : Str := lit "0123456789abcdefghijklmnopqrstuvwxyz"

/-- The loop `do { str[n++] = dig[v % radix]; v /= radix; } while (v)`: an `unsigned int` has at most 32
digits. -/
def itoaDigits (radix : Nat) : Nat → Nat → Str
  | 0, _ => []
  | n + 1, v => dig.getD (v % radix) 0 :: (if v / radix ≠ 0 then itoaDigits radix n (v / radix) else [])

/-- Convert an `int` to a string. -/
def itoa (value : Int) (radix : Nat) : Str :=
  let neg := radix = 10 ∧ value < 0
  let v := if neg then (-value).toNat else (value % 2 ^ 32).toNat
  (itoaDigits radix 32 v ++ (if neg then lit "-" else [])).reverse

/-- Read a file into a string: NULL when it cannot be opened, `"-1"` on an error later on. -/
def readFile (tree : FileTree) (path : Str) : Option Str :=
  match tree path with
  | .openError => none
  | .seekError => none
  | .tellError => some (itoa (-1) 10)
  | .rewindError => some (itoa (-1) 10)
  | .readError => some (itoa (-1) 10)
  | .contents bytes => some (cstr bytes)

theorem readFile_contents {tree : FileTree} {path : Str} {bytes : List UInt8}
    (h : tree path = .contents bytes) : readFile tree path = some (cstr bytes) := by
  rw [readFile, h]

/-! ## `strtol` with base 0 -/

def isSpace (c : UInt8) : Bool := c = 32 || (9 ≤ c && c ≤ 13)

/-- The value of a digit, letters included. -/
def digitValue (c : UInt8) : Option Nat :=
  if 48 ≤ c ∧ c ≤ 57 then some (c.toNat - 48)
  else if 97 ≤ c ∧ c ≤ 122 then some (c.toNat - 87)
  else if 65 ≤ c ∧ c ≤ 90 then some (c.toNat - 55)
  else none

def isDigit (base : Nat) (c : UInt8) : Bool :=
  match digitValue c with
  | some d => d < base
  | none => false

/-- The number the digits at the start of the string make. -/
def numeral (base : Nat) (s : Str) : Nat :=
  (s.takeWhile (isDigit base)).foldl (fun n c => n * base + (digitValue c).getD 0) 0

/-- The base by the first characters, and where the digits start. -/
def numberBase (s : Str) : Nat × Str :=
  match s with
  | 48 :: x :: d :: rest =>
    if (x = 120 ∨ x = 88) ∧ isDigit 16 d then (16, d :: rest) else (8, s)
  | 48 :: _ => (8, s)
  | _ => (10, s)

/-- `strtol(s, &p, 0)`, cut off at the bounds of a 64-bit `long`. -/
def strtol (s : Str) : Int :=
  let s := s.dropWhile isSpace
  let (neg, s) : Bool × Str :=
    match s with
    | 45 :: rest => (true, rest)
    | 43 :: rest => (false, rest)
    | _ => (false, s)
  let (base, digits) := numberBase s
  let n : Int := numeral base digits
  if neg then max (-n) (-2 ^ 63) else min n (2 ^ 63 - 1)

theorem strtol_of_read_error {tree : FileTree} {path data : Str} (hread : readFile tree path = some data)
    (herror : ∀ bytes, tree path ≠ .contents bytes) : strtol data = -1 := by
  have hdata : data = itoa (-1) 10 := by
    rw [readFile] at hread
    cases htree : tree path with
    | contents bytes => exact absurd htree (herror bytes)
    | openError => simp [htree] at hread
    | seekError => simp [htree] at hread
    | tellError => simpa [htree, eq_comm] using hread
    | rewindError => simpa [htree, eq_comm] using hread
    | readError => simpa [htree, eq_comm] using hread
  rw [hdata]
  decide

end PwdManLib
