import PwdManLib.Lib.Block
import PwdManLib.Util.StringOps

/-!
# `joinPath`

`joinPath` of `util/stringops.h` with the bytes of `destination`. The walk to the last character of `path1` goes
on to the NUL behind it, which is not the separator, so a separator is always inserted; and of `NULL` and an
empty `path2` it is the `NULL` that is copied. In the remaining cases the paths are joined as they should be
(`joins_iff`).
-/

namespace PwdManLib

open Exec

/-! ## The code -/

def directory_separator (win32 : Bool) : Str := if win32 then lit "\\" else lit "/"

/-- `while(*last_char != '\0') last_char++;`, a pointer being the bytes from where it points. -/
def lastChar : Block UInt8 → Exec (Block UInt8)
  | [] => fault
  | none :: _ => fault
  | some c :: rest => if c ≠ 0 then lastChar rest else done (some c :: rest)

/-- `path == NULL || strlen(path) == 0`. -/
def nullOrEmpty (path : Option Str) : Bool :=
  match path with
  | none => true
  | some s => s.length = 0

/-- Append a path to another path and set the destination. -/
def joinPath (win32 : Bool) (destination : Block UInt8) (path1 path2 : Option Str) : Exec (Block UInt8) :=
  if path1 = none ∧ path2 = none then destination.strcpy 0 []
  else if nullOrEmpty path2 then do
    let s ← deref path1
    destination.strcpy 0 s
  else if nullOrEmpty path1 then do
    let s ← deref path2
    destination.strcpy 0 s
  else do
    let s1 ← deref path1
    let s2 ← deref path2
    let last_char ← lastChar (Block.ofList (s1 ++ [0]))
    let rest ← last_char.upTo 0
    let append_directory_separator := rest ≠ directory_separator win32
    let destination ← destination.strcpy 0 s1
    let destination ←
      if append_directory_separator then destination.strcat 0 (directory_separator win32) else done destination
    destination.strcat 0 s2

/-! ## What is copied -/

theorem lastChar_ofList {s : Str} (h : 0 ∉ s) (rest : Block UInt8) :
    lastChar (Block.ofList (s ++ [0]) ++ rest) = done (some 0 :: rest) := by
  induction s with
  | nil => rfl
  | cons c s ih =>
    have hc : c ≠ 0 := fun heq => h (heq ▸ List.mem_cons_self)
    have hs := ih fun hmem => h (List.mem_cons_of_mem c hmem)
    rw [List.cons_append, Block.ofList_cons, List.cons_append, lastChar, if_pos hc, hs]

theorem directory_separator_ne_nil (win32 : Bool) : directory_separator win32 ≠ [] := by
  cases win32 <;> decide

theorem nul_not_mem_directory_separator (win32 : Bool) : 0 ∉ directory_separator win32 := by
  cases win32 <;> decide

/-- The string that `joinPath` copies to the destination, or `NULL`. -/
def copied (sep : Str) (path1 path2 : Option Str) : Option Str :=
  if path1 = none ∧ path2 = none then some []
  else if nullOrEmpty path2 then path1
  else if nullOrEmpty path1 then path2
  else some (path1.getD [] ++ sep ++ path2.getD [])

theorem joinPath_eq (win32 : Bool) (destination : Block UInt8) {path1 : Option Str} (path2 : Option Str)
    (hpath1 : 0 ∉ path1.getD []) :
    joinPath win32 destination path1 path2 =
      deref (copied (directory_separator win32) path1 path2) >>= destination.strcpy 0 := by
  rw [joinPath, copied]
  split_ifs with hnull hempty2 hempty1
  · rfl
  · rfl
  · rfl
  · obtain _ | s1 := path1
    · exact absurd rfl hempty1
    obtain _ | s2 := path2
    · exact absurd rfl hempty2
    rw [Option.getD_some] at hpath1
    have hseparator := directory_separator_ne_nil win32
    have hboth : 0 ∉ s1 ++ directory_separator win32 := by
      rw [List.mem_append]
      exact not_or.mpr ⟨hpath1, nul_not_mem_directory_separator win32⟩
    have hlast : lastChar (Block.ofList (s1 ++ [0])) = done [some 0] := by
      have hwalk := lastChar_ofList hpath1 []
      rwa [List.append_nil] at hwalk
    have hrest : Block.upTo (0 : UInt8) [some 0] = done [] := rfl
    simp only [deref_some, done_bind, hlast, hrest, if_pos hseparator.symm, Option.getD_some]
    rw [← Block.strcpy_bind_strcat hboth, ← Block.strcpy_bind_strcat hpath1, bind_assoc]

/-! ## What should be copied -/

/-- The two paths with one separator between them, or the one that is not empty. -/
def joined (sep : Str) (path1 path2 : Option Str) : Str :=
  let s1 := path1.getD []
  let s2 := path2.getD []
  if s1 = [] then s2
  else if s2 = [] then s1
  else if sep <:+ s1 then s1 ++ s2
  else s1 ++ sep ++ s2

theorem nullOrEmpty_iff {path : Option Str} : nullOrEmpty path = true ↔ path.getD [] = [] := by
  cases path with
  | none => simp [nullOrEmpty]
  | some s => simp [nullOrEmpty]

theorem copied_eq_joined_iff {sep : Str} (hsep : sep ≠ []) (path1 path2 : Option Str) :
    copied sep path1 path2 = some (joined sep path1 path2) ↔
      ¬ (path1 = none ∧ path2 = some []) ∧ ¬ (sep <:+ path1.getD [] ∧ path2.getD [] ≠ []) := by
  by_cases hs2 : path2.getD [] = []
  · rw [copied, joined, if_pos (nullOrEmpty_iff.mpr hs2), if_pos hs2, and_iff_left fun h => h.2 hs2]
    cases path1 with
    | some s1 => simp [hs2]
    | none =>
      cases path2 with
      | none => simp
      | some s2 => simpa using hs2
  · obtain _ | s2 := path2
    · exact absurd rfl hs2
    rw [Option.getD_some] at hs2
    by_cases hs1 : path1.getD [] = []
    · simp [copied, joined, nullOrEmpty_iff, hs1, hs2, hsep]
    · obtain _ | s1 := path1
      · exact absurd rfl hs1
      rw [Option.getD_some] at hs1
      have hcopied : copied sep (some s1) (some s2) = some (s1 ++ sep ++ s2) := by
        simp [copied, nullOrEmpty_iff, hs1, hs2]
      by_cases hends : sep <:+ s1
      · simp [hcopied, joined, hs1, hs2, hends, hsep]
      · simp [hcopied, joined, hs1, hs2, hends]

/-- The arguments of a call, and a destination with room for the joined path and its NUL. -/
structure JoinCall where
  win32 : Bool
  path1 : Option Str
  path2 : Option Str
  destination : Block UInt8
  path1_no_nul : 0 ∉ path1.getD []
  path2_no_nul : 0 ∉ path2.getD []
  room : (joined (directory_separator win32) path1 path2).length < destination.length

namespace JoinCall

variable (c : JoinCall)

def sep : Str := directory_separator c.win32

/-- The call ends, and the destination is the joined path. -/
def Joins : Prop :=
  ∃ destination, joinPath c.win32 c.destination c.path1 c.path2 = done destination ∧
    destination.upTo 0 = done (joined c.sep c.path1 c.path2)

theorem nul_not_mem_copied {s : Str} (h : copied c.sep c.path1 c.path2 = some s) : 0 ∉ s := by
  have hs1 := c.path1_no_nul
  have hs2 := c.path2_no_nul
  have hsep := nul_not_mem_directory_separator c.win32
  rw [copied] at h
  split_ifs at h with hnull hempty2 hempty1
  · obtain rfl := Option.some.inj h
    exact List.not_mem_nil
  · rwa [h] at hs1
  · rwa [h] at hs2
  · obtain rfl := Option.some.inj h
    rw [List.mem_append, List.mem_append]
    exact not_or.mpr ⟨not_or.mpr ⟨hs1, hsep⟩, hs2⟩

theorem joins_iff_copied : c.Joins ↔ copied c.sep c.path1 c.path2 = some (joined c.sep c.path1 c.path2) := by
  rw [Joins, joinPath_eq _ _ _ c.path1_no_nul]
  show (∃ destination, (deref (copied c.sep c.path1 c.path2) >>= c.destination.strcpy 0) = done destination ∧ _) ↔ _
  cases hcopied : copied c.sep c.path1 c.path2 with
  | none => simp
  | some s =>
    have hroom := c.room
    have hcopy := Block.upTo_strcpy_iff (c.nul_not_mem_copied hcopied) c.destination (joined c.sep c.path1 c.path2)
    rw [deref_some, done_bind, hcopy, Option.some.injEq]
    exact and_iff_left hroom

/-- **The paths are joined** unless `NULL` is joined with the empty string, or `path1` ends in a separator and
`path2` is not empty. -/
theorem joins_iff :
    c.Joins ↔ ¬ (c.path1 = none ∧ c.path2 = some []) ∧ ¬ (c.sep <:+ c.path1.getD [] ∧ c.path2.getD [] ≠ []) :=
  c.joins_iff_copied.trans (copied_eq_joined_iff (directory_separator_ne_nil c.win32) c.path1 c.path2)

/-- `"a/"` and `"b"`, which become `"a//b"`. -/
def separatorGiven : JoinCall where
  win32 := false
  path1 := some (lit "a/")
  path2 := some (lit "b")
  destination := Block.malloc 8
  path1_no_nul := by decide
  path2_no_nul := by decide
  room := by decide

theorem not_joins_separatorGiven : ¬ separatorGiven.Joins := by
  rw [joins_iff_copied]
  decide

end JoinCall

end PwdManLib
