import PwdManLib.Server.Contents

/-!
# Missing files

`readFile` reports an error in band: as the text `"-1"` when a call behind `fopen` and the first `fseek`
fails, as NULL when one of these two does. `routeClient` takes a result for an error when `strtol` reads
-1 at its start. `answersByFile_iff` says for which files the answer is the one their state asks for.
-/

namespace PwdManLib

open Exec Trace

/-- The file is there and can be read to its end. -/
def Readable (tree : FileTree) (path : Str) : Prop := ∃ bytes, tree path = .contents bytes

/-- A 404 is sent when the file cannot be opened or read and then only, and a 200 when it can. -/
def AnswersByFile (tree : FileTree) (root_dir : Str) (r : Request) : Prop :=
  ∀ worker rounds,
    (.raw not_found_status ∈ (routeClient worker tree r root_dir rounds).sent ↔
      ¬ Readable tree (resourcePath root_dir r.path)) ∧
    (.raw ok_status ∈ (routeClient worker tree r root_dir rounds).sent ↔
      Readable tree (resourcePath root_dir r.path))

/-- Behind white space the text goes on with a minus sign and the digits of 1 in the base they are in. -/
def StartsMinusOne (s : Str) : Prop :=
  ∃ rest, s.dropWhile isSpace = 45 :: rest ∧ numeral (numberBase rest).1 (numberBase rest).2 = 1

/-- What `readFile` meets is something its string tells apart: the file is opened and its end found, and
if it is read then it does not start with the number -1. -/
def FileResult.ToldApart : FileResult → Prop
  | .openError => False
  | .seekError => False
  | .tellError => True
  | .rewindError => True
  | .readError => True
  | .contents bytes => ¬ StartsMinusOne (cstr bytes)

/-! ## The two answers to a GET -/

section get

variable (worker : Conn) (tree : FileTree) (r : Request) (root_dir : Str) (rounds : Nat)

theorem not_found_notMem_sendFile (resp_data : Str) :
    .raw not_found_status ∉ (sendFile worker resp_data rounds).sent := by
  intro h
  rw [sendFile, mem_sent_bind] at h
  rcases h with h | ⟨-, -, h⟩
  · exact absurd (List.mem_singleton.mp h) (by decide)
  · rw [mem_sent_bind] at h
    rcases h with h | ⟨status, -, h⟩
    · obtain ⟨part, hpart⟩ := sent_sendall h
      simp at hpart
    · exact absurd (mem_sent_writeWhen.mp h).2 (by decide)

theorem not_found_mem_routeGet_iff :
    .raw not_found_status ∈ (routeGet worker tree r root_dir rounds).sent ↔
      ∃ data, readFile tree (resourcePath root_dir r.path) = some data ∧ strtol data = -1 := by
  cases hread : readFile tree (resourcePath root_dir r.path) with
  | none =>
    rw [routeGet, hread, mem_sent_bind]
    simp
  | some resp_data =>
    rw [routeGet_of_read hread]
    simp only [Option.some.injEq, exists_eq_left']
    split_ifs with herror
    · exact iff_of_true (List.mem_singleton.mpr rfl) herror
    · exact iff_of_false (not_found_notMem_sendFile worker rounds resp_data) herror

variable {r}

theorem not_found_mem_sent_iff (hget : decodeMethod r.info = 1) :
    .raw not_found_status ∈ (routeClient worker tree r root_dir rounds).sent ↔
      ∃ data, readFile tree (resourcePath root_dir r.path) = some data ∧ strtol data = -1 := by
  have hne : ¬ (Out.raw not_found_status = .raw ((bad_request_status ++ [0]).take 27)) := by decide
  rw [routeClient, mem_sent_writeWhen_bind, mem_sent_writeWhen_bind, mem_sent_writeWhen_bind,
    if_pos hget]
  simp only [hne, and_false, false_or]
  exact not_found_mem_routeGet_iff worker tree r root_dir rounds

end get

/-! ## The result of `readFile` -/

theorem strtol_eq_neg_one_iff (s : Str) : strtol s = -1 ↔ StartsMinusOne s := by
  have hpos (n : Nat) : ¬ min (n : Int) (2 ^ 63 - 1) = -1 := by omega
  unfold strtol StartsMinusOne
  simp only
  split
  · next rest heq =>
    simp only [heq, List.cons.injEq, true_and, exists_eq_left', if_true]
    omega
  · next rest heq =>
    apply iff_of_false (hpos _)
    simp [heq]
  · next hminus _ =>
    apply iff_of_false (hpos _)
    intro h
    obtain ⟨rest, heq, -⟩ := h
    exact hminus rest heq

theorem exists_read_error_iff {tree : FileTree} {path : Str} (h : (tree path).ToldApart) :
    (∃ data, readFile tree path = some data ∧ strtol data = -1) ↔ ¬ Readable tree path := by
  constructor
  · rintro ⟨data, hread, herror⟩ ⟨bytes, hfile⟩
    rw [readFile_contents hfile, Option.some.injEq] at hread
    rw [hfile] at h
    exact h ((strtol_eq_neg_one_iff _).mp (hread ▸ herror))
  · intro hmissing
    obtain ⟨data, hread⟩ : ∃ data, readFile tree path = some data := by
      unfold readFile
      cases htree : tree path <;> simp_all [FileResult.ToldApart]
    exact ⟨data, hread, strtol_of_read_error hread fun bytes hfile => hmissing ⟨bytes, hfile⟩⟩

theorem exists_read_iff {tree : FileTree} {path : Str} (h : (tree path).ToldApart) :
    (∃ data, readFile tree path = some data ∧ strtol data ≠ -1) ↔ Readable tree path := by
  constructor
  · rintro ⟨data, hread, hfound⟩
    by_contra hmissing
    exact hfound (strtol_of_read_error hread fun bytes hfile => hmissing ⟨bytes, hfile⟩)
  · rintro ⟨bytes, hfile⟩
    rw [hfile] at h
    exact ⟨cstr bytes, readFile_contents hfile, mt (strtol_eq_neg_one_iff _).mp h⟩

/-! ## Which files are told apart -/

section get

variable {tree : FileTree} {root_dir : Str} {r : Request} (hget : decodeMethod r.info = 1)

include hget

theorem AnswersByFile.toldApart (h : AnswersByFile tree root_dir r) :
    (tree (resourcePath root_dir r.path)).ToldApart := by
  obtain ⟨hmissing, hfound⟩ := h .acceptAll 0
  rw [not_found_mem_sent_iff _ _ _ _ hget] at hmissing
  rw [ok_mem_sent_get_iff hget] at hfound
  cases hfile : tree (resourcePath root_dir r.path) with
  | openError => simp [Readable, readFile, hfile] at hmissing
  | seekError => simp [Readable, readFile, hfile] at hmissing
  | tellError => trivial
  | rewindError => trivial
  | readError => trivial
  | contents bytes =>
    obtain ⟨data, hread, hne⟩ := hfound.mpr ⟨bytes, hfile⟩
    rw [readFile_contents hfile, Option.some.injEq] at hread
    show ¬ StartsMinusOne (cstr bytes)
    rwa [hread, ← strtol_eq_neg_one_iff]

theorem answersByFile_of_toldApart (h : (tree (resourcePath root_dir r.path)).ToldApart) :
    AnswersByFile tree root_dir r := by
  intro worker rounds
  rw [not_found_mem_sent_iff _ _ _ _ hget, ok_mem_sent_get_iff hget]
  exact ⟨exists_read_error_iff h, exists_read_iff h⟩

end get

/-- **Which files a GET is answered by**: the ones whose state the string of `readFile` tells. -/
theorem answersByFile_iff (tree : FileTree) (root_dir : Str) (r : Request)
    (hget : decodeMethod r.info = 1) :
    AnswersByFile tree root_dir r ↔ (tree (resourcePath root_dir r.path)).ToldApart :=
  ⟨AnswersByFile.toldApart hget, answersByFile_of_toldApart hget⟩

theorem answersByFile_iff_text :
    decodeMethod getRequest.info = 1 ∧
      (AnswersByFile (fun _ => .contents (lit "hello")) (lit "/srv") getRequest ↔
        ¬ StartsMinusOne (cstr (lit "hello"))) :=
  ⟨by decide, answersByFile_iff (fun _ => .contents (lit "hello")) (lit "/srv") getRequest (by decide)⟩

/-- For a missing file `strtol` is called with NULL, and no 404 is sent. -/
theorem missing_file_crashes :
    ¬ ∀ (tree : FileTree) (root_dir : Str) (r : Request), decodeMethod r.info = 1 →
      AnswersByFile tree root_dir r := by
  intro hall
  have hget : decodeMethod getRequest.info = 1 := by decide
  exact (hall (fun _ => .openError) (lit "/srv") _ hget).toldApart hget

end PwdManLib
