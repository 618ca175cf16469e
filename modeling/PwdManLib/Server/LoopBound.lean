import PwdManLib.Lib.Trace
import PwdManLib.Server.HeaderLoop

/-!
# The bound of the header loop

The header loop runs while `i < *num_tokens - 2`, in `size_t`. Without a CRLF there is one token and the
bound wraps around, so the loop reads behind the tokens (`reads_behind_tokens`). With a CRLF it runs over
the lines of `headerLines`: it leaves them all behind, or stays at the first one without a `": "` for ever
(`halts_iff`).
-/

namespace PwdManLib

open Exec

/-- The header loop of `parseRequest` on the tokens of a text. -/
def headerLoop (text : Str) : Nat → Exec (Dict Str) :=
  loop (headerStep (strsplit text crlf)) { i := 1, headers := Dict.initDict 50 }

/-- The tokens between the first and the last two. -/
def headerLines (text : Str) : List Str := (Delim.split crlf text).tail.dropLast.dropLast

theorem length_tokens (text : Str) : (strsplit text crlf).len = (Delim.split crlf text).length := by
  rw [strsplit_eq, tokensOf]

theorem split_headerLines {text : Str} (h : 3 ≤ (Delim.split crlf text).length) :
    ∃ first post, post.length = 2 ∧
      Delim.split crlf text = first :: (headerLines text ++ post) := by
  obtain ⟨first, toks, htoks⟩ := List.exists_cons_of_ne_nil (Delim.split_ne_nil crlf text)
  have hlen : 2 ≤ toks.length := by
    rw [htoks, List.length_cons] at h
    omega
  refine ⟨first, toks.drop (toks.length - 2), by rw [List.length_drop]; omega, ?_⟩
  rw [headerLines, htoks, List.tail_cons, List.dropLast_eq_take, List.dropLast_eq_take, List.take_take,
    List.length_take, show min (min (toks.length - 1) toks.length - 1) (toks.length - 1) =
      toks.length - 2 by omega, List.take_append_drop]

/-! ## When the loop ends -/

/-- **The header loop comes to an end exactly when all its lines have a `": "`.** -/
theorem halts_iff {text : Str} (h : 3 ≤ (Delim.split crlf text).length) :
    Halts (headerLoop text) ↔ ∀ l ∈ headerLines text, colon <:+: l := by
  obtain ⟨first, post, hpost, hsplit⟩ := split_headerLines h
  have hempty : (Dict.initDict 50 : Dict Str).Lists [] := Dict.lists_initDict (by decide)
  constructor
  · intro hhalts
    by_contra hno
    push Not at hno
    rw [headerLoop, strsplit_eq, hsplit] at hhalts
    exact not_halts_headers post hpost (headerLines text) hno [first] _ [] hempty hhalts
  · intro hlines
    obtain ⟨headers, hheaders⟩ := exists_headersOf hlines
    exact ((buildsHeaders_iff hsplit hpost).mpr ⟨hlines, hheaders⟩).halts

theorem headerStep_one_token {text : Str} (h : ¬ crlf <:+: text) (headers : Dict Str) :
    headerStep (strsplit text crlf) { i := 1, headers := headers } = fault := by
  have hbound : 1 < sizeSub (tokensOf [text]).len 2 := show 1 < sizeSub 1 2 by decide
  have hstr : (tokensOf [text]).slots.str 1 = fault := str_slotsOf [text] 1
  rw [strsplit_eq, Delim.split_of_absent h, headerStep, if_pos hbound, hstr, fault_bind]

theorem headerLines_of_two {text : Str} (h : (Delim.split crlf text).length = 2) :
    headerLines text = [] := by
  rw [← List.length_eq_zero_iff, headerLines, List.length_dropLast, List.length_dropLast,
    List.length_tail, h]

theorem headerStep_two_tokens {text : Str} (h : (Delim.split crlf text).length = 2) (headers : Dict Str) :
    headerStep (strsplit text crlf) { i := 1, headers := headers } = done (.inr headers) := by
  rw [strsplit_eq, headerStep, tokensOf, h, if_neg (show ¬ 1 < sizeSub 2 2 by decide)]

/-- **Headers come out of the loop when there is a CRLF and all its lines have a `": "`.** -/
theorem exists_buildsHeaders_iff {text : Str} :
    (∃ headers, BuildsHeaders text headers) ↔
      crlf <:+: text ∧ ∀ l ∈ headerLines text, colon <:+: l := by
  by_cases hcrlf : crlf <:+: text
  · rw [and_iff_right hcrlf]
    have hlen := (Delim.infix_iff_length_split crlf_ne_nil text).mp hcrlf
    rcases hlen.eq_or_lt with htwo | hthree
    · rw [headerLines_of_two htwo.symm]
      refine iff_of_true ⟨Dict.initDict 50, ?_⟩ (by simp)
      exact (finishes_loop_exit (headerStep_two_tokens htwo.symm _)).mpr rfl
    · obtain ⟨first, post, hpost, hsplit⟩ := split_headerLines hthree
      constructor
      · rintro ⟨headers, h⟩
        exact ((buildsHeaders_iff hsplit hpost).mp h).1
      · intro hlines
        obtain ⟨headers, hheaders⟩ := exists_headersOf hlines
        exact ⟨headers, (buildsHeaders_iff hsplit hpost).mpr ⟨hlines, hheaders⟩⟩
  · refine iff_of_false ?_ (fun h => hcrlf h.1)
    rintro ⟨headers, h⟩
    exact not_finishes_loop_of_fault (headerStep_one_token hcrlf _) headers h

theorem headersOf_of_buildsHeaders {text : Str} {headers : Dict Str} (h : BuildsHeaders text headers) :
    HeadersOf (headerLines text) headers := by
  have hcrlf := (exists_buildsHeaders_iff.mp ⟨headers, h⟩).1
  have hlen := (Delim.infix_iff_length_split crlf_ne_nil text).mp hcrlf
  rcases hlen.eq_or_lt with htwo | hthree
  · have hinit : Dict.initDict 50 = headers :=
      (finishes_loop_exit (headerStep_two_tokens htwo.symm _)).mp h
    rw [headerLines_of_two htwo.symm, ← hinit]
    exact ⟨Dict.lists_initDict (by decide), rfl⟩
  · obtain ⟨first, post, hpost, hsplit⟩ := split_headerLines hthree
    exact ((buildsHeaders_iff hsplit hpost).mp h).2

theorem header_loop_halts_iff (text : Str) (h : 3 ≤ (strsplit text crlf).len) :
    Halts (headerLoop text) ↔ ∀ l ∈ headerLines text, colon <:+: l :=
  halts_iff (length_tokens text ▸ h)

theorem header_loop_halts_iff_host :
    3 ≤ (strsplit (lit "GET / HTTP/1.0\r\nHost: a\r\n\r\n") crlf).len ∧
      (Halts (headerLoop (lit "GET / HTTP/1.0\r\nHost: a\r\n\r\n")) ↔
        ∀ l ∈ headerLines (lit "GET / HTTP/1.0\r\nHost: a\r\n\r\n"), colon <:+: l) :=
  ⟨by decide, header_loop_halts_iff _ (by decide)⟩

/-- A header line without a colon is read for ever. -/
theorem bare_line_never_passed :
    ¬ ∀ text : Str, 3 ≤ (strsplit text crlf).len → Halts (headerLoop text) := by
  intro hall
  have hhalts := hall (lit "GET / HTTP/1.0\r\nHost\r\n\r\n") (by decide)
  have hline := (halts_iff (by decide)).mp hhalts (lit "Host") (by decide)
  exact absurd hline (by decide)

/-! ## What the loop reads -/

/-- A round of the header loop, and the index it reads in it. -/
def headerReads (tokens : SplitResult) (st : HeaderLoop) : Trace Nat (HeaderLoop ⊕ Dict Str) where
  sent := if st.i < sizeSub tokens.len 2 then [st.i] else []
  next := headerStep tokens st

/-- The loop with the indices it reads. -/
def watchedLoop (text : Str) : Nat → Trace Nat (Dict Str) :=
  Trace.loop (headerReads (strsplit text crlf)) { i := 1, headers := Dict.initDict 50 }

theorem next_watchedLoop (text : Str) (rounds : Nat) :
    (watchedLoop text rounds).next = headerLoop text rounds :=
  Trace.next_loop _ _ _

/-- The bound is the number of tokens less two, and the loop keeps below it. -/
structure BoundHolds (text : Str) : Prop where
  no_wrap : (sizeSub (strsplit text crlf).len 2 : Int) = (strsplit text crlf).len - 2
  reads_lt : ∀ rounds, ∀ i ∈ (watchedLoop text rounds).sent, i < (strsplit text crlf).len
  short : (strsplit text crlf).len < 3 → ∀ rounds, (watchedLoop text rounds).sent = []

theorem lt_of_mem_watchedLoop {text : Str} {rounds i : Nat} (h : i ∈ (watchedLoop text rounds).sent) :
    i < sizeSub (strsplit text crlf).len 2 := by
  refine Trace.forall_sent_loop (P := fun i => i < sizeSub (strsplit text crlf).len 2) ?_ _ rounds i h
  intro st i hi
  by_cases hlt : st.i < sizeSub (strsplit text crlf).len 2
  · rw [headerReads, if_pos hlt, List.mem_singleton] at hi
    rwa [hi]
  · rw [headerReads, if_neg hlt] at hi
    exact absurd hi List.not_mem_nil

theorem length_tokens_of_absent {text : Str} (h : ¬ crlf <:+: text) : (strsplit text crlf).len = 1 := by
  rw [length_tokens, Delim.split_of_absent h, List.length_singleton]

theorem reads_behind_tokens {text : Str} (h : ¬ crlf <:+: text) :
    (strsplit text crlf).len = 1 ∧ 1 ∈ (watchedLoop text 1).sent := by
  have hlen := length_tokens_of_absent h
  refine ⟨hlen, ?_⟩
  rw [watchedLoop, Trace.loop, Trace.mem_sent_bind]
  left
  rw [headerReads, hlen, if_pos (by decide)]
  exact List.mem_singleton.mpr rfl

theorem bound_holds_iff (text : Str) : BoundHolds text ↔ crlf <:+: text := by
  constructor
  · intro h
    by_contra hno
    obtain ⟨hlen, hread⟩ := reads_behind_tokens hno
    exact absurd (h.reads_lt 1 1 hread) (by omega)
  · intro h
    have hlen := (Delim.infix_iff_length_split crlf_ne_nil text).mp h
    rw [← length_tokens] at hlen
    have hbound : sizeSub (strsplit text crlf).len 2 = (strsplit text crlf).len - 2 := if_pos hlen
    constructor
    · rw [hbound]
      omega
    · intro rounds i hi
      have hlt := lt_of_mem_watchedLoop hi
      omega
    · intro hshort rounds
      rw [List.eq_nil_iff_forall_not_mem]
      intro i hi
      have hlt := lt_of_mem_watchedLoop hi
      omega

/-- A request line without its end makes the loop read a second token. -/
theorem unended_line_wraps : ¬ ∀ text : Str, BoundHolds text := by
  intro hall
  have hno : ¬ crlf <:+: lit "GET / HTTP/1.0" := by decide
  obtain ⟨hlen, hread⟩ := reads_behind_tokens hno
  exact absurd ((hall (lit "GET / HTTP/1.0")).reads_lt 1 1 hread) (by omega)

end PwdManLib
