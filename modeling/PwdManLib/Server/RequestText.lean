import PwdManLib.Server.ParseSpec

/-!
# A request in the usual shape

A `RequestText` is a request line, header lines, a blank line and a body. `parses_requestText_iff` says
when `parseRequest` ends on such a text and what it returns then; everything it returns is read off the
parts. The body is the token behind the first empty one, so it is recovered when it is the last token:
as soon as it holds a CRLF, the header loop has run into the blank line already.
-/

namespace PwdManLib

open Exec

/-- A request line of three words, header lines each with a name and a value, and a body. -/
structure RequestText where
  method : Str
  target : Str
  proto : Str
  lines : List Str
  body : Str
  space_notMem : ∀ t ∈ [method, target, proto], 32 ∉ t
  crlf_absent : ∀ t ∈ [method, target, proto], ¬ crlf <:+: t
  proto_ne_nil : proto ≠ []
  lines_ok : ∀ l ∈ lines, colon <:+: l ∧ ¬ crlf <:+: l

namespace RequestText

variable (q : RequestText)

def line : Str := q.method ++ lit " " ++ q.target ++ lit " " ++ q.proto

/-- Everything before the blank line. -/
def head : Str := crlf.intercalate (q.line :: q.lines)

def text : Str := q.head ++ crlf ++ crlf ++ q.body

theorem text_eq : q.text = q.line ++ crlf ++ q.lines.flatMap (· ++ crlf) ++ crlf ++ q.body := by
  rw [text, head, Delim.intercalate_append_delim]

theorem crlf_not_infix_line : ¬ crlf <:+: q.line := by
  have h := q.crlf_absent
  have htarget := Delim.not_infix_append_cons (c := 32) (by decide) (h q.method (by simp))
    (h q.target (by simp))
  have hproto := Delim.not_infix_append_cons (c := 32) (by decide) htarget (h q.proto (by simp))
  simpa [line, lit] using hproto

theorem split_line : Delim.split (lit " ") q.line = [q.method, q.target, q.proto] := by
  have h := q.space_notMem
  have hline : q.line = (lit " ").intercalate [q.method, q.target, q.proto] := by
    simp [line]
  rw [hline]
  apply Delim.split_intercalate (Delim.borderless_singleton 32) (by decide)
  intro t ht
  exact fun hin => h t ht ((List.singleton_infix_iff _ _).mp hin)

theorem split_head : Delim.split crlf q.head = q.line :: q.lines := by
  apply Delim.split_intercalate borderless_crlf crlf_ne_nil
  intro l hl
  rcases List.mem_cons.mp hl with rfl | hl
  · exact q.crlf_not_infix_line
  · exact (q.lines_ok l hl).2

theorem split_text : Delim.split crlf q.text = q.line :: q.lines ++ [] :: Delim.split crlf q.body := by
  rw [text, split_blank_line, split_head]

theorem nil_notMem : [] ∉ q.line :: q.lines := by
  intro hmem
  rcases List.mem_cons.mp hmem with h | h
  · simp [line, lit] at h
  · exact absurd (q.lines_ok [] h).1 (by decide)

end RequestText

/-! ## The search for the body -/

/-- The `body` field for a body that may be empty. -/
def bodyOf (body : Str) : Body := if body = [] then .null else .str body

private theorem searchBody_front (front pre : List Str) (hfront : [] ∉ front) (body : Str) (n : Nat)
    (b : Body) :
    searchBody (slotsOf (pre ++ front ++ [[], body])) (front.length + (n + 1)) pre.length b =
      done (bodyOf body) := by
  induction front generalizing pre with
  | nil =>
    have hnil : Slots.read (slotsOf (pre ++ [] ++ [[], body])) pre.length = done (some []) := by
      rw [List.append_nil]
      exact Slots.read_of_getElem? (getElem?_slotsOf_append pre [] (List.cons_ne_nil body []))
    have hbody : Slots.read (slotsOf (pre ++ [] ++ [[], body])) (pre.length + 1) =
        done (if body = [] then none else some body) := by
      have hlast := getElem?_slotsOf_last (pre ++ [[]]) body
      rw [List.length_append, List.length_singleton] at hlast
      exact Slots.read_of_getElem? (by simpa using hlast)
    rw [List.length_nil, Nat.zero_add, searchBody, hnil, done_bind, if_pos rfl, hbody, done_bind]
    by_cases h : body = [] <;> simp [h, bodyOf]
  | cons t front ih =>
    have ht : t ≠ [] := fun h => hfront (by simp [h])
    have hread : Slots.read (slotsOf (pre ++ t :: front ++ [[], body])) pre.length =
        done (some t) := by
      rw [List.append_assoc, List.cons_append]
      exact Slots.read_of_getElem? (getElem?_slotsOf_append pre t (by simp))
    have hih := ih (pre ++ [t]) (fun h => hfront (by simp [h]))
    rw [List.append_assoc pre, List.singleton_append, List.length_append, List.length_singleton] at hih
    rw [List.length_cons, show front.length + 1 + (n + 1) = front.length + (n + 1) + 1 by omega,
      searchBody, hread, done_bind, if_neg (by simpa using ht), hih]

theorem searchBody_blank {front : List Str} (hfront : [] ∉ front) (body : Str) :
    searchBody (slotsOf (front ++ [[], body])) (front ++ [[], body]).length 0 .unset =
      done (bodyOf body) := by
  have h := searchBody_front front [] hfront body 1 .unset
  rw [List.length_append]
  exact h

/-! ## The whole parser -/

theorem parses_requestText_iff (q : RequestText) (r : Request) :
    Parses q.text r ↔ (¬ crlf <:+: q.body ∧ QueryReadable q.target) ∧
      r.path = q.target.takeWhile (· ≠ qmark) ∧ QueryOf (targetPairs q.target) r.query ∧
      HeadersOf q.lines r.headers ∧ r.body = bodyOf q.body ∧
      r.info = requestInfo q.proto q.method := by
  have hline : (strsplit q.text crlf).slots.str 0 = done q.line := by
    rw [strsplit_eq, q.split_text]
    exact str_slotsOf_append [] q.line (by simp)
  have hmethod : (strsplit q.line (lit " ")).slots.str 0 = done q.method := by
    rw [strsplit_eq, q.split_line]
    exact str_slotsOf_append [] q.method (List.cons_ne_nil q.target [q.proto])
  have htarget : (strsplit q.line (lit " ")).slots.str 1 = done q.target := by
    rw [strsplit_eq, q.split_line]
    exact str_slotsOf_append [q.method] q.target (List.cons_ne_nil q.proto [])
  have hproto : (strsplit q.line (lit " ")).slots.str 2 = done q.proto := by
    rw [strsplit_eq, q.split_line]
    simp [tokensOf, str_slotsOf, q.proto_ne_nil]
  have hheaders : BuildsHeaders q.text r.headers ↔ ¬ crlf <:+: q.body ∧
      HeadersOf q.lines r.headers := by
    rw [RequestText.text, buildsHeaders_blank_line, q.split_head, List.tail_cons,
      and_iff_right fun l hl => (q.lines_ok l hl).1]
  have hbody : ¬ crlf <:+: q.body →
      searchBody (strsplit q.text crlf).slots (strsplit q.text crlf).len 0 .unset =
        done (bodyOf q.body) := by
    intro hb
    rw [strsplit_eq, q.split_text, Delim.split_of_absent hb]
    exact searchBody_blank q.nil_notMem q.body
  rw [parses_iff]
  constructor
  · intro h
    obtain ⟨line, target, proto, method, h₁, h₂, htok, hbuild, hsearch, h₃, h₄, hinfo⟩ := h
    obtain rfl := done.inj (hline.symm.trans h₁)
    obtain rfl := done.inj (htarget.symm.trans h₂)
    obtain rfl := done.inj (hproto.symm.trans h₃)
    obtain rfl := done.inj (hmethod.symm.trans h₄)
    obtain ⟨hread, hpath, hquery⟩ := parseTarget_iff.mp htok
    obtain ⟨hb, hlines⟩ := hheaders.mp hbuild
    rw [hbody hb, done.injEq] at hsearch
    exact ⟨⟨hb, hread⟩, hpath, hquery, hlines, hsearch.symm, hinfo⟩
  · intro h
    obtain ⟨⟨hb, hread⟩, hpath, hquery, hlines, hbodyEq, hinfo⟩ := h
    refine ⟨q.line, q.target, q.proto, q.method, hline, htarget,
      parseTarget_iff.mpr ⟨hread, hpath, hquery⟩, hheaders.mpr ⟨hb, hlines⟩, ?_, hproto, hmethod,
      hinfo⟩
    rw [hbody hb, hbodyEq]

theorem exists_parses (q : RequestText) (hb : ¬ crlf <:+: q.body) (hread : QueryReadable q.target) :
    ∃ r, Parses q.text r := by
  obtain ⟨query, hquery⟩ := exists_queryOf q.target
  obtain ⟨headers, hheaders⟩ := exists_headersOf fun l hl => (q.lines_ok l hl).1
  let r : Request :=
    { info := requestInfo q.proto q.method
      path := q.target.takeWhile (· ≠ qmark)
      headers := headers
      body := bodyOf q.body
      query := query }
  exact ⟨r, (parses_requestText_iff q r).mpr ⟨⟨hb, hread⟩, rfl, hquery, hheaders, rfl, rfl⟩⟩

theorem exists_parses_line (method target proto : Str) (hspace : ∀ t ∈ [method, target, proto], 32 ∉ t)
    (hcrlf : ∀ t ∈ [method, target, proto], ¬ crlf <:+: t) (hproto : proto ≠ [])
    (hread : QueryReadable target) :
    ∃ r, Parses (method ++ lit " " ++ target ++ lit " " ++ proto ++ crlf ++ crlf) r ∧
      r.path = target.takeWhile (· ≠ qmark) ∧ r.info = requestInfo proto method := by
  let q : RequestText :=
    { method, target, proto
      lines := []
      body := []
      space_notMem := hspace
      crlf_absent := hcrlf
      proto_ne_nil := hproto
      lines_ok := by simp }
  obtain ⟨r, hr⟩ := exists_parses q (show ¬ crlf <:+: [] by decide) hread
  obtain ⟨-, hpath, -, -, -, hinfo⟩ := (parses_requestText_iff q r).mp hr
  have htext : q.text = method ++ lit " " ++ target ++ lit " " ++ proto ++ crlf ++ crlf := by
    simp [q, RequestText.text, RequestText.head, RequestText.line]
  exact ⟨r, htext ▸ hr, hpath, hinfo⟩

/-- **When the body of a request comes out of `parseRequest` as it went in**: when it is a single line, and the query
string can be read. -/
theorem body_recovered_iff (q : RequestText) :
    (∃ r, Parses q.text r ∧ r.body = bodyOf q.body) ↔
      ¬ crlf <:+: q.body ∧ QueryReadable q.target := by
  constructor
  · intro h
    obtain ⟨r, hr, -⟩ := h
    exact ((parses_requestText_iff q r).mp hr).1
  · intro h
    obtain ⟨hb, hread⟩ := h
    obtain ⟨r, hr⟩ := exists_parses q hb hread
    exact ⟨r, hr, ((parses_requestText_iff q r).mp hr).2.2.2.2.1⟩

/-- A body of two lines keeps `parseRequest` from ending. -/
theorem two_line_body_lost :
    ¬ ∀ q : RequestText, ∃ r, Parses q.text r ∧ r.body = bodyOf q.body := by
  intro hall
  have hbody := hall
    { method := lit "POST"
      target := lit "/"
      proto := lit "HTTP/1.0"
      lines := [lit "Host: a"]
      body := lit "x\r\ny"
      space_notMem := by decide
      crlf_absent := by decide
      proto_ne_nil := by decide
      lines_ok := by decide }
  obtain ⟨r, hr, -⟩ := hbody
  exact ((parses_requestText_iff _ r).mp hr).1.1 (by decide)

end PwdManLib
