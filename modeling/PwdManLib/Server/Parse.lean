import PwdManLib.Server.FawkesProto
import PwdManLib.Util.Dict

/-!
# The request parser of `server/server.h`

`parseRequest` with its helpers. A loop whose end is in question is an `Exec.loop`, so the parser
takes a bound on the rounds of its header loop. The calls that only print are left out: they read
slots that `strsplit` stored and print a NULL as text. The copies into `retreq.path` and `retreq.body`
are assignments; whether the copied strings fit their buffers is not part of this model.
-/

namespace PwdManLib

open Exec

/-- The end of a line. -/
def crlf : Str := lit "\r\n"

/-- What separates a header's name from its value. -/
def colon : Str := lit ": "

/-- The character that starts the query string. -/
def qmark : UInt8 := 63

theorem crlf_ne_nil : crlf ≠ [] := by decide

theorem borderless_crlf : Delim.Borderless crlf := Delim.borderless_pair (by decide)

/-! ## Headers -/

/-- The two slots of `parseHeader`'s result. A value slot that is not set is read as NULL. -/
structure Header where
  name : Str
  value : Option Str
  deriving DecidableEq, Repr

def parseHeader (str : Str) : Header :=
  match strstr str colon with
  | some tok => { name := str.take tok, value := some (str.drop (tok + colon.length)) }
  | none => { name := str, value := none }

/-- `a - b` in `size_t`. -/
def sizeSub (a b : Nat) : Nat := if b ≤ a then a - b else a + 2 ^ 64 - b

/-- The loop variables of the header loop. -/
structure HeaderLoop where
  i : Nat
  headers : Dict Str

/-- One round of `for (i = 1; i < *num_tokens - 2; i++)`. -/
def headerStep (tokens : SplitResult) (st : HeaderLoop) : Exec (HeaderLoop ⊕ Dict Str) :=
  if st.i < sizeSub tokens.len 2 then do
    -- `tokens[i] == ""` compares a heap pointer with a literal, so the branch is never taken
    let tok ← tokens.slots.str st.i
    let header := parseHeader tok
    match header.value with
    | none => done (.inl st)   -- `i--; continue`, then `i++`
    | some value => do
      let (headers, _) ← st.headers.setTuple (some header.name) (.to value)
      done (.inl { i := st.i + 1, headers := headers })
  else
    done (.inr st.headers)

/-! ## The query string -/

/-- What one parameter adds to `result`: the key before the first `=`, and what follows it unless
that is empty. -/
def queryParts (sub_str : Str) : List Str :=
  match strstr sub_str (lit "=") with
  | some tok =>
    let rest := sub_str.drop (tok + 1)
    sub_str.take tok :: (if rest ≠ [] then [rest] else [])
  | none => if sub_str ≠ [] then [sub_str] else []

def parseQueryStr (str : Str) : Exec SplitResult := do
  let tokens := strsplit str (lit "?")
  let query ← tokens.slots.str 1
  let sub_tokens := strsplit query (lit "&")
  let path ← tokens.slots.str 0
  let result ← forRange (fun i result => do
      let sub_str ← sub_tokens.slots.str i
      done (result ++ queryParts sub_str))
    sub_tokens.len 0 [path]
  done { slots := result.map some ++ [none], len := result.length }

/-- `for (i = 1; i < *num_query_tokens; i += 2)`: round `k` has `i = 1 + 2 * k`. -/
def setQuery (query_tokens : SplitResult) (query : Dict Str) : Exec (Dict Str) :=
  forRange (fun k query => do
      let key ← query_tokens.slots.read (1 + 2 * k)
      let val ← query_tokens.slots.read (1 + 2 * k + 1)
      let (query, _) ← query.setTuple key (VoidPtr.ofStr val)
      done query)
    (query_tokens.len / 2) 0 query

/-- The path and the query dictionary `parseRequest` gets from the request target. More than 41 query
tokens have no consequence. -/
def parseTarget (target : Str) : Exec (Str × Dict Str) :=
  if qmark ∉ target then
    done (target, Dict.initDict 20)
  else do
    let query_tokens ← parseQueryStr target
    let path ← query_tokens.slots.str 0
    let query ← setQuery query_tokens (Dict.initDict 20)
    done (path, query)

/-! ## The request -/

/-- `retreq.body`: the buffer as `malloc` returned it, NULL, or a string. -/
inductive Body where
  | unset
  | null
  | str (s : Str)
  deriving DecidableEq, Repr

/-- `struct request`. -/
structure Request where
  info : UInt8
  path : Str
  headers : Dict Str
  body : Body
  query : Dict Str

/-- The search for the body: the token after the first empty one. -/
def searchBody (tokens : Slots) : Nat → Nat → Body → Exec Body
  | 0, _, body => done body
  | n + 1, i, body => do
    let tok ← tokens.read i
    if tok = some [] then do
      let next ← tokens.read (i + 1)
      match next with
      | some s => done (.str s)
      | none => done .null
    else
      searchBody tokens n (i + 1) body

/-- Parse a request, with at most `rounds` rounds of the header loop. -/
def parseRequest (req : Str) (rounds : Nat) : Exec Request := do
  let tokens := strsplit req crlf
  let line ← tokens.slots.str 0
  let sub_tokens := strsplit line (lit " ")
  let target ← sub_tokens.slots.str 1
  let (path, query) ← parseTarget target
  let headers ← loop (headerStep tokens) { i := 1, headers := Dict.initDict 50 } rounds
  let body ← searchBody tokens.slots tokens.len 0 .unset
  let proto ← sub_tokens.slots.str 2
  let info := encodeProto proto 0
  let method ← sub_tokens.slots.str 0
  let info := encodeMethod method info
  let info := encodeReqmts info
  done { info, path, headers, body, query }

/-- `parseRequest` ends, and returns `r`. -/
def Parses (req : Str) (r : Request) : Prop := Finishes (parseRequest req) r

/-- The header loop ends on the tokens of the text, with these headers. -/
def BuildsHeaders (req : Str) (headers : Dict Str) : Prop :=
  Finishes (loop (headerStep (strsplit req crlf)) { i := 1, headers := Dict.initDict 50 }) headers

theorem parses_iff {req : Str} {r : Request} :
    Parses req r ↔ ∃ line target proto method,
      (strsplit req crlf).slots.str 0 = done line ∧
      (strsplit line (lit " ")).slots.str 1 = done target ∧
      parseTarget target = done (r.path, r.query) ∧
      BuildsHeaders req r.headers ∧
      searchBody (strsplit req crlf).slots (strsplit req crlf).len 0 .unset = done r.body ∧
      (strsplit line (lit " ")).slots.str 2 = done proto ∧
      (strsplit line (lit " ")).slots.str 0 = done method ∧
      r.info = requestInfo proto method := by
  constructor
  · intro h
    obtain ⟨n, hn⟩ := h
    simp only [parseRequest, bind_eq_done] at hn
    obtain ⟨line, hline, target, htarget, ⟨path, query⟩, hpath, headers, hheaders, body, hbody, proto,
      hproto, method, hmethod, hr⟩ := hn
    obtain rfl := done.inj hr
    exact ⟨line, target, proto, method, hline, htarget, hpath, ⟨n, hheaders⟩, hbody, hproto, hmethod,
      rfl⟩
  · rintro ⟨line, target, proto, method, hline, htarget, hpath, ⟨n, hheaders⟩, hbody, hproto, hmethod,
      hinfo⟩
    refine ⟨n, ?_⟩
    simp only [parseRequest, hline, htarget, hpath, hheaders, hbody, hproto, hmethod, done_bind]
    rw [← requestInfo, ← hinfo]

theorem stable_parseRequest (req : Str) : Stable (parseRequest req) := by
  intro r n m hn hnm
  simp only [parseRequest, bind_eq_done] at hn ⊢
  obtain ⟨line, hline, target, htarget, pq, hpath, headers, hheaders, rest⟩ := hn
  exact ⟨line, hline, target, htarget, pq, hpath, headers, stable_loop _ _ n m hheaders hnm, rest⟩

theorem Parses.unique {req : Str} {r r' : Request} (h : Parses req r) (h' : Parses req r') : r = r' :=
  Finishes.unique (stable_parseRequest req) h h'

end PwdManLib
