import PwdManLib.Server.RequestText

/-!
# The request `client/client_v2.c` sends

The part of `main` that renders `message`. The buffer it renders into is taken to be large enough; the
connection is not part of this model. `argv[5]` is the data and the arguments behind it are headers, so
`args` below is `argv` from index 5 on.
-/

namespace PwdManLib

/-- What `%d` prints. -/
def decimal (n : Int) : Str := lit (toString n)

/-- `s` unless it is empty: the `strlen(s) > 0 ? s : ...` of `main`. -/
def orElse (s fallback : Str) : Str := if s ≠ [] then s else fallback

/-- The loop over the header arguments. -/
def headerArgs (headers : List Str) : Str := headers.flatMap (· ++ crlf)

/-- `message`, or nothing when the query string holds a space. -/
def message (method path host : Str) (args : List Str) : Option Str :=
  if method = lit "GET" then
    match args with
    | data :: headers =>
      if 32 ∈ data then none
      else some (orElse method (lit "GET") ++ lit " " ++ path ++ (if data ≠ [] then lit "?" else []) ++
        data ++ lit " HTTP/1.0\r\nHost: " ++ host ++ crlf ++ headerArgs headers ++ crlf)
    | [] =>
      some (orElse method (lit "GET") ++ lit " " ++ path ++ lit " HTTP/1.0\r\nHost: " ++ host ++ crlf ++
        headerArgs [] ++ crlf)
  else
    let start := orElse method (lit "POST") ++ lit " " ++ path ++ lit " HTTP/1.0\r\nHost: " ++ host ++ crlf
    match args with
    | data :: headers =>
      some (start ++ headerArgs headers ++ (lit "Content-Length: " ++ decimal (toInt data.length) ++ crlf) ++
        crlf ++ data)
    | [] => some (start ++ headerArgs [] ++ crlf)

/-- `main` up to the connection; with fewer than four parameters it prints the usage instead. -/
def clientMain (argv : List Str) : Option Str :=
  match argv with
  | _ :: host :: _ :: method :: path :: args =>
    message method (orElse path (lit "/")) (orElse host (lit "localhost")) args
  | _ => none

/-! ## Invocations -/

/-- A header as the client sends it. -/
def headerLine (h : Str × Str) : Str := h.1 ++ (colon ++ h.2)

/-- The data argument: none, a query string, or a body. -/
inductive Data where
  | absent
  | query (pairs : List (Str × Str))
  | body (text : Str)

namespace Data

/-- The query string of the pairs. -/
def queryText (pairs : List (Str × Str)) : Str :=
  (lit "&").intercalate (pairs.map fun p => p.1 ++ lit "=" ++ p.2)

/-- `argv[5]`. -/
def text : Data → Option Str
  | absent => none
  | query pairs => some (queryText pairs)
  | body text => some text

/-- The pairs the server is to find in the query. -/
def pairs : Data → List (Str × Str)
  | query pairs => pairs
  | _ => []

/-- The body the server is to find. -/
def bodyText : Data → Str
  | body text => text
  | _ => []

/-- Data that belongs to the method: GET takes a query, the other methods take a body. An argument of a
program is shorter than `2 ^ 31` bytes. -/
def Fits (method : Method) : Data → Prop
  | absent => True
  | query pairs => method = .get ∧ (pairs.map Prod.fst).toFinset.card ≤ 20 ∧ ∀ p ∈ pairs,
      (∀ c ∈ lit "=&? ", c ∉ p.1) ∧ ¬ crlf <:+: p.1 ∧
        p.2 ≠ [] ∧ (∀ c ∈ lit "&? ", c ∉ p.2) ∧ ¬ crlf <:+: p.2
  | body text => method ≠ .get ∧ ¬ crlf <:+: text ∧ text.length < 2 ^ 31

end Data

/-- What a call of the client asks for. -/
structure Invocation where
  method : Method
  path : Str
  host : Str
  data : Data
  headers : List (Str × Str)
  path_ok : path ≠ [] ∧ 32 ∉ path ∧ qmark ∉ path ∧ ¬ crlf <:+: path
  host_ok : ¬ crlf <:+: host
  headers_ok : ∀ h ∈ headers, ¬ colon <:+: h.1 ∧ ¬ crlf <:+: headerLine h
  names_nodup : (lit "Host" :: lit "Content-Length" :: headers.map Prod.fst).Nodup
  headers_length : headers.length ≤ 48
  headers_data : data.text = none → headers = []
  data_fits : data.Fits method

namespace Invocation

/-- `client localhost 65501 GET /login user=foo 'Accept: */*'`. -/
def login : Invocation where
  method := .get
  path := lit "/login"
  host := lit "localhost"
  data := .query [(lit "user", lit "foo")]
  headers := [(lit "Accept", lit "*/*")]
  path_ok := by decide
  host_ok := by decide
  headers_ok := by decide
  names_nodup := by decide
  headers_length := by decide
  headers_data := by decide
  data_fits := by simp [Data.Fits, lit, crlf]; decide

/-- `client a 65501 GET` and the path. -/
def ofPath (path : Str) (path_ok : path ≠ [] ∧ 32 ∉ path ∧ qmark ∉ path ∧ ¬ crlf <:+: path) : Invocation where
  method := .get
  path := path
  host := lit "a"
  data := .absent
  headers := []
  path_ok := path_ok
  host_ok := by decide
  headers_ok := by decide
  names_nodup := by decide
  headers_length := by decide
  headers_data := by decide
  data_fits := trivial

end Invocation

/-- The arguments behind the path. -/
def Invocation.args (v : Invocation) : List Str :=
  match v.data.text with
  | none => []
  | some data => data :: v.headers.map headerLine

end PwdManLib
