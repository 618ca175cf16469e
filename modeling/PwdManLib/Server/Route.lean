import PwdManLib.Lib.Trace
import PwdManLib.Server.Parse
import PwdManLib.Util.ReadFile

/-!
# Answering a request

`respond` and `routeClient` of `server/server.h` with `readall` and `sendall` of `crypto/ssl_funcs.h`.
What the server sends is the output of a `Trace`, one item for every `write` or `send` and for every
`SSL_write`. OpenSSL and the file system are parameters: a `Conn` answers the `SSL_write` calls on one
connection, a list of `SSL_read` results stands for what the client sends, and a `FileTree` for the
files. `routeClient` passes its socket to `sendall` as an `SSL *`; what such a call writes to is the
connection `worker`. The buffers for the request and for the path are taken to be large enough.
-/

namespace PwdManLib

open Exec Trace

/-- One thing sent: bytes written to the socket as they are, or a part of a buffer given to `sendall`,
that is of a file or of the page for bad requests. -/
inductive Out where
  | raw (bytes : List UInt8)
  | file (bytes : List UInt8)
  | page (bytes : List UInt8)
  deriving DecidableEq, Repr

/-- The bytes on the wire. -/
def Out.bytes : Out → List UInt8
  | raw bytes => bytes
  | file bytes => bytes
  | page bytes => bytes

/-- The bytes of what was sent, in order. -/
def stream (sent : List Out) : Str := sent.flatMap Out.bytes

/-- `write(sock, text, n)` or `send(sock, text, n, 0)` with a literal: the literal's NUL is byte
`strlen(text)`. The result is not looked at. -/
def writeSock (text : Str) (n : Nat) : Trace Out Unit := emit (.raw ((text ++ [0]).take n))

/-- `if (c) write(sock, text, n);` -/
def writeWhen (c : Prop) [Decidable c] (text : Str) (n : Nat) : Trace Out Unit :=
  if c then writeSock text n else pure ()

/-! ## Sending and receiving -/

/-- The results of the `SSL_write` calls on a connection: the call with index `k` is given `n` bytes. A
call does not write more than it is given. -/
structure Conn where
  write : Nat → Nat → Int
  write_le : ∀ k n, write k n ≤ n

/-- A connection that accepts all bytes. -/
def Conn.acceptAll : Conn where
  write _ n := n
  write_le _ n := Int.le_refl n

/-- The variables of `sendall`, and the number of calls made. -/
structure SendLoop where
  calls : Nat
  total : Nat
  n : Int

/-- One round of `while (total < *len)`. -/
def sendStep (conn : Conn) (out : Str → Out) (strbuf : Str) (len : Int) (st : SendLoop) :
    Trace Out (SendLoop ⊕ Int) :=
  if st.total < len then do
    let bytesleft := (len - st.total).toNat
    let n := conn.write st.calls bytesleft
    if n < 0 then
      pure (.inr n)
    else do
      emit (out ((strbuf.drop st.total).take n.toNat))
      pure (.inl { calls := st.calls + 1, total := st.total + n.toNat, n := n })
  else
    pure (.inr (if st.n < 0 then st.n else 0))

/-- Write until finished: 0, or a negative number on failure. With nothing to write `n` is still -1. -/
def sendall (conn : Conn) (out : Str → Out) (strbuf : Str) (len : Int) (rounds : Nat) :
    Trace Out Int :=
  Trace.loop (sendStep conn out strbuf len) { calls := 0, total := 0, n := -1 } rounds

/-- The result of an `SSL_read`: a failure, or the bytes read, none at the end. -/
inductive Read where
  | failed
  | bytes (received : List UInt8)

def SOCK_BUFF_MAX_READ : Nat := 6291456

/-- One round of the loop of `readall`, in the state of its `buf`. -/
def readStep (reads : Nat → Read) (st : Nat × List UInt8) :
    Exec ((Nat × List UInt8) ⊕ (Int × List UInt8)) :=
  match reads st.1 with
  | .failed => done (.inr (-1, st.2))
  | .bytes received =>
    let buf := st.2 ++ received
    if buf.length > SOCK_BUFF_MAX_READ ∨ received = [] then done (.inr (0, buf))
    else done (.inl (st.1 + 1, buf))

/-- Read until all is received: the status, and what is in `buf` then. -/
def readall (reads : Nat → Read) (rounds : Nat) : Exec (Int × List UInt8) :=
  Exec.loop (readStep reads) (0, []) rounds

/-! ## Routing -/

def ok_status : Str := lit "HTTP/1.1 200 OK\r\n"

def bad_request_status : Str := lit "HTTP/1.1 400 Bad Request\r\n"

def not_found_status : Str := lit "HTTP/1.1 404 Not Found\r\n"

def server_error_status : Str := lit "HTTP/1.1 500 Server Error\r\n"

/-- The page `respond` sends when it cannot read. -/
def bad_request_response : Str := lit ("HTTP/1.0 400 Bad Request\r\n" ++
  "Content-type: text/html\r\n" ++
  "\r\n" ++
  "<html>\r\n" ++
  " <body>\r\n" ++
  "  <h1>Bad Request</h1>\r\n" ++
  "  <p>This server did not understand your request.</p>\r\n" ++
  " </body>\r\n" ++
  "</html>\r\n")

/-- The path a GET reads. -/
def resourcePath (root_dir path : Str) : Str :=
  root_dir ++ (if path = lit "/" then lit "/index.html" else path)

/-- The end of the GET branch, with a file: `fileLen` is never NULL, and `sendall` reads its low half as
an `int`. -/
def sendFile (worker : Conn) (resp_data : Str) (rounds : Nat) : Trace Out Unit := do
  writeSock ok_status 17
  let status ← sendall worker .file resp_data (toInt resp_data.length) rounds
  writeWhen (status = -1) server_error_status 27

/-- The GET branch. -/
def routeGet (worker : Conn) (tree : FileTree) (req : Request) (root_dir : Str) (rounds : Nat) :
    Trace Out Unit := do
  let resp_data ← lift (deref (readFile tree (resourcePath root_dir req.path)))
  if strtol resp_data = -1 then writeSock not_found_status 24 else sendFile worker resp_data rounds

/-- Route a client. HEAD runs on into the default branch. -/
def routeClient (worker : Conn) (tree : FileTree) (req : Request) (root_dir : Str) (rounds : Nat) :
    Trace Out Unit := do
  writeWhen (decodeReqmts req.info = -1) bad_request_status 27
  writeWhen (decodeProto req.info = -1) bad_request_status 27
  let method := decodeMethod req.info
  writeWhen (method = -1) bad_request_status 27
  if method = 1 then
    routeGet worker tree req root_dir rounds
  else do
    writeWhen (method = 2) ok_status 17
    writeSock server_error_status 27

/-- What the answer to a client depends on. -/
structure Client where
  reads : Nat → Read
  cSSL : Conn
  worker : Conn

/-- The error branch of `respond`. -/
def reportReadError (cSSL : Conn) (status : Int) (rounds : Nat) : Trace Out Unit :=
  if status < 0 then do
    let _ ← sendall cSSL .page bad_request_response (toInt bad_request_response.length) rounds
    pure ()
  else
    pure ()

/-- Serve a client. After a failed read it goes on with what is in the buffer. -/
def respond (client : Client) (tree : FileTree) (root_dir : Str) (rounds : Nat) : Trace Out Unit := do
  let (status, recv_data) ← lift (readall client.reads rounds)
  reportReadError client.cSSL status rounds
  let request ← lift (parseRequest (cstr recv_data) rounds)
  routeClient client.worker tree request root_dir rounds

/-! ## What the parts send -/

@[simp] theorem next_writeSock (text : Str) (n : Nat) : (writeSock text n).next = done () := rfl

@[simp] theorem next_writeWhen (c : Prop) [Decidable c] (text : Str) (n : Nat) :
    (writeWhen c text n).next = done () := by
  rw [writeWhen]
  split_ifs <;> rfl

theorem mem_sent_writeWhen {c : Prop} [Decidable c] {text : Str} {n : Nat} {o : Out} :
    o ∈ (writeWhen c text n).sent ↔ c ∧ o = .raw ((text ++ [0]).take n) := by
  rw [writeWhen]
  split_ifs with h <;> simp [writeSock, h]

theorem mem_sent_writeWhen_bind {c : Prop} [Decidable c] {text : Str} {n : Nat} {t : Trace Out Unit}
    {o : Out} :
    o ∈ (writeWhen c text n >>= fun _ => t).sent ↔
      (c ∧ o = .raw ((text ++ [0]).take n)) ∨ o ∈ t.sent := by
  rw [mem_sent_bind, mem_sent_writeWhen, next_writeWhen]
  simp

theorem routeGet_of_read {worker : Conn} {tree : FileTree} {req : Request} {root_dir resp_data : Str}
    (h : readFile tree (resourcePath root_dir req.path) = some resp_data) (rounds : Nat) :
    routeGet worker tree req root_dir rounds =
      if strtol resp_data = -1 then writeSock not_found_status 24
      else sendFile worker resp_data rounds := by
  rw [routeGet, h, deref_some, bind_of_done rfl]
  rfl

theorem stable_sendall (conn : Conn) (out : Str → Out) (strbuf : Str) (len : Int) :
    Trace.Stable (sendall conn out strbuf len) :=
  Trace.stable_loop _ _

theorem stable_sendFile (worker : Conn) (resp_data : Str) :
    Trace.Stable (sendFile worker resp_data) :=
  (Trace.stable_const _).bind fun _ => (stable_sendall _ _ _ _).bind fun _ => Trace.stable_const _

theorem stable_routeGet (worker : Conn) (tree : FileTree) (req : Request) (root_dir : Str) :
    Trace.Stable (routeGet worker tree req root_dir) := by
  refine (Trace.stable_const _).bind fun resp_data => ?_
  split_ifs
  · exact Trace.stable_const _
  · exact stable_sendFile worker resp_data

theorem stable_routeClient (worker : Conn) (tree : FileTree) (req : Request) (root_dir : Str) :
    Trace.Stable (routeClient worker tree req root_dir) := by
  refine (Trace.stable_const _).bind fun _ => (Trace.stable_const _).bind fun _ =>
    (Trace.stable_const _).bind fun _ => ?_
  split_ifs
  · exact stable_routeGet worker tree req root_dir
  · exact Trace.stable_const _

theorem stable_readall (reads : Nat → Read) : Exec.Stable (readall reads) := Exec.stable_loop _

theorem sent_sendall {conn : Conn} {out : Str → Out} {strbuf : Str} {len : Int} {rounds : Nat}
    {o : Out} (ho : o ∈ (sendall conn out strbuf len rounds).sent) : ∃ part, o = out part := by
  refine forall_sent_loop (P := fun o => ∃ part, o = out part) ?_ _ rounds o ho
  intro st o ho
  rw [sendStep] at ho
  by_cases hlt : st.total < len
  · rw [if_pos hlt] at ho
    by_cases hneg : conn.write st.calls (len - st.total).toNat < 0
    · simp only [if_pos hneg, sent_pure, List.not_mem_nil] at ho
    · simp only [if_neg hneg, mem_sent_bind, sent_emit, List.mem_singleton, sent_pure,
        List.not_mem_nil, and_false, exists_false, or_false] at ho
      exact ⟨_, ho⟩
  · simp only [if_neg hlt, sent_pure, List.not_mem_nil] at ho

theorem sendall_acceptAll {out : Str → Out} {strbuf : Str} {m : Nat} (hm : 0 < m) (rounds : Nat) :
    sendall .acceptAll out strbuf m (rounds + 2) =
      { sent := [out (strbuf.take m)], next := done 0 } := by
  have hfirst : sendStep .acceptAll out strbuf m { calls := 0, total := 0, n := -1 } =
      { sent := [out (strbuf.take m)]
        next := done (.inl { calls := 1, total := m, n := m }) } := by
    have hleft : ((m : Int) - (0 : Nat)).toNat = m := by omega
    have hlt : ((0 : Nat) : Int) < m := by omega
    have hn : ¬ ((m : Int) < 0) := by omega
    simp only [sendStep, if_pos hlt, hleft, Conn.acceptAll, if_neg hn, Int.toNat_natCast,
      List.drop_zero, Nat.zero_add]
    rfl
  have hsecond : sendStep .acceptAll out strbuf m { calls := 1, total := m, n := m } =
      { sent := [], next := done (.inr 0) } := by
    have hn : ¬ ((m : Int) < 0) := by omega
    rw [sendStep, if_neg (Int.lt_irrefl m), if_neg hn]
    rfl
  rw [sendall, Trace.loop_succ_of_next hfirst, Trace.loop_succ_of_exit hsecond, List.append_nil]

theorem sendall_nothing {out : Str → Out} {strbuf : Str} {len : Int} (hlen : len ≤ 0) (conn : Conn)
    (rounds : Nat) :
    sendall conn out strbuf len (rounds + 1) = { sent := [], next := done (-1) } := by
  have hexit : ¬ (((0 : Nat) : Int) < len) := by omega
  have hfirst : sendStep conn out strbuf len { calls := 0, total := 0, n := -1 } =
      { sent := [], next := done (.inr (-1)) } := by
    rw [sendStep, if_neg hexit]
    rfl
  rw [sendall, Trace.loop_succ_of_exit hfirst]

end PwdManLib
