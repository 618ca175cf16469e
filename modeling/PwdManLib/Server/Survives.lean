import PwdManLib.Crypto.SendAll
import PwdManLib.Server.Blocks
import PwdManLib.Server.Reject

/-!
# Clients the server gets through with

`respond` runs in the server's own process, so a client whose request it does not get through with is the
last one. `respondWithin` is `respond` with everything that can end the process: its buffer and the blocks of
the parser, a root directory that is NULL, SIGPIPE on a socket whose other end is gone, and the file that
`sendall` is to write to a number instead of a connection. `respondWithin_completes_iff` says which clients
the server gets through with.
-/

namespace PwdManLib

open Exec Trace

/-! ## The code -/

/-- What a `write` or a `send` on the socket comes to: some bytes are written, it fails, or the process dies of
SIGPIPE. -/
inductive WriteResult where
  | wrote (m : Nat)
  | failed
  | sigpipe
  deriving DecidableEq

/-- What a client sends, and what comes of what is sent to it, over TLS and on its socket. -/
structure Caller where
  reads : Nat → Read
  cSSL : Conn
  writes : Nat → WriteResult

/-- `write(worker_sock, text, n)`, the write with index `k` on this socket. The result is not looked at. -/
def writeWithin (writes : Nat → WriteResult) (k : Nat) (text : Str) (n : Nat) : Trace Out Nat :=
  match writes k with
  | .wrote m => { sent := [.raw (((text ++ [0]).take n).take m)], next := done (k + 1) }
  | .failed => pure (k + 1)
  | .sigpipe => lift fault

def writeWhenWithin (writes : Nat → WriteResult) (k : Nat) (c : Prop) [Decidable c] (text : Str) (n : Nat) :
    Trace Out Nat :=
  if c then writeWithin writes k text n else pure k

/-- The GET branch of `routeClient`. `strcpy` gets NULL when there is no root directory, and `SSL_write` gets the
number of the socket for a connection as soon as `sendall` has something to write; else it returns -1. -/
def getWithin (writes : Nat → WriteResult) (k : Nat) (tree : FileTree) (req : Request) (root_dir : Option Str) :
    Trace Out Nat := do
  let root_dir ← lift (deref root_dir)
  lift (require ((resourcePath root_dir req.path).length < PATH_MAX))
  let resp_data ← lift (deref (readFile tree (resourcePath root_dir req.path)))
  if strtol resp_data = -1 then writeWithin writes k not_found_status 24
  else do
    let k ← writeWithin writes k ok_status 17
    lift (require (toInt resp_data.length ≤ 0))
    writeWithin writes k server_error_status 27

/-- `routeClient`, with the number of writes as its result. -/
def routeWithin (writes : Nat → WriteResult) (tree : FileTree) (req : Request) (root_dir : Option Str) :
    Trace Out Nat := do
  let k ← writeWhenWithin writes 0 (decodeReqmts req.info = -1) bad_request_status 27
  let k ← writeWhenWithin writes k (decodeProto req.info = -1) bad_request_status 27
  let method := decodeMethod req.info
  let k ← writeWhenWithin writes k (method = -1) bad_request_status 27
  if method = 1 then
    getWithin writes k tree req root_dir
  else do
    let k ← writeWhenWithin writes k (method = 2) ok_status 17
    writeWithin writes k server_error_status 27

/-- `respond`: behind a store outside of `recv_data` anything may happen, and a text without its NUL is read past its
end. -/
def respondWithin (client : Caller) (tree : FileTree) (root_dir : Option Str) (rounds : Nat) : Trace Out Nat := do
  let (status, recv_data) ← lift (readall client.reads rounds)
  lift (require (recv_data.length ≤ SOCK_BUFF_DEF_READ))
  reportReadError client.cSSL status rounds
  lift (require ((cstr recv_data).length < SOCK_BUFF_DEF_READ))
  let request ← lift (parseRequestWithin 0 (cstr recv_data) rounds)
  routeWithin client.writes tree request root_dir

/-! ## More rounds -/

theorem stable_parseRequestWithin (spare : Nat) (req : Str) : Exec.Stable (parseRequestWithin spare req) := by
  intro r n m hn hnm
  simp only [parseRequestWithin, bind_eq_done] at hn ⊢
  obtain ⟨line, hline, target, htarget, pq, hpath, headers, hheaders, rest⟩ := hn
  exact ⟨line, hline, target, htarget, pq, hpath, headers, Exec.stable_loop _ headers n m hheaders hnm, rest⟩

theorem grows_sendall (conn : Conn) (out : Str → Out) (strbuf : Str) (len : Int) :
    Trace.Grows (sendall conn out strbuf len) :=
  grows_loop _ _

theorem grows_reportReadError (cSSL : Conn) (status : Int) :
    Trace.Grows (reportReadError cSSL status) := by
  unfold reportReadError
  split_ifs
  · exact (grows_sendall _ _ _ _).bind fun _ => grows_const _
  · exact grows_const _

section grows

variable (client : Caller) (tree : FileTree) (root_dir : Option Str)

theorem grows_parsed (recv_data : List UInt8) :
    Trace.Grows fun rounds => lift (parseRequestWithin 0 (cstr recv_data) rounds) >>= fun request =>
      routeWithin client.writes tree request root_dir :=
  (grows_lift (stable_parseRequestWithin 0 (cstr recv_data))).bind fun _ => grows_const _

theorem grows_stored (read : Int × List UInt8) :
    Trace.Grows fun rounds => lift (require (read.2.length ≤ SOCK_BUFF_DEF_READ)) >>= fun _ =>
      reportReadError client.cSSL read.1 rounds >>= fun _ =>
        lift (require ((cstr read.2).length < SOCK_BUFF_DEF_READ)) >>= fun _ =>
          lift (parseRequestWithin 0 (cstr read.2) rounds) >>= fun request =>
            routeWithin client.writes tree request root_dir :=
  (grows_const _).bind fun _ => (grows_reportReadError client.cSSL read.1).bind fun _ =>
    (grows_const _).bind fun _ => grows_parsed client tree root_dir read.2

theorem grows_respondWithin : Trace.Grows (respondWithin client tree root_dir) :=
  (grows_lift (stable_readall client.reads)).bind fun read => grows_stored client tree root_dir read

end grows

/-! ## The page for bad requests -/

/-- A transfer of the message over this connection comes to its end: nothing is left, or a call fails. -/
def GetsOut (conn : Conn) (message : Str) : Prop := ∃ calls, Transfer conn.write 0 message calls

theorem sendall_completes_iff (conn : Conn) (out : Str → Out) (args : SendArgs) :
    (∃ status, Finishes (fun rounds => (sendall conn out args.strbuf args.len rounds).next) status) ↔
      GetsOut conn args.message := by
  refine ⟨fun h => ?_, fun h => ?_⟩
  · obtain ⟨status, rounds, hdone⟩ := h
    simp only [sendall_eq] at hdone
    cases hcalls : (sendallCalls conn args rounds).next with
    | done r =>
      exact ⟨_, (sendallCalls_ends_iff.mp ⟨rounds, congrArg (Trace.mk _) hcalls⟩).1⟩
    | fault => simp [hcalls] at hdone
    | running => simp [hcalls] at hdone
  · obtain ⟨calls, htransfer⟩ := h
    refine ⟨failure (lastResult (-1) calls), calls.length + 1, ?_⟩
    simp only [sendall_eq, sendallCalls_of_transfer htransfer (Nat.lt_succ_self _)]
    rfl

theorem sendall_text_completes_iff (conn : Conn) (out : Str → Out) {text : Str} (hlen : text.length < 2 ^ 31) :
    (∃ status, Finishes (fun rounds => (sendall conn out text (toInt text.length) rounds).next) status) ↔
      GetsOut conn text := by
  let args : SendArgs := { strbuf := text, len := toInt text.length, len_le := toInt_le _ }
  have hmessage : args.message = text := by
    show text.take (toInt text.length).toNat = text
    rw [toInt_of_lt hlen, Int.toNat_natCast, List.take_length]
  have hsend := sendall_completes_iff conn out args
  rwa [hmessage] at hsend

theorem reportReadError_completes_iff (cSSL : Conn) (status : Int) :
    Finishes (fun rounds => (reportReadError cSSL status rounds).next) () ↔
      (status < 0 → GetsOut cSSL bad_request_response) := by
  have hpage : PageSent cSSL ↔ GetsOut cSSL bad_request_response :=
    sendall_text_completes_iff cSSL .page (by decide +kernel)
  exact next_reportReadError_iff.trans (imp_congr_right fun _ => hpage)

/-! ## The writes on the socket -/

/-- None of the first `n` writes kills the process. -/
def Outlives (writes : Nat → WriteResult) (n : Nat) : Prop := ∀ k < n, writes k ≠ .sigpipe

theorem Outlives.mono {writes : Nat → WriteResult} {n m : Nat} (h : Outlives writes n) (hmn : m ≤ n) :
    Outlives writes m :=
  fun k hk => h k (Nat.lt_of_lt_of_le hk hmn)

theorem outlives_succ {writes : Nat → WriteResult} {n : Nat} :
    Outlives writes (n + 1) ↔ Outlives writes n ∧ writes n ≠ .sigpipe := by
  simp only [Outlives, Nat.lt_succ_iff_lt_or_eq, or_imp, forall_and, forall_eq]

section writes

variable {writes : Nat → WriteResult} {k j n : Nat} {text : Str}

theorem next_writeWithin_eq_done_iff :
    (writeWithin writes k text n).next = done j ↔ writes k ≠ .sigpipe ∧ k + 1 = j := by
  rw [writeWithin]
  cases writes k <;> simp

theorem next_writeWhenWithin_eq_done_iff {c : Prop} [Decidable c] :
    (writeWhenWithin writes k c text n).next = done j ↔
      (c → writes k ≠ .sigpipe) ∧ k + (if c then 1 else 0) = j := by
  rw [writeWhenWithin]
  split_ifs with h
  · simp only [next_writeWithin_eq_done_iff, h, true_imp_iff]
  · simp [h]

theorem outlives_add_ite {c : Prop} [Decidable c] :
    Outlives writes (k + if c then 1 else 0) ↔ Outlives writes k ∧ (c → writes k ≠ .sigpipe) := by
  split_ifs with h
  · simp only [outlives_succ, h, true_imp_iff]
  · simp [h]

end writes

/-- The status lines for bad requests. -/
def badRequests (info : UInt8) : Nat :=
  (if decodeReqmts info = -1 then 1 else 0) + (if decodeProto info = -1 then 1 else 0) +
    (if decodeMethod info = -1 then 1 else 0)

/-- A GET gets through when there is a root directory and its path has room, when the file can be read, and when it is
empty or not found: what is not empty is written to a number. -/
structure FileAnswered (writes : Nat → WriteResult) (tree : FileTree) (req : Request) (root_dir data : Str) : Prop where
  path : (resourcePath root_dir req.path).length < PATH_MAX
  read : readFile tree (resourcePath root_dir req.path) = some data
  nothing : strtol data ≠ -1 → toInt data.length ≤ 0
  outlives : Outlives writes (badRequests req.info + if strtol data = -1 then 1 else 2)

/-- A request gets through `routeClient`. -/
def Routed (writes : Nat → WriteResult) (tree : FileTree) (req : Request) (root_dir : Option Str) : Prop :=
  if decodeMethod req.info = 1 then ∃ dir data, root_dir = some dir ∧ FileAnswered writes tree req dir data
  else Outlives writes (badRequests req.info + if decodeMethod req.info = 2 then 2 else 1)

section routed

variable {writes : Nat → WriteResult}

theorem exists_writeWhenWithin_bind_iff {k n : Nat} (hk : Outlives writes k) {c : Prop} [Decidable c] {text : Str}
    {t : Nat → Trace Out Nat} :
    (∃ j, (writeWhenWithin writes k c text n >>= t).next = done j) ↔
      Outlives writes (k + if c then 1 else 0) ∧ ∃ j, (t (k + if c then 1 else 0)).next = done j := by
  rw [outlives_add_ite, and_iff_right hk]
  simp only [next_bind, bind_eq_done, next_writeWhenWithin_eq_done_iff]
  refine ⟨fun h => ?_, fun h => ?_⟩
  · obtain ⟨j, _, ⟨hwrite, rfl⟩, hrest⟩ := h
    exact ⟨hwrite, j, hrest⟩
  · obtain ⟨hwrite, j, hrest⟩ := h
    exact ⟨j, _, ⟨hwrite, rfl⟩, hrest⟩

theorem exists_writeWithin_iff {k n : Nat} (hk : Outlives writes k) {text : Str} :
    (∃ j, (writeWithin writes k text n).next = done j) ↔ Outlives writes (k + 1) := by
  rw [outlives_succ, and_iff_right hk]
  simp [next_writeWithin_eq_done_iff]

variable (tree : FileTree) (req : Request) (root_dir : Option Str)

theorem exists_answer_iff {k : Nat} (hk : Outlives writes k) (data : Str) :
    (∃ j, (if strtol data = -1 then writeWithin writes k not_found_status 24
        else do
          let k ← writeWithin writes k ok_status 17
          lift (require (toInt data.length ≤ 0))
          writeWithin writes k server_error_status 27).next = done j) ↔
      (strtol data ≠ -1 → toInt data.length ≤ 0) ∧ Outlives writes (k + if strtol data = -1 then 1 else 2) := by
  split_ifs with hfound
  · rw [exists_writeWithin_iff hk]
    exact (and_iff_right fun h => absurd hfound h).symm
  · simp only [next_bind, next_lift, bind_eq_done, next_writeWithin_eq_done_iff, require_eq_done_iff, exists_const,
      outlives_succ, hk, true_and]
    refine ⟨fun h => ?_, fun h => ?_⟩
    · obtain ⟨j, _, ⟨hok, rfl⟩, hnothing, herror, -⟩ := h
      exact ⟨fun _ => hnothing, hok, herror⟩
    · obtain ⟨hnothing, hok, herror⟩ := h
      exact ⟨k + 2, k + 1, ⟨hok, rfl⟩, hnothing hfound, herror, rfl⟩

theorem exists_getWithin_iff (hk : Outlives writes (badRequests req.info)) :
    (∃ j, (getWithin writes (badRequests req.info) tree req root_dir).next = done j) ↔
      ∃ dir data, root_dir = some dir ∧ FileAnswered writes tree req dir data := by
  refine ⟨fun h => ?_, fun h => ?_⟩
  · obtain ⟨j, hj⟩ := h
    simp only [getWithin, next_bind, next_lift, bind_eq_done, deref_eq_done_iff, require_eq_done_iff] at hj
    obtain ⟨dir, rfl, -, hpath, data, hread, hrest⟩ := hj
    obtain ⟨hnothing, houtlives⟩ := (exists_answer_iff hk data).mp ⟨j, hrest⟩
    exact ⟨dir, data, rfl, hpath, hread, hnothing, houtlives⟩
  · obtain ⟨dir, data, rfl, h⟩ := h
    obtain ⟨j, hj⟩ := (exists_answer_iff hk data).mpr ⟨h.nothing, h.outlives⟩
    refine ⟨j, ?_⟩
    simp only [getWithin, deref_some, next_bind, next_lift, done_bind, require_of_pos h.path, h.read]
    exact hj

theorem routeWithin_completes_iff :
    (∃ j, (routeWithin writes tree req root_dir).next = done j) ↔ Routed writes tree req root_dir := by
  have hnone : Outlives writes 0 := fun k hk => absurd hk (Nat.not_lt_zero k)
  have hroute : (∃ j, (routeWithin writes tree req root_dir).next = done j) ↔
      Outlives writes (badRequests req.info) ∧
        ∃ j, (if decodeMethod req.info = 1 then getWithin writes (badRequests req.info) tree req root_dir
          else do
            let k ← writeWhenWithin writes (badRequests req.info) (decodeMethod req.info = 2) ok_status 17
            writeWithin writes k server_error_status 27).next = done j := by
    rw [badRequests, ← Nat.zero_add (if decodeReqmts req.info = -1 then 1 else 0)]
    refine ⟨fun h => ?_, fun h => ?_⟩
    · obtain ⟨hreqmts, h⟩ := (exists_writeWhenWithin_bind_iff hnone).mp h
      obtain ⟨hproto, h⟩ := (exists_writeWhenWithin_bind_iff hreqmts).mp h
      exact (exists_writeWhenWithin_bind_iff hproto).mp h
    · have hproto := h.1.mono (Nat.le_add_right _ _)
      have hreqmts := hproto.mono (Nat.le_add_right _ _)
      refine (exists_writeWhenWithin_bind_iff hnone).mpr ⟨hreqmts, ?_⟩
      refine (exists_writeWhenWithin_bind_iff hreqmts).mpr ⟨hproto, ?_⟩
      exact (exists_writeWhenWithin_bind_iff hproto).mpr h
  rw [hroute, Routed]
  by_cases hget : decodeMethod req.info = 1
  · rw [if_pos hget, if_pos hget, and_congr_right (exists_getWithin_iff tree req root_dir)]
    refine and_iff_right_of_imp fun h => ?_
    obtain ⟨dir, data, -, hfile⟩ := h
    exact hfile.outlives.mono (Nat.le_add_right _ _)
  · have hcount : badRequests req.info + (if decodeMethod req.info = 2 then 1 else 0) + 1 =
        badRequests req.info + if decodeMethod req.info = 2 then 2 else 1 := by
      split_ifs <;> rfl
    rw [if_neg hget, if_neg hget, ← hcount]
    refine ⟨fun h => ?_, fun h => ?_⟩
    · obtain ⟨hbad, h⟩ := h
      obtain ⟨hhead, h⟩ := (exists_writeWhenWithin_bind_iff hbad).mp h
      exact (exists_writeWithin_iff hhead).mp h
    · have hhead := h.mono (Nat.le_succ _)
      have hbad := hhead.mono (Nat.le_add_right _ _)
      exact ⟨hbad, (exists_writeWhenWithin_bind_iff hbad).mpr ⟨hhead, (exists_writeWithin_iff hhead).mpr h⟩⟩

end routed

/-! ## Next to `routeClient` -/

/-- A socket that takes all it is given. -/
def TakesAll (writes : Nat → WriteResult) : Prop := ∀ k, ∃ m, writes k = .wrote m ∧ 27 ≤ m

section takes

variable {writes : Nat → WriteResult} {tree : FileTree} {req : Request} {dir : Str}

theorem writeWithin_of_takesAll (hall : TakesAll writes) {n : Nat} (hn : n ≤ 27) (k : Nat) (text : Str) :
    writeWithin writes k text n = writeSock text n >>= fun _ => pure (k + 1) := by
  obtain ⟨m, hm, hle⟩ := hall k
  have htake : ((text ++ [0]).take n).take m = (text ++ [0]).take n := by
    rw [List.take_take, Nat.min_eq_right (hn.trans hle)]
  simp only [writeWithin, hm, htake]
  rfl

theorem writeWhenWithin_of_takesAll (hall : TakesAll writes) {n : Nat} (hn : n ≤ 27) (k : Nat) (c : Prop)
    [Decidable c] (text : Str) :
    writeWhenWithin writes k c text n = writeWhen c text n >>= fun _ => pure (k + if c then 1 else 0) := by
  rw [writeWhenWithin, writeWhen]
  split_ifs
  · exact writeWithin_of_takesAll hall hn k text
  · rfl

theorem getWithin_of_takesAll (hall : TakesAll writes) {data : Str} (h : FileAnswered writes tree req dir data)
    (worker : Conn) (k rounds : Nat) :
    ∃ j, getWithin writes k tree req (some dir) = routeGet worker tree req dir (rounds + 1) >>= fun _ => pure j := by
  have hpure {α : Type} (a : α) : (lift (done a) : Trace Out α) = pure a := rfl
  rw [routeGet_of_read h.read, getWithin]
  simp only [deref_some, require_of_pos h.path, h.read, hpure, pure_bind]
  split_ifs with hfound
  · exact ⟨k + 1, writeWithin_of_takesAll hall (by decide) k _⟩
  · have hnothing := h.nothing hfound
    refine ⟨k + 2, ?_⟩
    simp only [sendFile, sendall_nothing hnothing, require_of_pos hnothing, hpure,
      writeWithin_of_takesAll hall (show 17 ≤ 27 by decide), writeWithin_of_takesAll hall (le_refl 27), bind_assoc,
      pure_bind]
    rfl

/-- **What the server does when it gets through** with a request, on a socket that takes everything, is what
`routeClient` does. -/
theorem routeWithin_of_takesAll (hall : TakesAll writes) (h : Routed writes tree req (some dir)) (worker : Conn)
    (rounds : Nat) :
    ∃ j, routeWithin writes tree req (some dir) =
      routeClient worker tree req dir (rounds + 1) >>= fun _ => pure j := by
  simp only [routeWithin, routeClient, writeWhenWithin_of_takesAll hall (le_refl 27), bind_assoc, pure_bind]
  by_cases hget : decodeMethod req.info = 1
  · rw [Routed, if_pos hget] at h
    obtain ⟨dir, data, hdir, hfile⟩ := h
    obtain rfl := Option.some.inj hdir
    obtain ⟨j, hj⟩ := getWithin_of_takesAll hall hfile worker
      (0 + (if decodeReqmts req.info = -1 then 1 else 0) + (if decodeProto req.info = -1 then 1 else 0) +
        if decodeMethod req.info = -1 then 1 else 0) rounds
    refine ⟨j, ?_⟩
    simp only [if_pos hget, hj]
  · simp only [if_neg hget, writeWhenWithin_of_takesAll hall (show 17 ≤ 27 by decide),
      writeWithin_of_takesAll hall (le_refl 27), bind_assoc, pure_bind]
    exact ⟨_, rfl⟩

end takes

/-! ## Which clients -/

/-- `respond` gets through with a client: `readall` has returned `status`, with `recv_data` in the buffer. -/
structure Survives (client : Caller) (tree : FileTree) (root_dir : Option Str) (status : Int)
    (recv_data : List UInt8) : Prop where
  stored : recv_data.length ≤ SOCK_BUFF_DEF_READ
  page : status < 0 → GetsOut client.cSSL bad_request_response
  terminated : (cstr recv_data).length < SOCK_BUFF_DEF_READ
  request : ∃ r, ParsesWithin 0 (cstr recv_data) r ∧ Routed client.writes tree r root_dir

theorem finishes_require_bind_iff {ω α : Type} {c : Prop} [Decidable c] {t : Nat → Trace ω α} {a : α} :
    Finishes (fun n => (lift (require c) >>= fun _ => t n : Trace ω α).next) a ↔
      c ∧ Finishes (fun n => (t n).next) a := by
  by_cases h : c
  · simp only [next_bind, next_lift, require_of_pos h, done_bind, and_iff_right h]
  · simp [Finishes, bind_eq_done, require_eq_done_iff, h]

/-- **The server gets through with a client** exactly when `readall` does and the client is survived. -/
theorem respondWithin_completes_iff (client : Caller) (tree : FileTree) (root_dir : Option Str) :
    (∃ k, Finishes (fun rounds => (respondWithin client tree root_dir rounds).next) k) ↔
      ∃ status recv_data, Finishes (readall client.reads) (status, recv_data) ∧
        Survives client tree root_dir status recv_data := by
  have hparsed (recv_data : List UInt8) (k : Nat) :
      Finishes (fun rounds => (lift (parseRequestWithin 0 (cstr recv_data) rounds) >>= fun request =>
          routeWithin client.writes tree request root_dir : Trace Out Nat).next) k ↔
        ∃ r, ParsesWithin 0 (cstr recv_data) r ∧ (routeWithin client.writes tree r root_dir).next = done k := by
    refine (finishes_bind_iff (grows_lift (stable_parseRequestWithin 0 (cstr recv_data))) fun request =>
      grows_const (routeWithin client.writes tree request root_dir)).trans ?_
    simp only [Finishes, ParsesWithin, next_lift, exists_const]
  have hread (k : Nat) : Finishes (fun rounds => (respondWithin client tree root_dir rounds).next) k ↔
      ∃ status recv_data, Finishes (readall client.reads) (status, recv_data) ∧
        recv_data.length ≤ SOCK_BUFF_DEF_READ ∧ (status < 0 → GetsOut client.cSSL bad_request_response) ∧
          (cstr recv_data).length < SOCK_BUFF_DEF_READ ∧
            ∃ r, ParsesWithin 0 (cstr recv_data) r ∧ (routeWithin client.writes tree r root_dir).next = done k := by
    refine (finishes_bind_iff (grows_lift (stable_readall client.reads)) fun read =>
      grows_stored client tree root_dir read).trans ?_
    rw [Prod.exists]
    refine exists_congr fun status => exists_congr fun recv_data => and_congr_right fun _ => ?_
    rw [finishes_require_bind_iff, finishes_bind_iff (grows_reportReadError client.cSSL status) fun _ =>
      (grows_const _).bind fun _ => grows_parsed client tree root_dir recv_data, Unique.exists_iff,
      finishes_require_bind_iff, hparsed]
    exact and_congr_right fun _ => and_congr_left fun _ => reportReadError_completes_iff client.cSSL status
  simp only [hread]
  refine ⟨fun h => ?_, fun h => ?_⟩
  · obtain ⟨k, status, recv_data, hreads, hstored, hpage, hterminated, r, hr, hk⟩ := h
    have hrouted := (routeWithin_completes_iff tree r root_dir).mp ⟨k, hk⟩
    exact ⟨status, recv_data, hreads, hstored, hpage, hterminated, r, hr, hrouted⟩
  · obtain ⟨status, recv_data, hreads, hstored, hpage, hterminated, r, hr, hrouted⟩ := h
    obtain ⟨k, hk⟩ := (routeWithin_completes_iff tree r root_dir).mpr hrouted
    exact ⟨k, status, recv_data, hreads, hstored, hpage, hterminated, r, hr, hk⟩

end PwdManLib
