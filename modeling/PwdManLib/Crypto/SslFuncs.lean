import PwdManLib.Crypto.HostName
import PwdManLib.Lib.Monitor

/-!
# Setting up a TLS session

`initSSL`, `configServerSSL`, `configClientSSL`, `shutdownSSL` and `destroySSL` of `crypto/ssl_funcs.h`.
OpenSSL is a parameter: what its calls answer is in a `ServerTls` or a `ClientTls`, and the calls that change
something are logged (`SslCall`), the two of `initSSL` that can fail among them. A NULL context or a NULL
connection that is handed on is a fault. What is only printed is left out, and so are the certificate and the
key that `loadCerts` gives the server: when one of them is missing it is the handshake that fails.

`returns_configClientSSL_iff` says with which answers `configClientSSL` returns a connection.
-/

namespace PwdManLib

open Process HostnameValidationResult

/-- What is done to the library, a context, a connection or its socket. -/
inductive SslCall where
  | SSL_library_init
  | OPENSSL_init_ssl
  | OPENSSL_init_crypto
  | SSL_CTX_new
  | SSL_CTX_set_verify
  | SSL_CTX_load_verify_locations
  | SSL_CTX_free
  | SSL_new
  | SSL_set_fd (fd : Int)
  | SSL_accept
  | SSL_connect
  | SSL_get_peer_certificate
  | SSL_shutdown
  | SSL_free
  | close (fd : Int)
  deriving DecidableEq, Repr

/-- What `OPENSSL_init_ssl` and `OPENSSL_init_crypto` answer. Versions before 1.1 do not have them. -/
inductive SslInit where
  | legacy
  | modern (ssl crypto : Int)

/-- The library could be initialised. -/
def SslInit.Ok : SslInit → Prop
  | legacy => True
  | modern ssl crypto => ssl ≠ 0 ∧ crypto ≠ 0

instance (init : SslInit) : Decidable init.Ok :=
  match init with
  | .legacy => inferInstanceAs (Decidable True)
  | .modern ssl crypto => inferInstanceAs (Decidable (ssl ≠ 0 ∧ crypto ≠ 0))

/-- What the calls of `configServerSSL` answer. -/
structure ServerTls where
  init : SslInit
  ctx : Bool
  ssl : Bool
  accept : Int
  shutdown : Int

/-- What the calls of `configClientSSL` answer. -/
structure ClientTls where
  init : SslInit
  ctx : Bool
  load : Int
  ssl : Bool
  set_fd : Int
  connect : Int
  peer : Option X509
  shutdown : Int

/-! ## The code -/

section code

variable {ω : Type} (tell : SslCall → ω)

def initSSL (init : SslInit) : Process ω Unit :=
  match init with
  | .legacy => call (tell .SSL_library_init)
  | .modern ssl crypto => do
    call (tell .OPENSSL_init_ssl)
    check (ssl ≠ 0) (exit (-1))
    call (tell .OPENSSL_init_crypto)
    check (crypto ≠ 0) (exit (-1))

/-- `initServerCTX` and `initClientCTX`: the context is used by the call that follows. -/
def initCTX (ctx : Bool) : Process ω Unit := do
  check (ctx = true) crash
  call (tell .SSL_CTX_new)

def destroySSL (cSSL ctx : Bool) : Process ω Unit := do
  if cSSL then call (tell .SSL_free)
  if ctx then call (tell .SSL_CTX_free)

/-- A shutdown that answers 0 is made a second time. -/
def shutdownSSL (shutdown : Int) : Process ω Unit := do
  call (tell .SSL_shutdown)
  if shutdown = 0 then call (tell .SSL_shutdown)

def configServerSSL (tls : ServerTls) (worker_sock : Int) : Process ω Unit := do
  initSSL tell tls.init
  initCTX tell tls.ctx
  call (tell .SSL_CTX_set_verify)
  check (tls.ssl = true) crash
  call (tell .SSL_new)
  call (tell (.SSL_set_fd worker_sock))
  call (tell .SSL_accept)
  check (tls.accept > 0) do
    shutdownSSL tell tls.shutdown
    exit 1

/-- How `configClientSSL` leaves when something is wrong. -/
def giveUp (shutdown connect_sock : Int) : Process ω Unit := do
  shutdownSSL tell shutdown
  destroySSL tell false false
  call (tell (.close connect_sock))
  exit (-1)

def configClientSSL (tls : ClientTls) (connect_sock : Int) : Process ω Unit := do
  initSSL tell tls.init
  initCTX tell tls.ctx
  call (tell .SSL_CTX_set_verify)
  call (tell .SSL_CTX_load_verify_locations)
  check (tls.load = 1) do
    call (tell .SSL_CTX_free)
    destroySSL tell false false
    call (tell (.close connect_sock))
    exit (-1)
  -- without a connection, `shutdownSSL` is called with NULL
  check (tls.ssl = true) crash
  call (tell .SSL_new)
  call (tell (.SSL_set_fd connect_sock))
  check (tls.set_fd ≠ 0) (giveUp tell tls.shutdown connect_sock)
  call (tell .SSL_connect)
  check (tls.connect > 0) (giveUp tell tls.shutdown connect_sock)
  call (tell .SSL_get_peer_certificate)
  check (tls.peer ≠ none) (giveUp tell tls.shutdown connect_sock)
  check (validateHostname (some (lit "devopsec.net")) tls.peer = matchFound) (giveUp tell tls.shutdown connect_sock)

end code

/-! ## The ways out -/

section ways

variable {ω α : Type} {tell : SslCall → ω} {f : Unit → Process ω α} {a : α} {status : Int} {e : ω}

theorem not_returns_giveUp (shutdown connect_sock : Int) (u : Unit) :
    ¬ (giveUp tell shutdown connect_sock).Returns u := by
  simp only [giveUp, returns_bind_iff, not_returns_exit, and_false, exists_false, not_false_eq_true]

theorem returns_shutdownSSL (shutdown : Int) : (shutdownSSL tell shutdown).Returns () := by
  rw [shutdownSSL, returns_call_bind_iff]
  split_ifs
  · exact returns_call _
  · exact returns_pure_iff.mpr rfl

theorem exits_giveUp_iff (shutdown connect_sock : Int) :
    (giveUp tell shutdown connect_sock).Exits status ↔ status = -1 := by
  have hdestroy : destroySSL tell false false = pure () := rfl
  rw [giveUp, hdestroy, pure_bind, exits_bind_iff]
  refine ⟨fun h => ?_, fun h => ?_⟩
  · rcases h with h | ⟨-, -, h⟩
    · exact absurd h ((returns_shutdownSSL shutdown).not_exits status)
    · rw [exits_call_bind_iff, exits_exit_iff] at h
      exact h.symm
  · refine .inr ⟨(), returns_shutdownSSL shutdown, ?_⟩
    rw [exits_call_bind_iff, exits_exit_iff, h]

theorem returns_initSSL_bind_iff {init : SslInit} :
    (initSSL tell init >>= f).Returns a ↔ init.Ok ∧ (f ()).Returns a := by
  cases init with
  | legacy => simp [initSSL, SslInit.Ok]
  | modern ssl crypto =>
    simp only [initSSL, SslInit.Ok, bind_assoc, returns_call_bind_iff]
    rw [returns_check_bind_iff (by simp), returns_call_bind_iff, returns_check_bind_iff (by simp), and_assoc]

theorem exits_initSSL_bind_iff {init : SslInit} :
    (initSSL tell init >>= f).Exits status ↔ (¬ init.Ok ∧ status = -1) ∨ init.Ok ∧ (f ()).Exits status := by
  cases init with
  | legacy => simp [initSSL, SslInit.Ok]
  | modern ssl crypto =>
    simp only [initSSL, SslInit.Ok, bind_assoc, exits_call_bind_iff]
    rw [exits_check_bind_iff (by simp), exits_call_bind_iff, exits_check_bind_iff (by simp), exits_exit_iff,
      eq_comm]
    tauto

theorem returns_initSSL_iff {init : SslInit} : (initSSL tell init).Returns () ↔ init.Ok := by
  have h : (initSSL tell init >>= fun _ => (pure () : Process ω Unit)).Returns () ↔
      init.Ok ∧ (pure () : Process ω Unit).Returns () := returns_initSSL_bind_iff
  rwa [bind_pure, returns_pure_iff, and_iff_left rfl] at h

theorem mem_log_initSSL_bind_iff {init : SslInit} :
    e ∈ (initSSL tell init >>= f).log ↔ e ∈ (initSSL tell init).log ∨ init.Ok ∧ e ∈ (f ()).log := by
  rw [mem_log_bind, Unique.exists_iff]
  exact or_congr_right (and_congr_left fun _ => returns_initSSL_iff)

/-- They are calls that initialise the library. -/
def SslCall.Initialises : SslCall → Prop
  | SSL_library_init => True
  | OPENSSL_init_ssl => True
  | OPENSSL_init_crypto => True
  | _ => False

theorem mem_log_initSSL {init : SslInit} (he : e ∈ (initSSL tell init).log) : ∃ c, e = tell c ∧ c.Initialises := by
  cases init with
  | legacy => exact ⟨_, List.mem_singleton.mp he, trivial⟩
  | modern ssl crypto =>
    rw [initSSL, log_call_bind, List.mem_cons, mem_log_check_bind_iff (by simp), log_exit, log_call_bind,
      List.mem_cons, mem_log_check_iff, log_exit] at he
    rcases he with he | ⟨-, he⟩ | ⟨-, he | ⟨-, he⟩⟩
    · exact ⟨_, he, trivial⟩
    · exact absurd he List.not_mem_nil
    · exact ⟨_, he, trivial⟩
    · exact absurd he List.not_mem_nil

end ways

/-! ## The server's side -/

/-- The handshake with a visitor gets through. -/
def ServerTls.Accepted (tls : ServerTls) : Prop :=
  tls.init.Ok ∧ tls.ctx = true ∧ tls.ssl = true ∧ tls.accept > 0

theorem log_configServerSSL {ω : Type} {tell : SslCall → ω} {tls : ServerTls} (h : tls.Accepted) (worker_sock : Int) :
    (configServerSSL tell tls worker_sock).log = (initSSL tell tls.init).log ++
      [tell .SSL_CTX_new, tell .SSL_CTX_set_verify, tell .SSL_new, tell (.SSL_set_fd worker_sock),
        tell .SSL_accept] := by
  obtain ⟨hinit, hctx, hssl, haccept⟩ := h
  rw [configServerSSL, log_bind_of_returns (returns_initSSL_iff.mpr hinit), initCTX, check_of_pos hctx,
    check_of_pos hssl, check_of_pos haccept]
  simp only [pure_bind, log_call_bind, log_pure]

/-! ## The client's side -/

/-- The name `configClientSSL` asks for, whatever host the client was told to connect to. -/
def serverName : HostName := ⟨lit "devopsec.net", by decide⟩

/-- The session is set up with a server whose certificate is for `devopsec.net`. -/
structure ClientTls.Authenticated (tls : ClientTls) : Prop where
  init : tls.init.Ok
  ctx : tls.ctx = true
  load : tls.load = 1
  ssl : tls.ssl = true
  set_fd : tls.set_fd ≠ 0
  connect : tls.connect > 0
  peer : ∃ cert, tls.peer = some cert ∧ cert.IsFor serverName

theorem peer_iff (peer : Option X509) :
    (peer ≠ none ∧ validateHostname (some (lit "devopsec.net")) peer = matchFound) ↔
      ∃ cert, peer = some cert ∧ cert.IsFor serverName := by
  cases peer with
  | none => simp
  | some cert =>
    simp only [ne_eq, reduceCtorEq, not_false_eq_true, true_and, Option.some.injEq, exists_eq_left']
    exact validateHostname_eq_matchFound_iff serverName cert

variable {ω α : Type} {tell : SslCall → ω}

theorem returns_configClientSSL_iff (tls : ClientTls) (connect_sock : Int) :
    (configClientSSL tell tls connect_sock).Returns () ↔ tls.Authenticated := by
  have hpeer := peer_iff tls.peer
  have hout (u : Unit) : ¬ (giveUp tell tls.shutdown connect_sock).Returns u := not_returns_giveUp _ _ u
  rw [configClientSSL, returns_initSSL_bind_iff, initCTX, bind_assoc, returns_check_bind_iff (by simp)]
  simp only [returns_call_bind_iff]
  rw [returns_check_bind_iff (by simp [returns_bind_iff]), returns_check_bind_iff (by simp)]
  simp only [returns_call_bind_iff]
  rw [returns_check_bind_iff hout, returns_call_bind_iff, returns_check_bind_iff hout, returns_call_bind_iff,
    returns_check_bind_iff hout, returns_check_iff hout, hpeer]
  refine ⟨fun h => ?_, fun h => ?_⟩
  · obtain ⟨hinit, hctx, hload, hssl, hset_fd, hconnect, hcert⟩ := h
    exact ⟨hinit, hctx, hload, hssl, hset_fd, hconnect, hcert⟩
  · exact ⟨h.init, h.ctx, h.load, h.ssl, h.set_fd, h.connect, h.peer⟩

/-- Something goes wrong that `configClientSSL` notices. -/
def ClientTls.TurnedDown (tls : ClientTls) : Prop :=
  ¬ tls.init.Ok ∨ tls.init.Ok ∧ tls.ctx = true ∧ (tls.load ≠ 1 ∨
    tls.load = 1 ∧ tls.ssl = true ∧ ¬ (tls.set_fd ≠ 0 ∧ tls.connect > 0 ∧
      ∃ cert, tls.peer = some cert ∧ cert.IsFor serverName))

theorem exits_configClientSSL_iff (tls : ClientTls) (connect_sock status : Int) :
    (configClientSSL tell tls connect_sock).Exits status ↔ status = -1 ∧ tls.TurnedDown := by
  have hpeer := peer_iff tls.peer
  have hout (u : Unit) : ¬ (giveUp tell tls.shutdown connect_sock).Returns u := not_returns_giveUp _ _ u
  have hload (u : Unit) : ¬ (call (tell .SSL_CTX_free) >>= fun _ => destroySSL tell false false >>= fun _ =>
      call (tell (.close connect_sock)) >>= fun _ => exit (-1) : Process ω Unit).Returns u := by
    simp [returns_bind_iff]
  have hdestroy : destroySSL tell false false = pure () := rfl
  rw [configClientSSL, exits_initSSL_bind_iff, initCTX, bind_assoc, exits_check_bind_iff (by simp)]
  simp only [exits_call_bind_iff]
  rw [exits_check_bind_iff hload, exits_check_bind_iff (by simp)]
  simp only [exits_call_bind_iff]
  rw [exits_check_bind_iff hout, exits_call_bind_iff, exits_check_bind_iff hout, exits_call_bind_iff,
    exits_check_bind_iff hout, exits_check_iff]
  simp only [hdestroy, pure_bind, exits_call_bind_iff, exits_exit_iff, exits_giveUp_iff, not_exits_crash,
    ClientTls.TurnedDown, ← hpeer]
  have hstep (p q : Prop) : ¬ p ∨ p ∧ q ↔ (p → q) := by tauto
  by_cases hstatus : status = -1
  · subst hstatus
    simp only [and_true, true_and, and_false, false_or, hstep, ne_eq, not_and]
  · have hstatus' : ¬ (-1 = status) := fun h => hstatus h.symm
    simp only [hstatus, hstatus', and_false, false_and, or_self]

end PwdManLib
