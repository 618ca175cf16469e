import PwdManLib.Crypto.ReadAll
import PwdManLib.Crypto.SslFuncs
import PwdManLib.Server.ReadBuffer

/-!
# The client and its connection

`openConnection` of `client/client.h` and `main` of `client/client_v2.c` from there on: the client connects, sets
up TLS, sends what is in `message`, reads the answer, prints it and closes the socket. `error` ends the process
with the status 0.

Not a byte is sent or asked for before the server has shown a certificate for `devopsec.net`
(`talks_iff`, `session_order`), and the exit status tells whether it has, and nothing else (`exit_status_iff`).
What is closed is what `openConnection` has returned, and that is -1 for a socket that could not be connected.
An answer that does not fit `response` is a fault.
-/

namespace PwdManLib

open Exec Process

/-- What `gethostbyname`, `socket` and `connect` answer. -/
structure Net where
  host : Bool
  socket : Int
  connect : Int

/-- What the client does. -/
inductive ClientCall where
  | socket (fd : Int)
  | connect (fd answer : Int)
  | ssl (c : SslCall)
  | write (a : Attempt UInt8)
  | read (c : ReadCall)
  | print (text : Str)

/-! ## The code -/

/-- The connected socket, or -1. -/
def openConnection (net : Net) : Process ClientCall Int :=
  if net.host = false then pure (-1)
  else do
    call (.socket net.socket)
    if net.socket < 0 then pure (-1)
    else do
      call (.connect net.socket net.connect)
      if net.connect < 0 then pure (-1) else pure net.socket

/-- What the rest of `main` meets. -/
structure Surroundings where
  net : Net
  init : SslInit
  tls : ClientTls
  conn : Conn
  incoming : Incoming

/-- The end of `main`: the answer is printed, and the socket closed. Behind a store outside of `response` anything
may happen, and a text without its NUL is printed past its end. -/
def showAnswer (connect_sock : Int) (received : Int × List UInt8) : Process ClientCall Unit := do
  check (received.2.length ≤ SOCK_BUFF_DEF_READ) crash
  check (0 ≤ received.1) (exit 0)
  check ((cstr received.2).length < SOCK_BUFF_DEF_READ) crash
  call (.print (cstr received.2))
  call (.ssl (.close connect_sock))
  exit 0

def receive (env : Surroundings) (connect_sock : Int) (rounds : Nat) : Process ClientCall Unit := do
  let received ← lift ((readallCalls env.incoming rounds).mapSent .read)
  showAnswer connect_sock received

/-- `main` once it has its session. -/
def exchange (env : Surroundings) (args : SendArgs) (connect_sock : Int) (rounds : Nat) : Process ClientCall Unit := do
  let sent ← lift ((sendallCalls env.conn args rounds).mapSent .write)
  check (0 ≤ sent.2) (exit 0)
  receive env connect_sock rounds

/-- `main` behind the message. -/
def clientSession (env : Surroundings) (args : SendArgs) (rounds : Nat) : Process ClientCall Unit := do
  let connect_sock ← openConnection env.net
  initSSL .ssl env.init
  configClientSSL .ssl env.tls connect_sock
  exchange env args connect_sock rounds

/-! ## The way to the session -/

/-- The socket `configClientSSL` is given. -/
def Net.connected (net : Net) : Int :=
  if net.host = false ∨ net.socket < 0 ∨ net.connect < 0 then -1 else net.socket

/-- The calls of `openConnection`. -/
def Net.calls (net : Net) : List ClientCall :=
  if net.host = false then []
  else if net.socket < 0 then [.socket net.socket]
  else [.socket net.socket, .connect net.socket net.connect]

theorem openConnection_eq (net : Net) :
    (openConnection net).log = net.calls ∧ (openConnection net).Returns net.connected := by
  rw [openConnection, Net.calls, Net.connected]
  by_cases hhost : net.host = false
  · rw [if_pos hhost, if_pos hhost, if_pos (.inl hhost)]
    exact ⟨rfl, rfl⟩
  · rw [if_neg hhost, if_neg hhost]
    by_cases hsocket : net.socket < 0
    · rw [if_pos hsocket, if_pos hsocket, if_pos (.inr (.inl hsocket))]
      exact ⟨rfl, rfl⟩
    · rw [if_neg hsocket, if_neg hsocket]
      by_cases hconnect : net.connect < 0
      · rw [if_pos hconnect, if_pos (.inr (.inr hconnect))]
        exact ⟨rfl, rfl⟩
      · rw [if_neg hconnect, if_neg (by tauto)]
        exact ⟨rfl, rfl⟩

theorem returns_openConnection_iff {net : Net} {fd : Int} :
    (openConnection net).Returns fd ↔ net.connected = fd := by
  have hreturns := (openConnection_eq net).2
  exact ⟨fun h => hreturns.unique h, fun h => h ▸ hreturns⟩

theorem not_exits_openConnection (net : Net) (status : Int) : ¬ (openConnection net).Exits status :=
  (openConnection_eq net).2.not_exits status

theorem mem_log_openConnection {net : Net} {e : ClientCall} (h : e ∈ (openConnection net).log) :
    e = .socket net.socket ∨ e = .connect net.socket net.connect := by
  rw [(openConnection_eq net).1, Net.calls] at h
  split_ifs at h
  · exact absurd h List.not_mem_nil
  · exact .inl (List.mem_singleton.mp h)
  · simpa using h

/-- The session is there: OpenSSL could be initialised, and the server has shown who it is. -/
def Surroundings.Ready (env : Surroundings) : Prop := env.init.Ok ∧ env.tls.Authenticated

theorem exits_clientSession_iff {env : Surroundings} {args : SendArgs} {rounds : Nat} {status : Int} :
    (clientSession env args rounds).Exits status ↔
      status = -1 ∧ (¬ env.init.Ok ∨ env.init.Ok ∧ env.tls.TurnedDown) ∨
        env.Ready ∧ (exchange env args env.net.connected rounds).Exits status := by
  rw [clientSession, exits_bind_iff, or_iff_right (not_exits_openConnection _ _)]
  simp only [returns_openConnection_iff, exists_eq_left']
  rw [exits_initSSL_bind_iff, exits_bind_iff, exits_configClientSSL_iff]
  have hunit : (∃ u, (configClientSSL ClientCall.ssl env.tls env.net.connected).Returns u ∧
        (exchange env args env.net.connected rounds).Exits status) ↔
      env.tls.Authenticated ∧ (exchange env args env.net.connected rounds).Exits status := by
    rw [← returns_configClientSSL_iff env.tls env.net.connected]
    exact ⟨fun ⟨_, h⟩ => h, fun h => ⟨(), h⟩⟩
  rw [hunit, Surroundings.Ready]
  tauto

/-! ## The exchange -/

/-- What is written or read. -/
def ClientCall.IsTraffic : ClientCall → Prop
  | .write _ => True
  | .read _ => True
  | _ => False

theorem grows_sendallCalls (conn : Conn) (args : SendArgs) : Trace.Grows (sendallCalls conn args) :=
  Trace.grows_loop _ _

theorem grows_readallCalls (incoming : Incoming) : Trace.Grows (readallCalls incoming) := Trace.grows_loop _ _

variable {env : Surroundings} {args : SendArgs}

theorem sendallCalls_nothing (conn : Conn) (hlen : args.len ≤ 0) (rounds : Nat) :
    (sendallCalls conn args rounds).sent = [] ∧
      ∀ r, (sendallCalls conn args rounds).next = done r → r.2 = -1 := by
  cases rounds with
  | zero => simp [sendallCalls, Trace.loop]
  | succ rounds =>
    have hround : sendRound conn args { calls := 0, total := 0, bytesleft := args.len, n := -1 } =
        { sent := [], next := done (.inr (0, -1)) } := by
      rw [sendRound, if_neg (by simpa using hlen)]
      rfl
    rw [sendallCalls, Trace.loop_succ_of_exit hround]
    simp

theorem exists_mem_sendallCalls (conn : Conn) (hlen : 0 < args.len) :
    ∃ a, a ∈ (sendallCalls conn args 1).sent := by
  have hsent : ∃ a, a ∈ (sendRound conn args { calls := 0, total := 0, bytesleft := args.len, n := -1 }).sent := by
    rw [sendRound, if_pos (by simpa using hlen)]
    exact ⟨_, Trace.mem_sent_bind.mpr (.inl (List.mem_singleton.mpr rfl))⟩
  obtain ⟨a, ha⟩ := hsent
  exact ⟨a, Trace.mem_sent_bind.mpr (.inl ha)⟩

theorem completes_lift_mapSent_iff {ω ω' α : Type} {t : Nat → Trace ω α} {f : ω → ω'} {a : α} :
    Completes (fun n => lift ((t n).mapSent f)) a ↔ Finishes (fun n => (t n).next) a := by
  simp only [Completes, returns_lift_iff, Trace.next_mapSent, Finishes]

theorem not_ends_lift {ω α : Type} {t : Nat → Trace ω α} {status : Int} :
    ¬ Ends (fun n => lift (t n)) status := by
  intro h
  obtain ⟨n, hn⟩ := h
  exact not_exits_lift _ _ hn

theorem grows_receive (env : Surroundings) (connect_sock : Int) : Process.Grows (receive env connect_sock) :=
  (Process.grows_lift ((grows_readallCalls env.incoming).mapSent _)).bind fun _ => Process.grows_const _

/-- What `readall` has returned fits `response`: it is stored inside, and is a string if it is printed. -/
def FitsResponse (received : Int × List UInt8) : Prop :=
  received.2.length ≤ SOCK_BUFF_DEF_READ ∧ (0 ≤ received.1 → (cstr received.2).length < SOCK_BUFF_DEF_READ)

theorem exits_showAnswer_iff (connect_sock : Int) (received : Int × List UInt8) (status : Int) :
    (showAnswer connect_sock received).Exits status ↔ status = 0 ∧ FitsResponse received := by
  rw [showAnswer, exits_check_bind_iff (by simp), exits_check_bind_iff (by simp), exits_check_bind_iff (by simp)]
  simp only [exits_call_bind_iff, exits_exit_iff, not_exits_crash, and_false, false_or, FitsResponse,
    eq_comm (a := status)]
  tauto

/-- The answer can be read. -/
def AnswerFits (incoming : Incoming) : Prop :=
  ∃ received, Finishes (fun rounds => (readallCalls incoming rounds).next) received ∧ FitsResponse received

theorem ends_receive_iff (env : Surroundings) (connect_sock status : Int) :
    Ends (receive env connect_sock) status ↔ status = 0 ∧ AnswerFits env.incoming := by
  have hread := Process.grows_lift ((grows_readallCalls env.incoming).mapSent ClientCall.read)
  have hshow (received : Int × List UInt8) := Process.grows_const (showAnswer connect_sock received)
  refine (ends_bind_iff hread hshow).trans ?_
  rw [or_iff_right not_ends_lift, AnswerFits, ← exists_and_left]
  simp only [completes_lift_mapSent_iff, Ends, exits_showAnswer_iff, exists_const]
  exact exists_congr fun received => and_left_comm

/-- The exchange comes to its end: the transfer of the message does, and unless it fails the answer can be read. -/
def Surroundings.Concludes (env : Surroundings) (args : SendArgs) : Prop :=
  ∃ calls, Transfer env.conn.write 0 args.message calls ∧ (0 ≤ lastResult (-1) calls → AnswerFits env.incoming)

theorem ends_behind_sendall_iff (env : Surroundings) (connect_sock status n : Int) :
    Ends (fun rounds => check (0 ≤ failure n) (exit 0) >>= fun _ => receive env connect_sock rounds) status ↔
      status = 0 ∧ (0 ≤ n → AnswerFits env.incoming) := by
  have hfailure : 0 ≤ failure n ↔ 0 ≤ n := by
    rw [failure]
    split_ifs with hneg
    · exact Iff.rfl
    · exact iff_of_true (Int.le_refl 0) (Int.not_lt.mp hneg)
  by_cases hn : 0 ≤ n
  · simp only [check_of_pos (hfailure.mpr hn), pure_bind, true_imp_iff, hn]
    exact ends_receive_iff env connect_sock status
  · have hexit (rounds : Nat) : (check (0 ≤ failure n) (exit 0) >>= fun _ =>
        receive env connect_sock rounds).Exits status ↔ status = 0 := by
      rw [exits_check_bind_iff (by simp), exits_exit_iff, hfailure]
      simp [hn, eq_comm]
    simp only [Ends, hexit, exists_const, hn, false_imp_iff, and_true]

theorem ends_exchange_iff (env : Surroundings) (args : SendArgs) (connect_sock status : Int) :
    Ends (exchange env args connect_sock) status ↔ status = 0 ∧ env.Concludes args := by
  have hgrows (sent : Nat × Int) : Process.Grows fun n =>
      check (0 ≤ sent.2) (exit 0) >>= fun _ => receive env connect_sock n :=
    (Process.grows_const _).bind fun _ => grows_receive env connect_sock
  have hsend := Process.grows_lift ((grows_sendallCalls env.conn args).mapSent ClientCall.write)
  refine (ends_bind_iff hsend hgrows).trans ?_
  rw [or_iff_right not_ends_lift, Surroundings.Concludes, ← exists_and_left]
  simp only [completes_lift_mapSent_iff]
  refine ⟨fun h => ?_, fun h => ?_⟩
  · obtain ⟨sent, ⟨rounds, hsent⟩, hend⟩ := h
    obtain ⟨htransfer, hresult⟩ := sendallCalls_ends_iff.mp ⟨rounds, congrArg (Trace.mk _) hsent⟩
    rw [hresult] at hend
    obtain ⟨hstatus, hanswer⟩ := (ends_behind_sendall_iff env connect_sock status _).mp hend
    exact ⟨_, hstatus, htransfer, hanswer⟩
  · obtain ⟨calls, hstatus, htransfer, hanswer⟩ := h
    refine ⟨((taken calls).length, failure (lastResult (-1) calls)), ⟨calls.length + 1, ?_⟩, ?_⟩
    · simp only [sendallCalls_of_transfer htransfer (Nat.lt_succ_self _)]
    · exact (ends_behind_sendall_iff env connect_sock status _).mpr ⟨hstatus, hanswer⟩

theorem traffic_exchange_iff (env : Surroundings) (args : SendArgs) (connect_sock : Int) :
    (∃ rounds, ∃ e ∈ (exchange env args connect_sock rounds).log, e.IsTraffic) ↔ 0 < args.len := by
  refine ⟨fun h => ?_, fun hlen => ?_⟩
  · obtain ⟨rounds, e, he, htraffic⟩ := h
    by_contra hlen
    obtain ⟨hnone, hfailed⟩ := sendallCalls_nothing env.conn (Int.not_lt.mp hlen) rounds
    rcases mem_log_bind.mp he with he | ⟨sent, hsent, he⟩
    · rw [log_lift, Trace.sent_mapSent, hnone] at he
      exact absurd he List.not_mem_nil
    · have hneg : ¬ 0 ≤ sent.2 := by
        rw [returns_lift_iff, Trace.next_mapSent] at hsent
        rw [hfailed sent hsent]
        decide
      rw [mem_log_check_bind_iff (by simp)] at he
      simp [hneg] at he
  · obtain ⟨a, ha⟩ := exists_mem_sendallCalls env.conn hlen
    refine ⟨1, .write a, mem_log_bind.mpr (.inl ?_), trivial⟩
    rw [log_lift]
    exact List.mem_map_of_mem ha

/-! ## The order of the calls -/

/-- Nothing has been closed. -/
def Open (history : List ClientCall) : Prop := ∀ fd, ClientCall.ssl (.close fd) ∉ history

/-- What has to have been done before anything is written or read: certificates are to be verified, the CA is known,
the connection is made from the context behind that, on this socket, and the server has shown its certificate. -/
def secured (connect_sock : Int) : List ClientCall :=
  [.ssl .SSL_CTX_new, .ssl .SSL_CTX_set_verify, .ssl .SSL_CTX_load_verify_locations, .ssl .SSL_new,
    .ssl (.SSL_set_fd connect_sock), .ssl .SSL_connect, .ssl .SSL_get_peer_certificate]

/-- Nothing is done behind the `close`, which is one of `sock`, and something is written or read only when the
history is good for it. -/
def sessionMonitor (sock : Int) (M : List ClientCall → Prop) : Monitor (List ClientCall) ClientCall :=
  .ofHistory fun history e =>
    Open history ∧ (e.IsTraffic → M history) ∧ ∀ fd, e = .ssl (.close fd) → fd = sock

section order

variable {sock : Int} {M : List ClientCall → Prop} {history : List ClientCall}

theorem Open.concat (h : Open history) {e : ClientCall} (he : ∀ fd, e ≠ .ssl (.close fd)) :
    Open (history ++ [e]) := by
  intro fd
  rw [List.mem_append, List.mem_singleton, not_or]
  exact ⟨h fd, (he fd).symm⟩

variable {α : Type} {c : SslCall} {f : Unit → Process ClientCall α} {Q : α → List ClientCall → Prop}
  {R : Int → List ClientCall → Prop}

theorem allowed_ssl (h : Open history) (hc : ∀ fd, c = .close fd → fd = sock) :
    (sessionMonitor sock M).Allowed history (.ssl c) :=
  ⟨h, fun htraffic => htraffic.elim, fun fd heq => hc fd (ClientCall.ssl.inj heq)⟩

theorem triple_ssl_bind (h : Open history) (hc : ∀ fd, c ≠ .close fd)
    (hf : Open (history ++ [.ssl c]) →
      (sessionMonitor sock M).Triple (history ++ [.ssl c]) (f ()) Q R) :
    (sessionMonitor sock M).Triple history (call (.ssl c) >>= f) Q R := by
  apply Monitor.triple_call_bind
  · exact allowed_ssl h fun fd heq => absurd heq (hc fd)
  · exact hf (h.concat fun fd heq => hc fd (ClientCall.ssl.inj heq))

theorem triple_close_exit (h : Open history) {status : Int} (hR : R status (history ++ [.ssl (.close sock)])) :
    (sessionMonitor sock M).Triple history (call (.ssl (.close sock)) >>= fun _ => exit status) Q R := by
  apply Monitor.triple_call_bind
  · exact allowed_ssl h fun fd heq => (SslCall.close.inj heq).symm
  · exact Monitor.triple_exit hR

/-- Nothing of OpenSSL has been called but to initialise it. -/
def Bare (history : List ClientCall) : Prop := ∀ c, ClientCall.ssl c ∈ history → c.Initialises

theorem Bare.to_open (h : Bare history) : Open history := fun fd hmem => h (.close fd) hmem

theorem Bare.concat (h : Bare history) (hc : c.Initialises) : Bare (history ++ [.ssl c]) := by
  intro c' hmem
  rcases List.mem_append.mp hmem with hmem | hmem
  · exact h c' hmem
  · exact ClientCall.ssl.inj (List.mem_singleton.mp hmem) ▸ hc

theorem triple_initSSL (h : Bare history) (init : SslInit) :
    (sessionMonitor sock M).Triple history (initSSL .ssl init) (fun _ s => Bare s)
      (fun status s => status = -1 ∧ Bare s) := by
  cases init with
  | legacy => exact Monitor.triple_call (allowed_ssl h.to_open (by simp)) (h.concat trivial)
  | modern ssl crypto =>
    have hssl : Bare (history ++ [.ssl .OPENSSL_init_ssl]) := h.concat trivial
    have hcrypto : Bare (history ++ [.ssl .OPENSSL_init_ssl] ++ [.ssl .OPENSSL_init_crypto]) := hssl.concat trivial
    apply triple_ssl_bind h.to_open (by simp)
    intro _
    apply Monitor.triple_check_bind (fun _ => Monitor.triple_exit ⟨rfl, hssl⟩)
    intro _
    apply triple_ssl_bind hssl.to_open (by simp)
    intro _
    apply Monitor.triple_check (fun _ => Monitor.triple_exit ⟨rfl, hcrypto⟩)
    exact fun _ => hcrypto

/-- The process ends with -1, on a closed socket. -/
def ClosedBehind (fd status : Int) (history : List ClientCall) : Prop :=
  status = -1 ∧ ClientCall.ssl (.close fd) ∈ history

theorem triple_close (h : Open history) :
    (sessionMonitor sock M).Triple history
      (call (.ssl (.close sock)) >>= fun _ => exit (-1) : Process ClientCall Unit) (fun _ _ => False)
      (ClosedBehind sock) :=
  triple_close_exit h ⟨rfl, List.mem_append_right history (List.mem_singleton.mpr rfl)⟩

theorem triple_giveUp (h : Open history) (shutdown : Int) :
    (sessionMonitor sock M).Triple history (giveUp .ssl shutdown sock) (fun _ _ => False)
      (ClosedBehind sock) := by
  unfold giveUp
  refine Monitor.triple_bind (P := fun _ s => Open s) ?_ fun _ s hs => triple_close hs
  apply triple_ssl_bind h (by simp)
  intro hdown
  apply Monitor.triple_ite
  · intro _
    refine Monitor.triple_call (allowed_ssl hdown (by simp)) ?_
    exact hdown.concat (by simp)
  · exact fun _ => Monitor.triple_pure hdown

/-- Where the history goes once the session is there. -/
def Secured (connect_sock : Int) (history : List ClientCall) : Prop :=
  Open history ∧ (secured connect_sock).Sublist history

theorem triple_configClientSSL (h : Bare history) (tls : ClientTls) :
    (sessionMonitor sock M).Triple history (configClientSSL .ssl tls sock) (fun _ s => Secured sock s)
      (fun status s => status = -1 ∧ (Bare s ∨ ClientCall.ssl (.close sock) ∈ s)) := by
  have hout (s : List ClientCall) (hs : Open s) :
      (sessionMonitor sock M).Triple s (giveUp .ssl tls.shutdown sock) (fun _ _ => False)
        (fun status s => status = -1 ∧ (Bare s ∨ ClientCall.ssl (.close sock) ∈ s)) :=
    (triple_giveUp hs tls.shutdown).mono (fun _ _ h => h) fun _ _ h => ⟨h.1, .inr h.2⟩
  unfold configClientSSL initCTX
  refine Monitor.triple_bind ((triple_initSSL h tls.init).mono (fun _ _ h => h) fun _ _ h => ⟨h.1, .inl h.2⟩) ?_
  intro _ s hs
  rw [bind_assoc]
  apply Monitor.triple_check_bind (fun _ => Monitor.triple_crash)
  intro _
  apply triple_ssl_bind hs.to_open (by simp)
  intro hctx
  apply triple_ssl_bind hctx (by simp)
  intro hverify
  apply triple_ssl_bind hverify (by simp)
  intro hload
  apply Monitor.triple_check_bind
  · intro _
    apply triple_ssl_bind hload (by simp)
    intro hfree
    exact (triple_close hfree).mono (fun _ _ h => h) fun _ _ h => ⟨h.1, .inr h.2⟩
  intro _
  apply Monitor.triple_check_bind (fun _ => Monitor.triple_crash)
  intro _
  apply triple_ssl_bind hload (by simp)
  intro hnew
  apply triple_ssl_bind hnew (by simp)
  intro hfd
  apply Monitor.triple_check_bind (fun _ => hout _ hfd)
  intro _
  apply triple_ssl_bind hfd (by simp)
  intro hconnect
  apply Monitor.triple_check_bind (fun _ => hout _ hconnect)
  intro _
  apply triple_ssl_bind hconnect (by simp)
  intro hpeer
  apply Monitor.triple_check_bind (fun _ => hout _ hpeer)
  intro _
  apply Monitor.triple_check (fun _ => hout _ hpeer)
  intro _
  refine ⟨hpeer, ?_⟩
  simp only [secured, List.append_assoc, List.cons_append, List.nil_append]
  exact List.sublist_append_right s _

end order

theorem secured_concat {connect_sock : Int} {history : List ClientCall} (h : Secured connect_sock history)
    {e : ClientCall} (he : ∀ fd, e ≠ .ssl (.close fd)) : Secured connect_sock (history ++ [e]) :=
  ⟨h.1.concat he, h.2.trans (List.sublist_append_left history [e])⟩

/-- The monitor of a session on this socket. -/
def ofSession (connect_sock : Int) : Monitor (List ClientCall) ClientCall :=
  sessionMonitor connect_sock (secured connect_sock).Sublist

theorem triple_traffic {α ω : Type} {connect_sock : Int} {history : List ClientCall} (h : Secured connect_sock history)
    (t : Trace ω α) {f : ω → ClientCall} (hf : ∀ o, (f o).IsTraffic) {R : Int → List ClientCall → Prop} :
    (ofSession connect_sock).Triple history (lift (t.mapSent f)) (fun _ s => Secured connect_sock s) R := by
  have hclose (o : ω) (fd : Int) : f o ≠ .ssl (.close fd) := by
    intro heq
    have htraffic := hf o
    rw [heq] at htraffic
    exact htraffic
  have hall := Monitor.accepts_of_forall (m := ofSession connect_sock) (l := t.sent.map f) h ?_
  · exact Monitor.triple_lift hall.1 fun _ _ => hall.2
  · intro e he s hs
    obtain ⟨o, -, rfl⟩ := List.mem_map.mp he
    exact ⟨⟨hs.1, fun _ => hs.2, fun fd heq => absurd heq (hclose o fd)⟩, secured_concat hs (hclose o)⟩

/-- How the process may end: with 0, or with -1, and then either before it has done more of OpenSSL than initialise it
or behind the `close` of what `openConnection` has returned. -/
def WellEnded (connect_sock status : Int) (history : List ClientCall) : Prop :=
  status = 0 ∨ status = -1 ∧ (Bare history ∨ ClientCall.ssl (.close connect_sock) ∈ history)

theorem triple_exchange {connect_sock : Int} {history : List ClientCall} (h : Secured connect_sock history)
    (env : Surroundings) (args : SendArgs) (rounds : Nat) :
    (ofSession connect_sock).Triple history (exchange env args connect_sock rounds)
      (fun _ _ => False) (WellEnded connect_sock) := by
  have hzero (s : List ClientCall) :
      (ofSession connect_sock).Triple s (exit 0 : Process ClientCall Unit) (fun _ _ => False)
        (WellEnded connect_sock) := Monitor.triple_exit (.inl rfl)
  refine Monitor.triple_bind (triple_traffic h _ (f := ClientCall.write) fun _ => trivial) fun sent s hs => ?_
  apply Monitor.triple_check_bind (fun _ => hzero s)
  intro _
  refine Monitor.triple_bind (triple_traffic hs _ (f := ClientCall.read) fun _ => trivial) fun received s hs => ?_
  apply Monitor.triple_check_bind (fun _ => Monitor.triple_crash)
  intro _
  apply Monitor.triple_check_bind (fun _ => hzero s)
  intro _
  apply Monitor.triple_check_bind (fun _ => Monitor.triple_crash)
  intro _
  apply Monitor.triple_call_bind
  · exact ⟨hs.1, fun htraffic => htraffic.elim, fun fd heq => by simp at heq⟩
  · exact triple_close_exit (hs.1.concat (by simp)) (.inl rfl)

theorem not_ssl_of_mem_calls {net : Net} {c : SslCall} : ClientCall.ssl c ∉ net.calls := by
  intro hmem
  rw [← (openConnection_eq net).1] at hmem
  rcases mem_log_openConnection hmem with heq | heq <;> simp at heq

theorem triple_openConnection (net : Net) {sock : Int} {M : List ClientCall → Prop} {R : Int → List ClientCall → Prop} :
    (sessionMonitor sock M).Triple [] (openConnection net) (fun fd s => fd = net.connected ∧ Bare s) R := by
  obtain ⟨hlog, hreturns⟩ := openConnection_eq net
  have hbare : Bare net.calls := fun c hmem => absurd hmem not_ssl_of_mem_calls
  have hafter : (sessionMonitor sock M).after [] (openConnection net).log = net.calls := by
    rw [sessionMonitor, Monitor.after_ofHistory, hlog, List.nil_append]
  have hall := Monitor.accepts_of_forall (m := sessionMonitor sock M) (I := Bare) (s := [])
    (l := (openConnection net).log)
    (fun c hmem => absurd hmem List.not_mem_nil) ?_
  · refine ⟨hall.1, fun fd hfd => ?_, fun status hstatus => absurd hstatus (not_exits_openConnection net status)⟩
    rw [hafter]
    exact ⟨hfd.unique hreturns, hbare⟩
  · intro e he s hs
    have hkeep (hssl : ∀ c, e ≠ .ssl c) (htraffic : ¬ e.IsTraffic) :
        (sessionMonitor sock M).Allowed s e ∧ Bare ((sessionMonitor sock M).next s e) := by
      refine ⟨⟨hs.to_open, fun h => absurd h htraffic, fun fd heq => absurd heq (hssl _)⟩, fun c hmem => ?_⟩
      rcases List.mem_append.mp hmem with hmem | hmem
      · exact hs c hmem
      · exact absurd (List.mem_singleton.mp hmem).symm (hssl c)
    rcases mem_log_openConnection he with rfl | rfl
    · exact hkeep (by simp) id
    · exact hkeep (by simp) id

theorem triple_clientSession (env : Surroundings) (args : SendArgs) (rounds : Nat) :
    (ofSession env.net.connected).Triple [] (clientSession env args rounds)
      (fun _ _ => False) (WellEnded env.net.connected) := by
  refine Monitor.triple_bind (triple_openConnection env.net) ?_
  rintro fd history ⟨rfl, hbare⟩
  refine Monitor.triple_bind ((triple_initSSL hbare env.init).mono (fun _ _ h => h) ?_) ?_
  · exact fun status s h => .inr ⟨h.1, .inl h.2⟩
  intro _ s hs
  refine Monitor.triple_bind ((triple_configClientSSL hs env.tls).mono (fun _ _ h => h) ?_) ?_
  · exact fun status s h => .inr h
  intro _ s hs
  exact triple_exchange hs env args rounds

/-- **The order of the calls.** Nothing is done behind a `close`, nothing is written or read in front of what secures
the session, what is closed is what `openConnection` has returned, and a process that ends with -1 has either done
nothing of OpenSSL but initialise it, or closed that. -/
theorem session_order (env : Surroundings) (args : SendArgs) (rounds : Nat) :
    (∀ front e back, (clientSession env args rounds).log = front ++ e :: back →
        Open front ∧ (e.IsTraffic → (secured env.net.connected).Sublist front) ∧
          ∀ fd, e = .ssl (.close fd) → fd = env.net.connected) ∧
      ∀ status, (clientSession env args rounds).Exits status →
        WellEnded env.net.connected status (clientSession env args rounds).log := by
  have htriple := triple_clientSession env args rounds
  constructor
  · intro front e back hlog
    have haccepts := htriple.accepts
    rw [hlog] at haccepts
    have hallowed := haccepts.of_append
    rwa [ofSession, sessionMonitor, Monitor.after_ofHistory, List.nil_append] at hallowed
  · intro status hstatus
    have hended := htriple.exits status hstatus
    rwa [ofSession, sessionMonitor, Monitor.after_ofHistory, List.nil_append] at hended

theorem left_open_of_connect_failed (env : Surroundings) (args : SendArgs) (rounds : Nat)
    (hsocket : 0 ≤ env.net.socket) (hconnect : env.net.connect < 0) :
    .ssl (.close env.net.socket) ∉ (clientSession env args rounds).log := by
  intro hmem
  obtain ⟨front, back, hlog⟩ := List.append_of_mem hmem
  have haccepts := (triple_clientSession env args rounds).accepts
  rw [hlog] at haccepts
  have hfd : env.net.socket = env.net.connected := haccepts.of_append.2.2 _ rfl
  rw [Net.connected, if_pos (.inr (.inr hconnect))] at hfd
  omega

/-! ## Who the client talks to -/

theorem not_isTraffic_configClientSSL {tls : ClientTls} {connect_sock : Int} {e : ClientCall}
    (he : e ∈ (configClientSSL .ssl tls connect_sock).log) : ¬ e.IsTraffic := by
  have hbare : Bare [] := fun c hmem => absurd hmem List.not_mem_nil
  have haccepts : (sessionMonitor connect_sock fun _ => False).Accepts [] (configClientSSL .ssl tls connect_sock).log :=
    (triple_configClientSSL hbare tls).accepts
  obtain ⟨front, back, hlog⟩ := List.append_of_mem he
  rw [hlog] at haccepts
  exact haccepts.of_append.2.1

theorem mem_log_clientSession_iff {env : Surroundings} {args : SendArgs} {rounds : Nat} {e : ClientCall} :
    e ∈ (clientSession env args rounds).log ↔
      e ∈ (openConnection env.net).log ∨ e ∈ (initSSL ClientCall.ssl env.init).log ∨ env.init.Ok ∧
        (e ∈ (configClientSSL .ssl env.tls env.net.connected).log ∨
          ∃ u, (configClientSSL ClientCall.ssl env.tls env.net.connected).Returns u ∧
            e ∈ (exchange env args env.net.connected rounds).log) := by
  rw [clientSession, mem_log_bind]
  simp only [returns_openConnection_iff, exists_eq_left']
  rw [mem_log_initSSL_bind_iff, mem_log_bind]

/-- **The client talks to nobody but `devopsec.net`**: something is written or read exactly when the session is
there and there is something to send. -/
theorem talks_iff (env : Surroundings) (args : SendArgs) :
    (∃ rounds, ∃ e ∈ (clientSession env args rounds).log, e.IsTraffic) ↔ env.Ready ∧ 0 < args.len := by
  have hready (rounds : Nat) : (∃ e ∈ (clientSession env args rounds).log, e.IsTraffic) ↔
      env.Ready ∧ ∃ e ∈ (exchange env args env.net.connected rounds).log, e.IsTraffic := by
    simp only [mem_log_clientSession_iff]
    refine ⟨fun h => ?_, fun h => ?_⟩
    · obtain ⟨e, he, htraffic⟩ := h
      rcases he with he | he | ⟨hinit, he | ⟨⟨⟩, hret, he⟩⟩
      · rcases mem_log_openConnection he with rfl | rfl
        · exact htraffic.elim
        · exact htraffic.elim
      · obtain ⟨c, rfl, -⟩ := mem_log_initSSL he
        exact htraffic.elim
      · exact absurd htraffic (not_isTraffic_configClientSSL he)
      · exact ⟨⟨hinit, (returns_configClientSSL_iff _ _).mp hret⟩, e, he, htraffic⟩
    · obtain ⟨⟨hinit, htls⟩, e, he, htraffic⟩ := h
      exact ⟨e, .inr (.inr ⟨hinit, .inr ⟨(), (returns_configClientSSL_iff _ _).mpr htls, he⟩⟩), htraffic⟩
  simp only [hready, exists_and_left]
  rw [traffic_exchange_iff]

/-- **What the exit status tells**: -1 that the session could not be set up, and 0 that the exchange has come to
its end, whether or not the message was sent and the answer read. -/
theorem exit_status_iff (env : Surroundings) (args : SendArgs) (status : Int) :
    Ends (clientSession env args) status ↔
      status = -1 ∧ (¬ env.init.Ok ∨ env.init.Ok ∧ env.tls.TurnedDown) ∨
        status = 0 ∧ env.Ready ∧ env.Concludes args := by
  simp only [Ends, exits_clientSession_iff, exists_or, exists_const, exists_and_left]
  rw [← Ends, ends_exchange_iff]
  tauto

end PwdManLib
