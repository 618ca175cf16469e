import Mathlib.Algebra.Ring.Int.Defs
import PwdManLib.Crypto.SslFuncs
import PwdManLib.Server.StartServer
import PwdManLib.Server.Survives

/-!
# The accept loop of the server

The loop at the end of `main` of `server/server.c`. `sig_action_flag` is never set, so the loop is left by nothing
but an exit or a fault. A run is given by what `accept` answers, call by call; behind the last answer the server
waits in `accept`. Every visitor is served in the one process there is: whoever `respond` does not get through with
is the last visitor (`send_iff`, `waits_iff`), and one whose handshake fails ends the server (`stops_iff`).
-/

namespace PwdManLib

open Exec Process

/-- A visitor: what its handshake comes to, what it sends and takes, and the files that are there then. -/
structure Visitor where
  tls : ServerTls
  client : Caller
  tree : FileTree

/-- What the server does with its listening socket, and for the visitor with index `k`. -/
inductive ServerCall where
  | sock (c : SockCall)
  | accept (k : Nat)
  | ssl (k : Nat) (c : SslCall)
  | send (k : Nat) (o : Out)
  | close (k : Nat)

/-! ## The code -/

/-- A round of the loop for a visitor, with its index for the socket. -/
def serveVisitor (root_dir : Option Str) (k : Nat) (v : Visitor) (rounds : Nat) : Process ServerCall Unit := do
  call (.accept k)
  configServerSSL (.ssl k) v.tls k
  let _ ← lift ((respondWithin v.client v.tree root_dir rounds).mapSent (.send k))
  call (.close k)

/-- A round of the loop. When `accept` fails there is nothing to be done. -/
def acceptRound (root_dir : Option Str) (k : Nat) (accepted : Option Visitor) (rounds : Nat) :
    Process ServerCall Unit :=
  match accepted with
  | some v => serveVisitor root_dir k v rounds
  | none => pure ()

/-- The loop, as far as `accept` has answered. -/
def acceptLoop (root_dir : Option Str) (accepts : List (Option Visitor)) : Nat → Process ServerCall Unit :=
  serial (accepts.mapIdx (acceptRound root_dir))

/-! ## One visitor -/

/-- The server gets through with a visitor. -/
structure Visitor.Served (v : Visitor) (root_dir : Option Str) : Prop where
  accepted : v.tls.Accepted
  survives : ∃ status recv_data, Finishes (readall v.client.reads) (status, recv_data) ∧
    Survives v.client v.tree root_dir status recv_data

section visitor

variable {root_dir : Option Str} {k : Nat} {v : Visitor} {ω : Type} {tell : SslCall → ω}

theorem not_returns_refuse (shutdown : Int) (u : Unit) :
    ¬ (shutdownSSL tell shutdown >>= fun _ => exit 1 : Process ω Unit).Returns u := by
  simp [returns_bind_iff]

theorem returns_configServerSSL_iff (tls : ServerTls) (worker_sock : Int) :
    (configServerSSL tell tls worker_sock).Returns () ↔ tls.Accepted := by
  rw [configServerSSL, returns_initSSL_bind_iff, initCTX, bind_assoc, returns_check_bind_iff (by simp)]
  simp only [returns_call_bind_iff]
  rw [returns_check_bind_iff (by simp)]
  simp only [returns_call_bind_iff]
  rw [returns_check_iff (not_returns_refuse tls.shutdown), ServerTls.Accepted]

/-- The handshake ends the server: the library cannot be initialised, or the peer is turned down. -/
def ServerTls.Stops (tls : ServerTls) (status : Int) : Prop :=
  ¬ tls.init.Ok ∧ status = -1 ∨
    tls.init.Ok ∧ tls.ctx = true ∧ tls.ssl = true ∧ tls.accept ≤ 0 ∧ status = 1

theorem exits_configServerSSL_iff (tls : ServerTls) (worker_sock status : Int) :
    (configServerSSL tell tls worker_sock).Exits status ↔ tls.Stops status := by
  have hrefuse : (shutdownSSL tell tls.shutdown >>= fun _ => exit 1 : Process ω Unit).Exits status ↔ status = 1 := by
    rw [exits_bind_iff, Unique.exists_iff]
    have hshutdown : (shutdownSSL tell tls.shutdown).Returns () := returns_shutdownSSL tls.shutdown
    rw [or_iff_right (hshutdown.not_exits status), exits_exit_iff, eq_comm]
    exact and_iff_right hshutdown
  rw [configServerSSL, exits_initSSL_bind_iff, initCTX, bind_assoc, exits_check_bind_iff (by simp)]
  simp only [exits_call_bind_iff]
  rw [exits_check_bind_iff (by simp)]
  simp only [exits_call_bind_iff]
  rw [exits_check_iff, hrefuse]
  simp only [not_exits_crash, and_false, false_or, ServerTls.Stops, gt_iff_lt, Int.not_lt]

theorem grows_respondTo (root_dir : Option Str) (k : Nat) (v : Visitor) :
    Process.Grows fun rounds =>
      (lift ((respondWithin v.client v.tree root_dir rounds).mapSent (.send k)) >>= fun _ => call (.close k) :
        Process ServerCall Unit) :=
  (Process.grows_lift ((grows_respondWithin v.client v.tree root_dir).mapSent _)).bind fun _ => Process.grows_const _

theorem grows_serveVisitor (root_dir : Option Str) (k : Nat) (v : Visitor) :
    Process.Grows (serveVisitor root_dir k v) :=
  (Process.grows_const _).bind fun _ => (Process.grows_const _).bind fun _ => grows_respondTo root_dir k v

theorem grows_acceptRound (root_dir : Option Str) (k : Nat) (accepted : Option Visitor) :
    Process.Grows (acceptRound root_dir k accepted) := by
  cases accepted with
  | none => exact Process.grows_const _
  | some v => exact grows_serveVisitor root_dir k v

theorem mem_log_configServerSSL {tls : ServerTls} {worker_sock : Int} {e : ω}
    (he : e ∈ (configServerSSL tell tls worker_sock).log) : ∃ c, e = tell c := by
  have hrefuse : ∀ e ∈ (shutdownSSL tell tls.shutdown >>= fun _ => exit 1 : Process ω Unit).log, ∃ c, e = tell c := by
    intro e he
    rw [log_bind_of_returns (returns_shutdownSSL tls.shutdown), log_exit, List.append_nil, shutdownSSL,
      log_call_bind] at he
    split_ifs at he <;> simp only [log_call, log_pure, List.mem_cons, List.not_mem_nil, or_false] at he
    · rcases he with he | he <;> exact ⟨_, he⟩
    · exact ⟨_, he⟩
  rw [configServerSSL, mem_log_initSSL_bind_iff, initCTX, bind_assoc, mem_log_check_bind_iff (by simp)] at he
  simp only [log_call_bind, List.mem_cons, log_crash, List.not_mem_nil, and_false, false_or] at he
  rw [mem_log_check_bind_iff (by simp)] at he
  simp only [log_call_bind, List.mem_cons, log_crash, List.not_mem_nil, and_false, false_or,
    mem_log_check_iff] at he
  rcases he with he | ⟨-, -, he | he | ⟨-, he | he | he | ⟨-, he⟩⟩⟩
  · obtain ⟨c, hc, -⟩ := mem_log_initSSL he
    exact ⟨c, hc⟩
  · exact ⟨_, he⟩
  · exact ⟨_, he⟩
  · exact ⟨_, he⟩
  · exact ⟨_, he⟩
  · exact ⟨_, he⟩
  · exact hrefuse e he

theorem completes_serveVisitor_iff (root_dir : Option Str) (k : Nat) (v : Visitor) :
    Completes (serveVisitor root_dir k v) () ↔ v.Served root_dir := by
  have hrespond (n : Nat) : (serveVisitor root_dir k v n).Returns () ↔
      v.tls.Accepted ∧ ∃ j, (respondWithin v.client v.tree root_dir n).next = done j := by
    rw [serveVisitor, returns_call_bind_iff, returns_bind_iff, Unique.exists_iff, returns_bind_iff]
    refine and_congr (returns_configServerSSL_iff v.tls k) ?_
    simp only [returns_lift_iff, Trace.next_mapSent, returns_call, and_true]
  have hsurvives := respondWithin_completes_iff v.client v.tree root_dir
  simp only [Finishes] at hsurvives
  simp only [Completes, hrespond, exists_and_left]
  rw [exists_comm, hsurvives]
  exact ⟨fun h => ⟨h.1, h.2⟩, fun h => ⟨h.accepted, h.survives⟩⟩

theorem exits_serveVisitor_iff (root_dir : Option Str) (k : Nat) (v : Visitor) (status : Int) (n : Nat) :
    (serveVisitor root_dir k v n).Exits status ↔ v.tls.Stops status := by
  have hrest : ¬ (lift ((respondWithin v.client v.tree root_dir n).mapSent (.send k)) >>= fun _ => call (.close k) :
      Process ServerCall Unit).Exits status := by
    simp [exits_bind_iff, not_exits_call]
  rw [serveVisitor, exits_call_bind_iff, exits_bind_iff, Unique.exists_iff, ← exits_configServerSSL_iff v.tls k]
  exact or_iff_left fun h => hrest h.2

theorem send_mem_serveVisitor_iff (root_dir : Option Str) (k j : Nat) (v : Visitor) (o : Out) (n : Nat) :
    .send j o ∈ (serveVisitor root_dir k v n).log ↔
      j = k ∧ v.tls.Accepted ∧ o ∈ (respondWithin v.client v.tree root_dir n).sent := by
  rw [serveVisitor, log_call_bind, List.mem_cons, or_iff_right (by simp), mem_log_bind, Unique.exists_iff]
  have hhandshake : ServerCall.send j o ∉ (configServerSSL (ServerCall.ssl k) v.tls k).log := by
    intro h
    obtain ⟨c, hc⟩ := mem_log_configServerSSL h
    simp at hc
  have hclose : ServerCall.send j o ∉ (call (ServerCall.close k)).log := by simp
  have hmap : ServerCall.send j o ∈ (respondWithin v.client v.tree root_dir n).sent.map (.send k) ↔
      j = k ∧ o ∈ (respondWithin v.client v.tree root_dir n).sent := by
    rw [List.mem_map]
    refine ⟨fun h => ?_, fun h => ?_⟩
    · obtain ⟨o', ho', heq⟩ := h
      obtain ⟨rfl, rfl⟩ := ServerCall.send.inj heq
      exact ⟨rfl, ho'⟩
    · obtain ⟨rfl, ho⟩ := h
      exact ⟨o, ho, rfl⟩
  rw [or_iff_right hhandshake, mem_log_bind, or_iff_left fun h => hclose h.choose_spec.2, log_lift,
    Trace.sent_mapSent, hmap]
  have hret : (configServerSSL (ServerCall.ssl k) v.tls k).Returns () ↔ v.tls.Accepted :=
    returns_configServerSSL_iff v.tls k
  exact (and_congr_left fun _ => hret).trans and_left_comm

end visitor

/-! ## All visitors -/

variable (root_dir : Option Str) (accepts : List (Option Visitor))

theorem grows_acceptRounds : ∀ job ∈ accepts.mapIdx (acceptRound root_dir), Process.Grows job := by
  intro job hjob
  obtain ⟨k, hk, rfl⟩ := List.mem_mapIdx.mp hjob
  exact grows_acceptRound root_dir k _

/-- The server has got through with everybody in front of visitor `k`. -/
def ServedUpTo (k : Nat) : Prop := ∀ j < k, ∀ v, accepts[j]? = some (some v) → v.Served root_dir

theorem reached_iff (k : Nat) :
    Reached (accepts.mapIdx (acceptRound root_dir)) k ↔ ServedUpTo root_dir accepts k := by
  constructor
  · intro h j hj v hv
    have hjob := h j hj (acceptRound root_dir j (some v)) (by rw [List.getElem?_mapIdx, hv]; rfl)
    exact (completes_serveVisitor_iff root_dir j v).mp hjob
  · intro h j hj job hjob
    rw [List.getElem?_mapIdx, Option.map_eq_some_iff] at hjob
    obtain ⟨accepted, haccepted, rfl⟩ := hjob
    cases accepted with
    | none => exact ⟨0, rfl⟩
    | some v => exact (completes_serveVisitor_iff root_dir j v).mpr (h j hj v haccepted)

/-- **What the visitors are sent**: each exactly what `respond` sends to it alone, once the server has got through
with everybody in front of it and with its handshake. -/
theorem send_iff (k : Nat) (o : Out) :
    (∃ rounds, .send k o ∈ (acceptLoop root_dir accepts rounds).log) ↔
      ∃ v, accepts[k]? = some (some v) ∧ ServedUpTo root_dir accepts k ∧ v.tls.Accepted ∧
        ∃ rounds, o ∈ (respondWithin v.client v.tree root_dir rounds).sent := by
  refine (mem_log_serial_iff (grows_acceptRounds root_dir accepts)).trans ?_
  simp only [reached_iff, List.getElem?_mapIdx, Option.map_eq_some_iff]
  refine ⟨fun h => ?_, fun h => ?_⟩
  · obtain ⟨j, job, ⟨accepted, haccepted, rfl⟩, hserved, rounds, hmem⟩ := h
    cases accepted with
    | none => simp [acceptRound] at hmem
    | some v =>
      obtain ⟨rfl, htls, hsent⟩ := (send_mem_serveVisitor_iff root_dir j k v o rounds).mp hmem
      exact ⟨v, haccepted, hserved, htls, rounds, hsent⟩
  · obtain ⟨v, hv, hserved, htls, rounds, hsent⟩ := h
    refine ⟨k, _, ⟨some v, hv, rfl⟩, hserved, rounds, ?_⟩
    exact (send_mem_serveVisitor_iff root_dir k k v o rounds).mpr ⟨rfl, htls, hsent⟩

/-- **What ends the server**: the first handshake that fails, if the server gets there. -/
theorem stops_iff (status : Int) :
    Ends (acceptLoop root_dir accepts) status ↔
      ∃ k v, accepts[k]? = some (some v) ∧ ServedUpTo root_dir accepts k ∧ v.tls.Stops status := by
  refine (ends_serial_iff (grows_acceptRounds root_dir accepts)).trans ?_
  simp only [reached_iff, List.getElem?_mapIdx, Option.map_eq_some_iff]
  refine ⟨fun h => ?_, fun h => ?_⟩
  · obtain ⟨k, job, ⟨accepted, haccepted, rfl⟩, hserved, n, hexits⟩ := h
    cases accepted with
    | none => exact absurd hexits (not_exits_pure _ _)
    | some v => exact ⟨k, v, haccepted, hserved, (exits_serveVisitor_iff root_dir k v status n).mp hexits⟩
  · obtain ⟨k, v, hv, hserved, hstops⟩ := h
    exact ⟨k, _, ⟨some v, hv, rfl⟩, hserved, 0, (exits_serveVisitor_iff root_dir k v status 0).mpr hstops⟩

/-! ## What is open -/

/-- The socket that was accepted last, unless it has been closed. -/
def workerMonitor : Monitor (Option Nat) ServerCall where
  next s e :=
    match e with
    | .accept k => some k
    | .close _ => none
    | _ => s
  Allowed s e :=
    match e with
    | .sock _ => s = none
    | .accept _ => s = none
    | .ssl k _ => s = some k
    | .send k _ => s = some k
    | .close k => s = some k

/-- The worker socket that is open behind a log. -/
def openWorker (log : List ServerCall) : Option Nat := workerMonitor.after none log

theorem triple_configServerSSL (k : Nat) (tls : ServerTls) :
    workerMonitor.Triple (some k) (configServerSSL (.ssl k) tls k) (fun _ s => s = some k)
      (fun _ s => s = some k) := by
  have hall := Monitor.accepts_of_forall (m := workerMonitor) (I := (· = some k))
    (l := (configServerSSL (.ssl k) tls k).log) rfl ?_
  · obtain ⟨haccepts, hafter⟩ := hall
    exact ⟨haccepts, fun _ _ => hafter, fun _ _ => hafter⟩
  · intro e he s hs
    obtain ⟨c, rfl⟩ := mem_log_configServerSSL he
    exact ⟨hs, hs⟩

theorem triple_serveVisitor (k : Nat) (v : Visitor) (rounds : Nat) :
    workerMonitor.Triple none (serveVisitor root_dir k v rounds) (fun _ s => s = none) (fun _ s => s = some k) := by
  unfold serveVisitor
  apply Monitor.triple_call_bind rfl
  refine Monitor.triple_bind (triple_configServerSSL k v.tls) fun _ s hs => ?_
  subst hs
  refine Monitor.triple_bind (P := fun _ s => s = some k) ?_ fun _ s hs => ?_
  · have hall := Monitor.accepts_of_forall (m := workerMonitor) (I := (· = some k))
      (l := (respondWithin v.client v.tree root_dir rounds).sent.map (.send k)) rfl ?_
    · exact Monitor.triple_lift hall.1 fun _ _ => hall.2
    · intro e he s hs
      obtain ⟨o, -, rfl⟩ := List.mem_map.mp he
      exact ⟨hs, hs⟩
  · exact Monitor.triple_call hs rfl

theorem triple_acceptLoop (rounds : Nat) :
    workerMonitor.Triple none (acceptLoop root_dir accepts rounds) (fun _ s => s = none)
      (fun _ s => s.isSome = true) := by
  refine Monitor.triple_serial (I := (· = none)) rfl ?_
  intro job hjob s hs
  subst hs
  obtain ⟨k, hk, rfl⟩ := List.mem_mapIdx.mp hjob
  cases accepts[k] with
  | none => exact Monitor.triple_pure rfl
  | some v =>
    refine (triple_serveVisitor root_dir k v rounds).mono (fun _ _ h => h) fun _ s hs => ?_
    rw [hs]
    rfl

/-- **One visitor at a time**: nothing is accepted while a worker socket is open, and whatever is done is done with
the one that is. The socket is closed behind a visitor that is served, and left open when the server exits. -/
theorem one_at_a_time (rounds : Nat) :
    (∀ front e back, (acceptLoop root_dir accepts rounds).log = front ++ e :: back →
        workerMonitor.Allowed (openWorker front) e) ∧
      ((acceptLoop root_dir accepts rounds).Returns () →
        openWorker (acceptLoop root_dir accepts rounds).log = none) ∧
      ∀ status, (acceptLoop root_dir accepts rounds).Exits status →
        (openWorker (acceptLoop root_dir accepts rounds).log).isSome := by
  have htriple := triple_acceptLoop root_dir accepts rounds
  refine ⟨?_, htriple.returns (), htriple.exits⟩
  intro front e back hlog
  have haccepts := htriple.accepts
  rw [hlog] at haccepts
  exact haccepts.of_append

/-- A context or a connection that is made, or freed. -/
def ServerCall.made : ServerCall → Int
  | .ssl _ .SSL_CTX_new => 1
  | .ssl _ .SSL_new => 1
  | .ssl _ .SSL_CTX_free => -1
  | .ssl _ .SSL_free => -1
  | _ => 0

/-- The contexts and connections that have been made and not freed. -/
def tlsHeld (log : List ServerCall) : Int := (log.map ServerCall.made).sum

theorem tlsHeld_append (log log' : List ServerCall) : tlsHeld (log ++ log') = tlsHeld log + tlsHeld log' := by
  rw [tlsHeld, List.map_append, List.sum_append]
  rfl

theorem tlsHeld_eq_zero {log : List ServerCall} (h : ∀ e ∈ log, e.made = 0) : tlsHeld log = 0 := by
  induction log with
  | nil => rfl
  | cons e log ih =>
    have hrest := ih fun e' he' => h e' (List.mem_cons_of_mem e he')
    rw [tlsHeld, List.map_cons, List.sum_cons, h e List.mem_cons_self, ← tlsHeld, hrest]
    rfl

theorem tlsHeld_serveVisitor {k : Nat} {v : Visitor} {rounds : Nat}
    (h : (serveVisitor root_dir k v rounds).Returns ()) : tlsHeld (serveVisitor root_dir k v rounds).log = 2 := by
  rw [serveVisitor, returns_call_bind_iff] at h
  obtain ⟨⟨⟩, htls, hrest⟩ := returns_bind_iff.mp h
  obtain ⟨j, hrespond, -⟩ := returns_bind_iff.mp hrest
  have haccepted := (returns_configServerSSL_iff v.tls k).mp htls
  have hinit : tlsHeld (initSSL (.ssl k) v.tls.init).log = 0 := by
    apply tlsHeld_eq_zero
    intro e he
    obtain ⟨c, rfl, hc⟩ := mem_log_initSSL he
    cases c <;> first | rfl | exact absurd hc not_false
  have hsent : tlsHeld ((respondWithin v.client v.tree root_dir rounds).sent.map (.send k)) = 0 := by
    apply tlsHeld_eq_zero
    intro e he
    obtain ⟨o, -, rfl⟩ := List.mem_map.mp he
    rfl
  rw [serveVisitor, log_call_bind, log_bind_of_returns htls, log_bind_of_returns hrespond,
    log_configServerSSL haccepted, log_lift, Trace.sent_mapSent, log_call, ← List.singleton_append, tlsHeld_append,
    tlsHeld_append, tlsHeld_append, tlsHeld_append, hinit, hsent]
  rfl

theorem tlsHeld_flatMap (jobs : List (Nat → Process ServerCall Unit)) (rounds : Nat) :
    tlsHeld (jobs.flatMap fun job => (job rounds).log) = (jobs.map fun job => tlsHeld (job rounds).log).sum := by
  induction jobs with
  | nil => rfl
  | cons job jobs ih => rw [List.flatMap_cons, tlsHeld_append, ih, List.map_cons, List.sum_cons]

/-- **The sessions pile up**: a server that is back at `accept` holds a context and a connection for every visitor
it has had. -/
theorem tlsHeld_of_returns {rounds : Nat} (h : (acceptLoop root_dir accepts rounds).Returns ()) :
    tlsHeld (acceptLoop root_dir accepts rounds).log = 2 * accepts.countP Option.isSome := by
  have hround (k : Nat) (accepted : Option Visitor) (hreturns : (acceptRound root_dir k accepted rounds).Returns ()) :
      tlsHeld (acceptRound root_dir k accepted rounds).log = if accepted.isSome then 2 else 0 := by
    cases accepted with
    | none => rfl
    | some v => exact tlsHeld_serveVisitor root_dir hreturns
  have hjobs := returns_serial_iff.mp h
  have hheld : ((accepts.mapIdx (acceptRound root_dir)).map fun job => tlsHeld (job rounds).log) =
      accepts.map fun accepted => if accepted.isSome then (2 : Int) else 0 := by
    refine List.ext_getElem (by simp) fun k hk hk' => ?_
    rw [List.getElem_map, List.getElem_map, List.getElem_mapIdx]
    exact hround k _ (hjobs _ (List.mem_mapIdx.mpr ⟨k, by simpa using hk, rfl⟩))
  have hsum (accepts : List (Option Visitor)) :
      (accepts.map fun accepted => if accepted.isSome then (2 : Int) else 0).sum =
        2 * accepts.countP Option.isSome := by
    induction accepts with
    | nil => rfl
    | cons accepted accepts ih =>
      rw [List.map_cons, List.sum_cons, ih, List.countP_cons]
      split_ifs <;> omega
  rw [acceptLoop, log_serial_of_returns h, tlsHeld_flatMap, hheld, hsum]

theorem tlsHeld_post :
    let tls : ServerTls := { init := .modern 1 1, ctx := true, ssl := true, accept := 1, shutdown := 1 }
    let reads (k : Nat) : Read := if k = 0 then .bytes (lit "POST / HTTP/1.1\r\nHost: a") else .bytes []
    let client : Caller := { reads := reads, cSSL := .acceptAll, writes := fun _ => .wrote 27 }
    let accepts : List (Option Visitor) := [none, some { tls := tls, client := client, tree := fun _ => .openError }]
    (acceptLoop (some (lit "/srv")) accepts 40).Returns () ∧
      tlsHeld (acceptLoop (some (lit "/srv")) accepts 40).log = 2 := by
  intro tls reads client accepts
  have hreturns : (acceptLoop (some (lit "/srv")) accepts 40).Returns () := rfl
  exact ⟨hreturns, tlsHeld_of_returns (some (lit "/srv")) accepts hreturns⟩

end PwdManLib
