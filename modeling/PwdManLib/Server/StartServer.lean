import PwdManLib.Lib.Monitor
import PwdManLib.Util.StringOps

/-!
# The listening socket

`start_server` and `parent_sig_handler` of `server/server.h`. `start_server` goes through the addresses of
`getaddrinfo` up to the first it can bind, and leaves with the status 1 when there is none, or when a call fails
that it does not pass over (`returns_startListening_iff`, `exits_startListening_iff`). At most one socket is open at
any point, and it is the one in `listen_sock`, once the variable is set (`start_order`). A signal in front of that
leaves it open; and the variable also keeps one that has been closed, and a signal that comes then closes it again
(`signal_closes`).
-/

namespace PwdManLib

open Process

/-- What `socket`, `setsockopt` and `bind` answer for an address. -/
structure Address where
  socket : Int
  setsockopt : Int
  bind : Int

/-- What `start_server` meets: the list of `getaddrinfo` for a port, if it succeeds, and the answers of `listen` and
`sigaction`. -/
structure ListenEnv where
  getaddrinfo : Str → Option (List Address)
  listen : Int
  sigaction : Int

/-- What is done with the sockets, and with the variable `listen_sock`. -/
inductive SockCall where
  | socket (fd : Int)
  | store (fd : Int)
  | setsockopt (fd : Int)
  | bind (fd : Int)
  | freeaddrinfo
  | listen (fd : Int)
  | sigaction
  | close (fd : Int)
  deriving DecidableEq, Repr

inductive Signal where
  | SIGUSR1
  | SIGHUP
  | SIGINT
  | SIGQUIT
  | SIGSEGV
  deriving DecidableEq, Repr

/-! ## The code -/

section code

variable {ω : Type} (tell : SockCall → ω)

/-- The loop over the addresses: `listen_sock` behind it, and whether it was left with `break`. -/
def bindFirst (listen_sock : Int) : List Address → Process ω (Int × Bool)
  | [] => pure (listen_sock, false)
  | p :: ps => do
    call (tell (.socket p.socket))
    call (tell (.store p.socket))
    if p.socket = -1 then bindFirst p.socket ps
    else do
      call (tell (.setsockopt p.socket))
      check (p.setsockopt ≠ -1) (exit 1)
      call (tell (.bind p.socket))
      if p.bind = -1 then do
        call (tell (.close p.socket))
        bindFirst p.socket ps
      else pure (p.socket, true)

/-- `start_server` behind the loop. -/
def listenOn (sys : ListenEnv) (found : Int × Bool) : Process ω Int := do
  call (tell .freeaddrinfo)
  check (found.2 = true ∧ found.1 ≠ 0) (exit 1)
  call (tell (.listen found.1))
  check (sys.listen = 0) (exit 1)
  call (tell .sigaction)
  check (sys.sigaction ≠ -1) (exit 1)
  pure found.1

/-- `start_server`, with `listen_sock` as its result. -/
def startListening (sys : ListenEnv) (port : Str) : Process ω Int :=
  match sys.getaddrinfo port with
  | none => exit 1
  | some servinfo => do
    let found ← bindFirst tell 0 servinfo
    listenOn tell sys found

/-- `if (listen_sock) { close(listen_sock); }` -/
def closeListener (listen_sock : Int) : Process ω Unit :=
  if listen_sock ≠ 0 then call (tell (.close listen_sock)) else pure ()

def parentSigHandler (signo : Signal) (listen_sock : Int) : Process ω Unit :=
  match signo with
  | .SIGUSR1 => exit 0
  | .SIGHUP => do
    closeListener tell listen_sock
    exit 1
  | .SIGINT => do
    closeListener tell listen_sock
    exit 2
  | .SIGQUIT => do
    closeListener tell listen_sock
    exit 3
  | .SIGSEGV => do
    closeListener tell listen_sock
    exit 4

end code

/-! ## Which address -/

/-- The loop goes on to the next address. -/
def Address.Skipped (p : Address) : Prop := p.socket = -1 ∨ p.setsockopt ≠ -1 ∧ p.bind = -1

/-- The loop stops with the address. -/
def Address.Bound (p : Address) : Prop := p.socket ≠ -1 ∧ p.setsockopt ≠ -1 ∧ p.bind ≠ -1

/-- The address is the first that is not passed over. -/
def FirstBound (servinfo : List Address) (p : Address) : Prop :=
  ∃ front back, servinfo = front ++ p :: back ∧ (∀ q ∈ front, q.Skipped) ∧ p.Bound

theorem firstBound_cons_iff {q p : Address} {servinfo : List Address} :
    FirstBound (q :: servinfo) p ↔ q.Bound ∧ q = p ∨ q.Skipped ∧ FirstBound servinfo p := by
  refine ⟨fun h => ?_, fun h => ?_⟩
  · obtain ⟨front, back, heq, hfront, hp⟩ := h
    cases front with
    | nil =>
      obtain ⟨rfl, -⟩ := List.cons.inj heq
      exact .inl ⟨hp, rfl⟩
    | cons q' front =>
      obtain ⟨rfl, rfl⟩ := List.cons.inj heq
      obtain ⟨hq, hrest⟩ := List.forall_mem_cons.mp hfront
      exact .inr ⟨hq, front, back, rfl, hrest, hp⟩
  · rcases h with ⟨hq, rfl⟩ | ⟨hq, front, back, rfl, hfront, hp⟩
    · exact ⟨[], servinfo, rfl, by simp, hq⟩
    · exact ⟨q :: front, back, rfl, List.forall_mem_cons.mpr ⟨hq, hfront⟩, hp⟩

section runs

variable {ω α : Type} {tell : SockCall → ω} {f : Int × Bool → Process ω α}

theorem not_returns_exit_one (u : Unit) : ¬ (exit 1 : Process ω Unit).Returns u := not_returns_exit 1 u

theorem returns_bindFirst_cons_iff (listen_sock : Int) (p : Address) (ps : List Address) (found : Int × Bool) :
    (bindFirst tell listen_sock (p :: ps)).Returns found ↔
      p.Bound ∧ (p.socket, true) = found ∨ p.Skipped ∧ (bindFirst tell p.socket ps).Returns found := by
  rw [bindFirst, returns_call_bind_iff, returns_call_bind_iff, Address.Bound, Address.Skipped]
  split_ifs with hsocket hbind
  · simp [hsocket]
  · rw [returns_call_bind_iff, returns_check_bind_iff not_returns_exit_one, returns_call_bind_iff,
      returns_call_bind_iff]
    simp [hsocket, hbind]
  · rw [returns_call_bind_iff, returns_check_bind_iff not_returns_exit_one, returns_call_bind_iff, returns_pure_iff]
    simp [hsocket, hbind]

theorem exits_bindFirst_cons_iff (listen_sock : Int) (p : Address) (ps : List Address) (status : Int) :
    (bindFirst tell listen_sock (p :: ps)).Exits status ↔
      (p.socket ≠ -1 ∧ p.setsockopt = -1) ∧ status = 1 ∨
        p.Skipped ∧ (bindFirst tell p.socket ps).Exits status := by
  rw [bindFirst, exits_call_bind_iff, exits_call_bind_iff, Address.Skipped]
  split_ifs with hsocket hbind
  · simp [hsocket]
  · rw [exits_call_bind_iff, exits_check_bind_iff not_returns_exit_one, exits_call_bind_iff, exits_exit_iff,
      exits_call_bind_iff]
    simp [hsocket, hbind, eq_comm]
  · rw [exits_call_bind_iff, exits_check_bind_iff not_returns_exit_one, exits_call_bind_iff, exits_exit_iff]
    simp [hsocket, hbind, eq_comm]

theorem returns_bindFirst_true_iff (listen_sock fd : Int) (servinfo : List Address) :
    (bindFirst tell listen_sock servinfo).Returns (fd, true) ↔
      ∃ p, FirstBound servinfo p ∧ p.socket = fd := by
  induction servinfo generalizing listen_sock with
  | nil =>
    refine iff_of_false (by simp [bindFirst]) ?_
    intro h
    obtain ⟨p, ⟨front, back, heq, -⟩, -⟩ := h
    simp at heq
  | cons q servinfo ih =>
    rw [returns_bindFirst_cons_iff, ih]
    simp only [firstBound_cons_iff, Prod.mk.injEq, and_true]
    refine ⟨fun h => ?_, fun h => ?_⟩
    · rcases h with ⟨hq, hfd⟩ | ⟨hq, p, hp, hfd⟩
      · exact ⟨q, .inl ⟨hq, rfl⟩, hfd⟩
      · exact ⟨p, .inr ⟨hq, hp⟩, hfd⟩
    · obtain ⟨p, ⟨hq, rfl⟩ | ⟨hq, hp⟩, hfd⟩ := h
      · exact .inl ⟨hq, hfd⟩
      · exact .inr ⟨hq, p, hp, hfd⟩

theorem bindFirst_total (listen_sock : Int) (servinfo : List Address) :
    (∃ found, (bindFirst tell listen_sock servinfo).Returns found) ∨ (bindFirst tell listen_sock servinfo).Exits 1 := by
  induction servinfo generalizing listen_sock with
  | nil => exact .inl ⟨_, returns_pure_iff.mpr rfl⟩
  | cons p servinfo ih =>
    simp only [returns_bindFirst_cons_iff, exits_bindFirst_cons_iff]
    by_cases hskip : p.Skipped
    · rcases ih p.socket with ⟨found, hfound⟩ | hexit
      · exact .inl ⟨found, .inr ⟨hskip, hfound⟩⟩
      · exact .inr (.inr ⟨hskip, hexit⟩)
    · by_cases hbound : p.Bound
      · exact .inl ⟨_, .inl ⟨hbound, rfl⟩⟩
      · refine .inr (.inl ⟨?_, trivial⟩)
        simp only [Address.Skipped, Address.Bound] at hskip hbound
        tauto

theorem returns_listenOn_iff (sys : ListenEnv) (found : Int × Bool) (fd : Int) :
    (listenOn tell sys found).Returns fd ↔
      found = (fd, true) ∧ fd ≠ 0 ∧ sys.listen = 0 ∧ sys.sigaction ≠ -1 := by
  obtain ⟨fd', bound⟩ := found
  rw [listenOn, returns_call_bind_iff, returns_check_bind_iff not_returns_exit_one, returns_call_bind_iff,
    returns_check_bind_iff not_returns_exit_one, returns_call_bind_iff, returns_check_bind_iff not_returns_exit_one,
    returns_pure_iff, Prod.mk.injEq]
  refine ⟨fun h => ?_, fun h => ?_⟩
  · obtain ⟨⟨hbound, hne⟩, hlisten, hsigaction, rfl⟩ := h
    exact ⟨⟨rfl, hbound⟩, hne, hlisten, hsigaction⟩
  · obtain ⟨⟨rfl, hbound⟩, hne, hlisten, hsigaction⟩ := h
    exact ⟨⟨hbound, hne⟩, hlisten, hsigaction, rfl⟩

theorem exits_listenOn_iff (sys : ListenEnv) (found : Int × Bool) (status : Int) :
    (listenOn tell sys found).Exits status ↔
      status = 1 ∧ ¬ (found.2 = true ∧ found.1 ≠ 0 ∧ sys.listen = 0 ∧ sys.sigaction ≠ -1) := by
  rw [listenOn, exits_call_bind_iff, exits_check_bind_iff not_returns_exit_one, exits_call_bind_iff,
    exits_check_bind_iff not_returns_exit_one, exits_call_bind_iff, exits_check_bind_iff not_returns_exit_one,
    exits_exit_iff, eq_comm]
  simp only [not_exits_pure, and_false, or_false]
  tauto

end runs

/-- The server listens on a socket: on that of the first address it can bind. -/
def ListenEnv.Listens (sys : ListenEnv) (port : Str) (fd : Int) : Prop :=
  (∃ servinfo p, sys.getaddrinfo port = some servinfo ∧ FirstBound servinfo p ∧ p.socket = fd) ∧
    fd ≠ 0 ∧ sys.listen = 0 ∧ sys.sigaction ≠ -1

variable {ω : Type} {tell : SockCall → ω}

theorem returns_startListening_iff (sys : ListenEnv) (port : Str) (fd : Int) :
    (startListening tell sys port).Returns fd ↔ sys.Listens port fd := by
  rw [startListening, ListenEnv.Listens]
  cases sys.getaddrinfo port with
  | none => simp
  | some servinfo =>
    simp only [returns_bind_iff, returns_listenOn_iff]
    refine ⟨fun h => ?_, fun h => ?_⟩
    · obtain ⟨found, hfound, rfl, hrest⟩ := h
      obtain ⟨p, hp, hfd⟩ := (returns_bindFirst_true_iff 0 fd servinfo).mp hfound
      exact ⟨⟨servinfo, p, rfl, hp, hfd⟩, hrest⟩
    · obtain ⟨⟨servinfo', p, hsome, hp, hfd⟩, hrest⟩ := h
      obtain rfl := Option.some.inj hsome
      exact ⟨(fd, true), (returns_bindFirst_true_iff 0 fd servinfo).mpr ⟨p, hp, hfd⟩, rfl, hrest⟩

theorem exits_startListening_iff (sys : ListenEnv) (port : Str) (status : Int) :
    (startListening tell sys port).Exits status ↔ status = 1 ∧ ∀ fd, ¬ sys.Listens port fd := by
  have htotal : (∃ fd, (startListening tell sys port).Returns fd) ∨ (startListening tell sys port).Exits 1 := by
    rw [startListening]
    cases sys.getaddrinfo port with
    | none => exact .inr (exits_exit_iff.mpr rfl)
    | some servinfo =>
      simp only [returns_bind_iff, exits_bind_iff, returns_listenOn_iff, exits_listenOn_iff]
      have hloop : (∃ found, (bindFirst tell 0 servinfo).Returns found) ∨ (bindFirst tell 0 servinfo).Exits 1 :=
        bindFirst_total 0 servinfo
      rcases hloop with ⟨found, hfound⟩ | hexit
      · by_cases hlisten : found.2 = true ∧ found.1 ≠ 0 ∧ sys.listen = 0 ∧ sys.sigaction ≠ -1
        · exact .inl ⟨found.1, found, hfound, Prod.ext rfl hlisten.1, hlisten.2⟩
        · exact .inr (.inr ⟨found, hfound, trivial, hlisten⟩)
      · exact .inr (.inl hexit)
  have hlistens (fd : Int) : (startListening tell sys port).Returns fd ↔ sys.Listens port fd :=
    returns_startListening_iff sys port fd
  simp only [← hlistens]
  rcases htotal with ⟨fd, hfd⟩ | hexit
  · exact iff_of_false (hfd.not_exits status) fun h => h.2 fd hfd
  · refine ⟨fun h => ?_, fun h => ?_⟩
    · refine ⟨h.unique hexit, fun fd hfd => ?_⟩
      exact hfd.not_exits 1 hexit
    · obtain ⟨rfl, -⟩ := h
      exact hexit

/-! ## What is done -/

/-- A call of `start_server`. -/
def Told (tell : SockCall → ω) (e : ω) : Prop := ∃ c, e = tell c

theorem told (c : SockCall) : Told tell (tell c) := ⟨c, rfl⟩

theorem triple_told_bindFirst (listen_sock : Int) (servinfo : List Address) :
    (Monitor.only (Told tell)).Triple () (bindFirst tell listen_sock servinfo) (fun _ _ => True) fun _ _ => True := by
  induction servinfo generalizing listen_sock with
  | nil => exact Monitor.triple_pure trivial
  | cons p servinfo ih =>
    refine Monitor.triple_call_bind (told _) ?_
    refine Monitor.triple_call_bind (told _) ?_
    apply Monitor.triple_ite
    · exact fun _ => ih p.socket
    · intro _
      refine Monitor.triple_call_bind (told _) ?_
      apply Monitor.triple_check_bind (fun _ => Monitor.triple_exit trivial)
      intro _
      refine Monitor.triple_call_bind (told _) ?_
      apply Monitor.triple_ite
      · intro _
        refine Monitor.triple_call_bind (told _) ?_
        exact ih p.socket
      · exact fun _ => Monitor.triple_pure trivial

theorem triple_told_listenOn (sys : ListenEnv) (found : Int × Bool) :
    (Monitor.only (Told tell)).Triple () (listenOn tell sys found) (fun _ _ => True) fun _ _ => True := by
  refine Monitor.triple_call_bind (told _) ?_
  apply Monitor.triple_check_bind (fun _ => Monitor.triple_exit trivial)
  intro _
  refine Monitor.triple_call_bind (told _) ?_
  apply Monitor.triple_check_bind (fun _ => Monitor.triple_exit trivial)
  intro _
  refine Monitor.triple_call_bind (told _) ?_
  apply Monitor.triple_check_bind (fun _ => Monitor.triple_exit trivial)
  exact fun _ => Monitor.triple_pure trivial

theorem told_of_mem_log {sys : ListenEnv} {port : Str} {e : ω} (he : e ∈ (startListening tell sys port).log) :
    Told tell e := by
  have htriple : (Monitor.only (Told tell)).Triple () (startListening tell sys port) (fun _ _ => True)
      fun _ _ => True := by
    unfold startListening
    cases sys.getaddrinfo port with
    | none => exact Monitor.triple_exit trivial
    | some servinfo =>
      exact Monitor.triple_bind (triple_told_bindFirst 0 servinfo) fun found _ _ => triple_told_listenOn sys found
  exact Monitor.accepts_only_iff.mp htriple.accepts e he

/-! ## What is open -/

/-- The variable `listen_sock`, what `socket` has returned and is not in it yet, and the socket that is open. -/
structure Sockets where
  listen_sock : Int
  made : Option Int
  opened : Option Int
  deriving DecidableEq

/-- The socket that is open is the one in the variable. -/
def Sockets.Holds (s : Sockets) (fd : Int) : Prop := s = { listen_sock := fd, made := none, opened := some fd }

/-- A socket is made only when none is open, it is stored at once, and everything that is done is done to the one that
is open and in the variable. -/
def socketMonitor : Monitor Sockets SockCall where
  next s c :=
    match c with
    | .socket fd => { s with made := some fd, opened := if fd = -1 then s.opened else some fd }
    | .store fd => { s with listen_sock := fd, made := none }
    | .close _ => { s with opened := none }
    | _ => s
  Allowed s c :=
    match c with
    | .socket _ => s.made = none ∧ s.opened = none
    | .store fd => s.made = some fd
    | .setsockopt fd => s.Holds fd
    | .bind fd => s.Holds fd
    | .listen fd => s.Holds fd
    | .close fd => s.Holds fd
    | .freeaddrinfo => s.made = none
    | .sigaction => s.made = none

/-- The sockets behind some calls. -/
def socketsAfter (calls : List SockCall) : Sockets :=
  socketMonitor.after { listen_sock := 0, made := none, opened := none } calls

/-- The socket that is open is the one in the variable, or is to be stored there. -/
def Sockets.Known (s : Sockets) : Prop :=
  s.opened = none ∨ s.opened = some (s.made.getD s.listen_sock)

theorem Sockets.Known.next {s : Sockets} (h : s.Known) {c : SockCall} (hc : socketMonitor.Allowed s c) :
    (socketMonitor.next s c).Known := by
  cases c with
  | socket fd =>
    have hnone : s.opened = none := hc.2
    show (if fd = -1 then s.opened else some fd) = none ∨ (if fd = -1 then s.opened else some fd) = some fd
    split_ifs
    · exact .inl hnone
    · exact .inr rfl
  | store fd =>
    have hmade : s.made = some fd := hc
    rwa [Known, hmade] at h
  | close fd => exact .inl rfl
  | setsockopt fd => exact h
  | bind fd => exact h
  | listen fd => exact h
  | freeaddrinfo => exact h
  | sigaction => exact h

/-- How `start_server` leaves the sockets behind the loop: with the one that was bound, or with none. -/
def Found (found : Int × Bool) (s : Sockets) : Prop :=
  s = { listen_sock := found.1, made := none, opened := if found.2 = true then some found.1 else none }

theorem triple_bindFirst {R : Int → Sockets → Prop} (hR : ∀ s, R 1 s) (listen_sock : Int) (servinfo : List Address) :
    socketMonitor.Triple { listen_sock := listen_sock, made := none, opened := none }
      (bindFirst id listen_sock servinfo) Found R := by
  induction servinfo generalizing listen_sock with
  | nil => exact Monitor.triple_pure rfl
  | cons p servinfo ih =>
    apply Monitor.triple_call_bind (And.intro rfl rfl)
    apply Monitor.triple_call_bind rfl
    apply Monitor.triple_ite
    · intro hsocket
      have hnext : socketMonitor.next (socketMonitor.next { listen_sock := listen_sock, made := none, opened := none }
          (.socket p.socket)) (.store p.socket) = { listen_sock := p.socket, made := none, opened := none } := by
        simp [socketMonitor, hsocket]
      exact hnext ▸ ih p.socket
    · intro hsocket
      have hnext : socketMonitor.next (socketMonitor.next { listen_sock := listen_sock, made := none, opened := none }
          (.socket p.socket)) (.store p.socket) =
            { listen_sock := p.socket, made := none, opened := some p.socket } := by
        simp [socketMonitor, hsocket]
      rw [id_eq, id_eq, hnext]
      apply Monitor.triple_call_bind rfl
      apply Monitor.triple_check_bind (fun _ => Monitor.triple_exit (hR _))
      intro _
      apply Monitor.triple_call_bind rfl
      apply Monitor.triple_ite
      · intro _
        apply Monitor.triple_call_bind rfl
        exact ih p.socket
      · exact fun _ => Monitor.triple_pure rfl

theorem triple_listenOn (sys : ListenEnv) {found : Int × Bool} {s : Sockets} (h : Found found s) :
    socketMonitor.Triple s (listenOn id sys found) (fun fd s => s.Holds fd) fun _ _ => True := by
  subst h
  apply Monitor.triple_call_bind rfl
  apply Monitor.triple_check_bind (fun _ => Monitor.triple_exit trivial)
  intro hfound
  have hholds : Sockets.Holds
      { listen_sock := found.1, made := none, opened := if found.2 = true then some found.1 else none } found.1 := by
    rw [if_pos hfound.1]
    rfl
  apply Monitor.triple_call_bind hholds
  apply Monitor.triple_check_bind (fun _ => Monitor.triple_exit trivial)
  intro _
  apply Monitor.triple_call_bind rfl
  apply Monitor.triple_check_bind (fun _ => Monitor.triple_exit trivial)
  intro _
  exact Monitor.triple_pure hholds

theorem triple_startListening (sys : ListenEnv) (port : Str) :
    socketMonitor.Triple { listen_sock := 0, made := none, opened := none } (startListening id sys port)
      (fun fd s => s.Holds fd) fun _ _ => True := by
  unfold startListening
  cases sys.getaddrinfo port with
  | none => exact Monitor.triple_exit trivial
  | some servinfo =>
    exact Monitor.triple_bind (triple_bindFirst (fun _ => trivial) 0 servinfo) fun found s h => triple_listenOn sys h

/-- **One socket at a time**, and in the end the one that is listened on. -/
theorem start_order (sys : ListenEnv) (port : Str) :
    (∀ front c back, (startListening id sys port).log = front ++ c :: back →
        socketMonitor.Allowed (socketsAfter front) c) ∧
      ∀ fd, (startListening id sys port).Returns fd →
        socketsAfter (startListening id sys port).log =
          { listen_sock := fd, made := none, opened := some fd } := by
  have htriple := triple_startListening sys port
  refine ⟨?_, htriple.returns⟩
  intro front c back hlog
  have haccepts := htriple.accepts
  rw [hlog] at haccepts
  exact haccepts.of_append

/-! ## Signals -/

/-- What the handler does when a signal comes behind some calls. -/
def handled (signo : Signal) (front : List SockCall) : List SockCall :=
  (parentSigHandler id signo (socketsAfter front).listen_sock).log

theorem log_parentSigHandler (signo : Signal) (listen_sock : Int) :
    (parentSigHandler id signo listen_sock).log =
      if signo = .SIGUSR1 ∨ listen_sock = 0 then [] else [.close listen_sock] := by
  have hclose (status : Int) : (closeListener id listen_sock >>= fun _ => exit status : Process SockCall Unit).log =
      if listen_sock = 0 then [] else [.close listen_sock] := by
    rw [closeListener]
    by_cases h : listen_sock = 0
    · rw [if_neg (not_not_intro h), if_pos h, pure_bind, log_exit]
    · rw [if_pos h, if_neg h, log_call_bind, log_exit]
      rfl
  cases signo <;> simp [parentSigHandler, hclose]

/-- **A signal at any point of `start_server`.** The handler leaves the open socket behind for SIGUSR1, if it is the
descriptor 0, or if `socket` has just returned it and the variable has another value. It closes something that is not
open when the variable has kept a descriptor other than 0, and either no socket is open or the one that is has just been
returned. -/
theorem signal_closes (sys : ListenEnv) (port : Str) (signo : Signal) {front : List SockCall}
    (hfront : front <+: (startListening id sys port).log) :
    ((∃ fd, (socketsAfter front).opened = some fd ∧ .close fd ∉ handled signo front) ↔
        ∃ fd, (socketsAfter front).opened = some fd ∧ (signo = .SIGUSR1 ∨ fd = 0 ∨
          (socketsAfter front).made = some fd ∧ fd ≠ (socketsAfter front).listen_sock)) ∧
      ((∃ fd, (socketsAfter front).opened ≠ some fd ∧ .close fd ∈ handled signo front) ↔
        signo ≠ .SIGUSR1 ∧ (socketsAfter front).listen_sock ≠ 0 ∧
          ((socketsAfter front).opened = none ∨ ∃ fd, (socketsAfter front).opened = some fd ∧
            (socketsAfter front).made = some fd ∧ fd ≠ (socketsAfter front).listen_sock)) := by
  have hknown : (socketsAfter front).Known := by
    obtain ⟨back, hlog⟩ := hfront
    have haccepts := (triple_startListening sys port).accepts
    rw [← hlog, Monitor.accepts_append] at haccepts
    exact haccepts.1.invariant (fun s c hs hc => hs.next hc) (.inl rfl)
  rw [handled, log_parentSigHandler]
  generalize socketsAfter front = s at hknown
  obtain ⟨listen_sock, made, opened⟩ := s
  rcases hknown with hnone | hopen
  · simp only at hnone
    subst hnone
    split_ifs with h <;> simp <;> tauto
  · simp only at hopen
    subst hopen
    cases made with
    | none =>
      simp only [Option.getD_none]
      split_ifs with h <;> simp <;> tauto
    | some fd =>
      simp only [Option.getD_some]
      split_ifs with h <;> simp <;> grind

/-- An address that cannot be bound, and SIGINT behind its `close`: the descriptor is closed again. -/
theorem signal_closes_twice :
    let sys : ListenEnv := { getaddrinfo := fun _ => some [⟨3, 0, -1⟩], listen := 0, sigaction := 0 }
    let front : List SockCall := [.socket 3, .store 3, .setsockopt 3, .bind 3, .close 3]
    front <+: (startListening id sys (lit "8080")).log ∧
      ∃ fd, (socketsAfter front).opened ≠ some fd ∧ .close fd ∈ handled .SIGINT front := by
  intro sys front
  have hfront : front <+: (startListening id sys (lit "8080")).log := ⟨[.freeaddrinfo], rfl⟩
  exact ⟨hfront, (signal_closes sys (lit "8080") .SIGINT hfront).2.mpr (by decide)⟩

end PwdManLib
