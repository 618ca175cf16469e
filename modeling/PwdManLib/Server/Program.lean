import PwdManLib.Server.AcceptLoop
import PwdManLib.Server.Main

/-!
# The server

`main` of `server/server.c` as a whole: the command line, `start_server`, and the accept loop. What a visitor is sent
and how the server ends come down to what is known of the parts (`visitor_sent_iff`, `server_ends_iff`).
-/

namespace PwdManLib

open Exec Process

/-- Everything the server meets. -/
structure World where
  env : Env
  sys : ListenEnv
  accepts : List (Option Visitor)

/-- `main` behind its command line. -/
def runOutcome (world : World) (outcome : Outcome) (rounds : Nat) : Process ServerCall Unit :=
  match outcome with
  | .exit status => exit status
  | .start_server port root_dir => do
    let _ ← startListening .sock world.sys port
    acceptLoop root_dir world.accepts rounds

/-- `main` of the server. -/
def runServer (world : World) (argv : List Str) (rounds : Nat) : Process ServerCall Unit := do
  let outcome ← lift (Trace.lift (main world.env argv rounds))
  runOutcome world outcome rounds

/-! ## The parts -/

theorem stable_main (env : Env) (argv : List Str) : Exec.Stable (main env argv) := by
  intro outcome n m hn hnm
  rw [main] at hn ⊢
  split_ifs at hn ⊢ with hset hroot hcount
  · exact hn
  · exact hn
  · obtain ⟨st, hst, hstart⟩ := bind_eq_done.mp hn
    rw [stable_loop _ st n m hst hnm]
    exact hstart
  · exact hn

theorem finishes_main_exit_iff {env : Env} {argv : List Str} {status : Int} :
    Finishes (main env argv) (.exit status) ↔
      env.handlersSet = false ∧ status = -1 ∨
        env.handlersSet = true ∧ (env.uid ≠ 0 ∨ 4 < argv.length) ∧ status = 1 := by
  have hnone (st : Args) : startServer env st ≠ .exit status := nofun
  simp only [Finishes, main, isRoot]
  cases env.handlersSet with
  | false => simp [eq_comm]
  | true =>
    by_cases huid : env.uid = 0
    · by_cases hcount : argv.length > 4
      · simp [huid, hcount, eq_comm]
      · simp [huid, hcount, bind_eq_done, hnone]
    · simp [huid, eq_comm]

theorem grows_acceptLoop (root_dir : Option Str) (accepts : List (Option Visitor)) :
    Process.Grows (acceptLoop root_dir accepts) :=
  grows_serial (grows_acceptRounds root_dir accepts)

theorem grows_runOutcome (world : World) (outcome : Outcome) : Process.Grows (runOutcome world outcome) := by
  cases outcome with
  | exit status => exact Process.grows_const _
  | start_server port root_dir => exact (Process.grows_const _).bind fun _ => grows_acceptLoop root_dir _

theorem grows_commandLine (env : Env) (argv : List Str) :
    Process.Grows fun rounds => (lift (Trace.lift (main env argv rounds)) : Process ServerCall Outcome) :=
  Process.grows_lift (Trace.grows_lift (stable_main env argv))

theorem completes_commandLine_iff {env : Env} {argv : List Str} {outcome : Outcome} :
    Completes (fun rounds => (lift (Trace.lift (main env argv rounds)) : Process ServerCall Outcome)) outcome ↔
      Finishes (main env argv) outcome := by
  simp only [Completes, returns_lift_iff, Trace.next_lift, Finishes]

theorem mem_log_runServer_iff (world : World) (argv : List Str) (e : ServerCall) :
    (∃ rounds, e ∈ (runServer world argv rounds).log) ↔
      ∃ outcome, Finishes (main world.env argv) outcome ∧ ∃ rounds, e ∈ (runOutcome world outcome rounds).log := by
  refine (exists_mem_log_bind_iff (grows_commandLine world.env argv) fun outcome =>
    grows_runOutcome world outcome).trans ?_
  simp only [completes_commandLine_iff]
  exact or_iff_right (by simp)

theorem ends_runServer (world : World) (argv : List Str) (status : Int) :
    Ends (runServer world argv) status ↔
      ∃ outcome, Finishes (main world.env argv) outcome ∧ Ends (runOutcome world outcome) status := by
  refine (ends_bind_iff (grows_commandLine world.env argv) fun outcome => grows_runOutcome world outcome).trans ?_
  simp only [completes_commandLine_iff]
  refine or_iff_right ?_
  intro h
  obtain ⟨rounds, hrounds⟩ := h
  exact not_exits_lift _ _ hrounds

/-! ## The server as a whole -/

/-- The server comes to its accept loop: it may set its handlers, is run by root with at most three arguments, and can
listen on the port 65501. -/
structure World.Serves (world : World) (argv : List Str) : Prop where
  handlersSet : world.env.handlersSet = true
  root : world.env.uid = 0
  argc : argv.length ≤ 4
  listens : ∃ fd, world.sys.Listens (lit "65501") fd

theorem World.serves_iff {world : World} {argv : List Str} :
    world.Serves argv ↔
      Finishes (main world.env argv) (.start_server (lit "65501") world.env.pwd) ∧
        ∃ fd, world.sys.Listens (lit "65501") fd := by
  rw [finishes_main_iff]
  refine ⟨fun h => ?_, fun h => ?_⟩
  · exact ⟨⟨h.handlersSet, h.root, h.argc, rfl, rfl⟩, h.listens⟩
  · obtain ⟨⟨hset, hroot, hargc, -, -⟩, hlistens⟩ := h
    exact ⟨hset, hroot, hargc, hlistens⟩

theorem send_mem_runOutcome_iff (world : World) (port : Str) (root_dir : Option Str) (k : Nat) (o : Out) :
    (∃ rounds, .send k o ∈ (runOutcome world (.start_server port root_dir) rounds).log) ↔
      (∃ fd, world.sys.Listens port fd) ∧ ∃ rounds, .send k o ∈ (acceptLoop root_dir world.accepts rounds).log := by
  have hstart : ServerCall.send k o ∉ (startListening ServerCall.sock world.sys port).log := by
    intro h
    obtain ⟨c, hc⟩ := told_of_mem_log h
    simp at hc
  simp only [runOutcome, mem_log_bind, returns_startListening_iff, hstart, false_or, exists_and_right, exists_and_left]

theorem ends_runOutcome_iff (world : World) (port : Str) (root_dir : Option Str) (status : Int) :
    Ends (runOutcome world (.start_server port root_dir)) status ↔
      (status = 1 ∧ ∀ fd, ¬ world.sys.Listens port fd) ∨
        ∃ fd, world.sys.Listens port fd ∧ Ends (acceptLoop root_dir world.accepts) status := by
  refine (ends_bind_iff (Process.grows_const _) fun _ => grows_acceptLoop root_dir world.accepts).trans ?_
  simp only [Ends, Completes, exists_const, exits_startListening_iff, returns_startListening_iff]

end PwdManLib
