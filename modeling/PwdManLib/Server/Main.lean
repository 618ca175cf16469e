import PwdManLib.Util.StringOps

/-!
# The command line of the server

`main` of `server/server.c` up to its call of `start_server`. `strsep(argv, " ")` cuts up `argv[0]`, the
name of the program, and nothing else, and the tokens are compared with the literals as pointers, so no
token is an option (`Args.Defaults`): whatever the command line, the server starts with the port 65501 in
`PWD` (`finishes_main_iff`), unless there are more than four arguments. Where `PWD` is not set, `root_dir` is NULL.
-/

namespace PwdManLib

open Exec

/-! ## The code -/

/-- What a `char *` of `main` points to: a string literal, or a place in `argv[0]`. -/
inductive CharPtr where
  | literal (s : Str)
  | argv0 (offset : Nat)
  deriving DecidableEq, Repr

/-- The variables of the loop. -/
structure Args where
  /-- The string that `argv[0]` pointed to at the start, with its NUL. -/
  cells : List UInt8
  /-- `argv[0]`, as an offset into it. -/
  next : Option Nat
  port : CharPtr
  root_dir : Option Str
  option_flag : Nat

/-- The string behind a pointer. -/
def Args.str (st : Args) : CharPtr → Str
  | .literal s => s
  | .argv0 offset => cstr (st.cells.drop offset)

/-- `strsep(argv, " ")`: the offset of the token, and the state behind the call. -/
def strsep (st : Args) : Option Nat × Args :=
  match st.next with
  | none => (none, st)
  | some offset =>
    match (st.str (.argv0 offset)).findIdx? (· = 32) with
    | none => (some offset, { st with next := none })
    | some i => (some offset, { st with cells := st.cells.set (offset + i) 0, next := some (offset + i + 1) })

/-- `memset((void*)port, (int)'\0', sizeof(port))`: a literal cannot be written to. -/
def clearPort (st : Args) : Exec Args :=
  match st.port with
  | .literal _ => fault
  | .argv0 offset =>
    if offset + 8 ≤ st.cells.length then
      done { st with cells := st.cells.take offset ++ List.replicate 8 0 ++ st.cells.drop (offset + 8) }
    else fault

/-- The argument of an option. -/
def takeArgument (st : Args) (token : CharPtr) : Exec Args := do
  let st ←
    if st.option_flag = 1 then do
      let st ← clearPort st
      done { st with port := token, option_flag := 0 }
    else done st
  if st.option_flag = 2 then
    done { st with root_dir := some (st.str token), option_flag := 0 }
  else done st

/-- An option. The pointers are compared, not the strings. -/
def takeOption (st : Args) (token : CharPtr) : Args :=
  if token = .literal (lit "-p") ∨ token = .literal (lit "--port") then
    { st with option_flag := 1 }
  else if token = .literal (lit "-r") ∨ token = .literal (lit "--root-dir") then
    { st with option_flag := 2 }
  else st

/-- One round of `while ((token = strsep(argv, delim)) != NULL)`. -/
def argStep (st : Args) : Exec (Args ⊕ Args) :=
  match strsep st with
  | (none, st) => done (.inr st)
  | (some token, st) =>
    if st.option_flag ≠ 0 then Sum.inl <$> takeArgument st (.argv0 token)
    else done (.inl (takeOption st (.argv0 token)))

/-- What `main` asks the system for: whether `signal` sets the handlers, the user, and `PWD`. -/
structure Env where
  handlersSet : Bool
  uid : Nat
  pwd : Option Str

def isRoot (env : Env) : Int := if env.uid ≠ 0 then -1 else 0

/-- How `main` leaves its first part: with `exit`, or with a call of `start_server`. -/
inductive Outcome where
  | exit (status : Int)
  | start_server (port : Str) (root_dir : Option Str)
  deriving DecidableEq, Repr

/-- The variables before the loop. -/
def Args.init (argv : List Str) : Args where
  cells := argv.headD [] ++ [0]
  next := if argv = [] then none else some 0
  port := .literal (lit "65501")
  root_dir := none
  option_flag := 0

/-- The rest of `main` up to `start_server`. Without a directory `printf` gets NULL for `%s`, and prints it as text. -/
def startServer (env : Env) (st : Args) : Outcome :=
  .start_server (st.str st.port) (st.root_dir.or env.pwd)

def main (env : Env) (argv : List Str) (rounds : Nat) : Exec Outcome :=
  if ¬ env.handlersSet then done (.exit (-1))
  else if isRoot env = -1 then done (.exit 1)
  else if argv.length > 4 then done (.exit 1)
  else do
    let st ← loop argStep (Args.init argv) rounds
    done (startServer env st)

/-! ## The loop -/

/-- No option has been seen. -/
structure Args.Defaults (st : Args) : Prop where
  port : st.port = .literal (lit "65501")
  root_dir : st.root_dir = none
  option_flag : st.option_flag = 0

/-- How much of `argv[0]` is left. -/
def Args.left (st : Args) : Nat :=
  match st.next with
  | none => 0
  | some offset => st.cells.length - offset + 1

theorem takeOption_argv0 (st : Args) (offset : Nat) : takeOption st (.argv0 offset) = st := by
  rw [takeOption, if_neg (by simp), if_neg (by simp)]

theorem strsep_fst (st : Args) : (strsep st).1 = st.next := by
  rw [strsep]
  split
  · rename_i hnext
    rw [hnext]
  · rename_i offset hnext
    rw [hnext]
    split <;> rfl

theorem strsep_defaults {st : Args} (h : st.Defaults) : (strsep st).2.Defaults := by
  rw [strsep]
  split
  · exact h
  · split
    · exact ⟨h.port, h.root_dir, h.option_flag⟩
    · exact ⟨h.port, h.root_dir, h.option_flag⟩

theorem left_strsep {st : Args} {offset : Nat} (hnext : st.next = some offset) :
    (strsep st).2.left < st.left := by
  have hleft : st.left = st.cells.length - offset + 1 := by rw [Args.left, hnext]
  rw [hleft, strsep, hnext]
  simp only
  split
  · exact Nat.succ_pos _
  · rename_i i hfound
    have hi := (List.findIdx?_eq_some_iff_findIdx_eq.mp hfound).1
    have hstr : (st.str (.argv0 offset)).length ≤ st.cells.length - offset := by
      rw [Args.str, cstr, ← List.length_drop]
      exact (List.takeWhile_prefix _).length_le
    simp only [Args.left, List.length_set]
    omega

theorem argStep_of_defaults {st : Args} (h : st.Defaults) :
    argStep st = done (if st.next.isSome then .inl (strsep st).2 else .inr (strsep st).2) := by
  have hflag := (strsep_defaults h).option_flag
  have hfst := strsep_fst st
  rw [argStep]
  split
  · rename_i st' hsep
    rw [hsep] at hfst ⊢
    rw [← hfst]
    rfl
  · rename_i token st' hsep
    rw [hsep] at hfst hflag ⊢
    rw [← hfst, if_neg (not_not.mpr hflag), takeOption_argv0]
    rfl

theorem finishes_loop_argStep {st : Args} (h : st.Defaults) :
    ∃ st', Finishes (loop argStep st) st' ∧ st'.Defaults := by
  induction hn : st.left using Nat.strong_induction_on generalizing st with
  | _ n ih =>
    have hstep := argStep_of_defaults h
    have hkeep := strsep_defaults h
    cases hnext : st.next with
    | none =>
      rw [hnext] at hstep
      exact ⟨_, (finishes_loop_exit hstep).mpr rfl, hkeep⟩
    | some offset =>
      rw [hnext] at hstep
      obtain ⟨st', hrest, hst'⟩ := ih _ (hn ▸ left_strsep hnext) hkeep rfl
      exact ⟨st', (finishes_loop_next hstep).mpr hrest, hst'⟩

/-! ## The call of `start_server` -/

theorem startServer_of_defaults {st : Args} (h : st.Defaults) (env : Env) :
    startServer env st = .start_server (lit "65501") env.pwd := by
  rw [startServer, h.port, h.root_dir, Option.none_or, Args.str]

theorem isRoot_ne_iff {env : Env} : isRoot env ≠ -1 ↔ env.uid = 0 := by
  rw [isRoot]
  split_ifs with h <;> simp_all

/-- **The server starts with its defaults**, or not at all. -/
theorem finishes_main_iff {env : Env} {argv : List Str} {port : Str} {root_dir : Option Str} :
    Finishes (main env argv) (.start_server port root_dir) ↔
      env.handlersSet ∧ env.uid = 0 ∧ argv.length ≤ 4 ∧ port = lit "65501" ∧ root_dir = env.pwd := by
  have hinit : (Args.init argv).Defaults := ⟨rfl, rfl, rfl⟩
  obtain ⟨st, hloop, hst⟩ := finishes_loop_argStep hinit
  constructor
  · intro h
    obtain ⟨rounds, hrun⟩ := h
    rw [main] at hrun
    split_ifs at hrun with hset hroot hcount
    · exact absurd hrun (by simp)
    · exact absurd hrun (by simp)
    · obtain ⟨st', hloop', hstart⟩ := bind_eq_done.mp hrun
      obtain rfl := Finishes.unique (stable_loop _) ⟨rounds, hloop'⟩ hloop
      rw [startServer_of_defaults hst, done.injEq, Outcome.start_server.injEq] at hstart
      exact ⟨hset, isRoot_ne_iff.mp hroot, Nat.not_lt.mp hcount, hstart.1.symm, hstart.2.symm⟩
    · exact absurd hrun (by simp)
  · intro h
    obtain ⟨hset, hroot, hcount, rfl, rfl⟩ := h
    obtain ⟨rounds, hdone⟩ := hloop
    refine ⟨rounds, ?_⟩
    rw [main, if_neg (not_not.mpr hset), if_neg (isRoot_ne_iff.mpr hroot), if_neg (Nat.not_lt.mpr hcount),
      hdone, done_bind, startServer_of_defaults hst env]

/-! ## The documented command line -/

/-- An option with its argument, in the short or in the long spelling. -/
structure Given where
  long : Bool
  value : Str

/-- A command line as the usage text has it. -/
structure StartCommand where
  name : Str
  port : Option Given
  root_dir : Option Given
  rootFirst : Bool

namespace StartCommand

/-- The words of an option. -/
def words (short long : Str) : Option Given → List Str
  | none => []
  | some given => [if given.long then long else short, given.value]

def argv (cl : StartCommand) : List Str :=
  let port := words (lit "-p") (lit "--port") cl.port
  let root_dir := words (lit "-r") (lit "--root-dir") cl.root_dir
  cl.name :: (if cl.rootFirst then root_dir ++ port else port ++ root_dir)

theorem length_words (short long : Str) (given : Option Given) :
    (words short long given).length = if given = none then 0 else 2 := by
  cases given with
  | none => rfl
  | some given => rfl

theorem length_argv_le_iff (cl : StartCommand) : cl.argv.length ≤ 4 ↔ cl.port = none ∨ cl.root_dir = none := by
  have hlength : cl.argv.length =
      (if cl.port = none then 0 else 2) + (if cl.root_dir = none then 0 else 2) + 1 := by
    rw [argv, ← length_words (lit "-p") (lit "--port"), ← length_words (lit "-r") (lit "--root-dir")]
    cases cl.rootFirst
    · exact congrArg (· + 1) (List.length_append)
    · exact congrArg (· + 1) (List.length_append.trans (Nat.add_comm _ _))
  rw [hlength]
  split_ifs with hport hroot hroot <;> simp [*]

/-- The server starts with what the command line asks for. -/
def Obeyed (env : Env) (cl : StartCommand) : Prop :=
  ∃ root_dir, (cl.root_dir.map Given.value).or env.pwd = some root_dir ∧
    Finishes (main env cl.argv) (.start_server ((cl.port.map Given.value).getD (lit "65501")) (some root_dir))

/-- **The command line is obeyed** exactly if it does not give both options, and what it gives is the default. -/
theorem obeyed_iff (env : Env) (cl : StartCommand) :
    cl.Obeyed env ↔ env.handlersSet ∧ env.uid = 0 ∧ (cl.port = none ∨ cl.root_dir = none) ∧
      (∀ given, cl.port = some given → given.value = lit "65501") ∧
      ∃ pwd, env.pwd = some pwd ∧ ∀ given, cl.root_dir = some given → given.value = pwd := by
  have hport : (cl.port.map Given.value).getD (lit "65501") = lit "65501" ↔
      ∀ given, cl.port = some given → given.value = lit "65501" := by
    cases cl.port <;> simp
  have hroot : (∃ root_dir, (cl.root_dir.map Given.value).or env.pwd = some root_dir ∧ env.pwd = some root_dir) ↔
      ∃ pwd, env.pwd = some pwd ∧ ∀ given, cl.root_dir = some given → given.value = pwd := by
    refine exists_congr fun pwd => ?_
    rw [and_comm]
    refine and_congr_right fun hpwd => ?_
    cases cl.root_dir <;> simp [hpwd]
  rw [← hport, ← hroot, ← length_argv_le_iff]
  simp only [Obeyed, finishes_main_iff]
  tauto

/-- `server -p 8080` started by root in `/srv`: the port is 65501. -/
theorem port_option_ignored :
    ¬ ∀ (env : Env) (cl : StartCommand), env.handlersSet → env.uid = 0 → env.pwd ≠ none →
      (∀ given, cl.port = some given → 32 ∉ given.value) →
      (∀ given, cl.root_dir = some given → 32 ∉ given.value) → cl.Obeyed env := by
  intro h
  obtain ⟨root_dir, -, hrun⟩ := h { handlersSet := true, uid := 0, pwd := some (lit "/srv") }
    { name := lit "server", port := some { long := false, value := lit "8080" }, root_dir := none,
      rootFirst := false } rfl rfl (by simp) (by simp [lit]) (by simp)
  obtain ⟨-, -, -, hport, -⟩ := finishes_main_iff.mp hrun
  exact absurd hport (by decide)

end StartCommand

end PwdManLib
