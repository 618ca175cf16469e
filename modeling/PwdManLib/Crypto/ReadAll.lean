import Mathlib.Data.Nat.Find
import PwdManLib.Crypto.SendAll
import PwdManLib.Server.ReadBuffer

/-!
# What `readall` reports

`readall` of `crypto/ssl_funcs.h` leaves its loop when `SSL_read` fails, when more than
`SOCK_BUFF_MAX_READ` bytes have come, or when nothing comes any more. `readallCalls` is `readall` with
all its variables and a record of the calls. What it returns is made from the last `n` alone, which is
positive when the limit is passed, so it reports success there and the outcome everywhere else
(`reportsOutcome_iff`). The buffer is taken to be large enough.
-/

namespace PwdManLib

open Exec Trace

/-- An `SSL_read`: the value it returns, and the bytes it has put into the buffer. -/
structure ReadCall where
  n : Int
  bytes : List UInt8
  length_bytes : bytes.length = n.toNat

/-- The `SSL_read` calls on a connection, none with more bytes than are asked for. No sum of the loop
leaves the range of an `int` then. -/
structure Incoming where
  call : Nat → ReadCall
  n_le : ∀ k, (call k).n ≤ SOCK_BUFF_DEF_READ

/-- The variables of `readall`, and the number of calls made. -/
structure ReadLoop where
  calls : Nat
  total : Int
  buf : List UInt8

/-- One round of the loop: a read to `buf + total`, and the checks behind it. -/
def readRound (incoming : Incoming) (st : ReadLoop) :
    Trace ReadCall (ReadLoop ⊕ (Int × List UInt8)) := do
  let call := incoming.call st.calls
  emit call
  let total := st.total + call.n
  let buf := st.buf ++ call.bytes
  if call.n < 0 ∨ total > SOCK_BUFF_MAX_READ then
    pure (.inr (failure call.n, buf))
  else if call.n ≠ 0 then
    pure (.inl { calls := st.calls + 1, total := total, buf := buf })
  else
    pure (.inr (failure call.n, buf))

/-- `readall` with its calls: the value returned, and what is in the buffer then. -/
def readallCalls (incoming : Incoming) (rounds : Nat) : Trace ReadCall (Int × List UInt8) :=
  Trace.loop (readRound incoming) { calls := 0, total := 0, buf := [] } rounds

/-! ## One round -/

/-- The loop goes on behind a call that brings something, as long as the limit is not passed. -/
def GoesOn (total : Int) (call : ReadCall) : Prop :=
  0 < call.n ∧ total + call.n ≤ SOCK_BUFF_MAX_READ

instance (total : Int) (call : ReadCall) : Decidable (GoesOn total call) :=
  inferInstanceAs (Decidable (_ ∧ _))

theorem readRound_eq (incoming : Incoming) (st : ReadLoop) :
    readRound incoming st =
      { sent := [incoming.call st.calls]
        next := done (if GoesOn st.total (incoming.call st.calls) then
            .inl
              { calls := st.calls + 1
                total := st.total + (incoming.call st.calls).n
                buf := st.buf ++ (incoming.call st.calls).bytes }
          else .inr (failure (incoming.call st.calls).n, st.buf ++ (incoming.call st.calls).bytes)) } := by
  rw [readRound]
  generalize incoming.call st.calls = call
  by_cases hout : call.n < 0 ∨ st.total + call.n > SOCK_BUFF_MAX_READ
  · have hgo : ¬ GoesOn st.total call := by
      rw [GoesOn]
      omega
    simp only [if_pos hout, if_neg hgo]
    rfl
  · by_cases hzero : call.n = 0
    · have hgo : ¬ GoesOn st.total call := by
        rw [GoesOn]
        omega
      simp only [if_neg hout, if_neg (not_not_intro hzero), if_neg hgo]
      rfl
    · have hgo : GoesOn st.total call := by
        rw [GoesOn]
        omega
      simp only [if_neg hout, if_pos hzero, if_pos hgo]
      rfl

/-! ## The record changes nothing -/

/-- The call as `readStep` sees it. -/
def ReadCall.toRead (call : ReadCall) : Read := if call.n < 0 then .failed else .bytes call.bytes

/-- The state as `readStep` keeps it. -/
def ReadLoop.shown (st : ReadLoop) : Nat × List UInt8 := (st.calls, st.buf)

/-- The result as `readStep` gives it: every failure is -1. -/
def shownResult (r : Int × List UInt8) : Int × List UInt8 := (if r.1 < 0 then -1 else r.1, r.2)

theorem readStep_shown (incoming : Incoming) (st : ReadLoop) (hst : st.total = st.buf.length) :
    readStep (fun k => (incoming.call k).toRead) st.shown =
      Sum.map ReadLoop.shown shownResult <$> (readRound incoming st).next := by
  have hlen := (incoming.call st.calls).length_bytes
  rw [readRound_eq, readStep, ReadLoop.shown, ReadCall.toRead]
  generalize incoming.call st.calls = call at hlen
  by_cases hneg : call.n < 0
  · have hnone : call.bytes = [] := List.eq_nil_of_length_eq_zero (by omega)
    have hgo : ¬ GoesOn st.total call := fun h => by have := h.1; omega
    simp [hneg, hnone, hgo, failure, shownResult]
  · have hend : (st.buf ++ call.bytes).length > SOCK_BUFF_MAX_READ ∨ call.bytes = [] ↔
        ¬ GoesOn st.total call := by
      rw [← List.length_eq_zero_iff, List.length_append, GoesOn]
      omega
    by_cases hgo : GoesOn st.total call
    · simp only [if_neg hneg, if_neg (mt hend.mp (not_not_intro hgo)), if_pos hgo]
      rfl
    · simp only [if_neg hneg, if_pos (hend.mpr hgo), if_neg hgo, failure]
      rfl

theorem total_eq_of_next (incoming : Incoming) (st st' : ReadLoop) (hst : st.total = st.buf.length)
    (hnext : (readRound incoming st).next = done (.inl st')) : st'.total = st'.buf.length := by
  rw [readRound_eq, done.injEq] at hnext
  split_ifs at hnext with hgo
  have hlen := (incoming.call st.calls).length_bytes
  have hpos := hgo.1
  rw [← Sum.inl.inj hnext]
  show st.total + (incoming.call st.calls).n = ((st.buf ++ (incoming.call st.calls).bytes).length : Int)
  rw [List.length_append]
  omega

theorem readall_eq (incoming : Incoming) (rounds : Nat) :
    readall (fun k => (incoming.call k).toRead) rounds =
      shownResult <$> (readallCalls incoming rounds).next := by
  rw [readallCalls, next_loop]
  have hstart : (0 : Int) = ([] : List UInt8).length := rfl
  exact loop_map (s := { calls := 0, total := 0, buf := [] }) (readStep_shown incoming)
    (total_eq_of_next incoming) hstart rounds

/-! ## The calls up to the last one -/

/-- The first `k` calls. -/
def Incoming.first (incoming : Incoming) (k : Nat) : List ReadCall := (List.range k).map incoming.call

/-- The sum of what the calls have returned. -/
def totalRead (calls : List ReadCall) : Int := calls.foldl (fun total call => total + call.n) 0

/-- The bytes the calls have brought, in order. -/
def bytesRead (calls : List ReadCall) : List UInt8 := calls.flatMap ReadCall.bytes

variable {incoming : Incoming}

theorem first_succ (k : Nat) : incoming.first (k + 1) = incoming.first k ++ [incoming.call k] := by
  rw [Incoming.first, List.range_succ, List.map_append]
  rfl

theorem totalRead_concat (calls : List ReadCall) (call : ReadCall) :
    totalRead (calls ++ [call]) = totalRead calls + call.n := by
  simp [totalRead]

theorem bytesRead_concat (calls : List ReadCall) (call : ReadCall) :
    bytesRead (calls ++ [call]) = bytesRead calls ++ call.bytes := by
  simp [bytesRead]

/-- The loop leaves with call `j`. -/
structure Incoming.LastCall (incoming : Incoming) (j : Nat) : Prop where
  goes_on : ∀ i < j, GoesOn (totalRead (incoming.first i)) (incoming.call i)
  stops : ¬ GoesOn (totalRead (incoming.first j)) (incoming.call j)

theorem readallCalls_of_lastCall {j : Nat} (h : incoming.LastCall j) :
    readallCalls incoming (j + 1) =
      { sent := incoming.first (j + 1)
        next := done (failure (incoming.call j).n, bytesRead (incoming.first (j + 1))) } := by
  let state (i : Nat) : ReadLoop :=
    { calls := i, total := totalRead (incoming.first i), buf := bytesRead (incoming.first i) }
  have hnext : ∀ i < j, readRound incoming (state i) =
      { sent := [incoming.call i], next := done (.inl (state (i + 1))) } := by
    intro i hi
    have hgo := h.goes_on i hi
    rw [readRound_eq, if_pos hgo]
    simp only [state, first_succ, totalRead_concat, bytesRead_concat]
  have hlast : readRound incoming (state j) =
      { sent := [incoming.call j]
        next := done (.inr (failure (incoming.call j).n, bytesRead (incoming.first (j + 1)))) } := by
    rw [readRound_eq, if_neg h.stops, first_succ, bytesRead_concat]
  have hrun := Trace.loop_of_rounds hnext hlast
  rw [← Incoming.first, ← first_succ] at hrun
  exact hrun

theorem exists_lastCall (incoming : Incoming) : ∃ j, incoming.LastCall j := by
  have hstop : ∃ j, ¬ GoesOn (totalRead (incoming.first j)) (incoming.call j) := by
    by_contra hall
    have hgo (j : Nat) : GoesOn (totalRead (incoming.first j)) (incoming.call j) := by
      by_contra hno
      exact hall ⟨j, hno⟩
    have hge (j : Nat) : (j : Int) ≤ totalRead (incoming.first j) := by
      induction j with
      | zero => exact Int.le_refl 0
      | succ j ih =>
        have hpos := (hgo j).1
        rw [first_succ, totalRead_concat]
        omega
    have hlimit := (hgo SOCK_BUFF_MAX_READ).2
    have hpos := (hgo SOCK_BUFF_MAX_READ).1
    have htotal := hge SOCK_BUFF_MAX_READ
    omega
  classical
  refine ⟨Nat.find hstop, ?_, Nat.find_spec hstop⟩
  intro i hi
  exact not_not.mp (Nat.find_min hstop hi)

/-! ## What is reported -/

/-- The calls end with one that returns 0, with the total within the limit. -/
def EndedByPeer (calls : List ReadCall) : Prop :=
  (∃ front last, calls = front ++ [last] ∧ last.n = 0) ∧ totalRead calls ≤ SOCK_BUFF_MAX_READ

/-- `readall` comes to its end. It returns 0 exactly when the peer has ended the message within the
limit, something else when a read has failed or the limit is passed, and with a 0 the buffer holds what
has come. -/
def ReportsOutcome (incoming : Incoming) : Prop :=
  ∃ rounds calls status buf, readallCalls incoming rounds = { sent := calls, next := done (status, buf) } ∧
    (status = 0 ↔ EndedByPeer calls) ∧
    ((∃ call ∈ calls, call.n < 0) ∨ totalRead calls > SOCK_BUFF_MAX_READ → status ≠ 0) ∧
    (status = 0 → buf = bytesRead calls)

/-- More comes than the limit allows, before a read that fails or brings nothing. -/
def PassesLimit (incoming : Incoming) : Prop :=
  ∃ k, (∀ i < k, 0 < (incoming.call i).n) ∧ totalRead (incoming.first k) > SOCK_BUFF_MAX_READ

namespace Incoming.LastCall

variable {j : Nat} (h : incoming.LastCall j)

include h

theorem total_le {k : Nat} (hk : k ≤ j) : totalRead (incoming.first k) ≤ SOCK_BUFF_MAX_READ := by
  cases k with
  | zero => exact (by decide : (0 : Int) ≤ SOCK_BUFF_MAX_READ)
  | succ k =>
    rw [first_succ, totalRead_concat]
    exact (h.goes_on k hk).2

theorem total_gt (hn : 0 < (incoming.call j).n) :
    totalRead (incoming.first (j + 1)) > SOCK_BUFF_MAX_READ := by
  have hstop := h.stops
  rw [GoesOn] at hstop
  rw [first_succ, totalRead_concat]
  omega

theorem passesLimit_iff : PassesLimit incoming ↔ 0 < (incoming.call j).n := by
  constructor
  · rintro ⟨k, hpos, hover⟩
    by_contra hn
    have hk : k ≤ j := by
      by_contra hlt
      exact hn (hpos j (Nat.not_le.mp hlt))
    exact absurd hover (Int.not_lt.mpr (h.total_le hk))
  · intro hn
    refine ⟨j + 1, ?_, h.total_gt hn⟩
    intro i hi
    rcases Nat.lt_succ_iff_lt_or_eq.mp hi with hlt | rfl
    · exact (h.goes_on i hlt).1
    · exact hn

theorem endedByPeer_iff :
    EndedByPeer (incoming.first (j + 1)) ↔ (incoming.call j).n = 0 := by
  rw [EndedByPeer, first_succ]
  constructor
  · rintro ⟨⟨front, last, hcalls, hlast⟩, -⟩
    obtain ⟨-, hcall⟩ := List.append_inj' hcalls rfl
    rw [(List.cons.inj hcall).1]
    exact hlast
  · intro hzero
    refine ⟨⟨_, _, rfl, hzero⟩, ?_⟩
    rw [totalRead_concat, hzero, Int.add_zero]
    exact h.total_le (Nat.le_refl j)

theorem reportsOutcome_of_stop (hn : (incoming.call j).n ≤ 0) : ReportsOutcome incoming := by
  refine ⟨_, _, _, _, readallCalls_of_lastCall h, ?_, ?_, fun _ => rfl⟩
  · rw [h.endedByPeer_iff, failure_eq_zero_iff]
    omega
  · intro hbad
    rw [failure_ne_zero_iff]
    by_contra hneg
    have hzero : (incoming.call j).n = 0 := by omega
    obtain ⟨-, htotal⟩ := (h.endedByPeer_iff).mpr hzero
    rcases hbad with ⟨call, hcall, hfailed⟩ | hover
    · obtain ⟨i, hi, rfl⟩ := List.mem_map.mp hcall
      rcases Nat.lt_succ_iff_lt_or_eq.mp (List.mem_range.mp hi) with hlt | rfl
      · have hpos := (h.goes_on i hlt).1
        omega
      · omega
    · omega

end Incoming.LastCall

theorem not_passesLimit_of_reportsOutcome (h : ReportsOutcome incoming) : ¬ PassesLimit incoming := by
  obtain ⟨rounds, calls, status, buf, hrun, -, hbad, -⟩ := h
  obtain ⟨j, hlast⟩ := exists_lastCall incoming
  rw [hlast.passesLimit_iff]
  intro hn
  -- the run is the one up to the last call, whatever the bound
  have hlastRun := readallCalls_of_lastCall hlast
  have hsame : readallCalls incoming rounds = readallCalls incoming (j + 1) :=
    (Trace.stable_loop _ _).eq_of_done (congrArg Trace.next hrun) (congrArg Trace.next hlastRun)
  rw [hsame, hlastRun, Trace.mk.injEq, done.injEq, Prod.mk.injEq] at hrun
  obtain ⟨rfl, rfl, -⟩ := hrun
  exact hbad (.inr (hlast.total_gt hn)) (failure_eq_zero_iff.mpr (Int.le_of_lt hn))

/-- **When `readall` reports what has happened**: the peer does not send more than the limit allows. -/
theorem reportsOutcome_iff (incoming : Incoming) : ReportsOutcome incoming ↔ ¬ PassesLimit incoming := by
  refine ⟨not_passesLimit_of_reportsOutcome, fun hlimit => ?_⟩
  obtain ⟨j, hlast⟩ := exists_lastCall incoming
  rw [hlast.passesLimit_iff] at hlimit
  exact hlast.reportsOutcome_of_stop (Int.not_lt.mp hlimit)

/-- A peer that sends one full read after the other. -/
def Incoming.flood : Incoming where
  call _ :=
    { n := SOCK_BUFF_DEF_READ
      bytes := List.replicate SOCK_BUFF_DEF_READ 65
      length_bytes := List.length_replicate .. }
  n_le _ := Int.le_refl _

theorem totalRead_flood (k : Nat) : totalRead (Incoming.flood.first k) = k * SOCK_BUFF_DEF_READ := by
  induction k with
  | zero => rfl
  | succ k ih =>
    rw [first_succ, totalRead_concat, ih]
    show (k * SOCK_BUFF_DEF_READ + SOCK_BUFF_DEF_READ : Int) = (k + 1 : Nat) * SOCK_BUFF_DEF_READ
    rw [Int.natCast_succ, Int.add_mul, Int.one_mul]

/-- It passes the limit, and `readall` reports success. -/
theorem long_message_accepted : ¬ ∀ incoming : Incoming, ReportsOutcome incoming := by
  intro hall
  have hpos : 0 < (SOCK_BUFF_DEF_READ : Int) := by decide
  refine not_passesLimit_of_reportsOutcome (hall .flood) ⟨73, fun _ _ => hpos, ?_⟩
  rw [totalRead_flood]
  decide

end PwdManLib
