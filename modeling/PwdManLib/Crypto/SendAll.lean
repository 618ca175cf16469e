import PwdManLib.Lib.Transfer
import PwdManLib.Server.Route

/-!
# The calls of `sendall`

`sendall` of `crypto/ssl_funcs.h` keeps three counters beside its call of `SSL_write`. `sendallCalls` is
`sendall` with all of them, with a record of the calls, and with what it leaves in `*len`. Its runs are
those of a `Transfer` (`sendallCalls_ends_iff`): no byte is lost or sent twice (`sendall_delivers`). A
result of 0 is neither a failure nor progress to it, so it comes to its end in time, and tells of every
failure, exactly when no call returns 0 (`endsInTime_iff`). The value it returns comes from the last
call, so it tells the outcome unless there was none (`tellsOutcome_iff`).
-/

namespace PwdManLib

open Exec Trace

/-- The arguments of `sendall`: the buffer has the `*len` bytes that are to be sent. -/
structure SendArgs where
  strbuf : Str
  len : Int
  len_le : len ≤ strbuf.length

/-- The bytes that are to be sent. -/
def SendArgs.message (args : SendArgs) : Str := args.strbuf.take args.len.toNat

/-- The counters of `sendall`, and the number of calls made. No sum leaves the range from 0 to `*len`. -/
structure Counters where
  calls : Nat
  total : Nat
  bytesleft : Int
  n : Int

/-- `n < 0 ? n : 0` -/
def failure (n : Int) : Int := if n < 0 then n else 0

/-- One round of `while (total < *len)`. -/
def sendRound (conn : Conn) (args : SendArgs) (st : Counters) :
    Trace (Attempt UInt8) (Counters ⊕ (Nat × Int)) :=
  if st.total < args.len then do
    let n := conn.write st.calls st.bytesleft.toNat
    emit { offered := (args.strbuf.drop st.total).take st.bytesleft.toNat, result := n }
    if n < 0 then
      pure (.inr (st.total, failure n))
    else
      pure (.inl
        { calls := st.calls + 1
          total := st.total + n.toNat
          bytesleft := st.bytesleft - n
          n := n })
  else
    pure (.inr (st.total, failure st.n))

/-- `sendall` with its calls: `*len` at the end, and the value returned. -/
def sendallCalls (conn : Conn) (args : SendArgs) (rounds : Nat) : Trace (Attempt UInt8) (Nat × Int) :=
  Trace.loop (sendRound conn args) { calls := 0, total := 0, bytesleft := args.len, n := -1 } rounds

/-! ## The counters -/

/-- The counters fit together. -/
structure Counters.Consistent (st : Counters) (args : SendArgs) : Prop where
  total_le : st.total ≤ args.len.toNat
  left : st.bytesleft = args.len - st.total

section round

variable (conn : Conn) {args : SendArgs} {st : Counters} (h : st.Consistent args)

include h

theorem length_rest : ((args.message.drop st.total).length : Int) = max args.len 0 - st.total := by
  have hle := h.total_le
  have hlen := args.len_le
  rw [List.length_drop, SendArgs.message, List.length_take]
  omega

theorem rest_ne_nil_iff : args.message.drop st.total ≠ [] ↔ (st.total : Int) < args.len := by
  have hrest := length_rest h
  rw [← List.length_pos_iff]
  omega

/-- **What a round does** while something is left: it offers all of that. -/
theorem sendRound_of_rest {rest : Str} (hrest : args.message.drop st.total = rest) (hne : rest ≠ []) :
    sendRound conn args st =
      { sent := [⟨rest, conn.write st.calls rest.length⟩]
        next := done (if conn.write st.calls rest.length < 0 then
            .inr (st.total, failure (conn.write st.calls rest.length))
          else .inl
            { calls := st.calls + 1
              total := st.total + (conn.write st.calls rest.length).toNat
              bytesleft := st.bytesleft - conn.write st.calls rest.length
              n := conn.write st.calls rest.length }) } := by
  subst hrest
  have hlen := length_rest h
  have hlt := (rest_ne_nil_iff h).mp hne
  have hleft : st.bytesleft.toNat = (args.message.drop st.total).length := by
    rw [h.left]
    omega
  have hoffer : (args.strbuf.drop st.total).take (args.message.drop st.total).length =
      args.message.drop st.total := by
    rw [SendArgs.message, List.drop_take, List.length_take]
    exact List.take_eq_take_min.symm
  rw [sendRound, if_pos hlt, hleft, hoffer]
  by_cases hneg : conn.write st.calls (args.message.drop st.total).length < 0
  · simp only [if_pos hneg]
    rfl
  · simp only [if_neg hneg]
    rfl

theorem sendRound_of_nil (hrest : args.message.drop st.total = []) :
    sendRound conn args st = { sent := [], next := done (.inr (st.total, failure st.n)) } := by
  have hlt := mt (rest_ne_nil_iff h).mpr (not_not_intro hrest)
  rw [sendRound, if_neg hlt]
  rfl

end round

/-- After a call that is not refused the counters still fit together, and what is left is what the call
has not taken. -/
theorem Counters.Consistent.next {args : SendArgs} {st : Counters} (h : st.Consistent args)
    {r : Int} (hr : 0 ≤ r) (hle : r ≤ (args.message.drop st.total).length) :
    ({ calls := st.calls + 1, total := st.total + r.toNat, bytesleft := st.bytesleft - r, n := r } :
      Counters).Consistent args := by
  have hrest := length_rest h
  have hleft := h.left
  have htotal := h.total_le
  constructor
  · show st.total + r.toNat ≤ args.len.toNat
    omega
  · show st.bytesleft - r = args.len - (st.total + r.toNat : Nat)
    omega

/-! ## The runs of `sendall` -/

variable {conn : Conn} {args : SendArgs}

theorem loop_of_transfer {k : Nat} {rest : Str} {calls : List (Attempt UInt8)}
    (h : Transfer conn.write k rest calls) {st : Counters} (hst : st.Consistent args)
    (hk : st.calls = k) (hrest : args.message.drop st.total = rest) {rounds : Nat}
    (hrounds : calls.length < rounds) :
    Trace.loop (sendRound conn args) st rounds =
      { sent := calls
        next := done (st.total + (taken calls).length, failure (lastResult st.n calls)) } := by
  induction h generalizing st rounds with
  | complete =>
    obtain ⟨rounds, rfl⟩ : ∃ m, rounds = m + 1 := ⟨rounds - 1, by omega⟩
    have hround := sendRound_of_nil conn hst hrest
    rw [Trace.loop_succ_of_exit hround]
    rfl
  | @refused k rest hne hr =>
    obtain ⟨rounds, rfl⟩ : ∃ m, rounds = m + 1 := ⟨rounds - 1, by omega⟩
    have hround := sendRound_of_rest conn hst hrest hne
    rw [hk, if_pos hr] at hround
    rw [Trace.loop_succ_of_exit hround]
    have hnone : (conn.write k rest.length).toNat = 0 := by omega
    rw [taken_cons, taken_nil, List.append_nil, length_accepted (conn.write_le k rest.length), hnone]
    rfl
  | @accepted k rest calls hne hr h ih =>
    obtain ⟨rounds, rfl⟩ : ∃ m, rounds = m + 1 := ⟨rounds - 1, by omega⟩
    have hround := sendRound_of_rest conn hst hrest hne
    rw [hk, if_neg (Int.not_lt.mpr hr)] at hround
    have hle := conn.write_le k rest.length
    have hst' := hst.next hr (hrest ▸ hle)
    rw [hk] at hst'
    rw [List.length_cons] at hrounds
    have hih := ih hst' rfl (by rw [← List.drop_drop, hrest]) (show calls.length < rounds by omega)
    rw [Trace.loop_succ_of_next hround, hih]
    simp only [taken_cons, List.length_append, length_accepted hle, lastResult, Nat.add_assoc,
      List.singleton_append]

theorem transfer_of_loop {st : Counters} (hst : st.Consistent args) {rounds : Nat} {out : Nat × Int}
    (h : (Trace.loop (sendRound conn args) st rounds).next = done out) :
    Transfer conn.write st.calls (args.message.drop st.total)
      (Trace.loop (sendRound conn args) st rounds).sent := by
  induction rounds generalizing st with
  | zero => simp [Trace.loop] at h
  | succ rounds ih =>
    by_cases hrest : args.message.drop st.total = []
    · have hround := sendRound_of_nil conn hst hrest
      rw [Trace.loop_succ_of_exit hround, hrest]
      exact .complete
    · have hround := sendRound_of_rest conn hst rfl hrest
      by_cases hneg : conn.write st.calls (args.message.drop st.total).length < 0
      · rw [if_pos hneg] at hround
        rw [Trace.loop_succ_of_exit hround]
        exact .refused hrest hneg
      · have hr := Int.not_lt.mp hneg
        have hle := conn.write_le st.calls (args.message.drop st.total).length
        rw [if_neg hneg] at hround
        rw [Trace.loop_succ_of_next hround] at h ⊢
        have hih := ih (hst.next hr hle) h
        rw [← List.drop_drop] at hih
        exact .accepted hrest hr hih

theorem length_message (args : SendArgs) : args.message.length = args.len.toNat := by
  have hlen := args.len_le
  rw [SendArgs.message, List.length_take]
  omega

theorem consistent_start (args : SendArgs) :
    ({ calls := 0, total := 0, bytesleft := args.len, n := -1 } : Counters).Consistent args :=
  ⟨Nat.zero_le _, (Int.sub_zero _).symm⟩

theorem sendallCalls_of_transfer {calls : List (Attempt UInt8)}
    (h : Transfer conn.write 0 args.message calls) {rounds : Nat} (hrounds : calls.length < rounds) :
    sendallCalls conn args rounds =
      { sent := calls, next := done ((taken calls).length, failure (lastResult (-1) calls)) } := by
  have hloop := loop_of_transfer h (consistent_start args) rfl List.drop_zero hrounds
  rwa [Nat.zero_add] at hloop

/-- **The runs of `sendall` that come to their end** are the transfers of its message. -/
theorem sendallCalls_ends_iff {calls : List (Attempt UInt8)} {out : Nat × Int} :
    (∃ rounds, sendallCalls conn args rounds = { sent := calls, next := done out }) ↔
      Transfer conn.write 0 args.message calls ∧
        out = ((taken calls).length, failure (lastResult (-1) calls)) := by
  constructor
  · intro h
    obtain ⟨rounds, h⟩ := h
    have hnext : (sendallCalls conn args rounds).next = done out := by rw [h]
    have htransfer := transfer_of_loop (consistent_start args) hnext
    have hsent : (sendallCalls conn args rounds).sent = calls := by rw [h]
    rw [← sendallCalls, hsent] at htransfer
    refine ⟨htransfer, ?_⟩
    have hall := sendallCalls_of_transfer htransfer (Nat.lt_succ_self _)
    have hsame : sendallCalls conn args rounds = sendallCalls conn args (calls.length + 1) :=
      (Trace.stable_loop _ _).eq_of_done hnext (congrArg Trace.next hall)
    rw [← hsame, h] at hall
    simpa using hall
  · intro h
    obtain ⟨h, rfl⟩ := h
    exact ⟨calls.length + 1, sendallCalls_of_transfer h (Nat.lt_succ_self _)⟩

private theorem loop_sendStep (out : Str → Out) {st : Counters} (hst : st.Consistent args) (rounds : Nat) :
    Trace.loop (sendStep conn out args.strbuf args.len) ⟨st.calls, st.total, st.n⟩ rounds =
      { sent := ((Trace.loop (sendRound conn args) st rounds).sent.filter fun a => 0 ≤ a.result).map
          fun a => out a.accepted
        next := Prod.snd <$> (Trace.loop (sendRound conn args) st rounds).next } := by
  induction rounds generalizing st with
  | zero => rfl
  | succ rounds ih =>
    by_cases hrest : args.message.drop st.total = []
    · have hround := sendRound_of_nil conn hst hrest
      have hlt := mt (rest_ne_nil_iff hst).mpr (not_not_intro hrest)
      have hstep : sendStep conn out args.strbuf args.len ⟨st.calls, st.total, st.n⟩ =
          { sent := [], next := done (.inr (failure st.n)) } := by
        rw [sendStep, if_neg hlt]
        rfl
      rw [Trace.loop_succ_of_exit hround, Trace.loop_succ_of_exit hstep]
      rfl
    · have hround := sendRound_of_rest conn hst rfl hrest
      have hlt := (rest_ne_nil_iff hst).mp hrest
      have hlen := length_rest hst
      have hleft : (args.len - st.total).toNat = (args.message.drop st.total).length := by omega
      have hle := conn.write_le st.calls (args.message.drop st.total).length
      generalize hr : conn.write st.calls (args.message.drop st.total).length = r at hround hle
      by_cases hneg : r < 0
      · have hstep : sendStep conn out args.strbuf args.len ⟨st.calls, st.total, st.n⟩ =
            { sent := [], next := done (.inr r) } := by
          simp only [sendStep, if_pos hlt, hleft, hr, if_pos hneg]
          rfl
        rw [if_pos hneg] at hround
        rw [Trace.loop_succ_of_exit hround, Trace.loop_succ_of_exit hstep]
        simp [failure, hneg]
      · have hnonneg := Int.not_lt.mp hneg
        have hpart : (args.strbuf.drop st.total).take r.toNat =
            Attempt.accepted ⟨args.message.drop st.total, r⟩ := by
          show _ = (args.message.drop st.total).take r.toNat
          rw [SendArgs.message, List.drop_take, List.take_take, Nat.min_eq_left (by omega)]
        have hstep : sendStep conn out args.strbuf args.len ⟨st.calls, st.total, st.n⟩ =
            { sent := [out (Attempt.accepted ⟨args.message.drop st.total, r⟩)]
              next := done (.inl ⟨st.calls + 1, st.total + r.toNat, r⟩) } := by
          simp only [sendStep, if_pos hlt, hleft, hr, if_neg hneg, hpart]
          rfl
        rw [if_neg hneg] at hround
        rw [Trace.loop_succ_of_next hround, Trace.loop_succ_of_next hstep, ih (hst.next hnonneg hle)]
        simp [hnonneg]

/-- **The record changes nothing**: `sendall` returns the same value, and sends what the calls that are
not refused have taken. -/
theorem sendall_eq (out : Str → Out) (rounds : Nat) :
    sendall conn out args.strbuf args.len rounds =
      { sent := ((sendallCalls conn args rounds).sent.filter fun a => 0 ≤ a.result).map
          fun a => out a.accepted
        next := Prod.snd <$> (sendallCalls conn args rounds).next } :=
  loop_sendStep out (consistent_start args) rounds

/-! ## What is delivered -/

/-- The calls bring the message over, as far as they come: each is offered exactly what the ones before
it have not taken and has the result of the connection, all but the last take something, and the last is
refused or nothing is left. -/
structure Delivered (conn : Conn) (message : Str) (calls : List (Attempt UInt8)) : Prop where
  offers_rest : OffersRest message calls
  results : ∀ front a back, calls = front ++ a :: back →
    a.result = conn.write front.length a.offered.length
  in_order : taken calls <+: message
  goes_on : ∀ front a back, calls = front ++ a :: back → back ≠ [] → 0 < a.result
  offers_more : ∀ a ∈ calls, a.offered ≠ []
  stops : (∃ front a, calls = front ++ [a] ∧ a.result < 0) ∨ taken calls = message

/-- **No byte is lost, sent twice or out of order.** A connection that never returns 0 is offered what
is left until it fails or has everything, `*len` is the number of bytes it has taken, and the value
returned tells of a failure of the last call. -/
theorem sendall_delivers (conn : Conn) (args : SendArgs) (hres : ∀ k n, 0 < n → conn.write k n ≠ 0)
    (rounds : Nat) (hrounds : args.len.toNat < rounds) :
    ∃ calls, sendallCalls conn args rounds =
        { sent := calls, next := done ((taken calls).length, failure (lastResult (-1) calls)) } ∧
      Transfer conn.write 0 args.message calls ∧ Delivered conn args.message calls := by
  obtain ⟨calls, h, hle⟩ :=
    exists_transfer (not_meetsZero_of_ne_zero hres 0 args.message.length)
  rw [length_message] at hle
  have hresults : ∀ front a back, calls = front ++ a :: back →
      a.result = conn.write front.length a.offered.length := by
    intro front a back hcalls
    rw [h.result_eq hcalls, Nat.zero_add]
  refine ⟨calls, sendallCalls_of_transfer h (by omega), h, h.offersRest, hresults, h.taken_prefix, ?_,
    h.offered_ne_nil, h.stops⟩
  intro front a back hcalls hback
  have hnonneg := h.nonneg_of_front hcalls hback
  have hoffered := h.offered_ne_nil a (by simp [hcalls])
  have hne := hres front.length a.offered.length (List.length_pos_of_ne_nil hoffered)
  rw [← hresults front a back hcalls] at hne
  omega

theorem sendall_delivers_half :
    let conn : Conn :=
      { write := fun k n => if k = 2 then -1 else min 2 n
        write_le := by intro k n; split_ifs <;> omega }
    let args : SendArgs := { strbuf := lit "hello", len := 5, len_le := by decide }
    (∀ k n, 0 < n → conn.write k n ≠ 0) ∧ args.len.toNat < 6 ∧
      ∃ calls, sendallCalls conn args 6 =
          { sent := calls, next := done ((taken calls).length, failure (lastResult (-1) calls)) } ∧
        Transfer conn.write 0 args.message calls ∧ Delivered conn args.message calls := by
  intro conn args
  have hres : ∀ k n, 0 < n → conn.write k n ≠ 0 := by
    intro k n hn
    show (if k = 2 then (-1 : Int) else min 2 n) ≠ 0
    split_ifs <;> omega
  exact ⟨hres, by decide, sendall_delivers conn args hres 6 (by decide)⟩

/-! ## Calls that return 0 -/

/-- `sendall` comes to its end with not more calls that take something than there are bytes, and with
one call at most that fails, and then returns something other than 0. -/
def EndsInTime (conn : Conn) (args : SendArgs) : Prop :=
  ∃ rounds calls total ret, sendallCalls conn args rounds = { sent := calls, next := done (total, ret) } ∧
    calls.countP (fun a => 0 < a.result) ≤ args.len.toNat ∧ calls.countP (fun a => a.result ≤ 0) ≤ 1 ∧
      ((∃ a ∈ calls, a.result ≤ 0) → ret ≠ 0)

theorem failure_ne_zero_iff {n : Int} : failure n ≠ 0 ↔ n < 0 := by
  rw [failure]
  split_ifs with h
  · exact iff_of_true (Int.ne_of_lt h) h
  · exact iff_of_false (by simp) h

theorem endsInTime_of_not_meetsZero (h : ¬ MeetsZero conn.write 0 args.len.toNat) :
    EndsInTime conn args := by
  rw [← length_message] at h
  obtain ⟨calls, htransfer, -⟩ := exists_transfer h
  have hzero : ∀ a ∈ calls, a.result ≠ 0 := fun a ha hr => h (htransfer.meetsZero_iff.mpr ⟨a, ha, hr⟩)
  have hfailed : ∀ a ∈ calls, a.result ≤ 0 ↔ a.result < 0 := by
    intro a ha
    have hne := hzero a ha
    omega
  refine ⟨_, calls, _, _, sendallCalls_of_transfer htransfer (Nat.lt_succ_self _),
    length_message args ▸ htransfer.countP_pos_le, ?_, ?_⟩
  · calc calls.countP (fun a => a.result ≤ 0) = calls.countP (fun a => a.result < 0) :=
          List.countP_congr fun a ha => by simpa using hfailed a ha
      _ ≤ 1 := htransfer.countP_neg_le
  · intro h
    obtain ⟨a, ha, hr⟩ := h
    have hneg := (hfailed a ha).mp hr
    obtain ⟨front, back, rfl⟩ := List.append_of_mem ha
    have hback : back = [] := by
      by_contra hback
      exact absurd (htransfer.nonneg_of_front rfl hback) (Int.not_le.mpr hneg)
    rw [hback, lastResult_concat, failure_ne_zero_iff]
    exact hneg

theorem not_meetsZero_of_endsInTime (h : EndsInTime conn args) :
    ¬ MeetsZero conn.write 0 args.len.toNat := by
  obtain ⟨rounds, calls, total, ret, hrun, -, hone, hret⟩ := h
  obtain ⟨htransfer, hout⟩ := sendallCalls_ends_iff.mp ⟨rounds, hrun⟩
  rw [← length_message, htransfer.meetsZero_iff]
  intro h
  obtain ⟨a, ha, hzero⟩ := h
  have hlast := hret ⟨a, ha, Int.le_of_eq hzero⟩
  rw [(Prod.mk.inj hout).2, failure_ne_zero_iff] at hlast
  obtain ⟨front, b, rfl⟩ := (List.eq_nil_or_concat' calls).resolve_left (List.ne_nil_of_mem ha)
  rw [lastResult_concat] at hlast
  -- the call that returns 0 and the last one make two that fail
  have hfront : a ∈ front := by
    rcases List.mem_append.mp ha with ha | ha
    · exact ha
    · rw [List.mem_singleton.mp ha] at hzero
      omega
  have hpos : 0 < front.countP (fun a => a.result ≤ 0) :=
    List.countP_pos_iff.mpr ⟨a, hfront, by simp [hzero]⟩
  have hb : [b].countP (fun a => a.result ≤ 0) = 1 := by
    simpa using Int.le_of_lt hlast
  rw [List.countP_append, hb] at hone
  omega

/-- **When `sendall` comes to its end in time and tells of every failure**: when no call returns 0
before the message is through. -/
theorem endsInTime_iff (conn : Conn) (args : SendArgs) :
    EndsInTime conn args ↔ ¬ MeetsZero conn.write 0 args.len.toNat :=
  ⟨not_meetsZero_of_endsInTime, endsInTime_of_not_meetsZero⟩

theorem running_of_closed {st : Counters} (hst : st.Consistent args)
    (hrest : args.message.drop st.total ≠ []) (hclosed : ∀ k n, st.calls ≤ k → conn.write k n = 0)
    (rounds : Nat) : (Trace.loop (sendRound conn args) st rounds).next = running := by
  induction rounds generalizing st with
  | zero => rfl
  | succ rounds ih =>
    have hround := sendRound_of_rest conn hst rfl hrest
    rw [hclosed st.calls _ le_rfl, if_neg (Int.lt_irrefl 0)] at hround
    rw [Trace.loop_succ_of_next hround]
    exact ih (hst.next (Int.le_refl 0) (Int.natCast_nonneg _)) hrest fun k n hk =>
      hclosed k n (Nat.le_of_succ_le hk)

/-- A connection whose peer has closed it. -/
def Conn.closed : Conn where
  write _ _ := 0
  write_le _ n := Int.natCast_nonneg n

/-- Not a byte can be sent on it, and `sendall` does not return. -/
theorem closed_connection_hangs : ¬ ∀ (conn : Conn) (args : SendArgs), EndsInTime conn args := by
  intro hall
  let args : SendArgs := { strbuf := lit "a", len := 1, len_le := by decide }
  obtain ⟨rounds, calls, total, ret, hrun, -⟩ := hall .closed args
  have hnext : (sendallCalls .closed args rounds).next = running :=
    running_of_closed (consistent_start args) (by decide) (fun _ _ _ => rfl) rounds
  rw [hrun] at hnext
  simp at hnext

/-! ## The value returned -/

/-- `sendall` comes to its end, and returns 0 exactly when all bytes have been taken. -/
def TellsOutcome (conn : Conn) (args : SendArgs) : Prop :=
  ∃ rounds calls ret, sendallCalls conn args rounds =
      { sent := calls, next := done ((taken calls).length, ret) } ∧
    (ret = 0 ↔ taken calls = args.message)

theorem failure_eq_zero_iff {n : Int} : failure n = 0 ↔ 0 ≤ n := by
  rw [← not_iff_not, Int.not_le]
  exact failure_ne_zero_iff

theorem not_tellsOutcome_of_nothing (h : args.message = []) : ¬ TellsOutcome conn args := by
  intro h
  obtain ⟨rounds, calls, ret, hrun, hret⟩ := h
  obtain ⟨htransfer, hout⟩ := sendallCalls_ends_iff.mp ⟨rounds, hrun⟩
  obtain rfl := htransfer.calls_eq_nil_iff.mpr h
  have hzero : ret = 0 := hret.mpr h.symm
  rw [hzero, Prod.mk.injEq] at hout
  exact absurd hout.2 (by decide)

/-- **When the value `sendall` returns tells whether all bytes were taken**: when there are any. -/
theorem tellsOutcome_iff (conn : Conn) (args : SendArgs) (hres : ∀ k n, 0 < n → conn.write k n ≠ 0)
    (hlen : 0 ≤ args.len) : TellsOutcome conn args ↔ args.len ≠ 0 := by
  constructor
  · rintro htells hzero
    refine not_tellsOutcome_of_nothing ?_ htells
    rw [SendArgs.message, hzero]
    rfl
  · intro hne
    obtain ⟨calls, htransfer, -⟩ :=
      exists_transfer (not_meetsZero_of_ne_zero hres 0 args.message.length)
    refine ⟨_, calls, _, sendallCalls_of_transfer htransfer (Nat.lt_succ_self _), ?_⟩
    have hmessage : args.message ≠ [] := by
      rw [← List.length_pos_iff, length_message]
      omega
    -- there is a call, so the value `n` had before it does not matter
    have hlast := lastResult_of_ne_nil (mt htransfer.calls_eq_nil_iff.mp hmessage) (-1) 0
    rw [failure_eq_zero_iff, hlast]
    exact (htransfer.taken_eq_iff (Int.le_refl 0)).symm

theorem tellsOutcome_iff_failing :
    let conn : Conn :=
      { write := fun k n => if k = 0 then min 3 n else -1
        write_le := by intro k n; split_ifs <;> omega }
    let args : SendArgs := { strbuf := lit "hello", len := 5, len_le := by decide }
    (∀ k n, 0 < n → conn.write k n ≠ 0) ∧ 0 ≤ args.len ∧
      (TellsOutcome conn args ↔ args.len ≠ 0) := by
  intro conn args
  have hres : ∀ k n, 0 < n → conn.write k n ≠ 0 := by
    intro k n hn
    show (if k = 0 then min (3 : Int) n else -1) ≠ 0
    split_ifs <;> omega
  exact ⟨hres, by decide, tellsOutcome_iff conn args hres (by decide)⟩

/-- An empty file is sent, and reported as a failure. -/
theorem empty_file_fails : ¬ ∀ (conn : Conn) (args : SendArgs), (∀ k n, 0 < n → conn.write k n ≠ 0) →
    0 ≤ args.len → TellsOutcome conn args := by
  intro hall
  let args : SendArgs := { strbuf := [], len := 0, len_le := Int.le_refl 0 }
  have hnothing : args.message = [] := rfl
  refine not_tellsOutcome_of_nothing hnothing (hall .acceptAll args ?_ (Int.le_refl 0))
  intro k n hn
  show (n : Int) ≠ 0
  omega

end PwdManLib
