import PwdManLib.Crypto.SendAll
import PwdManLib.Lib.Standstill
import PwdManLib.Server.ReadBuffer

/-!
# Client and server wait for each other

The client and the server behind their handshake, with the bytes between them: `sendall` and `readall` of
`client/client_v2.c` against `readall` of `respond`, round by round and in any order, however the bytes are cut up on
their way. The client keeps its side open while it waits for the answer, and `readall` of the server goes on until
nothing can come any more. So the server does not answer as long as the client is there (`unanswered_while_there`), and
every run ends with the two waiting for each other (`comes_to_standstill`).
-/

namespace PwdManLib

open Exec Standstill

/-! ## The two parties -/

/-- Where the client is: in `sendall`, in `readall`, or not there any more. -/
inductive ClientAt where
  | sending (st : Counters)
  | reading (st : Nat × List UInt8)
  | gone

/-- Where the server is: in `readall`, behind it, or done with the client. -/
inductive ServerAt where
  | reading (st : Nat × List UInt8)
  | answering (status : Int) (recv_data : List UInt8)
  | gone

/-- The two parties, and the bytes on their way from the client and to it. -/
structure Parties where
  client : ClientAt
  server : ServerAt
  up : List UInt8
  down : List UInt8

/-- A connection that takes up to `n` bytes. -/
def Conn.taking (n : Nat) : Conn where
  write _ len := (min n len : Nat)
  write_le _ len := Int.ofNat_le.mpr (Nat.min_le_right n len)

/-- The client behind a round of `sendall`: when that fails it leaves. -/
def afterSend : Counters ⊕ (Nat × Int) → ClientAt
  | .inl st => .sending st
  | .inr (_, status) => if status < 0 then .gone else .reading (0, [])

/-- The client behind a round of `readall`: when it has its answer, or none, it leaves. -/
def afterReceive : (Nat × List UInt8) ⊕ (Int × List UInt8) → ClientAt
  | .inl st => .reading st
  | .inr _ => .gone

/-- The server behind a round of `readall`. -/
def afterRead : (Nat × List UInt8) ⊕ (Int × List UInt8) → ServerAt
  | .inl st => .reading st
  | .inr (status, recv_data) => .answering status recv_data

/-- What one of the two does next. No call fails; an `SSL_read` waits until there is something, or the other side is
gone. What the server sends behind its `readall` is left open. -/
inductive Step (args : SendArgs) : Parties → Parties → Prop where
  | write {w : Parties} {st : Counters} {r : Counters ⊕ (Nat × Int)} (n : Nat) (hn : 0 < n)
      (hclient : w.client = .sending st) (hround : (sendRound (.taking n) args st).next = done r) :
      Step args w { w with client := afterSend r, up := w.up ++ taken (sendRound (.taking n) args st).sent }
  | read {w : Parties} {st : Nat × List UInt8} {r : (Nat × List UInt8) ⊕ (Int × List UInt8)} {chunk rest : List UInt8}
      (hserver : w.server = .reading st) (hup : w.up = chunk ++ rest) (hne : chunk ≠ [])
      (hle : chunk.length ≤ SOCK_BUFF_DEF_READ) (hround : readStep (fun _ => .bytes chunk) st = done r) :
      Step args w { w with server := afterRead r, up := rest }
  | readEnd {w : Parties} {st : Nat × List UInt8} {r : (Nat × List UInt8) ⊕ (Int × List UInt8)}
      (hserver : w.server = .reading st) (hup : w.up = []) (hclient : w.client = .gone)
      (hround : readStep (fun _ => .bytes []) st = done r) : Step args w { w with server := afterRead r }
  | answer {w : Parties} {status : Int} {recv_data : List UInt8} (bytes : List UInt8)
      (hserver : w.server = .answering status recv_data) :
      Step args w { w with server := .gone, down := w.down ++ bytes }
  | receive {w : Parties} {st : Nat × List UInt8} {r : (Nat × List UInt8) ⊕ (Int × List UInt8)}
      {chunk rest : List UInt8} (hclient : w.client = .reading st) (hdown : w.down = chunk ++ rest) (hne : chunk ≠ [])
      (hle : chunk.length ≤ SOCK_BUFF_DEF_READ) (hround : readStep (fun _ => .bytes chunk) st = done r) :
      Step args w { w with client := afterReceive r, down := rest }
  | receiveEnd {w : Parties} {st : Nat × List UInt8} {r : (Nat × List UInt8) ⊕ (Int × List UInt8)}
      (hclient : w.client = .reading st) (hdown : w.down = []) (hserver : w.server = .gone)
      (hround : readStep (fun _ => .bytes []) st = done r) : Step args w { w with client := afterReceive r }

/-- The two behind the handshake. -/
def Parties.start (args : SendArgs) : Parties where
  client := .sending { calls := 0, total := 0, bytesleft := args.len, n := -1 }
  server := .reading (0, [])
  up := []
  down := []

/-! ## What is under way -/

variable {args : SendArgs}

/-- The client is there, and has this still to send. -/
inductive ClientAt.HasToSend (args : SendArgs) : ClientAt → Str → Prop where
  | sending {st : Counters} (hst : st.Consistent args) (hn : 0 < st.total → 0 ≤ st.n) :
      HasToSend args (.sending st) (args.message.drop st.total)
  | reading : HasToSend args (.reading (0, [])) []

/-- The server is in `readall` and has sent nothing, and no byte of the message is lost. -/
structure Parties.Unanswered (args : SendArgs) (w : Parties) : Prop where
  message : ∃ calls buf rest, w.server = .reading (calls, buf) ∧ w.client.HasToSend args rest ∧
    buf ++ w.up ++ rest = args.message
  down : w.down = []

/-- How much there is left to do. -/
def Parties.left (args : SendArgs) (w : Parties) : Nat :=
  (match w.client with
    | .sending st => 2 * (args.message.drop st.total).length + 1
    | .reading _ => 0
    | .gone => 0) + w.up.length

/-- Each of the two waits for the other. -/
structure Parties.Deadlocked (args : SendArgs) (w : Parties) : Prop where
  client : w.client = .reading (0, [])
  server : ∃ calls, w.server = .reading (calls, args.message)
  up : w.up = []
  down : w.down = []

theorem unanswered_start (args : SendArgs) : (Parties.start args).Unanswered args where
  message := ⟨0, [], _, rfl, .sending (consistent_start args) (fun h => absurd h (Nat.lt_irrefl 0)), rfl⟩
  down := rfl

theorem sendRound_taking {st : Counters} (hst : st.Consistent args) {n : Nat} (hn : 0 < n)
    (hne : args.message.drop st.total ≠ []) :
    ∃ st', (sendRound (.taking n) args st).next = done (.inl st') ∧ st'.Consistent args ∧
      0 ≤ st'.n ∧ st.total < st'.total ∧
      taken (sendRound (.taking n) args st).sent ++ args.message.drop st'.total = args.message.drop st.total := by
  have hround := sendRound_of_rest (.taking n) hst rfl hne
  generalize hrest : args.message.drop st.total = rest at *
  have hpos := List.length_pos_of_ne_nil hne
  have hwrite : (Conn.taking n).write st.calls rest.length = (min n rest.length : Nat) := rfl
  rw [hwrite, if_neg (Int.not_lt.mpr (Int.natCast_nonneg _))] at hround
  rw [hround]
  refine ⟨_, rfl, ?_, Int.natCast_nonneg _, ?_, ?_⟩
  · refine hst.next (Int.natCast_nonneg _) ?_
    rw [hrest]
    exact Int.ofNat_le.mpr (Nat.min_le_right n _)
  · show st.total < st.total + (min n rest.length : Nat)
    omega
  · show taken [⟨rest, (min n rest.length : Nat)⟩] ++ args.message.drop (st.total + (min n rest.length : Nat)) = rest
    rw [← List.drop_drop, hrest, taken_cons, taken_nil, List.append_nil]
    exact List.take_append_drop _ rest

theorem sendRound_end {st : Counters} (hst : st.Consistent args) (hn : 0 < st.total → 0 ≤ st.n) (hlen : 0 < args.len)
    (n : Nat) (hnil : args.message.drop st.total = []) :
    sendRound (.taking n) args st = { sent := [], next := done (.inr (st.total, 0)) } := by
  have htotal : 0 < st.total := by
    have hdone := mt (rest_ne_nil_iff hst).mpr (not_not_intro hnil)
    omega
  have hfailure : failure st.n = 0 := if_neg (Int.not_lt.mpr (hn htotal))
  rw [sendRound_of_nil (.taking n) hst hnil, hfailure]

theorem readStep_chunk {calls : Nat} {buf chunk : List UInt8} (hne : chunk ≠ [])
    (hle : (buf ++ chunk).length ≤ SOCK_BUFF_MAX_READ) :
    readStep (fun _ => .bytes chunk) (calls, buf) = done (.inl (calls + 1, buf ++ chunk)) :=
  readStep_next_iff.mpr ⟨hne, hle, rfl⟩

theorem readStep_empty (calls : Nat) (buf : List UInt8) :
    readStep (fun _ => .bytes []) (calls, buf) = done (.inr (0, buf ++ [])) :=
  if_pos (.inr rfl)

section steps

variable (hlen : 0 < args.len) (hfits : args.message.length ≤ SOCK_BUFF_MAX_READ)

include hlen hfits

/-- **What a step does** as long as the client has no answer: it sends a part of the message, leaves `sendall`, or
brings a part of the message to the server. -/
theorem Parties.Unanswered.step {w w' : Parties} (h : w.Unanswered args) (hstep : Step args w w') :
    w'.Unanswered args ∧ w'.left args < w.left args := by
  obtain ⟨⟨calls, buf, rest, hserver, hclient, hmessage⟩, hdown⟩ := h
  cases hstep with
  | write n hn hsending hround =>
    rename_i st r
    rw [hsending] at hclient
    cases hclient with
    | sending hst hresult =>
      by_cases hnil : args.message.drop st.total = []
      · have hend := sendRound_end hst hresult hlen n hnil
        rw [hend] at hround ⊢
        obtain rfl := done.inj hround
        refine ⟨⟨⟨calls, buf, [], hserver, .reading, ?_⟩, hdown⟩, ?_⟩
        · rw [hnil] at hmessage
          simpa using hmessage
        · simp [Parties.left, hsending, afterSend, hnil]
      · obtain ⟨st', hnext, hst', hresult', htotal, htaken⟩ := sendRound_taking hst hn hnil
        obtain rfl := done.inj (hnext.symm.trans hround)
        refine ⟨⟨⟨calls, buf, _, hserver, .sending hst' fun _ => hresult', ?_⟩, hdown⟩, ?_⟩
        · rw [← List.append_assoc, List.append_assoc _ _ (args.message.drop st'.total), htaken]
          exact hmessage
        · have hlength := congrArg List.length htaken
          rw [List.length_append, List.length_drop, List.length_drop] at hlength
          simp only [Parties.left, hsending, afterSend, List.length_append, List.length_drop]
          have hrest := List.length_pos_of_ne_nil hnil
          rw [List.length_drop] at hrest
          omega
  | read hreading hup hne hle hround =>
    rename_i st r chunk behind
    obtain rfl : (calls, buf) = st := ServerAt.reading.inj (hserver.symm.trans hreading)
    rw [hup] at hmessage
    have hstored : (buf ++ chunk).length ≤ SOCK_BUFF_MAX_READ := by
      have hlength := congrArg List.length hmessage
      simp only [List.length_append] at hlength ⊢
      omega
    obtain rfl := done.inj ((readStep_chunk hne hstored).symm.trans hround)
    refine ⟨⟨⟨calls + 1, buf ++ chunk, rest, rfl, hclient, ?_⟩, hdown⟩, ?_⟩
    · rw [← hmessage]
      simp
    · have hpos := List.length_pos_of_ne_nil hne
      simp only [Parties.left, hup, List.length_append]
      omega
  | readEnd hreading hup hgone hround =>
    rw [hgone] at hclient
    cases hclient
  | answer bytes hanswering => exact absurd (hserver.symm.trans hanswering) (by simp)
  | receive hreading hcoming hne hle hround =>
    rw [hdown] at hcoming
    exact absurd (List.append_eq_nil_iff.mp hcoming.symm).1 hne
  | receiveEnd hreading hcoming hgone hround => exact absurd (hserver.symm.trans hgone) (by simp)

theorem Parties.Unanswered.exists_step {w : Parties} (h : w.Unanswered args) (hlive : ¬ w.Deadlocked args) :
    ∃ w', Step args w w' := by
  obtain ⟨⟨calls, buf, rest, hserver, hclient, hmessage⟩, hdown⟩ := h
  generalize hat : w.client = client at hclient
  cases hclient with
  | sending hst hresult =>
    rename_i st
    by_cases hnil : args.message.drop st.total = []
    · have hend := sendRound_end hst hresult hlen 1 hnil
      exact ⟨_, .write 1 Nat.one_pos hat (congrArg Trace.next hend)⟩
    · obtain ⟨st', hnext, -⟩ := sendRound_taking hst Nat.one_pos hnil
      exact ⟨_, .write 1 Nat.one_pos hat hnext⟩
  | reading =>
    cases hup : w.up with
    | nil =>
      rw [hup, List.append_nil, List.append_nil] at hmessage
      exact absurd ⟨hat, ⟨calls, hmessage ▸ hserver⟩, hup, hdown⟩ hlive
    | cons b behind =>
      have hstored : (buf ++ [b]).length ≤ SOCK_BUFF_MAX_READ := by
        rw [hup] at hmessage
        have hlength := congrArg List.length hmessage
        simp only [List.length_append, List.length_cons, List.length_nil] at hlength ⊢
        omega
      have hone : 1 ≤ SOCK_BUFF_DEF_READ := by decide
      exact ⟨_, .read hserver hup (List.cons_ne_nil b []) hone (readStep_chunk (List.cons_ne_nil b []) hstored)⟩

end steps

theorem Parties.Deadlocked.stuck {w : Parties} (h : w.Deadlocked args) : Stuck (Step args) w := by
  intro w' hstep
  obtain ⟨calls, hserver⟩ := h.server
  cases hstep with
  | write n hn hsending hround => exact absurd (h.client.symm.trans hsending) (by simp)
  | read hreading hup hne hle hround =>
    rw [h.up] at hup
    exact hne (List.append_eq_nil_iff.mp hup.symm).1
  | readEnd hreading hup hgone hround => exact absurd (h.client.symm.trans hgone) (by simp)
  | answer bytes hanswering => exact absurd (hserver.symm.trans hanswering) (by simp)
  | receive hreading hcoming hne hle hround =>
    rw [h.down] at hcoming
    exact hne (List.append_eq_nil_iff.mp hcoming.symm).1
  | receiveEnd hreading hcoming hgone hround => exact absurd (hserver.symm.trans hgone) (by simp)

theorem drains (hlen : 0 < args.len) (hfits : args.message.length ≤ SOCK_BUFF_MAX_READ) :
    Drains (Step args) (Parties.Unanswered args) (Parties.Deadlocked args) (Parties.left args) where
  keeps _ _ h hstep := (h.step hlen hfits hstep).1
  lowers _ _ h hstep := (h.step hlen hfits hstep).2
  goes_on _ h hlive := h.exists_step hlen hfits hlive
  stops _ h := h.stuck

/-! ## Every run -/

/-- **Every run ends with the two waiting for each other.** Whatever has been done, in whatever order and pieces, no
byte is lost and none is sent to the client; a run has at most two steps for each byte, and one more; it can go on
exactly until both wait; and it can always be carried on to there. -/
theorem comes_to_standstill (args : SendArgs) (hlen : 0 < args.len)
    (hfits : args.message.length ≤ SOCK_BUFF_DEF_READ) {n : Nat} {w : Parties}
    (hrun : Run (Step args) n (.start args) w) :
    w.Unanswered args ∧ n ≤ 2 * args.message.length + 1 ∧
      (Stuck (Step args) w ↔ w.Deadlocked args) ∧
      ∃ w', Relation.ReflTransGen (Step args) w w' ∧ w'.Deadlocked args := by
  have hmax : args.message.length ≤ SOCK_BUFF_MAX_READ := hfits.trans (by decide)
  have hdrains := drains hlen hmax
  have hunanswered := hrun.invariant hdrains.keeps (unanswered_start args)
  have hsteps := hdrains.length_le hrun (unanswered_start args)
  obtain ⟨w', hreach, -, hdead⟩ := hdrains.reaches_final hunanswered
  refine ⟨hunanswered, ?_, hdrains.stuck_iff hunanswered, w', hreach, hdead⟩
  exact (Nat.le_add_right n _).trans hsteps

theorem comes_to_standstill_hi :
    ∃ (args : SendArgs) (w : Parties), Run (Step args) 1 (.start args) w ∧ w.up = lit "h" ∧
      ∃ w', Relation.ReflTransGen (Step args) w w' ∧ w'.Deadlocked args := by
  let args : SendArgs := { strbuf := lit "hi", len := 2, len_le := by decide }
  let st : Counters := { calls := 1, total := 1, bytesleft := 1, n := 1 }
  have hround : (sendRound (.taking 1) args ⟨0, 0, 2, -1⟩).next = done (.inl st) := rfl
  have hstep := Step.write (w := .start args) 1 Nat.one_pos rfl hround
  have hrun := (Run.refl (Parties.start args)).tail hstep
  have hends := comes_to_standstill args (by decide) (by decide) hrun
  exact ⟨args, _, hrun, rfl, hends.2.2.2⟩

/-! ## A client that is stopped -/

/-- The client may be stopped at any point. -/
def StepOrQuit (args : SendArgs) (w w' : Parties) : Prop := Step args w w' ∨ w' = { w with client := .gone }

/-- What a client that is there has sent so far. -/
def ClientAt.given (args : SendArgs) : ClientAt → Str
  | .sending st => args.message.take st.total
  | .reading _ => args.message
  | .gone => []

/-- What the server is at, with the bytes that come to it, when all that comes is `sent`. -/
inductive ServerAt.Follows (sent : Str) : ServerAt → List UInt8 → Prop where
  | reading {calls : Nat} {buf up : List UInt8} (h : buf ++ up = sent) : Follows sent (.reading (calls, buf)) up
  | answering : Follows sent (.answering 0 sent) []
  | gone : Follows sent .gone []

/-- The client is not there any more, and had sent this. -/
structure Parties.Abandoned (sent : Str) (w : Parties) : Prop where
  client : w.client = .gone
  server : w.server.Follows sent w.up

theorem ClientAt.HasToSend.given_append {client : ClientAt} {rest : Str} (h : client.HasToSend args rest) :
    client.given args ++ rest = args.message := by
  cases h with
  | sending hst hn => exact List.take_append_drop _ _
  | reading => exact List.append_nil _

theorem Parties.Unanswered.length_given_le {w : Parties} (h : w.Unanswered args) :
    (w.client.given args).length ≤ args.message.length := by
  obtain ⟨calls, buf, rest, -, hclient, -⟩ := h.message
  rw [← hclient.given_append, List.length_append]
  exact Nat.le_add_right _ _

theorem Parties.Unanswered.abandoned {w : Parties} (h : w.Unanswered args) :
    ({ w with client := .gone } : Parties).Abandoned (w.client.given args) where
  client := rfl
  server := by
    obtain ⟨calls, buf, rest, hserver, hclient, hmessage⟩ := h.message
    rw [← hclient.given_append] at hmessage
    show w.server.Follows (w.client.given args) w.up
    rw [hserver]
    exact .reading (List.append_cancel_right hmessage)

theorem Parties.Abandoned.step {sent : Str} (hfits : sent.length ≤ SOCK_BUFF_MAX_READ) {w w' : Parties}
    (h : w.Abandoned sent) (hstep : Step args w w') : w'.Abandoned sent := by
  obtain ⟨hgone, hfollows⟩ := h
  cases hstep with
  | write n hn hsending hround => exact absurd (hgone.symm.trans hsending) (by simp)
  | read hreading hup hne hle hround =>
    rename_i st r chunk behind
    rw [hreading, hup] at hfollows
    cases hfollows with
    | reading hsent =>
      rename_i calls buf
      have hstored : (buf ++ chunk).length ≤ SOCK_BUFF_MAX_READ := by
        have hlength := congrArg List.length hsent
        simp only [List.length_append] at hlength ⊢
        omega
      obtain rfl := done.inj ((readStep_chunk hne hstored).symm.trans hround)
      rw [← List.append_assoc] at hsent
      exact ⟨hgone, .reading hsent⟩
  | readEnd hreading hup _ hround =>
    rw [hreading, hup] at hfollows
    cases hfollows with
    | reading hsent =>
      rename_i calls buf
      subst hsent
      obtain rfl := done.inj ((readStep_empty calls buf).symm.trans hround)
      refine ⟨hgone, ?_⟩
      show ServerAt.Follows (buf ++ []) (.answering 0 (buf ++ [])) w.up
      rw [hup]
      exact .answering
  | answer bytes hanswering =>
    rw [hanswering] at hfollows
    generalize w.up = up at hfollows
    cases hfollows with
    | answering => exact ⟨hgone, .gone⟩
  | receive hreading => exact absurd (hgone.symm.trans hreading) (by simp)
  | receiveEnd hreading => exact absurd (hgone.symm.trans hreading) (by simp)

/-- **The server does not answer as long as the client is there.** If the client is stopped, at whatever point, what
the server takes for the request is what the client had sent then. -/
theorem unanswered_while_there (args : SendArgs) (hlen : 0 < args.len)
    (hfits : args.message.length ≤ SOCK_BUFF_DEF_READ) {w : Parties}
    (hreach : Relation.ReflTransGen (StepOrQuit args) (.start args) w) :
    w.Unanswered args ∨
      ∃ last : Parties, Relation.ReflTransGen (Step args) (.start args) last ∧ last.Unanswered args ∧
        Relation.ReflTransGen (Step args) { last with client := .gone } w ∧ w.Abandoned (last.client.given args) := by
  have hmax : args.message.length ≤ SOCK_BUFF_MAX_READ := hfits.trans (by decide)
  suffices h : (Relation.ReflTransGen (Step args) (.start args) w ∧ w.Unanswered args) ∨
      ∃ last : Parties, Relation.ReflTransGen (Step args) (.start args) last ∧ last.Unanswered args ∧
        Relation.ReflTransGen (Step args) { last with client := .gone } w ∧ w.Abandoned (last.client.given args) from
    h.imp_left And.right
  induction hreach with
  | refl => exact .inl ⟨.refl, unanswered_start args⟩
  | tail _ hstep ih =>
    rename_i w₁ w₂ _
    rcases hstep with hstep | rfl
    · rcases ih with ⟨hfrom, hunanswered⟩ | ⟨last, hlast, hunanswered, hfrom, habandoned⟩
      · exact .inl ⟨hfrom.tail hstep, (hunanswered.step hlen hmax hstep).1⟩
      · have hsent := hunanswered.length_given_le.trans hmax
        exact .inr ⟨last, hlast, hunanswered, hfrom.tail hstep, habandoned.step hsent hstep⟩
    · rcases ih with ⟨hfrom, hunanswered⟩ | ⟨last, hlast, hunanswered, hfrom, habandoned⟩
      · exact .inr ⟨w₁, hfrom, hunanswered, .refl, hunanswered.abandoned⟩
      · have hsame : ({ w₁ with client := .gone } : Parties) = w₁ := by rw [← habandoned.client]
        rw [hsame]
        exact .inr ⟨last, hlast, hunanswered, hfrom, habandoned⟩

theorem unanswered_while_there_hi :
    ∃ (args : SendArgs) (w : Parties), Relation.ReflTransGen (StepOrQuit args) (.start args) w ∧ w.up = lit "h" ∧
      w.Abandoned (lit "h") := by
  let args : SendArgs := { strbuf := lit "hi", len := 2, len_le := by decide }
  let st : Counters := { calls := 1, total := 1, bytesleft := 1, n := 1 }
  have hround : (sendRound (.taking 1) args ⟨0, 0, 2, -1⟩).next = done (.inl st) := rfl
  have hstep := Step.write (w := .start args) 1 Nat.one_pos rfl hround
  have hsent : Relation.ReflTransGen (StepOrQuit args) (.start args) _ := .single (.inl hstep)
  have hreach := hsent.tail (.inr rfl)
  have hends := unanswered_while_there args (by decide) (by decide) hreach
  refine ⟨args, _, hreach, rfl, ?_⟩
  rcases hends with hunanswered | ⟨last, -, -, -, habandoned⟩
  · obtain ⟨calls, buf, rest, -, hclient, -⟩ := hunanswered.message
    cases hclient
  · have hgiven : last.client.given args = lit "h" := by
      cases habandoned.server with
      | reading hsent => exact hsent.symm
    rwa [hgiven] at habandoned

end PwdManLib
