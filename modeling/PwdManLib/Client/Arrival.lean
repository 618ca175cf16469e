import PwdManLib.Client.RoundTrip
import PwdManLib.Client.Sending
import PwdManLib.Server.Survives

/-!
# What arrives of a message

From the command line of the client to `routeClient` of the server. The client hands `sendall` its buffer up to
`*message_size`: the message, its NUL, and whatever stands behind it. The connection cuts this up in some way, and the
server takes what is in front of the first NUL for the request. That is the message exactly if the size is large enough
for it (`cstr_message_eq_iff`), and what the server sends then, if its blocks have room for the request, is what
`routeWithin` sends for the request that was rendered (`request_arrives`).
-/

namespace PwdManLib

open Exec Trace

/-! ## The bytes -/

/-- The reads bring these bytes, in whatever pieces, and then nothing more. -/
def Delivers (reads : Nat → Read) (bytes : List UInt8) : Prop :=
  ∃ k, (∀ i < k, (reads i).received ≠ []) ∧ receivedBy reads k = bytes ∧ reads k = .bytes []

theorem receivedBy_begins (reads : Nat → Read) {i k : Nat} (h : i ≤ k) : receivedBy reads i <+: receivedBy reads k := by
  induction k, h using Nat.le_induction with
  | base => exact List.prefix_refl _
  | succ k _ ih =>
    rw [receivedBy_succ]
    exact ih.trans (List.prefix_append _ _)

theorem readall_of_delivers {reads : Nat → Read} {bytes : List UInt8} (h : Delivers reads bytes)
    (hlen : bytes.length ≤ SOCK_BUFF_MAX_READ) : Finishes (readall reads) (0, bytes) := by
  obtain ⟨k, hreads, rfl, hend⟩ := h
  have hnext : ∀ i < k, readStep reads (i, receivedBy reads i) = done (.inl (i + 1, receivedBy reads (i + 1))) := by
    intro i hi
    refine readStep_next_iff.mpr ⟨hreads i hi, ?_, by rw [receivedBy_succ]⟩
    rw [← receivedBy_succ]
    exact (receivedBy_begins reads hi).length_le.trans hlen
  have hlast : readStep reads (k, receivedBy reads k) = done (.inr (0, receivedBy reads k)) := by
    simp only [readStep, hend, List.append_nil, or_true, if_true]
  exact ⟨k + 1, loop_of_rounds hnext hlast⟩

theorem cstr_take_eq_iff {msg : Str} (hmsg : 0 ∉ msg) (behind : List UInt8) (n : Nat) :
    cstr ((msg ++ 0 :: behind).take n) = msg ↔ msg.length ≤ n := by
  refine ⟨fun h => ?_, fun h => ?_⟩
  · have hbegins : cstr ((msg ++ 0 :: behind).take n) <+: (msg ++ 0 :: behind).take n := List.takeWhile_prefix _
    have hlen := hbegins.length_le
    rw [h] at hlen
    exact hlen.trans (List.length_take_le n _)
  · obtain ⟨k, rfl⟩ := Nat.exists_eq_add_of_le h
    rw [List.take_length_add_append, cstr, List.takeWhile_append_of_pos]
    · cases k with
      | zero => simp
      | succ k => simp
    · intro b hb
      simpa using fun hzero : b = 0 => hmsg (hzero ▸ hb)

/-! ## A command line -/

/-- A command line of the client, the buffer it makes, and the server's end of the connection. `argv` has no NULs, the
sizes are counted without overflow, and what is sent does not fill the buffer of the server. -/
structure Delivery where
  v : Invocation
  host_ne_nil : v.host ≠ []
  nul_notMem : 0 ∉ v.requestText.text
  size_lt : sizeSum v.method.text v.path v.args < 2 ^ 31
  behind : List UInt8
  args : SendArgs
  strbuf_eq : args.strbuf = v.requestText.text ++ 0 :: behind
  len_eq : args.len = messageSize v.method.text v.path v.args
  client : Caller
  delivers : Delivers client.reads args.message
  message_lt : args.message.length < SOCK_BUFF_DEF_READ

namespace Delivery

variable (d : Delivery)

/-- The message as the client renders it. -/
def text : Str := d.v.requestText.text

/-- The host, a `?` and the digits of the content length are not longer than what is counted for them. -/
def Counted : Prop := uncountedSize d.v.method.text d.v.host d.v.args ≤ placeholderSize d.v.method.text d.v.args

/-- The blocks of the parser have room for the request. -/
structure Fits : Prop where
  path : d.v.path.length < 8
  body : d.v.data.bodyText.length < 8
  query : d.v.data.pairs = []

theorem cstr_message_eq_iff : cstr d.args.message = d.text ↔ d.Counted := by
  have hsize := size_add d.v.message_eq_text
  have hlen : d.args.len = sizeSum d.v.method.text d.v.path d.v.args := by
    rw [d.len_eq, messageSize, toInt_of_lt d.size_lt]
  rw [SendArgs.message, d.strbuf_eq, hlen, Int.toNat_natCast]
  refine (cstr_take_eq_iff d.nul_notMem d.behind _).trans ?_
  rw [Counted]
  omega

theorem parsesWithin_of_fits {r : Request} (hr : Parses d.text r) (h : d.Fits) : ParsesWithin 0 d.text r := by
  have hfits := (d.v.fits_requestText_iff 0).mpr
    ⟨h.path, h.body, fun hpairs => absurd h.query hpairs⟩
  exact parsesWithin_iff.mpr ⟨hr, hfits⟩

theorem behind_read {recv_data : List UInt8} (hlen : recv_data.length < SOCK_BUFF_DEF_READ) (client : Caller)
    (tree : FileTree) (root_dir : Option Str) (rounds : Nat) :
    (Trace.lift (require (recv_data.length ≤ SOCK_BUFF_DEF_READ)) >>= fun _ =>
        reportReadError client.cSSL 0 rounds >>= fun _ =>
          Trace.lift (require ((cstr recv_data).length < SOCK_BUFF_DEF_READ)) >>= fun _ =>
            Trace.lift (parseRequestWithin 0 (cstr recv_data) rounds) >>= fun request =>
              routeWithin client.writes tree request root_dir) =
      Trace.lift (parseRequestWithin 0 (cstr recv_data) rounds) >>= fun request =>
        routeWithin client.writes tree request root_dir := by
  have hpure : (Trace.lift (done ()) : Trace Out Unit) = pure () := rfl
  have hreport : reportReadError client.cSSL 0 rounds = pure () := if_neg (Int.lt_irrefl 0)
  have hstr : (cstr recv_data).length < SOCK_BUFF_DEF_READ :=
    Nat.lt_of_le_of_lt (List.takeWhile_prefix _).length_le hlen
  rw [require_of_pos hlen.le, require_of_pos hstr, hpure, pure_bind, hreport, pure_bind, pure_bind]

theorem mem_sent_respondWithin_iff (tree : FileTree) (root_dir : Option Str) {r : Request}
    (hr : ParsesWithin 0 (cstr d.args.message) r) (o : Out) :
    (∃ rounds, o ∈ (respondWithin d.client tree root_dir rounds).sent) ↔
      o ∈ (routeWithin d.client.writes tree r root_dir).sent := by
  have hmax : d.args.message.length ≤ SOCK_BUFF_MAX_READ := d.message_lt.le.trans (by decide)
  have hread := readall_of_delivers d.delivers hmax
  have hstable := stable_parseRequestWithin 0 (cstr d.args.message)
  have hrequest : (∃ rounds, o ∈ (Trace.lift (parseRequestWithin 0 (cstr d.args.message) rounds) >>= fun request =>
      routeWithin d.client.writes tree request root_dir).sent) ↔
      o ∈ (routeWithin d.client.writes tree r root_dir).sent := by
    refine (exists_mem_sent_bind_iff (grows_lift hstable) fun request =>
      grows_const (routeWithin d.client.writes tree request root_dir)).trans ?_
    simp only [sent_lift, List.not_mem_nil, exists_const, false_or, next_lift]
    constructor
    · intro h
      obtain ⟨r', hr', hsent⟩ := h
      rwa [Finishes.unique hstable hr hr']
    · exact fun hsent => ⟨r, hr, hsent⟩
  rw [← hrequest]
  refine (exists_mem_sent_bind_iff (grows_lift (stable_readall d.client.reads)) fun read =>
    grows_stored d.client tree root_dir read).trans ?_
  simp only [sent_lift, List.not_mem_nil, exists_const, false_or, next_lift]
  refine ⟨fun h => ?_, fun h => ?_⟩
  · obtain ⟨read, hread', rounds, hsent⟩ := h
    obtain rfl := Finishes.unique (stable_readall d.client.reads) hread hread'
    rw [behind_read d.message_lt] at hsent
    exact ⟨rounds, hsent⟩
  · obtain ⟨rounds, hsent⟩ := h
    refine ⟨_, hread, rounds, ?_⟩
    rw [behind_read d.message_lt]
    exact hsent

/-- `client a 65501 GET /b`, with nine bytes behind the NUL of which eight are sent, cut in two on their way. -/
def get : Delivery :=
  let sent : List UInt8 := lit "GET /b HTTP/1.0\r\nHost: a\r\n\r\n" ++ [0, 1, 2, 3, 4, 5, 6, 7, 8]
  { v := .ofPath (lit "/b") (by decide)
    host_ne_nil := by decide
    nul_notMem := by decide
    size_lt := by decide
    behind := [1, 2, 3, 4, 5, 6, 7, 8, 9]
    args := { strbuf := sent ++ [9], len := 37, len_le := by decide }
    strbuf_eq := by decide
    len_eq := by decide
    client :=
      { reads := fun k => .bytes (if k = 0 then sent.take 10 else if k = 1 then sent.drop 10 else [])
        cSSL := .acceptAll
        writes := fun _ => .wrote 27 }
    delivers := ⟨2, by decide, by decide, rfl⟩
    message_lt := by decide }

theorem counted_get : get.Counted :=
  show uncountedSize (lit "GET") (lit "a") [] ≤ placeholderSize (lit "GET") [] by decide

theorem fits_get : get.Fits := ⟨by decide, by decide, rfl⟩

end Delivery

end PwdManLib
