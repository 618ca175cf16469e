import PwdManLib.Client.ClientV2
import PwdManLib.Server.Route

/-!
# What the client hands to `SSL_write`

`main` does not send `strlen(message)` bytes but `*message_size`, which it has added up before it
rendered the message: the lengths of the format strings stand for what is put in place of their `%s` and
`%d`. `messageSize` is that sum, and `size_add` says how far it is off. The bytes sent are the message
when both sizes happen to match (`SizesMatch`). The same sum is the size of the buffer the message is
rendered into (`messageFits_iff`).
-/

namespace PwdManLib

open Exec Trace

/-- What the loop over the header arguments adds to the sum. -/
def headerSizes : List Str → Nat
  | [] => 0
  | h :: headers => h.length + crlf.length + headerSizes headers

/-- The sum `main` makes of the lengths. -/
def sizeSum (method path : Str) (args : List Str) : Nat :=
  if method = lit "GET" then
    (lit "%s %s%s%s HTTP/1.0\r\nHost: %s\r\n").length + method.length + path.length +
      (match args with
      | data :: headers => data.length + headerSizes headers
      | [] => 0) +
      crlf.length
  else
    (lit "%s %s HTTP/1.0\r\nHost: %s\r\n").length + method.length + path.length +
      (match args with
      | data :: headers =>
        headerSizes headers + ((lit "Content-Length: %d\r\n").length + 10) + crlf.length + data.length
      | [] => crlf.length)

/-- `*message_size`: the sum is made in an `int`, which wraps around at every addition. -/
def messageSize (method path : Str) (args : List Str) : Int := toInt (sizeSum method path args)

/-- `main` from the message to the connection. Behind the message's NUL there are the bytes `behind`. -/
def clientSend (argv : List Str) (behind : List UInt8) (rounds : Nat) : Trace Out Int :=
  match argv with
  | _ :: host :: _ :: method :: path :: args =>
    let path := orElse path (lit "/")
    match message method path (orElse host (lit "localhost")) args with
    | some msg => sendall .acceptAll .raw (msg ++ 0 :: behind) (messageSize method path args) rounds
    | none => pure 0
  | _ => pure 0

/-- The client gets through with sending, and has sent the message and nothing else. -/
def SendsMessage (argv : List Str) (behind : List UInt8) (msg : Str) : Prop :=
  ∃ rounds status, (clientSend argv behind rounds).next = done status ∧
    stream (clientSend argv behind rounds).sent = msg

/-! ## A buffer sent up to a given length -/

theorem sendall_whole_iff {msg : Str} (hmsg : msg ≠ []) (behind : List UInt8) (len : Int) :
    (∃ rounds status, (sendall .acceptAll .raw (msg ++ 0 :: behind) len rounds).next = done status ∧
        stream (sendall .acceptAll .raw (msg ++ 0 :: behind) len rounds).sent = msg) ↔
      len = msg.length := by
  have hpos := List.length_pos_of_ne_nil hmsg
  rcases Int.lt_or_le 0 len with hlen | hlen
  · obtain ⟨m, rfl⟩ : ∃ m : Nat, len = m := ⟨len.toNat, by omega⟩
    have hm : 0 < m := by omega
    have hsent (rounds : Nat) : stream (sendall .acceptAll .raw (msg ++ 0 :: behind) m (rounds + 2)).sent =
        (msg ++ 0 :: behind).take m := by
      rw [sendall_acceptAll hm]
      exact List.append_nil _
    constructor
    · intro h
      obtain ⟨rounds, status, hnext, hstream⟩ := h
      rw [← stable_sendall _ _ _ _ status rounds (rounds + 2) hnext (by omega), hsent] at hstream
      have htake := congrArg List.length hstream
      rw [List.length_take, List.length_append, List.length_cons] at htake
      omega
    · intro heq
      obtain rfl : m = msg.length := by omega
      exact ⟨0 + 2, 0, by rw [sendall_acceptAll hm], by rw [hsent, List.take_left]⟩
  · refine iff_of_false ?_ (by omega)
    intro h
    obtain ⟨rounds, status, hnext, hstream⟩ := h
    rw [← stable_sendall _ _ _ _ status rounds (rounds + 1) hnext (by omega), sendall_nothing hlen]
      at hstream
    exact hmsg hstream.symm

/-! ## How far the sum is off -/

theorem length_headerArgs (headers : List Str) : (headerArgs headers).length = headerSizes headers := by
  induction headers with
  | nil => rfl
  | cons h headers ih =>
    rw [headerSizes, ← ih, headerArgs, List.flatMap_cons, List.length_append, List.length_append]
    rfl

/-- What the sum counts for the `%s`, and for `%d` with its 10 digits. -/
def placeholderSize (method : Str) (args : List Str) : Nat :=
  if method = lit "GET" then 10
  else
    match args with
    | _ :: _ => 18
    | [] => 6

/-- What the message holds and the sum does not count: the host, a `?`, the digits of the content length,
and the default method. -/
def uncountedSize (method host : Str) (args : List Str) : Nat :=
  if method = lit "GET" then
    host.length +
      (match args with
      | data :: _ => if data ≠ [] then 1 else 0
      | [] => 0)
  else
    host.length + (if method ≠ [] then 0 else (lit "POST").length) +
      (match args with
      | data :: _ => (decimal (toInt data.length)).length
      | [] => 0)

theorem length_orElse (s fallback : Str) :
    (orElse s fallback).length = s.length + if s ≠ [] then 0 else fallback.length := by
  rw [orElse]
  split_ifs with h
  · rfl
  · rw [not_not.mp h, List.length_nil, Nat.zero_add]

theorem length_getFormat : (lit "%s %s%s%s HTTP/1.0\r\nHost: %s\r\n").length = 30 := rfl

theorem length_otherFormat : (lit "%s %s HTTP/1.0\r\nHost: %s\r\n").length = 26 := rfl

theorem size_add {method path host msg : Str} {args : List Str}
    (h : message method path host args = some msg) :
    sizeSum method path args + uncountedSize method host args =
      msg.length + placeholderSize method args := by
  have hlength : (lit "Content-Length: %d\r\n").length = 20 := rfl
  have hlength' : (lit "Content-Length: ").length = 16 := rfl
  have hproto : (lit " HTTP/1.0\r\nHost: ").length = 17 := rfl
  have hcrlf : crlf.length = 2 := rfl
  have hspace : (lit " ").length = 1 := rfl
  have hnone : headerSizes [] = 0 := rfl
  unfold sizeSum uncountedSize placeholderSize
  unfold message at h
  by_cases hmethod : method = lit "GET"
  · have horElse : orElse method (lit "GET") = method := if_pos (by rw [hmethod]; decide)
    simp only [if_pos hmethod, horElse] at h ⊢
    cases args with
    | nil =>
      obtain rfl := Option.some.inj h
      simp only [List.length_append, length_headerArgs, length_getFormat, hproto, hcrlf, hspace, hnone]
      omega
    | cons data headers =>
      simp only [Option.ite_none_left_eq_some] at h
      obtain rfl := Option.some.inj h.2
      simp only [List.length_append, length_headerArgs, length_getFormat, hproto, hcrlf, hspace]
      have hquestion : (if data ≠ [] then lit "?" else []).length = if data ≠ [] then 1 else 0 := by
        split_ifs <;> rfl
      omega
  · simp only [if_neg hmethod] at h ⊢
    cases args with
    | nil =>
      obtain rfl := Option.some.inj h
      simp only [List.length_append, length_headerArgs, length_orElse, length_otherFormat, hproto,
        hcrlf, hspace, hnone]
      omega
    | cons data headers =>
      obtain rfl := Option.some.inj h
      simp only [List.length_append, length_headerArgs, length_orElse, length_otherFormat, hlength,
        hlength', hproto, hcrlf, hspace]
      omega

/-- The sizes that the sum takes for granted are the ones in the message. -/
def SizesMatch (argv : List Str) : Prop :=
  match argv with
  | _ :: host :: _ :: method :: _ :: args =>
    uncountedSize method (orElse host (lit "localhost")) args = placeholderSize method args
  | _ => False

theorem placeholderSize_le (method : Str) (args : List Str) : placeholderSize method args ≤ 18 := by
  unfold placeholderSize
  split_ifs
  · decide
  · cases args with
    | nil => exact (by decide : 6 ≤ 18)
    | cons data headers => exact Nat.le_refl 18

theorem lt_sizeSum (method path : Str) (args : List Str) : 18 < sizeSum method path args := by
  have hget := length_getFormat
  have hother := length_otherFormat
  unfold sizeSum
  split_ifs <;> omega

theorem sendsMessage_iff_size {client host port method path msg : Str} {args : List Str}
    (h : message method (orElse path (lit "/")) (orElse host (lit "localhost")) args = some msg)
    (behind : List UInt8) :
    SendsMessage (client :: host :: port :: method :: path :: args) behind msg ↔
      messageSize method (orElse path (lit "/")) args = msg.length := by
  have hsize := size_add h
  have hle := placeholderSize_le method args
  have hlt := lt_sizeSum method (orElse path (lit "/")) args
  have hne : msg ≠ [] := List.ne_nil_of_length_pos (by omega)
  rw [← sendall_whole_iff hne behind]
  unfold SendsMessage clientSend
  simp only [h]

/-- **When the message is sent whole, and nothing else**: when what is counted for it is its length. -/
theorem sendsMessage_iff (argv : List Str) (behind : List UInt8) (msg : Str)
    (h : clientMain argv = some msg) :
    SendsMessage argv behind msg ↔ msg.length < 2 ^ 31 ∧ SizesMatch argv := by
  match argv, h with
  | client :: host :: port :: method :: path :: args, h =>
    have hsize := size_add h
    have hle := placeholderSize_le method args
    rw [sendsMessage_iff_size h, messageSize, toInt_eq_natCast_iff]
    unfold SizesMatch
    constructor
    · rintro ⟨hshort, hsame⟩
      exact ⟨hshort, by omega⟩
    · rintro ⟨hshort, hsame⟩
      exact ⟨hshort, by omega⟩

theorem sendsMessage_iff_query :
    let argv := [lit "client_v2", lit "localhost", lit "80", lit "GET", lit "/", lit "a=b"]
    let msg := lit "GET /?a=b HTTP/1.0\r\nHost: localhost\r\n\r\n"
    clientMain argv = some msg ∧
      (SendsMessage argv [] msg ↔ msg.length < 2 ^ 31 ∧ SizesMatch argv) :=
  ⟨by decide, sendsMessage_iff _ _ _ (by decide)⟩

/-- Without a query a NUL is sent behind the message. -/
theorem plain_get_not_sent :
    ¬ ∀ (argv : List Str) (behind : List UInt8) (msg : Str), clientMain argv = some msg →
      SendsMessage argv behind msg := by
  intro hall
  have hsent := hall [lit "client_v2", lit "localhost", lit "80", lit "GET", lit "/"] []
    (lit "GET / HTTP/1.0\r\nHost: localhost\r\n\r\n") (by decide)
  rw [sendsMessage_iff_size (by decide)] at hsent
  exact absurd hsent (by decide)

/-! ## The buffer of the message -/

/-- The message and its NUL fit in the `*message_size` bytes `main` allocates for them. -/
def MessageFits (argv : List Str) (msg : Str) : Prop :=
  match argv with
  | _ :: _ :: _ :: method :: path :: args =>
    (msg.length + 1 : Int) ≤ messageSize method (orElse path (lit "/")) args
  | _ => False

/-- What the formats and line ends add to the sum. -/
def formatSize (method : Str) (args : List Str) : Nat :=
  if method = lit "GET" then 32
  else
    match args with
    | _ :: _ => 58
    | [] => 28

/-- What the arguments add to the sum, each header with its line end. -/
def argumentSize (method path : Str) (args : List Str) : Nat :=
  method.length + path.length +
    match args with
    | data :: headers => data.length + headerSizes headers
    | [] => 0

theorem sizeSum_eq (method path : Str) (args : List Str) :
    sizeSum method path args = formatSize method args + argumentSize method path args := by
  have hlength : (lit "Content-Length: %d\r\n").length = 20 := rfl
  have hcrlf : crlf.length = 2 := rfl
  unfold sizeSum formatSize argumentSize
  split_ifs
  · rw [length_getFormat, hcrlf]
    omega
  · rw [length_otherFormat, hlength, hcrlf]
    cases args with
    | nil =>
      simp only
      omega
    | cons data headers =>
      simp only
      omega

/-- What the sum counts for nothing is more than what it leaves out, and the sum is an `int`. -/
def HasRoom (argv : List Str) : Prop :=
  match argv with
  | _ :: host :: _ :: method :: path :: args =>
    uncountedSize method (orElse host (lit "localhost")) args < placeholderSize method args ∧
      formatSize method args + argumentSize method (orElse path (lit "/")) args < 2 ^ 31
  | _ => False

/-- **When the message fits in its buffer**: when the sum leaves out less than it counts for nothing. -/
theorem messageFits_iff (argv : List Str) (msg : Str) (h : clientMain argv = some msg) :
    MessageFits argv msg ↔ HasRoom argv := by
  match argv, h with
  | client :: host :: port :: method :: path :: args, h =>
    have hsize := size_add h
    have hle := placeholderSize_le method args
    unfold MessageFits HasRoom
    simp only
    rw [← sizeSum_eq, messageSize, toInt]
    split_ifs <;> omega

theorem messageFits_iff_get :
    let argv := [lit "client_v2", lit "localhost", lit "80", lit "GET", lit "/"]
    let msg := lit "GET / HTTP/1.0\r\nHost: localhost\r\n\r\n"
    clientMain argv = some msg ∧ (MessageFits argv msg ↔ HasRoom argv) :=
  ⟨by decide, messageFits_iff _ _ (by decide)⟩

/-- A host with more than nine characters runs over. -/
theorem long_host_overruns :
    ¬ ∀ (argv : List Str) (msg : Str), clientMain argv = some msg → MessageFits argv msg := by
  intro hall
  have hfits := hall [lit "client_v2", lit "example.com", lit "80", lit "GET", lit "/"]
    (lit "GET / HTTP/1.0\r\nHost: example.com\r\n\r\n") (by decide)
  revert hfits
  unfold MessageFits
  decide

end PwdManLib
