import PwdManLib.Server.RequestText
import PwdManLib.Server.Route

/-!
# Rejected requests

A request is rejected when it could not be read or when one of the decoders says no (`Rejected`), and
served when the 200 status or a part of a file is sent (`Serves`). The checks of `respond` and
`routeClient` send their 400 and go on, so what is served depends on the method and the file alone
(`serves_respond_iff`).
-/

namespace PwdManLib

open Exec Trace

/-- A success status or file contents. -/
def IsServed (o : Out) : Prop := o = .raw ok_status ∨ ∃ part, o = .file part

/-- The run sends a success status or file contents, whether it ends or not. -/
def Serves (run : Nat → Trace Out Unit) : Prop := ∃ rounds, ∃ o ∈ (run rounds).sent, IsServed o

/-- The info byte of a request that is to be turned down. -/
def Denied (r : Request) : Prop :=
  decodeReqmts r.info = -1 ∨ decodeProto r.info = -1 ∨ decodeMethod r.info = -1

/-- `readall` reported an error, or the request it read is denied. -/
def Rejected (client : Client) : Prop :=
  ∃ status recv_data, Finishes (readall client.reads) (status, recv_data) ∧
    (status < 0 ∨ ∃ r, Parses (cstr recv_data) r ∧ Denied r)

/-- The method and the file a request has to ask for to be answered with a 200: HEAD anything, or GET
a file that is there and does not start with the number -1. -/
def Answerable (tree : FileTree) (root_dir : Str) (r : Request) : Prop :=
  decodeMethod r.info = 2 ∨ decodeMethod r.info = 1 ∧
    ∃ data, readFile tree (resourcePath root_dir r.path) = some data ∧ strtol data ≠ -1

/-- `sendall` comes to an end with the page for bad requests. -/
def PageSent (conn : Conn) : Prop :=
  ∃ status, Finishes (fun rounds => (sendall conn .page bad_request_response
    (toInt bad_request_response.length) rounds).next) status

/-! ## `routeClient` -/

theorem not_isServed_bad_request : ¬ IsServed (.raw ((bad_request_status ++ [0]).take 27)) := by
  rintro (h | ⟨part, h⟩)
  · exact absurd h (by decide)
  · simp at h

theorem not_isServed_not_found : ¬ IsServed (.raw ((not_found_status ++ [0]).take 24)) := by
  rintro (h | ⟨part, h⟩)
  · exact absurd h (by decide)
  · simp at h

theorem not_isServed_server_error : ¬ IsServed (.raw ((server_error_status ++ [0]).take 27)) := by
  rintro (h | ⟨part, h⟩)
  · exact absurd h (by decide)
  · simp at h

section route

variable (worker : Conn) (tree : FileTree) (r : Request) (root_dir : Str) (rounds : Nat)

theorem served_routeGet_iff :
    (∃ o ∈ (routeGet worker tree r root_dir rounds).sent, IsServed o) ↔
      ∃ data, readFile tree (resourcePath root_dir r.path) = some data ∧ strtol data ≠ -1 := by
  rw [routeGet]
  constructor
  · intro h
    obtain ⟨o, ho, hserved⟩ := h
    rw [mem_sent_bind] at ho
    obtain ⟨data, hdata, ho⟩ := ho.resolve_left (by simp)
    refine ⟨data, ?_, ?_⟩
    · cases hread : readFile tree (resourcePath root_dir r.path) with
      | none => simp [hread] at hdata
      | some s => rw [← done.inj (hread ▸ hdata : deref (some s) = done data)]
    · intro hfound
      rw [if_pos hfound] at ho
      obtain rfl : o = .raw ((not_found_status ++ [0]).take 24) := by simpa [writeSock] using ho
      exact not_isServed_not_found hserved
  · intro h
    obtain ⟨data, hread, hfound⟩ := h
    refine ⟨.raw ok_status, ?_, .inl rfl⟩
    rw [mem_sent_bind]
    right
    refine ⟨data, by rw [next_lift, hread, deref_some], ?_⟩
    rw [if_neg hfound, sendFile, mem_sent_bind]
    left
    exact List.mem_singleton.mpr rfl

/-- **Whether `routeClient` sends a 200 is up to the method and the file**: the three checks in front
of the `switch` have no part in it. -/
theorem served_routeClient_iff :
    (∃ o ∈ (routeClient worker tree r root_dir rounds).sent, IsServed o) ↔
      Answerable tree root_dir r := by
  have hskip (c : Prop) [Decidable c] (t : Trace Out Unit) :
      (∃ o ∈ (writeWhen c bad_request_status 27 >>= fun _ => t).sent, IsServed o) ↔
        ∃ o ∈ t.sent, IsServed o := by
    constructor
    · intro h
      obtain ⟨o, ho, hserved⟩ := h
      rcases mem_sent_writeWhen_bind.mp ho with ⟨-, rfl⟩ | ho
      · exact absurd hserved not_isServed_bad_request
      · exact ⟨o, ho, hserved⟩
    · intro h
      obtain ⟨o, ho, hserved⟩ := h
      exact ⟨o, mem_sent_writeWhen_bind.mpr (.inr ho), hserved⟩
  rw [routeClient, hskip, hskip, hskip, Answerable]
  by_cases hget : decodeMethod r.info = 1
  · rw [if_pos hget, served_routeGet_iff]
    simp [hget]
  · rw [if_neg hget]
    constructor
    · intro h
      obtain ⟨o, ho, hserved⟩ := h
      rcases mem_sent_writeWhen_bind.mp ho with ⟨hhead, -⟩ | ho
      · exact .inl hhead
      · obtain rfl : o = .raw ((server_error_status ++ [0]).take 27) := by
          simpa [writeSock] using ho
        exact absurd hserved not_isServed_server_error
    · rintro (hhead | ⟨hget', -⟩)
      · exact ⟨.raw ok_status, mem_sent_writeWhen_bind.mpr (.inl ⟨hhead, rfl⟩), .inl rfl⟩
      · exact absurd hget' hget

end route

theorem Answerable.contents {tree : FileTree} {root_dir : Str} {r : Request}
    (h : Answerable tree root_dir r) (hget : decodeMethod r.info = 1) :
    ∃ bytes, tree (resourcePath root_dir r.path) = .contents bytes := by
  rcases h with hhead | ⟨-, data, hread, hfound⟩
  · omega
  · by_contra hno
    push Not at hno
    exact hfound (strtol_of_read_error hread hno)

/-! ## `respond` -/

theorem sent_reportReadError {conn : Conn} {status : Int} {rounds : Nat} {o : Out}
    (ho : o ∈ (reportReadError conn status rounds).sent) : ∃ part, o = .page part := by
  rw [reportReadError] at ho
  split_ifs at ho
  · rw [mem_sent_bind] at ho
    exact sent_sendall (ho.resolve_right (by simp))
  · simp at ho

theorem next_reportReadError_iff {conn : Conn} {status : Int} :
    Finishes (fun rounds => (reportReadError conn status rounds).next) () ↔
      (status < 0 → PageSent conn) := by
  by_cases hneg : status < 0
  · simp only [reportReadError, if_pos hneg, next_bind]
    constructor
    · rintro ⟨rounds, h⟩ -
      obtain ⟨n, hn, -⟩ := bind_eq_done.mp h
      exact ⟨n, rounds, hn⟩
    · intro h
      obtain ⟨n, rounds, hn⟩ := h hneg
      exact ⟨rounds, bind_eq_done.mpr ⟨n, hn, rfl⟩⟩
  · simp only [reportReadError, if_neg hneg]
    exact ⟨fun _ h => absurd h hneg, fun _ => ⟨0, rfl⟩⟩

theorem stable_reportReadError (conn : Conn) (status : Int) :
    Trace.Stable fun rounds => reportReadError conn status rounds := by
  by_cases hneg : status < 0
  · simp only [reportReadError, if_pos hneg]
    exact (stable_sendall _ _ _ _).bind fun _ => Trace.stable_const _
  · simp only [reportReadError, if_neg hneg]
    exact Trace.stable_const _

/-- **When a client is served**: a failed read only adds the page for bad requests in front. -/
theorem serves_respond_iff (client : Client) (tree : FileTree) (root_dir : Str) :
    Serves (respond client tree root_dir) ↔
      ∃ status recv_data r, Finishes (readall client.reads) (status, recv_data) ∧
        (status < 0 → PageSent client.cSSL) ∧ Parses (cstr recv_data) r ∧
        Answerable tree root_dir r := by
  constructor
  · rintro ⟨rounds, o, ho, hserved⟩
    rw [respond, mem_sent_bind] at ho
    obtain ⟨⟨status, recv_data⟩, hread, ho⟩ := ho.resolve_left (by simp)
    rw [mem_sent_bind] at ho
    obtain ⟨⟨⟩, hpage, ho⟩ := ho.resolve_left fun hpage => by
      obtain ⟨part, rfl⟩ := sent_reportReadError hpage
      rcases hserved with h | ⟨_, h⟩ <;> simp at h
    rw [mem_sent_bind] at ho
    obtain ⟨r, hparse, ho⟩ := ho.resolve_left (by simp)
    refine ⟨status, recv_data, r, ⟨rounds, hread⟩, ?_, ⟨rounds, hparse⟩, ?_⟩
    · exact next_reportReadError_iff.mp ⟨rounds, hpage⟩
    · exact (served_routeClient_iff client.worker tree r root_dir rounds).mp ⟨o, ho, hserved⟩
  · rintro ⟨status, recv_data, r, ⟨n₁, hread⟩, hpage, ⟨n₂, hparse⟩, hanswer⟩
    obtain ⟨n₃, hreport⟩ := next_reportReadError_iff.mpr hpage
    -- one number of rounds is enough for all three parts
    let rounds := max n₁ (max n₂ n₃)
    have hread' := stable_readall _ _ _ rounds hread (by omega)
    have hparse' := stable_parseRequest _ _ _ rounds hparse (by omega)
    have hreport' := (stable_reportReadError _ _).next _ _ rounds hreport (by omega)
    obtain ⟨o, ho, hserved⟩ :=
      (served_routeClient_iff client.worker tree r root_dir rounds).mpr hanswer
    refine ⟨rounds, o, ?_, hserved⟩
    rw [respond, mem_sent_bind]
    refine .inr ⟨(status, recv_data), hread', ?_⟩
    rw [mem_sent_bind]
    refine .inr ⟨(), hreport', ?_⟩
    rw [mem_sent_bind]
    exact .inr ⟨r, hparse', ho⟩

/-- **When a rejected client is not served**: unless it asks for something that is answered with a 200,
its text is parsed, and the page for bad requests, if it comes first, gets through. -/
theorem rejected_unserved_iff (client : Client) (tree : FileTree) (root_dir : Str) :
    (Rejected client → ¬ Serves (respond client tree root_dir)) ↔
      ¬ ∃ status recv_data r, Finishes (readall client.reads) (status, recv_data) ∧
        Parses (cstr recv_data) r ∧ (status < 0 ∨ Denied r) ∧ (status < 0 → PageSent client.cSSL) ∧
        Answerable tree root_dir r := by
  rw [serves_respond_iff]
  constructor
  · rintro hsafe ⟨status, recv_data, r, hread, hparse, hwhy, hpage, hanswer⟩
    refine hsafe ⟨status, recv_data, hread, ?_⟩ ⟨status, recv_data, r, hread, hpage, hparse, hanswer⟩
    exact hwhy.imp_right fun hdenied => ⟨r, hparse, hdenied⟩
  · rintro hnot ⟨status, recv_data, hread, hwhy⟩
      ⟨status', recv_data', r, hread', hpage, hparse, hanswer⟩
    obtain ⟨rfl, rfl⟩ := Prod.mk.inj (Finishes.unique (stable_readall _) hread hread')
    refine hnot ⟨status, recv_data, r, hread, hparse, ?_, hpage, hanswer⟩
    rcases hwhy with hneg | ⟨r', hparse', hdenied⟩
    · exact .inl hneg
    · rw [hparse'.unique hparse] at hdenied
      exact .inr hdenied

/-- A file goes to a client that speaks no known protocol. -/
theorem unknown_protocol_served :
    ¬ ∀ (client : Client) (tree : FileTree) (root_dir : Str), Rejected client →
      ¬ Serves (respond client tree root_dir) := by
  intro hall
  let text := lit "GET /a HTTP/9.9\r\n\r\n"
  let client : Client :=
    { reads := fun k => if k = 0 then .bytes text else .bytes []
      cSSL := .acceptAll
      worker := .acceptAll }
  have hread : Finishes (readall client.reads) (0, text) := ⟨2, by decide⟩
  obtain ⟨r, hr, -, hinfo⟩ := exists_parses_line (lit "GET") (lit "/a") (lit "HTTP/9.9") (by decide)
    (by decide) (by decide) (by decide)
  have hparse : Parses (cstr text) r := hr
  have hproto : decodeProto r.info = -1 := by
    rw [hinfo]
    decide
  have hmethod : decodeMethod r.info = 1 := by
    rw [hinfo]
    decide
  refine hall client (fun _ => .contents (lit "hello")) (lit "/srv")
    ⟨0, text, hread, .inr ⟨r, hparse, .inr (.inl hproto)⟩⟩ ?_
  rw [serves_respond_iff]
  exact ⟨0, text, r, hread, fun h => absurd h (by decide), hparse,
    .inr ⟨hmethod, lit "hello", rfl, by decide⟩⟩

end PwdManLib
