import PwdManLib.Server.RequestText
import PwdManLib.Server.Route

/-!
# What a client that accepts everything receives

An HTTP response is a status line, header lines, an empty line and a body (`IsResponse`). `routeClient`
writes status lines and file contents and nothing else, so the stream is a response only if the file
brings its own header lines and empty line (`routeGet_answer`): a second status line is no header, and
neither is what follows a 400, which is sent with the NUL of its literal.
-/

namespace PwdManLib

open Exec Trace

/-! ## Responses -/

/-- A version, a code of three digits and a reason, on one line. -/
def IsStatusLine (l : Str) : Prop :=
  ¬ crlf <:+: l ∧ ∃ major minor code reason,
    l = lit "HTTP/" ++ [major] ++ lit "." ++ [minor] ++ lit " " ++ code ++ lit " " ++ reason ∧
      code.length = 3 ∧ ∀ c ∈ major :: minor :: code, 48 ≤ c ∧ c ≤ 57

/-- A name without blanks, a colon and a value, on one line. -/
def IsHeaderLine (l : Str) : Prop :=
  ¬ crlf <:+: l ∧ ∃ name value, l = name ++ 58 :: value ∧ name ≠ [] ∧ 58 ∉ name ∧ 32 ∉ name

/-- Header lines, an empty line, and a body. -/
def IsHeadedBody (x : Str) : Prop :=
  ∃ (lines : List Str) (body : Str), x = lines.flatMap (· ++ crlf) ++ crlf ++ body ∧
    ∀ l ∈ lines, IsHeaderLine l

/-- One HTTP response and nothing else. -/
def IsResponse (x : Str) : Prop :=
  ∃ status rest, x = status ++ crlf ++ rest ∧ IsStatusLine status ∧ IsHeadedBody rest

/-- On a connection that accepts all bytes, `routeClient` ends and has sent one response. -/
def Responds (tree : FileTree) (root_dir : Str) (r : Request) : Prop :=
  ∃ rounds, (routeClient .acceptAll tree r root_dir rounds).next = done () ∧
    IsResponse (stream (routeClient .acceptAll tree r root_dir rounds).sent)

/-! ## Lines -/

/-- The text starts with a line that is neither a header nor empty. -/
def StartsBare (x : Str) : Prop :=
  ∃ l rest, x = l ++ crlf ++ rest ∧ ¬ crlf <:+: l ∧ 58 ∉ l ∧ l ≠ []

theorem StartsBare.not_isHeadedBody {x : Str} (h : StartsBare x) : ¬ IsHeadedBody x := by
  obtain ⟨l, rest, rfl, hl, hcolon, hne⟩ := h
  rintro ⟨lines, body, hx, hlines⟩
  cases lines with
  | nil => exact hne (Delim.append_delim_inj borderless_crlf hl (show ¬ crlf <:+: [] by decide) hx).1
  | cons l' lines =>
    obtain ⟨hcrlf, name, value, rfl, -⟩ := hlines l' (by simp)
    have hx' : l ++ crlf ++ rest =
        (name ++ 58 :: value) ++ crlf ++ (lines.flatMap (· ++ crlf) ++ crlf ++ body) := by
      rw [hx, List.flatMap_cons]
      simp only [List.append_assoc]
    obtain ⟨rfl, -⟩ := Delim.append_delim_inj borderless_crlf hl hcrlf hx'
    simp at hcolon

theorem not_isHeadedBody_nil : ¬ IsHeadedBody [] := by
  intro h
  obtain ⟨lines, body, hx, -⟩ := h
  have := congrArg List.length hx
  simp [crlf, lit] at this

theorem isResponse_status {l rest : Str} (hl : IsStatusLine l) :
    IsResponse (l ++ crlf ++ rest) ↔ IsHeadedBody rest := by
  constructor
  · rintro ⟨l', rest', h, hl', hrest⟩
    rwa [(Delim.append_delim_inj borderless_crlf hl.1 hl'.1 h).2]
  · exact fun hrest => ⟨l, rest, rfl, hl, hrest⟩

/-! ## The four status lines -/

/-- A status text of the server: one status line. -/
def IsStatusText (text : Str) : Prop := ∃ l, text = l ++ crlf ∧ IsStatusLine l ∧ 58 ∉ l ∧ l ≠ []

theorem isStatusText_lit (reason code : Str)
    (hcode : code.length = 3 ∧ code.all fun c => 48 ≤ c ∧ c ≤ 57)
    (hplain : ¬ crlf <:+: lit "HTTP/1.1 " ++ code ++ lit " " ++ reason ∧
      58 ∉ lit "HTTP/1.1 " ++ code ++ lit " " ++ reason) :
    IsStatusText (lit "HTTP/1.1 " ++ code ++ lit " " ++ reason ++ crlf) := by
  refine ⟨_, rfl, ⟨hplain.1, 49, 49, code, reason, rfl, hcode.1, ?_⟩, hplain.2, by simp [lit]⟩
  intro c hc
  rcases List.mem_cons.mp hc with rfl | hc
  · decide
  · rcases List.mem_cons.mp hc with rfl | hc
    · decide
    · exact of_decide_eq_true (List.all_eq_true.mp hcode.2 c hc)

theorem isStatusText_ok : IsStatusText ok_status :=
  isStatusText_lit (lit "OK") (lit "200") (by decide) (by decide)

theorem isStatusText_bad_request : IsStatusText bad_request_status :=
  isStatusText_lit (lit "Bad Request") (lit "400") (by decide) (by decide)

theorem isStatusText_not_found : IsStatusText not_found_status :=
  isStatusText_lit (lit "Not Found") (lit "404") (by decide) (by decide)

theorem isStatusText_server_error : IsStatusText server_error_status :=
  isStatusText_lit (lit "Server Error") (lit "500") (by decide) (by decide)

theorem IsStatusText.startsBare {text : Str} (h : IsStatusText text) (rest : Str) :
    StartsBare (text ++ rest) := by
  obtain ⟨l, rfl, hl, hcolon, hne⟩ := h
  exact ⟨l, rest, rfl, hl.1, hcolon, hne⟩

theorem IsStatusText.isResponse_iff {text : Str} (h : IsStatusText text) (rest : Str) :
    IsResponse (text ++ rest) ↔ IsHeadedBody rest := by
  obtain ⟨l, rfl, hl, -⟩ := h
  exact isResponse_status hl

theorem StartsBare.cons_zero {x : Str} (h : StartsBare x) : StartsBare (0 :: x) := by
  obtain ⟨l, rest, rfl, hl, hcolon, hne⟩ := h
  refine ⟨0 :: l, rest, rfl, ?_, ?_, List.cons_ne_nil 0 l⟩
  · rw [List.infix_cons_iff, not_or]
    refine ⟨fun hp => ?_, hl⟩
    have := (List.prefix_cons_iff.mp hp).resolve_left (by decide)
    obtain ⟨t, ht, -⟩ := this
    simp [crlf, lit] at ht
  · simp [hcolon]

/-! ## The stream -/

theorem stream_bind_of_done {x : Trace Out Unit} (hx : x.next = done ()) (t : Trace Out Unit) :
    stream (x >>= fun _ => t).sent = stream x.sent ++ stream t.sent := by
  rw [bind_of_done hx, stream, List.flatMap_append]
  rfl

theorem isResponse_check_iff (c : Prop) [Decidable c] {t : Trace Out Unit}
    (hbare : StartsBare (stream t.sent)) :
    StartsBare (stream (writeWhen c bad_request_status 27 >>= fun _ => t).sent) ∧
      (IsResponse (stream (writeWhen c bad_request_status 27 >>= fun _ => t).sent) ↔
        ¬ c ∧ IsResponse (stream t.sent)) := by
  rw [stream_bind_of_done (next_writeWhen ..)]
  by_cases hc : c
  · have hstatus : stream (writeWhen c bad_request_status 27).sent ++ stream t.sent =
        bad_request_status ++ 0 :: stream t.sent := by
      rw [writeWhen, if_pos hc]
      rfl
    rw [hstatus, isStatusText_bad_request.isResponse_iff]
    refine ⟨isStatusText_bad_request.startsBare _, ?_⟩
    simp [hc, hbare.cons_zero.not_isHeadedBody]
  · have hnothing : stream (writeWhen c bad_request_status 27).sent ++ stream t.sent =
        stream t.sent := by
      rw [writeWhen, if_neg hc]
      rfl
    rw [hnothing]
    exact ⟨hbare, by simp [hc]⟩

theorem stream_sendFile {data : Str} {m : Nat} (hm : 0 < m) (hlen : toInt data.length = m)
    (rounds : Nat) :
    (sendFile .acceptAll data (rounds + 2)).next = done () ∧
      stream (sendFile .acceptAll data (rounds + 2)).sent = ok_status ++ data.take m := by
  rw [sendFile, bind_of_done (next_writeSock _ _), hlen, sendall_acceptAll hm, bind_of_done rfl]
  refine ⟨rfl, ?_⟩
  show ok_status ++ (data.take m ++ []) = _
  rw [List.append_nil]

theorem stream_sendFile_nothing {data : Str} (hlen : toInt data.length ≤ 0) (rounds : Nat) :
    (sendFile .acceptAll data (rounds + 1)).next = done () ∧
      stream (sendFile .acceptAll data (rounds + 1)).sent = ok_status ++ server_error_status := by
  rw [sendFile, bind_of_done (next_writeSock _ _), sendall_nothing hlen, bind_of_done rfl]
  exact ⟨rfl, rfl⟩

/-! ## The answers -/

variable {tree : FileTree} {root_dir : Str} {r : Request}

/-- The file a GET asks for is served, and is a response but for its status line. -/
def BringsHead (tree : FileTree) (root_dir : Str) (r : Request) : Prop :=
  ∃ data, readFile tree (resourcePath root_dir r.path) = some data ∧ strtol data ≠ -1 ∧
    ∃ m : Nat, toInt data.length = m ∧ IsHeadedBody (data.take m)

theorem routeGet_answer {rounds : Nat}
    (h : (routeGet .acceptAll tree r root_dir (rounds + 2)).next = done ()) :
    StartsBare (stream (routeGet .acceptAll tree r root_dir (rounds + 2)).sent) ∧
      (IsResponse (stream (routeGet .acceptAll tree r root_dir (rounds + 2)).sent) ↔
        BringsHead tree root_dir r) := by
  cases hread : readFile tree (resourcePath root_dir r.path) with
  | none => simp [routeGet, hread] at h
  | some data =>
    have hbrings : BringsHead tree root_dir r ↔
        strtol data ≠ -1 ∧ ∃ m : Nat, toInt data.length = m ∧ IsHeadedBody (data.take m) := by
      simp [BringsHead, hread]
    rw [routeGet_of_read hread, hbrings]
    by_cases hfound : strtol data = -1
    · rw [if_pos hfound]
      have hstream : stream (writeSock not_found_status 24).sent = not_found_status ++ [] := rfl
      rw [hstream, isStatusText_not_found.isResponse_iff]
      exact ⟨isStatusText_not_found.startsBare _, by simp [hfound, not_isHeadedBody_nil]⟩
    · rw [if_neg hfound]
      by_cases hlen : toInt data.length ≤ 0
      · rw [(stream_sendFile_nothing hlen (rounds + 1)).2, isStatusText_ok.isResponse_iff]
        refine ⟨isStatusText_ok.startsBare _, ?_⟩
        have hbare : StartsBare server_error_status :=
          List.append_nil server_error_status ▸ isStatusText_server_error.startsBare []
        constructor
        · exact fun hhead => absurd hhead hbare.not_isHeadedBody
        · rintro ⟨-, m, hm, hhead⟩
          obtain rfl : m = 0 := by omega
          exact absurd hhead not_isHeadedBody_nil
      · obtain ⟨m, hm⟩ : ∃ m : Nat, toInt data.length = m :=
          ⟨(toInt data.length).toNat, by omega⟩
        rw [(stream_sendFile (by omega) hm rounds).2, isStatusText_ok.isResponse_iff]
        refine ⟨isStatusText_ok.startsBare _, ?_⟩
        constructor
        · exact fun hhead => ⟨hfound, m, hm, hhead⟩
        · rintro ⟨-, m', hm', hhead⟩
          obtain rfl : m' = m := by omega
          exact hhead

theorem routeGet_ends (h : BringsHead tree root_dir r) (rounds : Nat) :
    (routeGet .acceptAll tree r root_dir (rounds + 2)).next = done () := by
  obtain ⟨data, hread, hfound, m, hm, hhead⟩ := h
  have hpos : 0 < m := by
    rcases Nat.eq_zero_or_pos m with rfl | hpos
    · exact absurd hhead not_isHeadedBody_nil
    · exact hpos
  rw [routeGet_of_read hread, if_neg hfound]
  exact (stream_sendFile hpos hm rounds).1

theorem other_answer (method : Int) :
    StartsBare (stream (writeWhen (method = 2) ok_status 17 >>= fun _ =>
        writeSock server_error_status 27).sent) ∧
      ¬ IsResponse (stream (writeWhen (method = 2) ok_status 17 >>= fun _ =>
        writeSock server_error_status 27).sent) := by
  have herror : stream (writeSock server_error_status 27).sent = server_error_status ++ [] := rfl
  rw [stream_bind_of_done (next_writeWhen ..), herror]
  by_cases hhead : method = 2
  · have hok : stream (writeWhen (method = 2) ok_status 17).sent = ok_status := by
      rw [writeWhen, if_pos hhead]
      rfl
    rw [hok, isStatusText_ok.isResponse_iff]
    exact ⟨isStatusText_ok.startsBare _,
      (isStatusText_server_error.startsBare []).not_isHeadedBody⟩
  · have hnothing : stream (writeWhen (method = 2) ok_status 17).sent = [] := by
      rw [writeWhen, if_neg hhead]
      rfl
    rw [hnothing, List.nil_append, isStatusText_server_error.isResponse_iff]
    exact ⟨isStatusText_server_error.startsBare [], not_isHeadedBody_nil⟩

theorem answer_cases {rounds : Nat} {t : Trace Out Unit}
    (ht : t = if decodeMethod r.info = 1 then routeGet .acceptAll tree r root_dir (rounds + 2)
      else writeWhen (decodeMethod r.info = 2) ok_status 17 >>= fun _ =>
        writeSock server_error_status 27)
    (h : t.next = done ()) :
    StartsBare (stream t.sent) ∧
      (IsResponse (stream t.sent) ↔ decodeMethod r.info = 1 ∧ BringsHead tree root_dir r) := by
  by_cases hget : decodeMethod r.info = 1
  · rw [if_pos hget] at ht
    subst ht
    obtain ⟨hbare, hiff⟩ := routeGet_answer h
    exact ⟨hbare, by rw [hiff, and_iff_right hget]⟩
  · rw [if_neg hget] at ht
    subst ht
    obtain ⟨hbare, hno⟩ := other_answer (decodeMethod r.info)
    exact ⟨hbare, by simp only [hno, hget, false_and]⟩

/-- An answer that has been sent is a response when no check complains and a GET finds a file that makes
it one. -/
theorem isResponse_routeClient_iff {rounds : Nat}
    (h : (routeClient .acceptAll tree r root_dir rounds).next = done ()) :
    IsResponse (stream (routeClient .acceptAll tree r root_dir rounds).sent) ↔
      decodeReqmts r.info ≠ -1 ∧ decodeProto r.info ≠ -1 ∧ decodeMethod r.info = 1 ∧
        BringsHead tree root_dir r := by
  -- with two rounds more nothing changes, and `sendall` is through
  have hmore := stable_routeClient .acceptAll tree r root_dir () rounds (rounds + 2) h (by omega)
  rw [← hmore] at h ⊢
  have hnext := h
  rw [routeClient] at hnext
  simp only [next_bind, next_writeWhen, done_bind] at hnext
  obtain ⟨hbare, hiff⟩ := answer_cases rfl hnext
  obtain ⟨hbare₃, hiff₃⟩ := isResponse_check_iff (decodeMethod r.info = -1) hbare
  obtain ⟨hbare₂, hiff₂⟩ := isResponse_check_iff (decodeProto r.info = -1) hbare₃
  obtain ⟨-, hiff₁⟩ := isResponse_check_iff (decodeReqmts r.info = -1) hbare₂
  rw [routeClient, hiff₁, hiff₂, hiff₃, hiff]
  constructor
  · rintro ⟨hreqmts, hproto, -, hget⟩
    exact ⟨hreqmts, hproto, hget⟩
  · rintro ⟨hreqmts, hproto, hget⟩
    exact ⟨hreqmts, hproto, by rw [hget.1]; decide, hget⟩

/-- **When the answer to a request is one HTTP response**: all checks pass, and the file a GET asks for
starts with headers and an empty line of its own. -/
theorem responds_iff (tree : FileTree) (root_dir : Str) (r : Request) :
    Responds tree root_dir r ↔
      decodeReqmts r.info ≠ -1 ∧ decodeProto r.info ≠ -1 ∧ decodeMethod r.info = 1 ∧
        BringsHead tree root_dir r := by
  constructor
  · intro h
    obtain ⟨rounds, hnext, hresponse⟩ := h
    exact (isResponse_routeClient_iff hnext).mp hresponse
  · intro hall
    have hnext : (routeClient .acceptAll tree r root_dir (0 + 2)).next = done () := by
      rw [routeClient]
      simp only [next_bind, next_writeWhen, done_bind, if_pos hall.2.2.1]
      exact routeGet_ends hall.2.2.2 0
    exact ⟨0 + 2, hnext, (isResponse_routeClient_iff hnext).mpr hall⟩

/-- A plain text file is no response. -/
theorem plain_file_no_response :
    ¬ ∀ text r, Parses text r → ∀ tree root_dir, Responds tree root_dir r := by
  intro hall
  obtain ⟨r, hr, -⟩ := exists_parses_line (lit "GET") (lit "/a") (lit "HTTP/1.0") (by decide) (by decide)
    (by decide) (by decide)
  obtain ⟨rounds, hnext, hresponse⟩ := hall _ r hr (fun _ => .contents (lit "hello")) (lit "/srv")
  obtain ⟨-, -, -, data, hread, -, m, hm, hhead⟩ := (isResponse_routeClient_iff hnext).mp hresponse
  obtain rfl : lit "hello" = data := Option.some.inj hread
  obtain rfl : 5 = m := Int.ofNat.inj hm
  obtain ⟨lines, body, hx, -⟩ := hhead
  have hcrlf : crlf <:+: (lit "hello").take 5 :=
    ⟨lines.flatMap (· ++ crlf), body, hx.symm⟩
  exact absurd hcrlf (by decide)

end PwdManLib
