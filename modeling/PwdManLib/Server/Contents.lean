import PwdManLib.Server.Reject

/-!
# The file contents in an answer

`routeClient` hands the contents of a file to `sendall` as a C string with the length that `strlen` finds.
`routeClientCalls` is `routeClient` with a record of these calls, and `call_bytes_eq_iff` says of which
files such a call is handed everything.
-/

namespace PwdManLib

open Exec Trace

/-- A call of `sendall`: its buffer, and its `*len`. -/
structure SendCall where
  strbuf : Str
  len : Int
  deriving DecidableEq, Repr

/-- The byte string that is handed over. -/
def SendCall.bytes (call : SendCall) : List UInt8 := call.strbuf.take call.len.toNat

/-- `sendFile` with a record of its call. -/
def sendFileCalls (worker : Conn) (resp_data : Str) (rounds : Nat) : Trace SendCall Unit where
  sent := [{ strbuf := resp_data, len := toInt resp_data.length }]
  next := (sendFile worker resp_data rounds).next

/-- `routeGet` with a record of its calls. -/
def routeGetCalls (worker : Conn) (tree : FileTree) (req : Request) (root_dir : Str) (rounds : Nat) :
    Trace SendCall Unit := do
  let resp_data ← lift (deref (readFile tree (resourcePath root_dir req.path)))
  if strtol resp_data = -1 then pure () else sendFileCalls worker resp_data rounds

/-- `routeClient` with a record of its calls. -/
def routeClientCalls (worker : Conn) (tree : FileTree) (req : Request) (root_dir : Str) (rounds : Nat) :
    Trace SendCall Unit :=
  if decodeMethod req.info = 1 then routeGetCalls worker tree req root_dir rounds else pure ()

theorem next_routeClientCalls (worker : Conn) (tree : FileTree) (req : Request) (root_dir : Str)
    (rounds : Nat) :
    (routeClientCalls worker tree req root_dir rounds).next =
      (routeClient worker tree req root_dir rounds).next := by
  rw [routeClientCalls, routeClient]
  simp only [next_bind, next_writeWhen, done_bind]
  split_ifs with hget
  · rw [routeGetCalls, routeGet, next_bind, next_bind]
    congr 1
    funext resp_data
    split_ifs <;> rfl
  · rw [next_bind, next_writeWhen, done_bind]
    rfl

/-! ## What is recorded is what is sent -/

/-- The bytes of the file parts among what was sent. -/
def fileSent (sent : List Out) : List UInt8 :=
  sent.flatMap fun o =>
    match o with
    | .file part => part
    | _ => []

theorem fileSent_bind_of_done {α : Type} {x : Trace Out α} {a : α} (hx : x.next = done a)
    (f : α → Trace Out Unit) :
    fileSent (x >>= f).sent = fileSent x.sent ++ fileSent (f a).sent := by
  rw [bind_of_done hx, fileSent, List.flatMap_append]
  rfl

@[simp] theorem fileSent_writeSock (text : Str) (n : Nat) : fileSent (writeSock text n).sent = [] := rfl

@[simp] theorem fileSent_writeWhen (c : Prop) [Decidable c] (text : Str) (n : Nat) :
    fileSent (writeWhen c text n).sent = [] := by
  rw [writeWhen]
  split_ifs <;> rfl

theorem fileSent_sendall (strbuf : Str) (len : Int) (rounds : Nat) :
    ∃ status, (sendall .acceptAll .file strbuf len (rounds + 2)).next = done status ∧
      fileSent (sendall .acceptAll .file strbuf len (rounds + 2)).sent = strbuf.take len.toNat := by
  rcases Int.lt_or_le 0 len with hlen | hlen
  · obtain ⟨m, rfl⟩ : ∃ m : Nat, len = m := ⟨len.toNat, by omega⟩
    rw [sendall_acceptAll (by omega), Int.toNat_natCast]
    exact ⟨0, rfl, List.append_nil _⟩
  · rw [sendall_nothing hlen, Int.toNat_of_nonpos hlen]
    exact ⟨-1, rfl, rfl⟩

theorem fileSent_sendFile (resp_data : Str) (rounds : Nat) :
    fileSent (sendFile .acceptAll resp_data (rounds + 2)).sent =
      (sendFileCalls .acceptAll resp_data (rounds + 2)).sent.flatMap SendCall.bytes := by
  obtain ⟨status, hends, hsent⟩ := fileSent_sendall resp_data (toInt resp_data.length) rounds
  rw [sendFile, fileSent_bind_of_done (next_writeSock _ _), fileSent_bind_of_done hends, hsent,
    fileSent_writeSock, fileSent_writeWhen, List.append_nil, List.nil_append]
  exact (List.append_nil _).symm

theorem routeGetCalls_of_read {worker : Conn} {tree : FileTree} {req : Request}
    {root_dir resp_data : Str} (h : readFile tree (resourcePath root_dir req.path) = some resp_data)
    (rounds : Nat) :
    routeGetCalls worker tree req root_dir rounds =
      if strtol resp_data = -1 then pure () else sendFileCalls worker resp_data rounds := by
  rw [routeGetCalls, h, deref_some, bind_of_done rfl]
  rfl

theorem fileSent_routeGet (tree : FileTree) (r : Request) (root_dir : Str) (rounds : Nat) :
    fileSent (routeGet .acceptAll tree r root_dir (rounds + 2)).sent =
      (routeGetCalls .acceptAll tree r root_dir (rounds + 2)).sent.flatMap SendCall.bytes := by
  cases hread : readFile tree (resourcePath root_dir r.path) with
  | none =>
    rw [routeGet, routeGetCalls, hread]
    rfl
  | some resp_data =>
    rw [routeGet_of_read hread, routeGetCalls_of_read hread]
    split_ifs
    · rfl
    · exact fileSent_sendFile resp_data rounds

/-- **A connection that accepts everything is sent the recorded bytes.** -/
theorem fileSent_routeClient (tree : FileTree) (r : Request) (root_dir : Str) (rounds : Nat) :
    fileSent (routeClient .acceptAll tree r root_dir (rounds + 2)).sent =
      (routeClientCalls .acceptAll tree r root_dir (rounds + 2)).sent.flatMap SendCall.bytes := by
  rw [routeClient, fileSent_bind_of_done (next_writeWhen ..), fileSent_bind_of_done (next_writeWhen ..),
    fileSent_bind_of_done (next_writeWhen ..), routeClientCalls]
  simp only [fileSent_writeWhen, List.nil_append]
  split_ifs
  · exact fileSent_routeGet tree r root_dir rounds
  · rw [fileSent_bind_of_done (next_writeWhen ..), fileSent_writeWhen]
    rfl

/-! ## Which files are handed over whole -/

/-- The call that a file with these contents leads to is handed all of them when there is no NUL among them
and the length fits into an `int`. -/
theorem call_bytes_eq_iff (bytes : List UInt8) :
    (SendCall.mk (cstr bytes) (toInt (cstr bytes).length)).bytes = bytes ↔
      0 ∉ bytes ∧ bytes.length < 2 ^ 31 := by
  rw [← cstr_eq_self_iff]
  show (cstr bytes).take (toInt (cstr bytes).length).toNat = bytes ↔ _
  constructor
  · intro h
    have hpre : cstr bytes <+: bytes := List.takeWhile_prefix _
    have hle := hpre.length_le
    have htake := congrArg List.length h
    rw [List.length_take] at htake
    have hcstr : cstr bytes = bytes := hpre.eq_of_length (by omega)
    rw [hcstr] at htake
    have hlt : toInt bytes.length < 2 ^ 31 := toInt_lt _
    exact ⟨hcstr, by omega⟩
  · rintro ⟨hcstr, hlen⟩
    rw [hcstr, toInt_of_lt hlen, Int.toNat_natCast, List.take_length]

/-- Whenever the request is answered with a 200, `sendall` is called once, with these bytes. -/
def HandsContents (tree : FileTree) (root_dir : Str) (r : Request) (bytes : List UInt8) : Prop :=
  ∀ worker rounds, .raw ok_status ∈ (routeClient worker tree r root_dir rounds).sent →
    (routeClientCalls worker tree r root_dir rounds).sent.map SendCall.bytes = [bytes]

section get

variable {tree : FileTree} {root_dir : Str} {r : Request} {bytes : List UInt8}

theorem ok_mem_sent_get_iff (hget : decodeMethod r.info = 1) (worker : Conn) (rounds : Nat) :
    .raw ok_status ∈ (routeClient worker tree r root_dir rounds).sent ↔
      ∃ data, readFile tree (resourcePath root_dir r.path) = some data ∧ strtol data ≠ -1 := by
  constructor
  · intro hok
    rcases (served_routeClient_iff worker tree r root_dir rounds).mp ⟨_, hok, .inl rfl⟩ with
      hhead | ⟨-, hfile⟩
    · omega
    · exact hfile
  · intro h
    obtain ⟨data, hread, hfound⟩ := h
    rw [routeClient, mem_sent_writeWhen_bind, mem_sent_writeWhen_bind, mem_sent_writeWhen_bind]
    refine .inr (.inr (.inr ?_))
    rw [if_pos hget, routeGet_of_read hread, if_neg hfound, sendFile, mem_sent_bind]
    exact .inl (List.mem_singleton.mpr rfl)

theorem ok_mem_sent_iff (hget : decodeMethod r.info = 1)
    (hfile : tree (resourcePath root_dir r.path) = .contents bytes) (worker : Conn) (rounds : Nat) :
    .raw ok_status ∈ (routeClient worker tree r root_dir rounds).sent ↔ strtol (cstr bytes) ≠ -1 := by
  rw [ok_mem_sent_get_iff hget, readFile_contents hfile]
  simp only [Option.some.injEq, exists_eq_left']

theorem sent_routeClientCalls (hget : decodeMethod r.info = 1)
    (hfile : tree (resourcePath root_dir r.path) = .contents bytes) (hfound : strtol (cstr bytes) ≠ -1)
    (worker : Conn) (rounds : Nat) :
    (routeClientCalls worker tree r root_dir rounds).sent =
      [SendCall.mk (cstr bytes) (toInt (cstr bytes).length)] := by
  have hread := readFile_contents hfile
  rw [routeClientCalls, if_pos hget, routeGetCalls_of_read hread, if_neg hfound]
  rfl

theorem HandsContents.fits (hget : decodeMethod r.info = 1)
    (hfile : tree (resourcePath root_dir r.path) = .contents bytes) (h : HandsContents tree root_dir r bytes)
    (hfound : strtol (cstr bytes) ≠ -1) : 0 ∉ bytes ∧ bytes.length < 2 ^ 31 := by
  rw [← call_bytes_eq_iff]
  have hcalls := h .acceptAll 0 ((ok_mem_sent_iff hget hfile _ _).mpr hfound)
  rwa [sent_routeClientCalls hget hfile hfound, List.map_singleton, List.singleton_inj] at hcalls

theorem handsContents_of_fits (hget : decodeMethod r.info = 1)
    (hfile : tree (resourcePath root_dir r.path) = .contents bytes)
    (h : strtol (cstr bytes) ≠ -1 → 0 ∉ bytes ∧ bytes.length < 2 ^ 31) : HandsContents tree root_dir r bytes := by
  intro worker rounds hok
  have hfound := (ok_mem_sent_iff hget hfile worker rounds).mp hok
  have hbytes := (call_bytes_eq_iff bytes).mpr (h hfound)
  rw [sent_routeClientCalls hget hfile hfound, List.map_singleton, hbytes]

end get

/-- **`sendall` gets all of a file** exactly when it has no NUL and a length that is an `int`. -/
theorem handsContents_iff (tree : FileTree) (root_dir : Str) (r : Request) (bytes : List UInt8)
    (hget : decodeMethod r.info = 1)
    (hfile : tree (resourcePath root_dir r.path) = .contents bytes) :
    HandsContents tree root_dir r bytes ↔
      (strtol (cstr bytes) ≠ -1 → 0 ∉ bytes ∧ bytes.length < 2 ^ 31) :=
  ⟨HandsContents.fits hget hfile, handsContents_of_fits hget hfile⟩

/-- A GET for the file `/a`. -/
def getRequest : Request where
  info := requestInfo (lit "HTTP/1.0") (lit "GET")
  path := lit "/a"
  headers := Dict.initDict 50
  body := .null
  query := Dict.initDict 20

theorem handsContents_iff_text :
    decodeMethod getRequest.info = 1 ∧
      (HandsContents (fun _ => .contents (lit "hello")) (lit "/srv") getRequest (lit "hello") ↔
        (strtol (cstr (lit "hello")) ≠ -1 → 0 ∉ lit "hello" ∧ (lit "hello").length < 2 ^ 31)) :=
  ⟨by decide, handsContents_iff _ _ _ _ (by decide) rfl⟩

/-- A file with a NUL in it is cut off there. -/
theorem nul_byte_cuts :
    ¬ ∀ (tree : FileTree) (root_dir : Str) (r : Request) (bytes : List UInt8),
      decodeMethod r.info = 1 → tree (resourcePath root_dir r.path) = .contents bytes →
        HandsContents tree root_dir r bytes := by
  intro hall
  let tree : FileTree := fun _ => .contents [97, 0, 98]
  have hget : decodeMethod getRequest.info = 1 := by decide
  have hfile : tree (resourcePath (lit "/srv") getRequest.path) = .contents [97, 0, 98] := rfl
  have hhands := (hall tree (lit "/srv") getRequest _ hget hfile).fits hget hfile
  exact absurd (hhands (by decide)).1 (by decide)

end PwdManLib
