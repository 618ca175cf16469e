import PwdManLib.Lib.Bounds
import PwdManLib.Server.ReadBuffer
import PwdManLib.Server.TokenUse

/-!
# The strings `parseRequest` and `routeClient` copy

`parseRequest` copies the path and the body of a request into blocks of `sizeof(char *)` bytes, and
`routeClient` copies the root directory and the path into `path[PATH_MAX]`, with no look at a length.
`serveCopies` is the two of them with a record of the bytes they store. All copies fit when the path, the
body and the resource path are short wherever they are copied (`copiesFit_iff`).
-/

namespace PwdManLib

open Exec Trace Cell

def PATH_MAX : Nat := 4096

/-- The destinations: `retreq.path`, `retreq.body` and the `path` of `routeClient`. -/
inductive CopyBuffer where
  | path
  | body
  | resource
  deriving DecidableEq, Repr

/-- The bytes of each. -/
def copyCapacity : CopyBuffer → Nat
  | .path => 8
  | .body => 8
  | .resource => PATH_MAX

/-- Copy a string and its NUL. -/
def strcpy (b : CopyBuffer) (offset : Nat) (s : Str) : Trace (Cell CopyBuffer) Unit :=
  storeBlock b offset (s.length + 1)

@[simp] theorem next_strcpy (b : CopyBuffer) (offset : Nat) (s : Str) :
    (strcpy b offset s).next = done () := rfl

/-- `parseTarget` with the copy of the path. -/
def parseTargetCopies (target : Str) : Trace (Cell CopyBuffer) (Str × Dict Str) :=
  if qmark ∉ target then do
    strcpy .path 0 target
    pure (target, Dict.initDict 20)
  else do
    let query_tokens ← lift (parseQueryStr target)
    let path ← lift (query_tokens.slots.str 0)
    strcpy .path 0 path
    let query ← lift (setQuery query_tokens (Dict.initDict 20))
    pure (path, query)

/-- `searchBody` with the copy of the body. -/
def searchBodyCopies (tokens : Slots) : Nat → Nat → Body → Trace (Cell CopyBuffer) Body
  | 0, _, body => pure body
  | n + 1, i, body => do
    let tok ← lift (tokens.read i)
    if tok = some [] then do
      let next ← lift (tokens.read (i + 1))
      match next with
      | some s => do
        strcpy .body 0 s
        pure (.str s)
      | none => pure .null
    else
      searchBodyCopies tokens n (i + 1) body

/-- `parseRequest` with its copies. -/
def parseRequestCopies (req : Str) (rounds : Nat) : Trace (Cell CopyBuffer) Request := do
  let tokens := strsplit req crlf
  let line ← lift (tokens.slots.str 0)
  let sub_tokens := strsplit line (lit " ")
  let target ← lift (sub_tokens.slots.str 1)
  let (path, query) ← parseTargetCopies target
  let headers ← lift (Exec.loop (headerStep tokens) { i := 1, headers := Dict.initDict 50 } rounds)
  let body ← searchBodyCopies tokens.slots tokens.len 0 .unset
  let proto ← lift (sub_tokens.slots.str 2)
  let info := encodeProto proto 0
  let method ← lift (sub_tokens.slots.str 0)
  let info := encodeMethod method info
  let info := encodeReqmts info
  pure { info, path, headers, body, query }

/-- The copies of `routeClient`: the root directory, and the path or `/index.html` behind it. The NUL
stored at `path[strlen(path)]` is there already. -/
def routeCopies (req : Request) (root_dir : Str) : Trace (Cell CopyBuffer) Unit :=
  if decodeMethod req.info = 1 then do
    strcpy .resource 0 root_dir
    strcpy .resource root_dir.length (if req.path = lit "/" then lit "/index.html" else req.path)
    store .resource (resourcePath root_dir req.path).length
  else
    pure ()

/-- The copies for one request. -/
def serveCopies (req root_dir : Str) (rounds : Nat) : Trace (Cell CopyBuffer) Unit := do
  let request ← parseRequestCopies req rounds
  routeCopies request root_dir

/-- Every copy for the request fits its destination. -/
def CopiesFit (req root_dir : Str) : Prop :=
  ∀ rounds, Fits copyCapacity (serveCopies req root_dir rounds).sent

/-! ## The record changes nothing -/

theorem next_parseTargetCopies (target : Str) :
    (parseTargetCopies target).next = parseTarget target := by
  rw [parseTargetCopies, parseTarget]
  by_cases hmem : qmark ∉ target
  · rw [if_pos hmem, if_pos hmem]
    rfl
  · rw [if_neg hmem, if_neg hmem]
    simp only [next_bind, next_lift, next_pure, next_strcpy, done_bind]

theorem next_searchBodyCopies (tokens : Slots) (n i : Nat) (body : Body) :
    (searchBodyCopies tokens n i body).next = searchBody tokens n i body := by
  induction n generalizing i with
  | zero => rfl
  | succ n ih =>
    rw [searchBodyCopies, searchBody, next_bind, next_lift]
    congr 1
    funext tok
    split_ifs
    · rw [next_bind, next_lift]
      congr 1
      funext next
      cases next <;> rfl
    · exact ih (i + 1)

theorem next_parseRequestCopies (req : Str) (rounds : Nat) :
    (parseRequestCopies req rounds).next = parseRequest req rounds := by
  simp only [parseRequestCopies, parseRequest, next_bind, next_lift, next_pure, next_parseTargetCopies,
    next_searchBodyCopies]

/-! ## Each copy -/

theorem fits_strcpy_iff {b : CopyBuffer} {offset : Nat} {s : Str} :
    Fits copyCapacity (strcpy b offset s).sent ↔ offset + s.length < copyCapacity b := by
  rw [strcpy, fits_storeBlock_iff]
  omega

theorem fits_parseTargetCopies_iff (target : Str) :
    Fits copyCapacity (parseTargetCopies target).sent ↔
      (QueryReadable target → (target.takeWhile (· ≠ qmark)).length < 8) := by
  rw [parseTargetCopies]
  by_cases hmem : qmark ∈ target
  · obtain ⟨path, query, more, hsplit⟩ := mem_target_iff.mp hmem
    obtain ⟨rest, hfirst⟩ := Delim.split_singleton qmark target
    obtain ⟨rfl, -⟩ := List.cons.inj (hfirst.symm.trans hsplit)
    have hread : QueryReadable target ↔ ¬ (query = [] ∨ lit "&" <:+ query) := by
      simp [QueryReadable, hsplit]
    rw [if_neg (not_not_intro hmem), parseQueryStr_eq hsplit, hread]
    by_cases hbad : query = [] ∨ lit "&" <:+ query
    · rw [if_pos hbad, fits_bind_iff]
      simp [hbad]
    · have hpath : Slots.str ((target.takeWhile (· ≠ qmark) :: queryTokens query).map some ++ [none]) 0 =
          done (target.takeWhile (· ≠ qmark)) := rfl
      rw [if_neg hbad, fits_bind_of_done (next_lift _), hpath, fits_bind_of_done (next_lift _),
        fits_bind_of_done (next_strcpy _ _ _), fits_strcpy_iff]
      simp [hbad, copyCapacity]
  · have hpath : target.takeWhile (· ≠ qmark) = target := by
      rw [List.takeWhile_eq_self_iff]
      intro c hc
      simp only [decide_eq_true_eq]
      rintro rfl
      exact hmem hc
    rw [if_pos hmem, fits_bind_of_done rfl, hpath, fits_strcpy_iff, imp_iff_right
      (queryReadable_of_absent hmem)]
    simp [copyCapacity]

/-- The token behind the first empty one, unless it is an empty one at the end. -/
def bodyToken : List Str → Option Str
  | [] => none
  | [] :: s :: more => if s = [] ∧ more = [] then none else some s
  | _ :: pieces => bodyToken pieces

theorem bodyToken_cons {p : Str} (hp : p ≠ []) (pieces : List Str) :
    bodyToken (p :: pieces) = bodyToken pieces := by
  obtain ⟨c, cs, rfl⟩ := List.exists_cons_of_ne_nil hp
  rw [bodyToken]
  simp

theorem fits_searchBodyCopies_iff (pieces pre : List Str) :
    Fits copyCapacity (searchBodyCopies (slotsOf (pre ++ pieces)) pieces.length pre.length .unset).sent ↔
      ∀ s, bodyToken pieces = some s → s.length < 8 := by
  induction pieces generalizing pre with
  | nil => simp [searchBodyCopies, bodyToken]
  | cons p pieces ih =>
    have hget : (pre ++ p :: pieces)[pre.length]? = some p := by simp
    have hread := Slots.read_of_getElem? (slotsOf_getElem? hget)
    have hih := ih (pre ++ [p])
    rw [List.append_assoc, List.singleton_append, List.length_append, List.length_singleton] at hih
    rw [List.length_cons, searchBodyCopies, hread, fits_bind_of_done (next_lift _)]
    by_cases hp : p = []
    · subst hp
      cases pieces with
      | nil =>
        -- an empty piece at the end is not stored, and the search ends behind it
        simp [searchBodyCopies, bodyToken]
      | cons s more =>
        have hget' : (pre ++ [] :: s :: more)[pre.length + 1]? = some s := by
          simp
        have hnext := Slots.read_of_getElem? (slotsOf_getElem? hget')
        have hlast : (s = [] ∧ pre.length + 1 + 1 = (pre ++ [] :: s :: more).length) ↔
            s = [] ∧ more = [] := by
          refine and_congr_right fun _ => ?_
          rw [← List.length_eq_zero_iff, List.length_append, List.length_cons, List.length_cons]
          omega
        have hstored : ¬ (([] : Str) = [] ∧ pre.length + 1 = (pre ++ [] :: s :: more).length) := by
          rintro ⟨-, hlen⟩
          simp only [List.length_append, List.length_cons] at hlen
          omega
        rw [if_neg hstored, if_pos rfl, hnext, fits_bind_of_done (next_lift _), bodyToken]
        simp only [hlast]
        by_cases hend : s = [] ∧ more = []
        · simp [hend]
        · simp only [if_neg hend, fits_bind_of_done (next_strcpy _ _ _), fits_strcpy_iff]
          simp [copyCapacity]
    · have hslot : ¬ (p = [] ∧ pre.length + 1 = (pre ++ p :: pieces).length) := fun h => hp h.1
      rw [if_neg hslot, if_neg (by simpa using hp), bodyToken_cons hp, hih]
      simp

theorem fits_routeCopies_iff {r : Request} {root_dir : Str} (hroot : root_dir.length < PATH_MAX) :
    Fits copyCapacity (routeCopies r root_dir).sent ↔
      (decodeMethod r.info = 1 → (resourcePath root_dir r.path).length < PATH_MAX) := by
  rw [routeCopies]
  by_cases hget : decodeMethod r.info = 1
  · rw [if_pos hget, fits_bind_of_done (next_strcpy _ _ _), fits_bind_of_done (next_strcpy _ _ _),
      fits_strcpy_iff, fits_strcpy_iff, fits_store_iff, resourcePath, List.length_append]
    simp only [copyCapacity, hget, true_implies]
    omega
  · rw [if_neg hget]
    simp [hget]

/-! ## All copies -/

theorem forall_str_field_iff {req : Str} {i : Nat} {P : Str → Prop} :
    (∀ line, (strsplit req crlf).slots.str 0 = done line →
        ∀ s, (strsplit line (lit " ")).slots.str i = done s → P s) ↔
      (HasField (fields req) i → P (field req i)) := by
  constructor
  · intro h hfield
    obtain ⟨line, hline, hs⟩ := str_field_iff.mpr ⟨hfield, rfl⟩
    exact h line hline _ hs
  · intro h line hline s hs
    obtain ⟨hfield, rfl⟩ := str_field_iff.mp ⟨line, hline, hs⟩
    exact h hfield

theorem copiesFit_iff_parts {req root_dir : Str} :
    CopiesFit req root_dir ↔
      (HasField (fields req) 1 → Fits copyCapacity (parseTargetCopies (field req 1)).sent) ∧
        (HasField (fields req) 1 → GetsThrough req →
          Fits copyCapacity (searchBodyCopies (strsplit req crlf).slots (strsplit req crlf).len 0
            .unset).sent) ∧
        ∀ r, Parses req r → Fits copyCapacity (routeCopies r root_dir).sent := by
  have hparse (rounds : Nat) : Fits copyCapacity (parseRequestCopies req rounds).sent ↔
      (HasField (fields req) 1 → Fits copyCapacity (parseTargetCopies (field req 1)).sent ∧
        ∀ pathQuery, parseTarget (field req 1) = done pathQuery → ∀ headers,
          Exec.loop (headerStep (strsplit req crlf)) { i := 1, headers := Dict.initDict 50 } rounds =
              done headers →
            Fits copyCapacity (searchBodyCopies (strsplit req crlf).slots (strsplit req crlf).len 0
              .unset).sent) := by
    simp only [parseRequestCopies, fits_bind_iff, fits_lift, fits_pure, next_lift,
      next_parseTargetCopies, true_and, and_true, implies_true, Prod.forall, forall_str_field_iff]
  simp only [CopiesFit, serveCopies, fits_bind_iff, next_parseRequestCopies, hparse]
  constructor
  · intro h
    refine ⟨fun hfield => ((h 0).1 hfield).1, ?_, ?_⟩
    · intro hfield hthrough
      obtain ⟨⟨pathQuery, hpath⟩, headers, rounds, hheaders⟩ := (getsThrough_iff hfield).mp hthrough
      exact ((h rounds).1 hfield).2 pathQuery hpath headers hheaders
    · rintro r ⟨rounds, hr⟩
      exact (h rounds).2 r hr
  · rintro ⟨hpath, hbody, hroute⟩ rounds
    refine ⟨fun hfield => ⟨hpath hfield, ?_⟩, fun r hr => hroute r ⟨rounds, hr⟩⟩
    intro pathQuery hread headers hheaders
    exact hbody hfield ((getsThrough_iff hfield).mpr ⟨⟨pathQuery, hread⟩, headers, rounds, hheaders⟩)

/-- The path, the body and the resource path are short wherever they are copied. -/
structure CopiesSmall (req root_dir : Str) : Prop where
  path : HasField (fields req) 1 → QueryReadable (field req 1) →
    ((field req 1).takeWhile (· ≠ qmark)).length < 8
  body : HasField (fields req) 1 → GetsThrough req → ∀ s, bodyToken (Delim.split crlf req) = some s →
    s.length < 8
  resource : HasField (fields req) 2 → GetsThrough req → field req 0 = lit "GET" →
    (resourcePath root_dir ((field req 1).takeWhile (· ≠ qmark))).length < PATH_MAX

/-- **When every copy fits**: when the path and the body have at most 7 bytes, and the root directory
with the path at most 4095, each if it is copied at all. -/
theorem copiesFit_iff (req root_dir : Str) (hroot : root_dir.length < PATH_MAX) :
    CopiesFit req root_dir ↔ CopiesSmall req root_dir := by
  have hbody : Fits copyCapacity
        (searchBodyCopies (strsplit req crlf).slots (strsplit req crlf).len 0 .unset).sent ↔
      ∀ s, bodyToken (Delim.split crlf req) = some s → s.length < 8 := by
    rw [length_tokens, strsplit_eq]
    exact fits_searchBodyCopies_iff (Delim.split crlf req) []
  have hroute : (∀ r, Parses req r → Fits copyCapacity (routeCopies r root_dir).sent) ↔
      (HasField (fields req) 2 → GetsThrough req → field req 0 = lit "GET" →
        (resourcePath root_dir ((field req 1).takeWhile (· ≠ qmark))).length < PATH_MAX) := by
    have hone {r : Request} (hr : Parses req r) : Fits copyCapacity (routeCopies r root_dir).sent ↔
        (field req 0 = lit "GET" →
          (resourcePath root_dir ((field req 1).takeWhile (· ≠ qmark))).length < PATH_MAX) := by
      obtain ⟨-, hpath, -, -, hinfo⟩ := parses_iff_fields.mp hr
      rw [fits_routeCopies_iff hroot, hinfo, decodeMethod_requestInfo_eq_one_iff,
        (parseTarget_iff.mp hpath).2.1]
    constructor
    · intro h hfield hthrough
      obtain ⟨r, hr⟩ := exists_parses_iff.mpr ⟨hfield, hthrough⟩
      exact (hone hr).mp (h r hr)
    · intro h r hr
      obtain ⟨hfield, hthrough⟩ := exists_parses_iff.mp ⟨r, hr⟩
      exact (hone hr).mpr (h hfield hthrough)
  rw [copiesFit_iff_parts, fits_parseTargetCopies_iff, hbody, hroute]
  constructor
  · rintro ⟨h₁, h₂, h₃⟩
    exact ⟨h₁, h₂, h₃⟩
  · rintro ⟨h₁, h₂, h₃⟩
    exact ⟨h₁, h₂, h₃⟩

theorem copiesFit_iff_root :
    (lit "/srv").length < PATH_MAX ∧ (CopiesFit (lit "GET /a HTTP/1.0\r\n\r\n") (lit "/srv") ↔
      CopiesSmall (lit "GET /a HTTP/1.0\r\n\r\n") (lit "/srv")) :=
  ⟨by decide, copiesFit_iff _ _ (by decide)⟩

/-- The path of an ordinary GET has no room in 8 bytes. -/
theorem long_path_overruns :
    ¬ ∀ req root_dir : Str, req.length < SOCK_BUFF_DEF_READ → root_dir.length < PATH_MAX →
      CopiesFit req root_dir := by
  intro hall
  have hfit := hall (lit "GET /index.html HTTP/1.0\r\n\r\n") (lit "/srv") (by decide) (by decide)
  have hpath := (copiesFit_iff_parts.mp hfit).1 ⟨lit "/index.html", by decide, by decide⟩
  rw [fits_parseTargetCopies_iff] at hpath
  exact absurd (hpath (by decide)) (by decide)

end PwdManLib
