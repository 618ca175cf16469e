import PwdManLib.Server.Copies
import PwdManLib.Server.HeaderValues
import PwdManLib.Server.QuerySteps
import PwdManLib.Util.SplitStores

/-!
# The parser inside its blocks

`parseRequestWithin` is `parseRequest` with the blocks its strings and its query tokens go to: a store
outside of a block is a fault, for behind it lies another block or what the allocator keeps of it. The
copies of the path and of the body have `sizeof(char *)` bytes. The blocks of `parseQueryStr`, which
gives two of them back, have the slots that were asked for and `spare` more; as they are asked for there
is none to spare, and then no query string is ever read (`parseQueryStrWithin_eq_done_iff`). The splits
of the request and of its first line keep all the slots they fill, for `parseRequest` never gives them
back.
-/

namespace PwdManLib

open Exec

/-! ## The query string -/

/-- `strsplit`, with this many more slots in `result`. -/
def strsplitWithin (spare : Nat) (str delims : Str) : Exec SplitResult :=
  Cell.within (fun
    | .result => splitCapacity str delims .result + spare
    | .save => splitCapacity str delims .save) (strsplitStores str delims)

/-- `result[j++] = strdup(tok)` in a block of that many slots. -/
def putToken (slots : Nat) (tok : Str) (result : List Str) : Exec (List Str) := do
  require (result.length < slots)
  done (result ++ [tok])

/-- The tokens of one parameter. -/
def putParam (slots : Nat) (sub_str : Str) (result : List Str) : Exec (List Str) :=
  match strstr sub_str (lit "=") with
  | some tok => do
    let result ← putToken slots (sub_str.take tok) result
    let sub_str := sub_str.drop (tok + 1)
    if sub_str ≠ [] then putToken slots sub_str result else done result
  | none => if sub_str ≠ [] then putToken slots sub_str result else done result

/-- `parseQueryStr` in its blocks. -/
def parseQueryStrWithin (spare : Nat) (str : Str) : Exec SplitResult := do
  let tokens ← strsplitWithin spare str (lit "?")
  let query ← tokens.slots.str 1
  let sub_tokens ← strsplitWithin spare query (lit "&")
  let slots := sub_tokens.len * 2 + 1 + spare
  let path ← tokens.slots.str 0
  let result ← putToken slots path []
  let result ← forRange (fun i result => do
      let sub_str ← sub_tokens.slots.str i
      putParam slots sub_str result)
    sub_tokens.len 0 result
  require (result.length < slots)
  done { slots := result.map some ++ [none], len := result.length }

theorem strsplitWithin_eq_done_iff {spare : Nat} {str delims : Str} (hne : delims ≠ []) {r : SplitResult} :
    strsplitWithin spare str delims = done r ↔
      (0 < spare ∨ (Delim.split delims str).getLast? = some []) ∧ strsplit str delims = r := by
  have hpieces := Delim.split_ne_nil delims str
  have hcount : countDelims delims str.length str + 1 = (Delim.split delims str).length := by
    rw [countDelims_eq, ← Delim.split]
  have hslots : (strsplit str delims).slots.length ≤ (Delim.split delims str).length + spare ↔
      0 < spare ∨ (Delim.split delims str).getLast? = some [] := by
    have hlen := length_slotsOf_le_succ hpieces
    rw [show (strsplit str delims).slots = slotsOf (Delim.split delims str) by rw [strsplit_eq, tokensOf],
      ← length_slotsOf_le_iff hpieces]
    omega
  rw [strsplitWithin, Cell.within_eq_done_iff, next_strsplitStores, done.injEq]
  refine and_congr_left fun _ => ?_
  rw [← hslots, ← hcount]
  exact fits_strsplitStores_iff hne le_rfl

theorem putToken_of_lt {slots : Nat} {result : List Str} (h : result.length < slots) (tok : Str) :
    putToken slots tok result = done (result ++ [tok]) := by
  rw [putToken, require_of_pos h, done_bind]

theorem putParam_of_le {slots : Nat} {result : List Str} (h : result.length + 2 ≤ slots) (sub_str : Str) :
    putParam slots sub_str result = done (result ++ queryParts sub_str) := by
  rw [putParam, queryParts]
  cases strstr sub_str (lit "=") with
  | none =>
    by_cases hrest : sub_str = []
    · simp [hrest]
    · simp only [ne_eq, hrest, not_false_eq_true, if_true]
      exact putToken_of_lt (by omega) _
  | some tok =>
    have hlen : (result ++ [sub_str.take tok]).length < slots := by
      rw [List.length_append, List.length_singleton]
      omega
    simp only [putToken_of_lt (show result.length < slots by omega), done_bind]
    by_cases hrest : sub_str.drop (tok + 1) = []
    · simp [hrest]
    · rw [if_pos hrest, if_pos hrest, putToken_of_lt hlen, List.append_assoc, List.singleton_append]

theorem forRange_putParam {slots : Nat} (sub_tokens : Slots) (n i : Nat) (result : List Str)
    (h : result.length + 2 * n ≤ slots) :
    forRange (fun i result => do
        let sub_str ← sub_tokens.str i
        putParam slots sub_str result) n i result =
      forRange (fun i result => do
        let sub_str ← sub_tokens.str i
        done (result ++ queryParts sub_str)) n i result := by
  induction n generalizing i result with
  | zero => rfl
  | succ n ih =>
    rw [forRange, forRange]
    cases sub_tokens.str i with
    | fault => rfl
    | running => rfl
    | done sub_str =>
      obtain ⟨hparts, -⟩ := length_queryParts sub_str
      simp only [done_bind, putParam_of_le (show result.length + 2 ≤ slots by omega)]
      refine ih (i + 1) _ ?_
      rw [List.length_append]
      omega

/-- **No query string is read inside the blocks as they are asked for**; with a slot to spare in each,
every one that `parseQueryStr` gets through. -/
theorem parseQueryStrWithin_eq_done_iff {spare : Nat} {target : Str} {r : SplitResult} :
    parseQueryStrWithin spare target = done r ↔ 0 < spare ∧ parseQueryStr target = done r := by
  have hfirst (slots : Nat) (path : Str) : putToken (slots + 1 + spare) path [] = done [path] :=
    putToken_of_lt (by rw [List.length_nil]; omega) path
  have hroom (len : Nat) (path : Str) : [path].length + 2 * len ≤ len * 2 + 1 + spare := by
    rw [List.length_singleton]
    omega
  have hloop (query path : Str) := forRange_putParam (strsplit query (lit "&")).slots (strsplit query (lit "&")).len 0
    [path] (hroom _ path)
  have hparams (query path : Str) := forRange_queryParts (Delim.split (lit "&") query) [path]
  simp only [parseQueryStrWithin, parseQueryStr, bind_eq_done, strsplitWithin_eq_done_iff
    (show lit "?" ≠ [] by decide), strsplitWithin_eq_done_iff (show lit "&" ≠ [] by decide), hfirst,
    done.injEq, require_eq_done_iff]
  refine ⟨fun h => ?_, fun h => ?_⟩
  · obtain ⟨tokens, ⟨-, rfl⟩, query, hquery, sub_tokens, ⟨hspare, rfl⟩, path, hpath, _, rfl, result, hrun,
      -, -, hr⟩ := h
    rw [hloop] at hrun
    refine ⟨hspare.resolve_right fun hlast => ?_, query, hquery, path, hpath, result, hrun, hr⟩
    -- without a trailing token the last parameter is missing
    rw [strsplit_eq, tokensOf, hparams, if_pos hlast] at hrun
    exact absurd hrun (by simp)
  · obtain ⟨hspare, query, hquery, path, hpath, result, hrun, hr⟩ := h
    refine ⟨_, ⟨.inl hspare, rfl⟩, query, hquery, _, ⟨.inl hspare, rfl⟩, path, hpath, _, rfl, result,
      (hloop query path).trans hrun, (), ?_, hr⟩
    rw [strsplit_eq, tokensOf, hparams] at hrun
    split_ifs at hrun
    obtain rfl := done.inj hrun
    have hparts := (length_flatMap_queryParts (Delim.split (lit "&") query)).1
    rw [strsplit_eq, tokensOf, List.length_append, List.length_singleton]
    simp only
    omega

/-! ## Key=value parameters -/

/-- The path, the keys and the values come back in order. -/
def ReturnsPairs (spare : Nat) (path : Str) (pairs : List (Str × Str)) : Prop :=
  parseQueryStrWithin spare (path ++ lit "?" ++
      (lit "&").intercalate (pairs.map fun p => p.1 ++ lit "=" ++ p.2)) =
    done { slots := (path :: pairs.flatMap fun p => [p.1, p.2]).map some ++ [none]
           len := 2 * pairs.length + 1 }

/-- **When key=value parameters come back in order**: when the blocks have a slot to spare. -/
theorem parseQueryStr_pairs_iff (spare : Nat) (path : Str) (pairs : List (Str × Str)) (hpath : qmark ∉ path)
    (hne : pairs ≠ []) (hkeys : ∀ p ∈ pairs, 61 ∉ p.1 ∧ 38 ∉ p.1 ∧ qmark ∉ p.1)
    (hvalues : ∀ p ∈ pairs, p.2 ≠ [] ∧ 38 ∉ p.2 ∧ qmark ∉ p.2) :
    ReturnsPairs spare path pairs ↔ 0 < spare := by
  rw [ReturnsPairs, parseQueryStrWithin_eq_done_iff]
  exact and_iff_left (parseQueryStr_pairs path pairs hpath hne hkeys hvalues)

theorem parseQueryStr_pairs_iff_login :
    ReturnsPairs 1 (lit "/login") [(lit "user", lit "foo"), (lit "q", lit "a=b")] ↔ 0 < 1 :=
  parseQueryStr_pairs_iff 1 (lit "/login") [(lit "user", lit "foo"), (lit "q", lit "a=b")] (by decide)
    (by decide) (by decide) (by decide)

/-- In `/abcd?a=1&b=2&c=3&d=4&e=5` the second split stores its NULL behind its five slots. -/
theorem five_pairs_overrun :
    ¬ ∀ (path : Str) (pairs : List (Str × Str)), qmark ∉ path → pairs ≠ [] →
      (∀ p ∈ pairs, 61 ∉ p.1 ∧ 38 ∉ p.1 ∧ qmark ∉ p.1) →
      (∀ p ∈ pairs, p.2 ≠ [] ∧ 38 ∉ p.2 ∧ qmark ∉ p.2) → ReturnsPairs 0 path pairs := by
  intro hall
  have hrow := hall (lit "/abcd") [(lit "a", lit "1"), (lit "b", lit "2"), (lit "c", lit "3"),
    (lit "d", lit "4"), (lit "e", lit "5")] (by decide) (by decide) (by decide) (by decide)
  exact absurd (parseQueryStrWithin_eq_done_iff.mp hrow).1 (by decide)

/-! ## The request -/

/-- `strcpy` inside its destination. -/
def strcpyWithin (b : CopyBuffer) (s : Str) : Exec Unit := Cell.within copyCapacity (strcpy b 0 s)

/-- `parseTarget` in its blocks. -/
def parseTargetWithin (spare : Nat) (target : Str) : Exec (Str × Dict Str) :=
  if qmark ∉ target then do
    strcpyWithin .path target
    done (target, Dict.initDict 20)
  else do
    let query_tokens ← parseQueryStrWithin spare target
    let path ← query_tokens.slots.str 0
    strcpyWithin .path path
    let query ← setQuery query_tokens (Dict.initDict 20)
    done (path, query)

/-- `searchBody` with its copy inside `body`. -/
def searchBodyWithin (tokens : Slots) (n i : Nat) (body : Body) : Exec Body :=
  Cell.within copyCapacity (searchBodyCopies tokens n i body)

/-- `parseRequest` in its blocks. -/
def parseRequestWithin (spare : Nat) (req : Str) (rounds : Nat) : Exec Request := do
  let tokens := strsplit req crlf
  let line ← tokens.slots.str 0
  let sub_tokens := strsplit line (lit " ")
  let target ← sub_tokens.slots.str 1
  let (path, query) ← parseTargetWithin spare target
  let headers ← loop (headerStep tokens) { i := 1, headers := Dict.initDict 50 } rounds
  let body ← searchBodyWithin tokens.slots tokens.len 0 .unset
  let proto ← sub_tokens.slots.str 2
  let info := encodeProto proto 0
  let method ← sub_tokens.slots.str 0
  let info := encodeMethod method info
  let info := encodeReqmts info
  done { info, path, headers, body, query }

/-- `parseRequest` up to the end of its header loop. -/
def parseHeadersWithin (spare : Nat) (req : Str) (rounds : Nat) : Exec (Dict Str) := do
  let tokens := strsplit req crlf
  let line ← tokens.slots.str 0
  let sub_tokens := strsplit line (lit " ")
  let target ← sub_tokens.slots.str 1
  let _ ← parseTargetWithin spare target
  loop (headerStep tokens) { i := 1, headers := Dict.initDict 50 } rounds

/-- `parseRequest` ends inside its blocks, and returns `r`. -/
def ParsesWithin (spare : Nat) (req : Str) (r : Request) : Prop := Finishes (parseRequestWithin spare req) r

/-- The target goes into its blocks. -/
structure TargetFits (spare : Nat) (target : Str) : Prop where
  query : qmark ∈ target → 0 < spare
  path : (target.takeWhile (· ≠ qmark)).length < 8

/-- So does the body. -/
def BodyFits (req : Str) : Prop := ∀ s, bodyToken (Delim.split crlf req) = some s → s.length < 8

theorem targetFits_of_absent {spare : Nat} {target : Str} (h : qmark ∉ target) :
    TargetFits spare target ↔ target.length < 8 := by
  have htake : target.takeWhile (· ≠ qmark) = target := by
    rw [List.takeWhile_eq_self_iff]
    intro c hc
    simpa using fun heq : c = qmark => h (heq ▸ hc)
  refine ⟨fun hfits => htake ▸ hfits.path, fun hlen => ⟨fun hmem => absurd hmem h, ?_⟩⟩
  rwa [htake]

theorem strcpyWithin_eq_done_iff {b : CopyBuffer} {s : Str} (u : Unit) :
    strcpyWithin b s = done u ↔ s.length < copyCapacity b := by
  rw [strcpyWithin, Cell.within_eq_done_iff, fits_strcpy_iff, next_strcpy, Nat.zero_add]
  exact and_iff_left rfl

theorem parseTargetWithin_eq_done_iff {spare : Nat} {target : Str} {pathQuery : Str × Dict Str} :
    parseTargetWithin spare target = done pathQuery ↔
      TargetFits spare target ∧ parseTarget target = done pathQuery := by
  obtain ⟨path, query⟩ := pathQuery
  have hpath (h : parseTarget target = done (path, query)) : path = target.takeWhile (· ≠ qmark) :=
    (parseTarget_iff.mp h).2.1
  have hfits (h : parseTarget target = done (path, query)) :
      TargetFits spare target ↔ (qmark ∈ target → 0 < spare) ∧ path.length < 8 := by
    rw [hpath h]
    exact ⟨fun hfits => ⟨hfits.query, hfits.path⟩, fun hfits => ⟨hfits.1, hfits.2⟩⟩
  rw [and_congr_left hfits]
  by_cases hmem : qmark ∉ target
  · simp only [parseTargetWithin, parseTarget, if_pos hmem, bind_eq_done, strcpyWithin_eq_done_iff]
    simp only [hmem, false_implies, true_and, exists_const, copyCapacity, done.injEq, Prod.mk.injEq]
    refine and_congr_left ?_
    intro h
    obtain ⟨rfl, -⟩ := h
    rfl
  · have hquery : (qmark ∈ target → 0 < spare) ↔ 0 < spare := imp_iff_right (not_not.mp hmem)
    simp only [parseTargetWithin, parseTarget, if_neg hmem, bind_eq_done, strcpyWithin_eq_done_iff,
      parseQueryStrWithin_eq_done_iff, hquery]
    refine ⟨fun h => ?_, fun h => ?_⟩
    · obtain ⟨tokens, ⟨hspare, htokens⟩, path', hstr, -, hlen, query', hset, hr⟩ := h
      obtain ⟨rfl, rfl⟩ := Prod.mk.inj (done.inj hr)
      exact ⟨⟨hspare, hlen⟩, tokens, htokens, path', hstr, query', hset, rfl⟩
    · obtain ⟨⟨hspare, hlen⟩, tokens, htokens, path', hstr, query', hset, hr⟩ := h
      obtain ⟨rfl, rfl⟩ := Prod.mk.inj (done.inj hr)
      exact ⟨tokens, ⟨hspare, htokens⟩, path', hstr, (), hlen, query', hset, rfl⟩

theorem searchBodyWithin_eq_done_iff {req : Str} {body : Body} :
    searchBodyWithin (strsplit req crlf).slots (strsplit req crlf).len 0 .unset = done body ↔
      BodyFits req ∧ searchBody (strsplit req crlf).slots (strsplit req crlf).len 0 .unset = done body := by
  rw [searchBodyWithin, Cell.within_eq_done_iff, next_searchBodyCopies, length_tokens, strsplit_eq]
  exact and_congr_left fun _ => fits_searchBodyCopies_iff (Delim.split crlf req) []

/-- **What the parser does inside its blocks** is what it does, where everything has room. -/
theorem parsesWithin_iff {spare : Nat} {req : Str} {r : Request} :
    ParsesWithin spare req r ↔ Parses req r ∧ TargetFits spare (field req 1) ∧ BodyFits req := by
  have hrun (rounds : Nat) : parseRequestWithin spare req rounds = done r ↔
      parseRequest req rounds = done r ∧ TargetFits spare (field req 1) ∧ BodyFits req := by
    simp only [parseRequestWithin, parseRequest, bind_eq_done, parseTargetWithin_eq_done_iff,
      searchBodyWithin_eq_done_iff]
    refine ⟨fun h => ?_, fun h => ?_⟩
    · obtain ⟨line, hline, target, htarget, pathQuery, ⟨hfits, hpath⟩, headers, hheaders, body,
        ⟨hbodyFits, hbody⟩, hrest⟩ := h
      obtain ⟨-, rfl⟩ := str_field_iff.mp ⟨line, hline, htarget⟩
      exact ⟨⟨line, hline, _, htarget, pathQuery, hpath, headers, hheaders, body, hbody, hrest⟩, hfits,
        hbodyFits⟩
    · obtain ⟨⟨line, hline, target, htarget, pathQuery, hpath, headers, hheaders, body, hbody, hrest⟩,
        hfits, hbodyFits⟩ := h
      obtain ⟨-, rfl⟩ := str_field_iff.mp ⟨line, hline, htarget⟩
      exact ⟨line, hline, _, htarget, pathQuery, ⟨hfits, hpath⟩, headers, hheaders, body,
        ⟨hbodyFits, hbody⟩, hrest⟩
  simp only [ParsesWithin, Finishes, hrun, exists_and_right]
  rfl

theorem parseHeadersWithin_iff {spare : Nat} {req : Str} {headers : Dict Str} :
    Finishes (parseHeadersWithin spare req) headers ↔
      (HasField (fields req) 1 ∧ TargetFits spare (field req 1) ∧ QueryReadable (field req 1)) ∧
        BuildsHeaders req headers := by
  have hrun (rounds : Nat) : parseHeadersWithin spare req rounds = done headers ↔
      (HasField (fields req) 1 ∧ TargetFits spare (field req 1) ∧ QueryReadable (field req 1)) ∧
        loop (headerStep (strsplit req crlf)) { i := 1, headers := Dict.initDict 50 } rounds =
          done headers := by
    simp only [parseHeadersWithin, bind_eq_done, parseTargetWithin_eq_done_iff,
      ← exists_parseTarget_iff (field req 1)]
    refine ⟨fun h => ?_, fun h => ?_⟩
    · obtain ⟨line, hline, target, htarget, pathQuery, ⟨hfits, hpath⟩, hheaders⟩ := h
      obtain ⟨hfield, rfl⟩ := str_field_iff.mp ⟨line, hline, htarget⟩
      exact ⟨⟨hfield, hfits, pathQuery, hpath⟩, hheaders⟩
    · obtain ⟨⟨hfield, hfits, pathQuery, hpath⟩, hheaders⟩ := h
      obtain ⟨line, hline, htarget⟩ := str_field_iff.mpr ⟨hfield, rfl⟩
      exact ⟨line, hline, _, htarget, pathQuery, ⟨hfits, hpath⟩, hheaders⟩
  simp only [Finishes, hrun, exists_and_left]
  rfl

/-! ## A request with a blank line -/

theorem bodyToken_append {front : List Str} (hfront : [] ∉ front) (pieces : List Str) :
    bodyToken (front ++ pieces) = bodyToken pieces := by
  induction front with
  | nil => rfl
  | cons p front ih =>
    obtain ⟨hp, hrest⟩ := not_or.mp (mt List.mem_cons.mpr hfront)
    rw [List.cons_append, bodyToken_cons (Ne.symm hp), ih hrest]

theorem bodyFits_blank_line {head body : Str} (hhead : [] ∉ Delim.split crlf head)
    (hbody : ¬ crlf <:+: body) : BodyFits (head ++ crlf ++ crlf ++ body) ↔ body.length < 8 := by
  rw [BodyFits, split_blank_line, bodyToken_append hhead, Delim.split_of_absent hbody, bodyToken]
  by_cases hnil : body = []
  · simp [hnil]
  · simp [hnil]

theorem fields_blank_line {head line : Str} {lines : List Str} (hhead : Delim.split crlf head = line :: lines)
    (body : Str) :
    fields (head ++ crlf ++ crlf ++ body) = Delim.split (lit " ") line := by
  rw [fields, firstLine, split_blank_line, hhead]
  rfl

theorem split_lines {line : Str} {lines : List Str} (hline : ¬ crlf <:+: line)
    (hlines : ∀ l ∈ lines, colon <:+: l ∧ ¬ crlf <:+: l) :
    Delim.split crlf (crlf.intercalate (line :: lines)) = line :: lines := by
  apply Delim.split_intercalate borderless_crlf crlf_ne_nil
  intro l hl
  rcases List.mem_cons.mp hl with rfl | hl
  · exact hline
  · exact (hlines l hl).2

/-- The headers that are built inside the blocks have the values of the lines, and the request that is
returned holds them. With an empty protocol none is returned. -/
def HeadersKept (spare : Nat) (line : Str) (lines : List Str) (body : Str) : Prop :=
  ∃ headers, Finishes (parseHeadersWithin spare (crlf.intercalate (line :: lines) ++ crlf ++ crlf ++ body))
      headers ∧ HeaderValues lines headers ∧
    ((Delim.split (lit " ") line)[2]? ≠ some [] →
      ∃ r, ParsesWithin spare (crlf.intercalate (line :: lines) ++ crlf ++ crlf ++ body) r ∧
        r.headers = headers)

end PwdManLib
