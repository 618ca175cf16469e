import PwdManLib.Lib.Trace
import PwdManLib.Server.LoopBound
import PwdManLib.Server.ParseSpec

/-!
# The tokens `parseRequest` relies on

`parseRequest` uses the first line of a request and three fields of it as strings, without a look at
how many tokens the splits gave. `parseRequestUses` is `parseRequest` with a record of these uses, each
with what the slot holds. `used_iff` says which uses a request leads to; all of them find a string when
the fields are there that `parseRequest` comes to (`HasField`, `GetsThrough`).
-/

namespace PwdManLib

open Exec Trace

/-- `tokens[0]`, `sub_tokens[0]`, `sub_tokens[1]` and `sub_tokens[2]`. -/
inductive TokenName where
  | line
  | method
  | target
  | proto
  deriving DecidableEq, Repr

/-- A token that is used as a string, and its slot: NULL, a string, or nothing ever stored. -/
structure TokenUse where
  token : TokenName
  slot : Option (Option Str)
  deriving DecidableEq, Repr

/-- Use slot `i` as a string. -/
def useToken (token : TokenName) (slots : Slots) (i : Nat) : Trace TokenUse Str where
  sent := [{ token := token, slot := slots[i]? }]
  next := slots.str i

/-- `parseRequest` with a record of the tokens it uses. -/
def parseRequestUses (req : Str) (rounds : Nat) : Trace TokenUse Request := do
  let tokens := strsplit req crlf
  let line ← useToken .line tokens.slots 0
  let sub_tokens := strsplit line (lit " ")
  let target ← useToken .target sub_tokens.slots 1
  let (path, query) ← lift (parseTarget target)
  let headers ← lift (Exec.loop (headerStep tokens) { i := 1, headers := Dict.initDict 50 } rounds)
  let body ← lift (searchBody tokens.slots tokens.len 0 .unset)
  let proto ← useToken .proto sub_tokens.slots 2
  let info := encodeProto proto 0
  let method ← useToken .method sub_tokens.slots 0
  let info := encodeMethod method info
  let info := encodeReqmts info
  pure { info, path, headers, body, query }

theorem next_parseRequestUses (req : Str) (rounds : Nat) :
    (parseRequestUses req rounds).next = parseRequest req rounds := by
  simp only [parseRequestUses, parseRequest, next_bind, next_lift, next_pure, useToken]

/-- Some run on the request uses the token. -/
def Used (req : Str) (u : TokenUse) : Prop := ∃ rounds, u ∈ (parseRequestUses req rounds).sent

/-- Every token is a string when it is used. -/
def NoMissingToken (req : Str) : Prop := ∀ u, Used req u → ∃ s, u.slot = some (some s)

theorem used_iff {req : Str} {u : TokenUse} :
    Used req u ↔ u = ⟨.line, (strsplit req crlf).slots[0]?⟩ ∨
      ∃ line, (strsplit req crlf).slots.str 0 = done line ∧
        (u = ⟨.target, (strsplit line (lit " ")).slots[1]?⟩ ∨
          ∃ target, (strsplit line (lit " ")).slots.str 1 = done target ∧
            (∃ pathQuery, parseTarget target = done pathQuery) ∧
            (∃ headers, BuildsHeaders req headers) ∧
            (∃ body, searchBody (strsplit req crlf).slots (strsplit req crlf).len 0 .unset = done body) ∧
            (u = ⟨.proto, (strsplit line (lit " ")).slots[2]?⟩ ∨
              ∃ proto, (strsplit line (lit " ")).slots.str 2 = done proto ∧
                u = ⟨.method, (strsplit line (lit " ")).slots[0]?⟩)) := by
  simp only [Used, parseRequestUses, mem_sent_bind, useToken, sent_lift, next_lift, sent_pure,
    List.mem_singleton, List.not_mem_nil, false_or, or_false, and_false, exists_false]
  constructor
  · rintro ⟨n, rfl | ⟨line, hline, rfl | ⟨target, htarget, pathQuery, hpath, headers, hheaders, body,
      hbody, huse⟩⟩⟩
    · exact .inl rfl
    · exact .inr ⟨line, hline, .inl rfl⟩
    · exact .inr ⟨line, hline, .inr ⟨target, htarget, ⟨pathQuery, hpath⟩, ⟨headers, n, hheaders⟩,
        ⟨body, hbody⟩, huse⟩⟩
  · rintro (rfl | ⟨line, hline, rfl | ⟨target, htarget, ⟨pathQuery, hpath⟩, ⟨headers, n, hheaders⟩,
      ⟨body, hbody⟩, huse⟩⟩)
    · exact ⟨0, .inl rfl⟩
    · exact ⟨0, .inr ⟨line, hline, .inl rfl⟩⟩
    · exact ⟨n, .inr ⟨line, hline, .inr ⟨target, htarget, pathQuery, hpath, headers, hheaders, body,
        hbody, huse⟩⟩⟩

/-! ## What a split has -/

/-- The piece of index `i` is there, and is not an empty one at the end. -/
def HasField (ps : List Str) (i : Nat) : Prop := ∃ p, ps[i]? = some p ∧ ¬ (p = [] ∧ i + 1 = ps.length)

theorem hasField_iff {ps : List Str} {i : Nat} :
    HasField ps i ↔ ∃ s, (slotsOf ps)[i]? = some (some s) := by
  simp only [← str_eq_done_iff, str_slotsOf, HasField]
  cases ps[i]? with
  | none => simp
  | some p =>
    by_cases hp : p = [] ∧ i + 1 = ps.length
    · simp [hp]
    · simp only [if_neg hp]
      exact ⟨fun _ => ⟨p, rfl⟩, fun _ => ⟨p, rfl, hp⟩⟩

theorem HasField.of_lt {ps : List Str} {i j : Nat} (h : HasField ps i) (hj : j < i) : HasField ps j := by
  obtain ⟨p, hp, -⟩ := h
  have hlen := (List.getElem?_eq_some_iff.mp hp).1
  exact ⟨ps[j], List.getElem?_eq_getElem (by omega), by omega⟩

theorem hasField_zero_split {d s : Str} (hne : d ≠ []) : HasField (Delim.split d s) 0 ↔ s ≠ [] := by
  obtain ⟨p, ps, hsplit⟩ := List.exists_cons_of_ne_nil (Delim.split_ne_nil d s)
  have hone : HasField (p :: ps) 0 ↔ ¬ (p = [] ∧ ps = []) := by
    simp [HasField]
  rw [hsplit, hone, ne_eq, not_iff_not]
  constructor
  · intro h
    obtain ⟨rfl, rfl⟩ := h
    have hs := Delim.intercalate_split hne s
    rwa [hsplit, List.intercalate_singleton, eq_comm] at hs
  · rintro rfl
    rw [Delim.split_of_absent (by simpa using hne)] at hsplit
    simpa using hsplit.symm

theorem exists_searchBody (ps : List Str) (n i : Nat) (h : i + n = ps.length) (b : Body) :
    ∃ body, searchBody (slotsOf ps) n i b = done body := by
  induction n generalizing i with
  | zero => exact ⟨b, rfl⟩
  | succ n ih =>
    have hi : ps[i]? = some ps[i] := List.getElem?_eq_getElem (by omega)
    rw [searchBody, Slots.read_of_getElem? (slotsOf_getElem? hi), done_bind]
    by_cases hnull : ps[i] = [] ∧ i + 1 = ps.length
    · rw [if_pos hnull, if_neg (by simp)]
      exact ih (i + 1) (by omega)
    · rw [if_neg hnull]
      by_cases hempty : ps[i] = []
      · -- an empty piece that is stored has another one behind it
        have hlast : i + 1 ≠ ps.length := fun hlast => hnull ⟨hempty, hlast⟩
        have hnext : ps[i + 1]? = some ps[i + 1] := List.getElem?_eq_getElem (by omega)
        rw [if_pos (by rw [hempty]), Slots.read_of_getElem? (slotsOf_getElem? hnext), done_bind]
        split_ifs
        · exact ⟨.null, rfl⟩
        · exact ⟨.str _, rfl⟩
      · rw [if_neg (by simpa using hempty)]
        exact ih (i + 1) (by omega)

/-! ## When nothing is missing -/

/-- The first line of a request. -/
def firstLine (req : Str) : Str := (Delim.split crlf req).headD []

/-- The fields of the first line. -/
def fields (req : Str) : List Str := Delim.split (lit " ") (firstLine req)

/-- Between the second field and the third, `parseRequest` has to get through the query string and the
header lines. -/
structure GetsThrough (req : Str) : Prop where
  query : ∀ target, (fields req)[1]? = some target → QueryReadable target
  headers : crlf <:+: req ∧ ∀ l ∈ headerLines req, colon <:+: l

theorem slots_of_firstLine {req line : Str} (h : (strsplit req crlf).slots.str 0 = done line) :
    (strsplit line (lit " ")).slots = slotsOf (fields req) := by
  rw [strsplit_eq] at h
  rw [strsplit_eq, fields, firstLine, List.headD_eq_head?_getD, List.head?_eq_getElem?,
    getElem?_of_str h]
  rfl

/-- Field `i` of the first line. -/
def field (req : Str) (i : Nat) : Str := (fields req)[i]?.getD []

theorem HasField.getElem?_fields {req : Str} {i : Nat} (h : HasField (fields req) i) :
    (fields req)[i]? = some (field req i) := by
  obtain ⟨p, hp, -⟩ := h
  rw [field, hp, Option.getD_some]

theorem str_field_iff {req s : Str} {i : Nat} :
    (∃ line, (strsplit req crlf).slots.str 0 = done line ∧
        (strsplit line (lit " ")).slots.str i = done s) ↔
      HasField (fields req) i ∧ field req i = s := by
  constructor
  · intro h
    obtain ⟨line, hline, hs⟩ := h
    rw [slots_of_firstLine hline] at hs
    have hfield := hasField_iff.mpr ⟨s, str_eq_done_iff.mp hs⟩
    refine ⟨hfield, ?_⟩
    rw [field, getElem?_of_str hs, Option.getD_some]
  · intro h
    obtain ⟨hfield, rfl⟩ := h
    obtain ⟨s, hs⟩ := hasField_iff.mp hfield
    have hreq : req ≠ [] := by
      rintro rfl
      obtain ⟨p, hp, hlast⟩ := hfield
      cases i with
      | zero => exact hlast (by simpa [fields, firstLine, Delim.split, Delim.pieces] using hp.symm)
      | succ i => simp [fields, firstLine, Delim.split, Delim.pieces] at hp
    obtain ⟨line, hline⟩ := hasField_iff.mp ((hasField_zero_split crlf_ne_nil).mpr hreq)
    have hstr : (strsplit req crlf).slots.str 0 = done line := by
      rw [strsplit_eq]
      exact str_eq_done_iff.mpr hline
    refine ⟨line, hstr, ?_⟩
    rw [slots_of_firstLine hstr]
    have hdone := str_eq_done_iff.mpr hs
    rwa [field, getElem?_of_str hdone, Option.getD_some]

theorem parses_iff_fields {req : Str} {r : Request} :
    Parses req r ↔ HasField (fields req) 2 ∧ parseTarget (field req 1) = done (r.path, r.query) ∧
      BuildsHeaders req r.headers ∧
      searchBody (strsplit req crlf).slots (strsplit req crlf).len 0 .unset = done r.body ∧
      r.info = requestInfo (field req 2) (field req 0) := by
  rw [parses_iff]
  constructor
  · intro h
    obtain ⟨line, target, proto, method, hline, htarget, hpath, hheaders, hbody, hproto, hmethod, hinfo⟩ := h
    obtain ⟨-, rfl⟩ := str_field_iff.mp ⟨line, hline, htarget⟩
    obtain ⟨hfield, rfl⟩ := str_field_iff.mp ⟨line, hline, hproto⟩
    obtain ⟨-, rfl⟩ := str_field_iff.mp ⟨line, hline, hmethod⟩
    exact ⟨hfield, hpath, hheaders, hbody, hinfo⟩
  · intro h
    obtain ⟨hfield, hpath, hheaders, hbody, hinfo⟩ := h
    obtain ⟨line, hline, hproto⟩ := str_field_iff.mpr ⟨hfield, rfl⟩
    obtain ⟨line₁, hline₁, htarget⟩ := str_field_iff.mpr ⟨hfield.of_lt Nat.one_lt_two, rfl⟩
    obtain ⟨line₀, hline₀, hmethod⟩ := str_field_iff.mpr ⟨hfield.of_lt Nat.two_pos, rfl⟩
    obtain rfl := done.inj (hline.symm.trans hline₁)
    obtain rfl := done.inj (hline.symm.trans hline₀)
    exact ⟨line, _, _, _, hline, htarget, hpath, hheaders, hbody, hproto, hmethod, hinfo⟩

theorem exists_parseTarget_iff (target : Str) :
    (∃ pathQuery, parseTarget target = done pathQuery) ↔ QueryReadable target := by
  constructor
  · rintro ⟨⟨path, query⟩, h⟩
    exact (parseTarget_iff.mp h).1
  · intro hread
    obtain ⟨query, hquery⟩ := exists_queryOf target
    exact ⟨_, parseTarget_iff.mpr ⟨hread, rfl, hquery⟩⟩

theorem getsThrough_iff {req : Str} (h : HasField (fields req) 1) :
    GetsThrough req ↔
      (∃ pathQuery, parseTarget (field req 1) = done pathQuery) ∧ ∃ headers, BuildsHeaders req headers := by
  rw [exists_parseTarget_iff, exists_buildsHeaders_iff]
  constructor
  · intro hthrough
    exact ⟨hthrough.query _ h.getElem?_fields, hthrough.headers⟩
  · rintro ⟨hread, hlines⟩
    refine ⟨?_, hlines⟩
    intro target htarget
    rw [h.getElem?_fields, Option.some.injEq] at htarget
    exact htarget ▸ hread

theorem exists_parses_iff {req : Str} :
    (∃ r, Parses req r) ↔ HasField (fields req) 2 ∧ GetsThrough req := by
  constructor
  · intro h
    obtain ⟨r, hr⟩ := h
    obtain ⟨hfield, hpath, hheaders, -, -⟩ := parses_iff_fields.mp hr
    exact ⟨hfield, (getsThrough_iff (hfield.of_lt Nat.one_lt_two)).mpr ⟨⟨_, hpath⟩, _, hheaders⟩⟩
  · intro h
    obtain ⟨hfield, hthrough⟩ := h
    obtain ⟨⟨⟨path, query⟩, hpath⟩, headers, hheaders⟩ :=
      (getsThrough_iff (hfield.of_lt Nat.one_lt_two)).mp hthrough
    obtain ⟨body, hbody⟩ := exists_searchBody (Delim.split crlf req) (Delim.split crlf req).length 0
      (Nat.zero_add _) .unset
    rw [← length_tokens] at hbody
    let r : Request := { info := requestInfo (field req 2) (field req 0), path, headers, body, query }
    exact ⟨r, parses_iff_fields.mpr ⟨hfield, hpath, hheaders, by rwa [strsplit_eq] at hbody ⊢, rfl⟩⟩

/-- **When all the tokens are there**: when the text is not empty, its first line has a second field, and a third one
if `parseRequest` gets that far. -/
theorem noMissingToken_iff (req : Str) :
    NoMissingToken req ↔
      req ≠ [] ∧ HasField (fields req) 1 ∧ (GetsThrough req → HasField (fields req) 2) := by
  have hslots : (strsplit req crlf).slots = slotsOf (Delim.split crlf req) := by
    rw [strsplit_eq, tokensOf]
  have hbody : ∃ body, searchBody (strsplit req crlf).slots (strsplit req crlf).len 0 .unset =
      done body := by
    rw [hslots, length_tokens]
    exact exists_searchBody _ _ 0 (Nat.zero_add _) .unset
  rw [← hasField_zero_split crlf_ne_nil, hasField_iff, ← hslots]
  constructor
  · intro h
    obtain ⟨line, hline⟩ := h _ (used_iff.mpr (.inl rfl))
    have hstr := str_eq_done_iff.mpr hline
    have hfields := slots_of_firstLine hstr
    obtain ⟨target, htarget⟩ := h _ (used_iff.mpr (.inr ⟨line, hstr, .inl rfl⟩))
    have hstr' := str_eq_done_iff.mpr htarget
    obtain ⟨hfield, rfl⟩ := str_field_iff.mp ⟨line, hstr, hstr'⟩
    refine ⟨⟨line, hline⟩, hfield, fun hthrough => ?_⟩
    obtain ⟨hread, hheaders⟩ := (getsThrough_iff hfield).mp hthrough
    have hproto := h _ (used_iff.mpr (.inr ⟨line, hstr, .inr ⟨_, hstr', hread, hheaders, hbody,
      .inl rfl⟩⟩))
    rw [hfields] at hproto
    exact hasField_iff.mpr hproto
  · rintro ⟨hline, htarget, hproto⟩ u hu
    rcases used_iff.mp hu with rfl | ⟨line, hstr, rfl | ⟨target, hstr', hread, hheaders, -, hu⟩⟩
    · exact hline
    · rw [slots_of_firstLine hstr]
      exact hasField_iff.mp htarget
    · obtain ⟨-, rfl⟩ := str_field_iff.mp ⟨line, hstr, hstr'⟩
      have hthrough := (getsThrough_iff htarget).mpr ⟨hread, hheaders⟩
      rw [slots_of_firstLine hstr] at hu
      rcases hu with rfl | ⟨proto, -, rfl⟩
      · exact hasField_iff.mp (hproto hthrough)
      · exact hasField_iff.mp (htarget.of_lt Nat.one_pos)

/-- After a failed read with nothing received the first line is missing. -/
theorem empty_request_missing : ¬ ∀ req : Str, NoMissingToken req := by
  intro hall
  obtain ⟨s, hs⟩ := hall [] _ (used_iff.mpr (.inl rfl))
  rw [show (strsplit [] crlf).slots[0]? = some none by decide] at hs
  simp at hs

end PwdManLib
