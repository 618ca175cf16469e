import PwdManLib.Server.HeaderValues
import PwdManLib.Server.QuerySteps
import PwdManLib.Server.TokenUse

/-!
# The limits of a request

`parseRequest` allocates 20 slots for query parameters and 50 for headers, and means to answer 400 to
more than 41 query tokens. The branch is empty, `setTuple` drops what does not fit, and the information
byte comes from the request line alone, so being over the limits does not keep a request from being
served (`served_iff`, `limitsHold_iff`).
-/

namespace PwdManLib

open Exec

/-! ## What a request brings -/

/-- The keys with values in the query string of a request. -/
def queryKeys (req : Str) : List Str := (queryParams (field req 1)).filterMap pairKey

/-- The names in the lines between the request line and the first blank line. -/
def headerNames (req : Str) : List Str :=
  (((Delim.split crlf req).tail.takeWhile (· ≠ [])).filter fun line => colon <:+: line).map nameOf

/-- More than 20 different query keys, or more than 50 different header names. -/
def OverLimits (req : Str) : Prop :=
  20 < (queryKeys req).toFinset.card ∨ 50 < (headerNames req).toFinset.card

/-- A request over the limits does not meet the requirements. -/
def LimitsHold (req : Str) : Prop := OverLimits req → ∀ r, Parses req r → decodeReqmts r.info ≠ 1

/-! ## Which requests are served -/

theorem hasField_of_acceptedLine {req : Str} (h : AcceptedLine (firstLine req)) :
    HasField (fields req) 2 := by
  obtain ⟨m, target, proto, more, hfields, hproto⟩ := (acceptedLine_iff _).mp h
  refine ⟨proto, by rw [fields, hfields]; rfl, ?_⟩
  rintro ⟨rfl, -⟩
  exact absurd hproto (by decide)

/-- **Which requests come out with the requirements bit**: those with an accepted first line that
`parseRequest` gets through. How many parameters and headers there are does not matter. -/
theorem served_iff (req : Str) :
    (∃ r, Parses req r ∧ decodeReqmts r.info = 1) ↔ AcceptedLine (firstLine req) ∧ GetsThrough req := by
  have hreqmts {r : Request} (hr : Parses req r) :
      decodeReqmts r.info = 1 ↔ AcceptedLine (firstLine req) := by
    obtain ⟨hfield, -, -, -, hinfo⟩ := parses_iff_fields.mp hr
    rw [hinfo, decodeReqmts_requestInfo_iff]
    exact (acceptedLine_iff_of_fields (hfield.of_lt Nat.two_pos).getElem?_fields
      (hfield.of_lt Nat.one_lt_two).getElem?_fields hfield.getElem?_fields).symm
  constructor
  · intro h
    obtain ⟨r, hr, hbit⟩ := h
    exact ⟨(hreqmts hr).mp hbit, (exists_parses_iff.mp ⟨r, hr⟩).2⟩
  · intro h
    obtain ⟨haccepted, hthrough⟩ := h
    obtain ⟨r, hr⟩ := exists_parses_iff.mpr ⟨hasField_of_acceptedLine haccepted, hthrough⟩
    exact ⟨r, hr, (hreqmts hr).mpr haccepted⟩

/-- **When the limits hold**: for no request that `parseRequest` would serve without them. -/
theorem limitsHold_iff (req : Str) :
    LimitsHold req ↔ ¬ (OverLimits req ∧ AcceptedLine (firstLine req) ∧ GetsThrough req) := by
  rw [← served_iff, LimitsHold]
  constructor
  · rintro h ⟨hover, r, hr, hreqmts⟩
    exact h hover r hr hreqmts
  · intro h hover r hr hreqmts
    exact h ⟨hover, r, hr, hreqmts⟩

/-! ## What is dropped -/

theorem exists_key_dropped {req : Str} {r : Request} (h : Parses req r)
    (hover : 20 < (queryKeys req).toFinset.card) :
    ∃ k ∈ queryKeys req, r.query.getTuple (some k) = done .minusOne := by
  obtain ⟨line, target, proto, method, -, -, hpath, -⟩ := parses_iff.mp h
  exact Dict.exists_absent (parseTarget_iff.mp hpath).2.2.1 hover

theorem exists_name_dropped {req : Str} {r : Request} (h : Parses req r)
    (hover : 50 < (headerNames req).toFinset.card) :
    ∃ name ∈ headerNames req, r.headers.getTuple (some name) = done .minusOne := by
  obtain ⟨line, target, proto, method, -, -, -, hheaders, -⟩ := parses_iff.mp h
  exact Dict.exists_absent (headersOf_of_buildsHeaders hheaders).1 hover

/-- A GET with 21 query keys is served. -/
theorem many_params_served : ¬ ∀ req : Str, LimitsHold req := by
  intro hall
  obtain ⟨r, hr, -, hinfo⟩ := exists_parses_line (lit "GET")
    (lit "/?a=1&b=1&c=1&d=1&e=1&f=1&g=1&h=1&i=1&j=1&k=1&l=1&m=1&n=1&o=1&p=1&q=1&r=1&s=1&t=1&u=1")
    (lit "HTTP/1.0") (by decide +kernel) (by decide +kernel) (by decide) (by decide +kernel)
  refine hall _ (.inl ?_) r hr ?_
  · decide +kernel
  · rw [hinfo]
    decide

end PwdManLib
