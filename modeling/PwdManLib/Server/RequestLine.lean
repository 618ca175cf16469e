import PwdManLib.Server.LoopBound
import PwdManLib.Server.RequestText

/-!
# The request line

`parseRequest` cuts the first line at its spaces and looks at fields 0 and 2. A request meets the
requirements when these are a method and a protocol it knows, whatever the other fields are
(`AcceptedLine`): an empty target will do, and so will more fields than three.
-/

namespace PwdManLib

/-! ## Supported methods and protocols -/

/-- The supported protocols. -/
def protocols : List Str := [lit "HTTP/1.0", lit "HTTP/1.1", lit "HTTP/2.0"]

theorem protoCode_ne_zero_iff (proto : Str) : protoCode proto ≠ 0 ↔ proto ∈ protocols := by
  rw [protoCode, protocols]
  split_ifs <;> simp [*]

theorem Method.code_ne_zero (m : Method) : m.code ≠ 0 := by
  cases m <;> decide

theorem methodCode_ne_zero_iff (method : Str) :
    methodCode method ≠ 0 ↔ ∃ m : Method, method = m.text := by
  constructor
  · intro h
    rw [methodCode] at h
    split_ifs at h with h₁ h₂ h₃ h₄ h₅ h₆ h₇ h₈
    · exact ⟨.get, h₁⟩
    · exact ⟨.head, h₂⟩
    · exact ⟨.post, h₃⟩
    · exact ⟨.put, h₄⟩
    · exact ⟨.delete, h₅⟩
    · exact ⟨.connect, h₆⟩
    · exact ⟨.options, h₇⟩
    · exact ⟨.trace, h₈⟩
    · exact absurd rfl h
  · rintro ⟨m, rfl⟩
    rw [methodCode_text]
    exact m.code_ne_zero

theorem decodeReqmts_requestInfo_iff (proto method : Str) :
    decodeReqmts (requestInfo proto method) = 1 ↔
      proto ∈ protocols ∧ ∃ m : Method, method = m.text := by
  rw [decodeReqmts_requestInfo, ← protoCode_ne_zero_iff, ← methodCode_ne_zero_iff]
  by_cases h : protoCode proto = 0 ∨ methodCode method = 0
  · rw [if_pos h]
    apply iff_of_false (by decide)
    rintro ⟨hproto, hmethod⟩
    exact h.elim hproto hmethod
  · rw [if_neg h]
    exact iff_of_true rfl (not_or.mp h)

/-! ## Which lines are accepted -/

/-- A method, a target, maybe empty, a protocol, and any further fields, with single spaces between them. -/
def AcceptedLine (line : Str) : Prop :=
  ∃ (m : Method) (target proto : Str) (more : List Str),
    line = (lit " ").intercalate (m.text :: target :: proto :: more) ∧
      proto ∈ protocols ∧ ∀ field ∈ target :: more, 32 ∉ field

/-- A method, a non-empty target and a protocol, and nothing else, with single spaces between them. -/
def WellFormedLine (line : Str) : Prop :=
  ∃ (m : Method) (target proto : Str),
    line = m.text ++ lit " " ++ target ++ lit " " ++ proto ∧
      proto ∈ protocols ∧ target ≠ [] ∧ 32 ∉ target

theorem space_ne_nil : lit " " ≠ [] := by decide

theorem borderless_space : Delim.Borderless (lit " ") := Delim.borderless_singleton 32

theorem space_infix_iff (field : Str) : lit " " <:+: field ↔ 32 ∈ field :=
  List.singleton_infix_iff 32 field

theorem space_notMem_text (m : Method) : 32 ∉ m.text := by
  cases m <;> decide

theorem space_notMem_protocol {proto : Str} (h : proto ∈ protocols) : 32 ∉ proto := by
  revert proto
  decide

theorem split_fields (m : Method) {target proto : Str} {more : List Str} (hproto : proto ∈ protocols)
    (hmore : ∀ field ∈ target :: more, 32 ∉ field) :
    Delim.split (lit " ") ((lit " ").intercalate (m.text :: target :: proto :: more)) =
      m.text :: target :: proto :: more := by
  apply Delim.split_intercalate borderless_space space_ne_nil
  intro field hfield
  rw [space_infix_iff]
  simp only [List.mem_cons] at hfield hmore
  rcases hfield with rfl | rfl | rfl | hfield
  · exact space_notMem_text m
  · exact hmore _ (.inl rfl)
  · exact space_notMem_protocol hproto
  · exact hmore _ (.inr hfield)

theorem acceptedLine_iff (line : Str) :
    AcceptedLine line ↔ ∃ (m : Method) (target proto : Str) (more : List Str),
      Delim.split (lit " ") line = m.text :: target :: proto :: more ∧ proto ∈ protocols := by
  constructor
  · intro h
    obtain ⟨m, target, proto, more, rfl, hproto, hmore⟩ := h
    exact ⟨m, target, proto, more, split_fields m hproto hmore, hproto⟩
  · intro h
    obtain ⟨m, target, proto, more, hsplit, hproto⟩ := h
    refine ⟨m, target, proto, more, ?_, hproto, ?_⟩
    · rw [← hsplit, Delim.intercalate_split space_ne_nil]
    · intro field hfield
      rw [← space_infix_iff]
      apply Delim.not_infix_of_mem_split space_ne_nil (s := line)
      rw [hsplit]
      simp only [List.mem_cons] at hfield ⊢
      tauto

theorem WellFormedLine.fields {line : Str} (h : WellFormedLine line) :
    ∃ method target proto, Delim.split (lit " ") line = [method, target, proto] ∧ target ≠ [] := by
  obtain ⟨m, target, proto, rfl, hproto, hne, hspace⟩ := h
  have hmore : ∀ field ∈ target :: ([] : List Str), 32 ∉ field := by simpa using hspace
  have hfields := split_fields m hproto hmore
  simp only [List.intercalate_cons_cons, List.intercalate_singleton, List.append_assoc] at hfields ⊢
  exact ⟨m.text, target, proto, hfields, hne⟩

theorem acceptedLine_iff_of_fields {line method target proto : Str}
    (hmethod : (Delim.split (lit " ") line)[0]? = some method)
    (htarget : (Delim.split (lit " ") line)[1]? = some target)
    (hproto : (Delim.split (lit " ") line)[2]? = some proto) :
    AcceptedLine line ↔ proto ∈ protocols ∧ ∃ m : Method, method = m.text := by
  rw [acceptedLine_iff]
  constructor
  · intro h
    obtain ⟨m, target', proto', more, hsplit, hmem⟩ := h
    rw [hsplit] at hmethod hproto
    obtain rfl : m.text = method := by simpa using hmethod
    obtain rfl : proto' = proto := by simpa using hproto
    exact ⟨hmem, m, rfl⟩
  · intro h
    obtain ⟨hmem, m, rfl⟩ := h
    match hsplit : Delim.split (lit " ") line with
    | [] => simp [hsplit] at hmethod
    | [_] => simp [hsplit] at htarget
    | [_, _] => simp [hsplit] at hproto
    | a :: b :: c :: more =>
      obtain rfl : a = m.text := by simpa [hsplit] using hmethod
      obtain rfl : c = proto := by simpa [hsplit] using hproto
      exact ⟨m, b, c, more, rfl, hmem⟩

/-- **Which requests meet the requirements**, of those that are parsed at all: those with an accepted first line. -/
theorem decodeReqmts_parsed_iff (text : Str) (r : Request) (h : Parses text r) :
    decodeReqmts r.info = 1 ↔
      ∃ line rest, text = line ++ crlf ++ rest ∧ ¬ crlf <:+: line ∧ AcceptedLine line := by
  obtain ⟨line, target, proto, method, hline, htarget, -, hheaders, -, hproto, hmethod, hinfo⟩ :=
    parses_iff.mp h
  rw [strsplit_eq] at hline htarget hproto hmethod
  have hcrlf : crlf <:+: text := (exists_buildsHeaders_iff.mp ⟨_, hheaders⟩).1
  obtain ⟨first, rest, rfl, hfirst⟩ := Delim.exists_eq_append_of_infix crlf_ne_nil hcrlf
  obtain rfl : first = line := by
    have hget := getElem?_of_str hline
    rw [List.append_assoc, Delim.split_cons_delim borderless_crlf crlf_ne_nil hfirst] at hget
    simpa using hget
  rw [hinfo, decodeReqmts_requestInfo_iff, ← acceptedLine_iff_of_fields (getElem?_of_str hmethod)
    (getElem?_of_str htarget) (getElem?_of_str hproto)]
  constructor
  · intro haccepted
    exact ⟨first, rest, rfl, hfirst, haccepted⟩
  · rintro ⟨line, rest', htext, hline', haccepted⟩
    rwa [(Delim.append_delim_inj borderless_crlf hfirst hline' htext).1]

theorem decodeReqmts_parsed_iff_get :
    ∃ r, Parses (lit "GET /a HTTP/1.0\r\n\r\n") r ∧ (decodeReqmts r.info = 1 ↔
      ∃ line rest, lit "GET /a HTTP/1.0\r\n\r\n" = line ++ crlf ++ rest ∧ ¬ crlf <:+: line ∧
        AcceptedLine line) := by
  obtain ⟨r, hr, -⟩ := exists_parses_line (lit "GET") (lit "/a") (lit "HTTP/1.0") (by decide) (by decide)
    (by decide) (by decide)
  exact ⟨r, hr, decodeReqmts_parsed_iff _ r hr⟩

/-- A request without a target meets the requirements. -/
theorem empty_target_accepted :
    ¬ ∀ text r, Parses text r → (decodeReqmts r.info = 1 ↔
      ∃ line rest, text = line ++ crlf ++ rest ∧ ¬ crlf <:+: line ∧ WellFormedLine line) := by
  intro hall
  obtain ⟨r, hr, -, hinfo⟩ := exists_parses_line (lit "GET") [] (lit "HTTP/1.0") (by decide) (by decide)
    (by decide) (by decide)
  have hreqmts : decodeReqmts r.info = 1 := by
    rw [hinfo]
    decide
  obtain ⟨line, rest, htext, hline, hformed⟩ := (hall _ r hr).mp hreqmts
  have hfirst : ¬ crlf <:+: lit "GET" ++ lit " " ++ [] ++ lit " " ++ lit "HTTP/1.0" := by decide
  obtain ⟨rfl, -⟩ := Delim.append_delim_inj borderless_crlf hfirst hline htext
  obtain ⟨method, target, proto, hfields, hne⟩ := hformed.fields
  have hsplit : Delim.split (lit " ") (lit "GET" ++ lit " " ++ [] ++ lit " " ++ lit "HTTP/1.0") =
      [lit "GET", [], lit "HTTP/1.0"] := by decide
  rw [hsplit, List.cons.injEq, List.cons.injEq] at hfields
  exact hne hfields.2.1.symm

end PwdManLib
