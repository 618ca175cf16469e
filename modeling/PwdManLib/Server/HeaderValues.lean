import PwdManLib.Server.RequestLine

/-!
# The headers of a request

The header lines go through the splitter, the search for the first `": "` and a dictionary of 50 slots
that overwrites and, once it is full, drops. `HeaderValues` says what all this comes to, in terms of the
lines alone.
-/

namespace PwdManLib

open Exec

/-- The part before the first `": "`. -/
def nameOf (line : Str) : Str := (Delim.split colon line).headD []

/-- The part after the first `": "`. -/
def valueOf (line : Str) : Str := colon.intercalate (Delim.split colon line).tail

/-- The first 50 distinct names, in order of appearance. -/
def keptNames (lines : List Str) : List Str := (lines.map nameOf).eraseDups.take 50

/-- A kept name has the value of its last line, every other name is absent. -/
structure HeaderValues (lines : List Str) (headers : Dict Str) : Prop where
  kept : ∀ name ∈ keptNames lines, ∃ front line back, lines = front ++ line :: back ∧
    nameOf line = name ∧ (∀ l ∈ back, nameOf l ≠ name) ∧
      headers.getTuple (some name) = done (.to (valueOf line))
  absent : ∀ name, name ∉ keptNames lines → headers.getTuple (some name) = done .minusOne

/-! ## One line -/

section line

variable {name : Str} (hname : ¬ colon <:+: name) (value : Str)

include hname

theorem nameOf_append : nameOf (name ++ colon ++ value) = name := by
  rw [nameOf, List.append_assoc, Delim.split_cons_delim borderless_colon colon_ne_nil hname,
    List.headD_cons]

theorem valueOf_append : valueOf (name ++ colon ++ value) = value := by
  rw [valueOf, List.append_assoc, Delim.split_cons_delim borderless_colon colon_ne_nil hname,
    List.tail_cons, Delim.intercalate_split colon_ne_nil]

end line

theorem line_eq {line : Str} (h : colon <:+: line) : line = nameOf line ++ colon ++ valueOf line := by
  obtain ⟨name, value, rfl, hname⟩ := Delim.exists_eq_append_of_infix colon_ne_nil h
  rw [nameOf_append hname, valueOf_append hname]

theorem headerPair_eq {line : Str} (h : colon <:+: line) :
    headerPair line = (nameOf line, .to (valueOf line)) := by
  obtain ⟨name, value, rfl, hname⟩ := Delim.exists_eq_append_of_infix colon_ne_nil h
  rw [nameOf_append hname, valueOf_append hname, headerPair_append hname]

/-! ## All lines -/

theorem exists_last_line {lines : List Str} {name : Str} (h : name ∈ lines.map nameOf) :
    ∃ front line back, lines = front ++ line :: back ∧ nameOf line = name ∧
      ∀ l ∈ back, nameOf l ≠ name := by
  induction lines using List.reverseRecOn with
  | nil => simp at h
  | append_singleton lines l ih =>
    by_cases hl : nameOf l = name
    · exact ⟨lines, l, [], rfl, hl, by simp⟩
    · have hin : name ∈ lines.map nameOf := by
        simpa [Ne.symm hl] using h
      obtain ⟨front, line, back, rfl, hline, hback⟩ := ih hin
      refine ⟨front, line, back ++ [l], by simp, hline, ?_⟩
      intro m hm
      rcases List.mem_append.mp hm with hm | hm
      · exact hback m hm
      · rw [List.mem_singleton.mp hm]
        exact hl

section lines

variable {lines : List Str} (hlines : ∀ l ∈ lines, colon <:+: l)

include hlines

theorem map_headerPair : lines.map headerPair = lines.map fun l => (nameOf l, .to (valueOf l)) :=
  List.map_congr_left fun l hl => headerPair_eq (hlines l hl)

theorem map_fst_headerPair : (lines.map headerPair).map Prod.fst = lines.map nameOf := by
  rw [map_headerPair hlines, List.map_map]
  rfl

theorem lookup_last_line {front back : List Str} {line : Str} (hsplit : lines = front ++ line :: back)
    (hback : ∀ l ∈ back, nameOf l ≠ nameOf line) :
    (lines.map headerPair).reverse.lookup (nameOf line) = some (.to (valueOf line)) := by
  have hnone : ((back.map fun l => (nameOf l, VoidPtr.to (valueOf l))).reverse).lookup (nameOf line) =
      none := by
    apply lookup_eq_none
    rw [List.map_reverse, List.mem_reverse, List.map_map]
    rintro hmem
    obtain ⟨l, hl, hname⟩ := List.mem_map.mp hmem
    exact hback l hl hname
  rw [map_headerPair hlines, hsplit, List.map_append, List.reverse_append, List.map_cons,
    List.reverse_cons, List.append_assoc, List.lookup_append, hnone, List.singleton_append,
    lookup_cons_eq, if_pos rfl]
  rfl

theorem headerValues_of_headersOf {headers : Dict Str} (h : HeadersOf lines headers) :
    HeaderValues lines headers := by
  have hget (name : Str) : headers.getTuple (some name) =
      done ((if name ∈ keptNames lines then (lines.map headerPair).reverse.lookup name
        else none).getD .minusOne) := by
    rw [Dict.getTuple_foldl h.1, map_fst_headerPair hlines]
    rfl
  constructor
  · intro name hname
    have hin : name ∈ lines.map nameOf := List.mem_eraseDups.mp (List.mem_of_mem_take hname)
    obtain ⟨front, line, back, hsplit, rfl, hback⟩ := exists_last_line hin
    refine ⟨front, line, back, hsplit, rfl, hback, ?_⟩
    rw [hget, if_pos hname, lookup_last_line hlines hsplit hback]
    rfl
  · intro name hname
    rw [hget, if_neg hname]
    rfl

end lines

/-! ## The request -/

section request

variable {line : Str} {lines : List Str} {body : Str}

theorem exists_parses_fields (hfields : (Delim.split (lit " ") line).length = 3)
    (hline : ¬ crlf <:+: line) (hquery : qmark ∉ line)
    (hproto : (Delim.split (lit " ") line)[2]? ≠ some [])
    (hlines : ∀ l ∈ lines, colon <:+: l ∧ ¬ crlf <:+: l) (hbody : ¬ crlf <:+: body) :
    ∃ r, Parses (crlf.intercalate (line :: lines) ++ crlf ++ crlf ++ body) r := by
  obtain ⟨method, target, proto, hsplit⟩ := List.length_eq_three.mp hfields
  have heq : line = method ++ lit " " ++ target ++ lit " " ++ proto := by
    conv_lhs => rw [← Delim.intercalate_split space_ne_nil line, hsplit]
    simp
  have hpart : ∀ t ∈ [method, target, proto], t <:+: line := fun t ht =>
    Delim.infix_of_mem_split space_ne_nil (hsplit ▸ ht)
  let q : RequestText :=
    { method, target, proto, lines, body
      space_notMem := fun t ht => by
        rw [← space_infix_iff]
        exact Delim.not_infix_of_mem_split space_ne_nil (s := line) (hsplit ▸ ht)
      crlf_absent := fun t ht hin => hline (hin.trans (hpart t ht))
      proto_ne_nil := fun hnil => hproto (by rw [hsplit, hnil]; rfl)
      lines_ok := hlines }
  have htarget : qmark ∉ target := fun hmem => hquery ((hpart target (by simp)).subset hmem)
  have hparse := exists_parses q hbody (queryReadable_of_absent htarget)
  have hhead : q.head = crlf.intercalate (line :: lines) := by
    rw [heq]
    rfl
  rwa [RequestText.text, hhead] at hparse

/-- **The headers of a request**: `parseRequest` builds a dictionary with the values of its lines, and
comes to its end with it unless the protocol is empty. -/
theorem request_headers (line : Str) (lines : List Str) (body : Str)
    (hfields : (Delim.split (lit " ") line).length = 3) (hline : ¬ crlf <:+: line)
    (hquery : qmark ∉ line) (hlines : ∀ l ∈ lines, colon <:+: l ∧ ¬ crlf <:+: l)
    (hbody : ¬ crlf <:+: body) :
    ∃ headers, BuildsHeaders (crlf.intercalate (line :: lines) ++ crlf ++ crlf ++ body) headers ∧
      HeaderValues lines headers ∧
      ((Delim.split (lit " ") line)[2]? ≠ some [] →
        ∃ r, Parses (crlf.intercalate (line :: lines) ++ crlf ++ crlf ++ body) r ∧
          r.headers = headers) := by
  have hcolons : ∀ l ∈ lines, colon <:+: l := fun l hl => (hlines l hl).1
  have htail : (Delim.split crlf (crlf.intercalate (line :: lines))).tail = lines := by
    rw [Delim.split_intercalate borderless_crlf crlf_ne_nil, List.tail_cons]
    intro l hl
    rcases List.mem_cons.mp hl with rfl | hl
    · exact hline
    · exact (hlines l hl).2
  obtain ⟨headers, hheaders⟩ := exists_headersOf hcolons
  have hbuilds : BuildsHeaders (crlf.intercalate (line :: lines) ++ crlf ++ crlf ++ body) headers := by
    rw [buildsHeaders_blank_line, htail]
    exact ⟨hbody, hcolons, hheaders⟩
  refine ⟨headers, hbuilds, headerValues_of_headersOf hcolons hheaders, fun hproto => ?_⟩
  obtain ⟨r, hr⟩ := exists_parses_fields hfields hline hquery hproto hlines hbody
  obtain ⟨_, _, _, _, -, -, -, hbuilds', -⟩ := parses_iff.mp hr
  exact ⟨r, hr, Finishes.unique (stable_loop _) hbuilds' hbuilds⟩

end request

end PwdManLib
