import PwdManLib.Lib.Lines
import PwdManLib.Client.RoundTrip

/-!
# Whether a rendered message is well framed

The client checks the query for spaces and nothing else, so what it renders need not be the request it
is meant to be. A message is lines, a blank line and a body (`rendered`); from the lines it is read off
which arguments keep it in shape. The first line has its three fields if there is no space in method and
path (`count_firstLine`), the headers are lines of their own if none is empty (`headers_iff`), and the
length is that of the body if it fits an `int` (`body_iff`). Line ends in method and host can end the
headers before they begin, which is the rest of the condition.
-/

namespace PwdManLib

open Delim

/-! ## Numbers -/

theorem decimal_natCast_inj {m n : Nat} (h : decimal m = decimal n) : m = n := by
  have hread (k : Nat) : (decimal k).map (fun b => Char.ofNat b.toNat) = Nat.toDigits 10 k := by
    rw [decimal_ofNat, List.map_map]
    conv => rhs; rw [← List.map_id (Nat.toDigits 10 k)]
    refine List.map_congr_left fun c hc => ?_
    rw [Function.comp_apply, (toNat_ofNat_digit hc).1, Char.ofNat_toNat]
    rfl
  have hdigits : Nat.toDigits 10 m = Nat.toDigits 10 n := by
    rw [← hread m, h, hread n]
  rw [← Nat.ofDigitChars_ten_toDigits (n := m), hdigits, Nat.ofDigitChars_ten_toDigits]

theorem eq_of_decimal_eq {i : Int} {n : Nat} (h : decimal i = decimal n) : i = n := by
  cases i with
  | ofNat k => rw [decimal_natCast_inj h, Int.ofNat_eq_natCast]
  | negSucc k =>
    rw [decimal_negSucc] at h
    have hsign := mem_decimal_natCast (h ▸ List.mem_cons_self)
    exact absurd hsign.1 (by decide)

/-! ## Command lines and their messages -/

/-- The arguments of `main`, when there are enough of them. -/
structure CommandLine where
  name : Str
  host : Str
  port : Str
  method : Str
  path : Str
  args : List Str
  deriving DecidableEq, Repr

namespace CommandLine

variable (c : CommandLine)

def argv : List Str := c.name :: c.host :: c.port :: c.method :: c.path :: c.args

/-- `argv[5]`. -/
def data : Option Str := c.args.head?

/-- The arguments behind the data. -/
def headers : List Str := c.args.tail

def withoutHeaders : CommandLine := { c with args := c.args.take 1 }

/-- Path, data and headers are free of line ends. -/
def Plain : Prop := ∀ s ∈ c.path :: c.args, 13 ∉ s ∧ 10 ∉ s

instance : Decidable c.Plain := inferInstanceAs (Decidable (∀ s ∈ c.path :: c.args, 13 ∉ s ∧ 10 ∉ s))

/-- What a well-framed message is: the first line has three fields; the header arguments are lines in
front of the first blank line, in addition to those that are there without them; and a body has the
length that is given for it in the line in front of the blank one. -/
structure WellFramed (msg : Str) : Prop where
  requestLine : (split (lit " ") ((split crlf msg).headD [])).length = 3
  headers : (∀ h ∈ c.headers, h ≠ []) ∧ ∃ bare before after,
    clientMain c.withoutHeaders.argv = some bare ∧ headLines crlf bare = before ++ after ∧
      headLines crlf msg = before ++ (c.headers ++ after)
  body : c.method ≠ lit "GET" → ∀ data, c.data = some data → ∃ body, behindBlank crlf msg = some body ∧
    lit "Content-Length: " ++ decimal body.length ++ (crlf ++ (crlf ++ data)) <:+ msg

/-- The arguments that are rendered as they are meant to be: one line with no further spaces, no empty
header, and nothing in method and host that ends the headers early. -/
structure Framable : Prop where
  spaces : if crlf <:+: c.method then ((split crlf c.method).headD []).count 32 = 2
    else 32 ∉ c.method ∧ 32 ∉ c.path
  headers : [] ∉ c.headers
  blank : c.headers ≠ [] ∨ c.method ≠ lit "GET" ∧ c.data ≠ none →
    [] ∉ (split crlf c.method).dropLast ∧ [] ∉ (split crlf c.host).tail
  length : c.method ≠ lit "GET" → ∀ data, c.data = some data → data.length < 2 ^ 31

/-! ## The message as lines -/

def sentMethod : Str := orElse c.method (lit "POST")

/-- The query string with its `?`; only GET has one. -/
def query : Str :=
  if c.method = lit "GET" ∧ c.data.getD [] ≠ [] then lit "?" ++ c.data.getD [] else []

def requestLine : Str :=
  c.sentMethod ++ 32 :: (orElse c.path (lit "/") ++ (c.query ++ lit " HTTP/1.0"))

def hostLine : Str := lit "Host:" ++ 32 :: orElse c.host (lit "localhost")

/-- The line for the length of the data; GET has none. -/
def lengthLines : List Str :=
  if c.method = lit "GET" then []
  else (c.data.map fun data => lit "Content-Length: " ++ decimal (toInt data.length)).toList

def body : Str := if c.method = lit "GET" then [] else c.data.getD []

/-- The lines in front of the headers: more than two when there are line ends in method or host. -/
def frontLines : List Str := split crlf c.requestLine ++ split crlf c.hostLine

/-- The message for arguments that are not refused. -/
def rendered : Str :=
  unlines crlf (c.frontLines ++ (c.headers ++ c.lengthLines)) ++ (crlf ++ c.body)

theorem frontLines_ne_nil : c.frontLines ≠ [] := by
  simp [frontLines, split_ne_nil]

theorem unlines_frontLines :
    unlines crlf c.frontLines = c.requestLine ++ crlf ++ (c.hostLine ++ crlf) := by
  rw [frontLines, unlines_append, unlines_split crlf_ne_nil, unlines_split crlf_ne_nil]

theorem clientMain_argv :
    clientMain c.argv =
      if c.method = lit "GET" ∧ 32 ∈ c.data.getD [] then none else some c.rendered := by
  have hheaders : ∀ hs, headerArgs hs = unlines crlf hs := fun _ => rfl
  rw [rendered, unlines_append, unlines_append, unlines_frontLines]
  show message c.method (orElse c.path (lit "/")) (orElse c.host (lit "localhost")) c.args = _
  unfold message requestLine hostLine query lengthLines body sentMethod headers data
  by_cases hget : c.method = lit "GET"
  · cases hargs : c.args with
    | nil => simp [hget, hheaders, orElse, lit, crlf]
    | cons data headers =>
      by_cases hspace : 32 ∈ data
      · simp [hget, hspace]
      · by_cases hempty : data = [] <;> simp [hget, hheaders, hspace, hempty, orElse, lit, crlf]
  · simp only [hget, false_and, if_false]
    cases hargs : c.args with
    | nil => simp [hheaders, lit, crlf]
    | cons data headers => simp [hheaders, lit, crlf]

/-! ## What the lines hold -/

section plain

variable {c : CommandLine}

theorem cr_notMem_query (hplain : c.Plain) : 13 ∉ c.query := by
  have hdata : 13 ∉ c.data.getD [] := by
    unfold data
    cases hargs : c.args with
    | nil => simp
    | cons data headers => exact (hplain data (by simp [hargs])).1
  rw [query]
  split_ifs
  · rw [List.mem_append, not_or]
    exact ⟨by decide, hdata⟩
  · simp

theorem crlf_absent_target (hplain : c.Plain) :
    ¬ crlf <:+: orElse c.path (lit "/") ++ (c.query ++ lit " HTTP/1.0") := by
  have hpath : 13 ∉ orElse c.path (lit "/") := by
    rw [orElse]
    split_ifs
    · exact (hplain c.path (by simp)).1
    · decide
  apply crlf_not_infix_of_notMem
  rw [List.mem_append, List.mem_append, not_or, not_or]
  exact ⟨hpath, cr_notMem_query hplain, by decide⟩

theorem split_requestLine (hplain : c.Plain) :
    ∃ l, split crlf c.requestLine = (split crlf c.sentMethod).dropLast ++
      [l ++ 32 :: (orElse c.path (lit "/") ++ (c.query ++ lit " HTTP/1.0"))] :=
  split_append_cons borderless_crlf crlf_ne_nil (by decide) (crlf_absent_target hplain) _

theorem split_hostLine (c : CommandLine) :
    ∃ l, split crlf c.hostLine =
      (lit "Host:" ++ 32 :: l) :: (split crlf (orElse c.host (lit "localhost"))).tail :=
  split_cons_append borderless_crlf crlf_ne_nil (by decide) (by decide) _

theorem blank_notMem_frontLines (hplain : c.Plain) :
    [] ∉ c.frontLines ↔ [] ∉ (split crlf c.method).dropLast ∧ [] ∉ (split crlf c.host).tail := by
  obtain ⟨l, hl⟩ := split_requestLine hplain
  obtain ⟨l', hl'⟩ := split_hostLine c
  have hmethod : (split crlf c.sentMethod).dropLast = (split crlf c.method).dropLast := by
    unfold sentMethod orElse
    split_ifs with h
    · rfl
    · rw [not_not.mp h]
      decide
  have hhost : (split crlf (orElse c.host (lit "localhost"))).tail = (split crlf c.host).tail := by
    unfold orElse
    split_ifs with h
    · rfl
    · rw [not_not.mp h]
      decide
  rw [frontLines, hl, hl', hmethod, hhost]
  simp

theorem lines_ok (hplain : c.Plain) :
    ∀ l ∈ c.frontLines ++ (c.headers ++ c.lengthLines), ¬ crlf <:+: l := by
  intro l hl
  rw [List.mem_append, List.mem_append] at hl
  rcases hl with hl | hl | hl
  · rw [frontLines, List.mem_append] at hl
    rcases hl with hl | hl
    · exact not_infix_of_mem_split crlf_ne_nil hl
    · exact not_infix_of_mem_split crlf_ne_nil hl
  · exact crlf_not_infix_of_notMem (hplain l (List.mem_cons_of_mem _ (List.mem_of_mem_tail hl))).1
  · apply crlf_not_infix_of_notMem
    unfold lengthLines at hl
    split_ifs at hl
    · simp at hl
    · obtain ⟨data, -, rfl⟩ := by simpa using hl
      rw [List.mem_append, not_or]
      exact ⟨by decide, cr_notMem_decimal _⟩

/-! ## The first line -/

theorem firstLine_rendered (hplain : c.Plain) :
    (split crlf c.rendered).headD [] = (split crlf c.requestLine).headD [] := by
  rw [rendered, split_unlines_append borderless_crlf crlf_ne_nil (lines_ok hplain), frontLines]
  cases hsplit : split crlf c.requestLine with
  | nil => exact absurd hsplit (split_ne_nil _ _)
  | cons l ls => rfl

theorem count_query (hquery : ¬ (c.method = lit "GET" ∧ 32 ∈ c.data.getD [])) : c.query.count 32 = 0 := by
  rw [query]
  split_ifs with h
  · have hdata : 32 ∉ c.data.getD [] := fun hmem => hquery ⟨h.1, hmem⟩
    rw [List.count_append, List.count_eq_zero_of_not_mem hdata]
    decide
  · rfl

theorem count_firstLine (hplain : c.Plain) (hquery : ¬ (c.method = lit "GET" ∧ 32 ∈ c.data.getD [])) :
    ((split crlf c.requestLine).headD []).count 32 = 2 ↔
      if crlf <:+: c.method then ((split crlf c.method).headD []).count 32 = 2
      else 32 ∉ c.method ∧ 32 ∉ c.path := by
  by_cases hin : crlf <:+: c.method
  · -- the method ends the first line itself
    have hmethod : c.sentMethod = c.method := by
      rw [sentMethod, orElse, if_pos]
      rintro hnil
      rw [hnil] at hin
      exact absurd hin (by decide)
    obtain ⟨u, v, huv, hu⟩ := exists_eq_append_of_infix crlf_ne_nil hin
    rw [if_pos hin, requestLine, hmethod, huv, List.append_assoc, List.append_assoc, List.append_assoc,
      split_cons_delim borderless_crlf crlf_ne_nil hu, split_cons_delim borderless_crlf crlf_ne_nil hu]
    rfl
  · have hmethod : ¬ crlf <:+: c.sentMethod ∧ (c.sentMethod.count 32 = 0 ↔ 32 ∉ c.method) := by
      unfold sentMethod orElse
      split_ifs with h
      · exact ⟨hin, List.count_eq_zero⟩
      · rw [not_not.mp h]
        decide
    have hpath : (orElse c.path (lit "/")).count 32 = 0 ↔ 32 ∉ c.path := by
      unfold orElse
      split_ifs with h
      · exact List.count_eq_zero
      · rw [not_not.mp h]
        decide
    have hline : ¬ crlf <:+: c.requestLine :=
      not_infix_append_cons (by decide) hmethod.1 (crlf_absent_target hplain)
    rw [if_neg hin, split_of_absent hline, ← hmethod.2, ← hpath, List.headD_cons, requestLine,
      List.count_append, List.count_cons_self, List.count_append, List.count_append, count_query hquery,
      show (lit " HTTP/1.0").count 32 = 1 by decide]
    omega

/-! ## The lines of the headers -/

theorem blank_notMem_lengthLines (c : CommandLine) : [] ∉ c.lengthLines := by
  unfold lengthLines
  split_ifs
  · simp
  · simp [lit]

theorem headLines_rendered (hplain : c.Plain) :
    headLines crlf c.rendered =
      (c.frontLines ++ (c.headers ++ c.lengthLines)).takeWhile (· ≠ []) :=
  headLines_unlines borderless_crlf crlf_ne_nil (lines_ok hplain) _

theorem clientMain_withoutHeaders (hplain : c.Plain)
    (hquery : ¬ (c.method = lit "GET" ∧ 32 ∈ c.data.getD [])) :
    ∃ bare, clientMain c.withoutHeaders.argv = some bare ∧
      headLines crlf bare = (c.frontLines ++ c.lengthLines).takeWhile (· ≠ []) := by
  have hdata : c.withoutHeaders.data = c.data := by
    unfold withoutHeaders data
    cases c.args <;> rfl
  have hheaders : c.withoutHeaders.headers = [] := by
    unfold withoutHeaders headers
    cases c.args <;> rfl
  have hbare : c.withoutHeaders.Plain := by
    intro s hs
    apply hplain s
    rcases List.mem_cons.mp hs with hs | hs
    · exact hs ▸ List.mem_cons_self
    · exact List.mem_cons_of_mem _ (List.mem_of_mem_take hs)
  have hfront : c.withoutHeaders.frontLines = c.frontLines := by
    unfold frontLines requestLine query
    rw [hdata]
    rfl
  have hlength : c.withoutHeaders.lengthLines = c.lengthLines := by
    unfold lengthLines
    rw [hdata]
    rfl
  refine ⟨c.withoutHeaders.rendered, ?_, ?_⟩
  · rw [clientMain_argv, hdata]
    exact if_neg hquery
  · rw [headLines_rendered hbare, hheaders, hfront, hlength, List.nil_append]

/-- The header arguments are lines of their own if none is blank and there is no blank line in front of
them. -/
theorem headers_iff (hplain : c.Plain) (hquery : ¬ (c.method = lit "GET" ∧ 32 ∈ c.data.getD [])) :
    ((∀ h ∈ c.headers, h ≠ []) ∧ ∃ bare before after,
      clientMain c.withoutHeaders.argv = some bare ∧ headLines crlf bare = before ++ after ∧
        headLines crlf c.rendered = before ++ (c.headers ++ after)) ↔
      [] ∉ c.headers ∧ (c.headers ≠ [] → [] ∉ c.frontLines) := by
  have hnonempty : (∀ h ∈ c.headers, h ≠ []) ↔ [] ∉ c.headers :=
    ⟨fun h hmem => h [] hmem rfl, fun h x hx he => h (he ▸ hx)⟩
  obtain ⟨bare, hbare, hlines⟩ := clientMain_withoutHeaders hplain hquery
  rw [hnonempty, headLines_rendered hplain]
  refine and_congr_right fun hheaders => ?_
  constructor
  · rintro ⟨bare', before, after, hbare', hbefore, hafter⟩ hne hblank
    -- behind a blank line, headers make no difference
    obtain rfl : bare = bare' := Option.some.inj (hbare.symm.trans hbare')
    rw [takeWhile_append_of_blank hblank] at hafter
    rw [hlines, takeWhile_append_of_blank hblank, hafter, List.append_cancel_left_eq] at hbefore
    have hlen := congrArg List.length hbefore
    rw [List.length_append] at hlen
    exact hne (List.eq_nil_of_length_eq_zero (by omega))
  · intro hfront
    by_cases hnil : c.headers = []
    · refine ⟨bare, (c.frontLines ++ c.lengthLines).takeWhile (· ≠ []), [], hbare, ?_, ?_⟩
      · rw [hlines, List.append_nil]
      · rw [hnil, List.nil_append, List.nil_append, List.append_nil]
    · have hrest := blank_notMem_lengthLines c
      have hclean := hfront hnil
      refine ⟨bare, c.frontLines, c.lengthLines, hbare, ?_, ?_⟩
      · rw [hlines, takeWhile_of_clean (by simp [hclean, hrest])]
      · rw [takeWhile_of_clean (by simp [hclean, hheaders, hrest])]

/-! ## The length of the body -/

omit c in
theorem decimal_eq_of_suffix {x rest : Str} {i : Int} {n : Nat}
    (h : lit "Content-Length: " ++ decimal n ++ rest <:+
      x ++ (lit "Content-Length: " ++ decimal i ++ rest)) : i = n := by
  obtain ⟨y, hy⟩ := h
  have hname : lit "Content-Length: " = lit "Content-Length:" ++ [32] := rfl
  have hspace (j : Int) : 32 ∉ decimal j := by
    intro hmem
    rcases mem_decimal hmem with hb | ⟨hb, -⟩
    · exact absurd hb (by decide)
    · exact absurd hb (by decide)
  rw [hname] at hy
  simp only [← List.append_assoc, List.append_cancel_right_eq] at hy
  rw [List.append_assoc (y ++ _), List.append_assoc (x ++ _)] at hy
  exact eq_of_decimal_eq (eq_of_append_cons_eq (hspace n) (hspace i) hy).symm

theorem rendered_eq (hmethod : c.method ≠ lit "GET") {data : Str} (hdata : c.data = some data) :
    c.rendered = unlines crlf (c.frontLines ++ c.headers) ++
      (lit "Content-Length: " ++ decimal (toInt data.length) ++ (crlf ++ (crlf ++ data))) := by
  simp [rendered, lengthLines, body, hmethod, hdata]

theorem body_iff (hplain : c.Plain) (hfirst : c.frontLines.head? ≠ some []) {data : Str}
    (hmethod : c.method ≠ lit "GET") (hdata : c.data = some data) :
    (∃ body, behindBlank crlf c.rendered = some body ∧
      lit "Content-Length: " ++ decimal body.length ++ (crlf ++ (crlf ++ data)) <:+ c.rendered) ↔
      [] ∉ c.frontLines ++ c.headers ∧ data.length < 2 ^ 31 := by
  by_cases hblank : [] ∈ c.frontLines ++ c.headers
  · -- the blank line is not the first line, so what stands behind it is longer than the data
    refine iff_of_false ?_ (fun h => h.1 hblank)
    rintro ⟨body, hbody, hsuffix⟩
    obtain ⟨l, ls, hlines⟩ := List.exists_cons_of_ne_nil (List.ne_nil_of_mem hblank)
    have hl : l ≠ [] := by
      rintro rfl
      rw [← List.head?_append_of_ne_nil _ (frontLines_ne_nil c), hlines] at hfirst
      exact hfirst rfl
    have hmem : [] ∈ ls := by
      rw [hlines, List.mem_cons] at hblank
      exact hblank.resolve_left (Ne.symm hl)
    have hin : crlf ++ crlf <:+: unlines crlf (c.frontLines ++ c.headers) :=
      hlines ▸ infix_unlines_of_blank hmem
    rw [rendered_eq hmethod hdata] at hbody hsuffix
    obtain ⟨rest, hrest⟩ := behindBlank_append hin
      (lit "Content-Length: " ++ decimal (toInt data.length) ++ (crlf ++ (crlf ++ data)))
    obtain rfl := Option.some.inj (hbody.symm.trans hrest)
    have hlen := decimal_eq_of_suffix hsuffix
    have hle := toInt_le data.length
    simp only [List.length_append, show crlf.length = 2 from rfl] at hlen
    omega
  · have hclean : [] ∉ c.frontLines ++ (c.headers ++ c.lengthLines) := by
      rw [← List.append_assoc, List.mem_append, not_or]
      exact ⟨hblank, blank_notMem_lengthLines c⟩
    have hbody : behindBlank crlf c.rendered = some data := by
      have hdata' : c.body = data := by simp [body, hmethod, hdata]
      have hlines : c.frontLines ++ (c.headers ++ c.lengthLines) ≠ [] := by
        simp [frontLines_ne_nil c]
      rw [rendered, behindBlank_unlines borderless_crlf crlf_ne_nil (lines_ok hplain) hclean hlines, hdata']
    simp only [hbody, Option.some.injEq, exists_eq_left', hblank, not_false_eq_true, true_and]
    rw [← toInt_eq_self_iff, rendered_eq hmethod hdata]
    constructor
    · intro hsuffix
      exact decimal_eq_of_suffix hsuffix
    · intro hlen
      rw [hlen]
      exact List.suffix_append _ _

/-! ## The message -/

theorem rendered_of_accepted {msg : Str} (hmsg : clientMain c.argv = some msg) :
    msg = c.rendered ∧ ¬ (c.method = lit "GET" ∧ 32 ∈ c.data.getD []) := by
  rw [clientMain_argv] at hmsg
  split_ifs at hmsg with hquery
  exact ⟨(Option.some.inj hmsg).symm, hquery⟩

theorem head?_frontLines (hspaces : ((split crlf c.requestLine).headD []).count 32 = 2) :
    c.frontLines.head? ≠ some [] := by
  intro hnil
  rw [frontLines, List.head?_append_of_ne_nil _ (split_ne_nil _ _)] at hnil
  rw [List.headD_eq_head?_getD, hnil] at hspaces
  simp at hspaces

end plain

theorem exists_of_accepted {argv : List Str} {msg : Str} (h : clientMain argv = some msg) :
    ∃ c : CommandLine, argv = c.argv := by
  unfold clientMain at h
  split at h
  case h_1 name host port method path args => exact ⟨⟨name, host, port, method, path, args⟩, rfl⟩
  case h_2 => simp at h

/-- **When the client's message is well framed**: when its arguments are rendered as they are meant to be
(`Framable`). -/
theorem wellFramed_iff (c : CommandLine) (msg : Str) (hplain : c.Plain)
    (hmsg : clientMain c.argv = some msg) : c.WellFramed msg ↔ c.Framable := by
  obtain ⟨rfl, hquery⟩ := rendered_of_accepted hmsg
  have hline : (split (lit " ") ((split crlf c.rendered).headD [])).length = 3 ↔
      ((split crlf c.requestLine).headD []).count 32 = 2 := by
    rw [firstLine_rendered hplain, show lit " " = [32] from rfl, length_split_singleton]
    omega
  have hspaces := count_firstLine hplain hquery
  have hheaders := headers_iff hplain hquery
  have hfront := blank_notMem_frontLines hplain
  constructor
  · intro h
    obtain ⟨hrequest, hlines, hbody⟩ := h
    have htwo := hline.mp hrequest
    obtain ⟨hnonempty, hclear⟩ := hheaders.mp hlines
    refine ⟨hspaces.mp htwo, hnonempty, ?_, ?_⟩
    · rintro (hne | ⟨hmethod, hdata⟩)
      · exact hfront.mp (hclear hne)
      · obtain ⟨data, hdata⟩ := Option.ne_none_iff_exists'.mp hdata
        have hfits := (body_iff hplain (head?_frontLines htwo) hmethod hdata).mp (hbody hmethod data hdata)
        exact hfront.mp fun hmem => hfits.1 (List.mem_append_left _ hmem)
    · intro hmethod data hdata
      exact ((body_iff hplain (head?_frontLines htwo) hmethod hdata).mp (hbody hmethod data hdata)).2
  · intro h
    obtain ⟨hspace, hnonempty, hblank, hlength⟩ := h
    have htwo := hspaces.mpr hspace
    refine ⟨hline.mpr htwo, hheaders.mpr ⟨hnonempty, fun hne => hfront.mpr (hblank (.inl hne))⟩, ?_⟩
    intro hmethod data hdata
    refine (body_iff hplain (head?_frontLines htwo) hmethod hdata).mpr ⟨?_, hlength hmethod data hdata⟩
    have hclear := hfront.mpr (hblank (.inr ⟨hmethod, by simp [hdata]⟩))
    rw [List.mem_append, not_or]
    exact ⟨hclear, hnonempty⟩

end CommandLine

/-- A login with one header. -/
def loginLine : CommandLine where
  name := lit "client_v2"
  host := lit "localhost"
  port := lit "8080"
  method := lit "POST"
  path := lit "/login"
  args := [lit "user=foo", lit "Accept: */*"]

theorem wellFramed_iff_login : loginLine.WellFramed loginLine.rendered ↔ loginLine.Framable := by
  refine CommandLine.wellFramed_iff loginLine loginLine.rendered ?_ ?_
  · decide
  · rw [CommandLine.clientMain_argv, if_neg (by decide)]

/-- A space in the path is a field more. -/
theorem spaced_path_misframed :
    ¬ ∀ (c : CommandLine) (msg : Str), c.Plain → clientMain c.argv = some msg → c.WellFramed msg := by
  intro hall
  let c : CommandLine :=
    { name := lit "client_v2", host := lit "h", port := lit "80", method := lit "GET",
      path := lit "/a b", args := [] }
  have hframed := hall c c.rendered (by decide) (by rw [CommandLine.clientMain_argv, if_neg (by decide)])
  have hfields := hframed.requestLine
  revert hfields
  decide

end PwdManLib
