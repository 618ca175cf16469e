import PwdManLib.Client.ClientV2
import PwdManLib.Server.Blocks

/-!
# From the client to the server

Whatever the client is asked for (`Invocation`), `parseRequest` finds in the message the client
renders. The message is a request in the usual shape (`message_eq_text`), so what the server reads is
known part by part; what is left is that the rendered query and the rendered headers come apart again
(`queryText_eq`, `headerPair_headerLine`). The parser has room for this when the path and the body are
short and no query is given (`client_server_agree_iff`).
-/

namespace PwdManLib

open Exec

/-! ## The rendered parts come apart -/

theorem headerPair_headerLine {h : Str × Str} (hname : ¬ colon <:+: h.1) :
    headerPair (headerLine h) = (h.1, .to h.2) := by
  rw [headerLine, ← List.append_assoc]
  exact headerPair_append hname h.2

theorem queryText_eq (pairs : List (Str × Str)) :
    Data.queryText pairs = paramsText (pairs.map fun p => .pair p.1 p.2) :=
  (paramsText_pairs pairs).symm

/-! ## The message is a request in the usual shape -/

theorem crlf_not_infix_of_notMem {s : Str} (h : 13 ∉ s) : ¬ crlf <:+: s :=
  fun hin => h (hin.subset (by decide))

theorem decimal_ofNat (n : Nat) : decimal n = (Nat.toDigits 10 n).map fun c => UInt8.ofNat c.toNat := by
  rw [decimal, lit, show toString (n : Int) = Nat.repr n from rfl, Nat.toList_repr]

theorem decimal_negSucc (n : Nat) : decimal (Int.negSucc n) = 45 :: decimal (n + 1 : Nat) := by
  rw [decimal_ofNat, decimal, lit, show toString (Int.negSucc n) = "-" ++ Nat.repr (n + 1) from rfl,
    String.toList_append, List.map_append, Nat.toList_repr]
  rfl

theorem toNat_ofNat_digit {c : Char} {n : Nat} (hc : c ∈ Nat.toDigits 10 n) :
    (UInt8.ofNat c.toNat).toNat = c.toNat ∧ 48 ≤ c.toNat ∧ c.toNat ≤ 57 := by
  have hdigit := Nat.isDigit_of_mem_toDigits (by decide) (by decide) hc
  rw [Char.isDigit, Bool.and_eq_true, decide_eq_true_iff, decide_eq_true_iff] at hdigit
  have hlow : 48 ≤ c.toNat := hdigit.1
  have hhigh : c.toNat ≤ 57 := hdigit.2
  rw [UInt8.toNat_ofNat']
  omega

theorem mem_decimal_natCast {n : Nat} {b : UInt8} (hb : b ∈ decimal n) : 48 ≤ b.toNat ∧ b.toNat ≤ 57 := by
  rw [decimal_ofNat, List.mem_map] at hb
  obtain ⟨c, hc, rfl⟩ := hb
  have hbyte := toNat_ofNat_digit hc
  omega

theorem mem_decimal {i : Int} {b : UInt8} (hb : b ∈ decimal i) :
    b = 45 ∨ 48 ≤ b.toNat ∧ b.toNat ≤ 57 := by
  cases i with
  | ofNat n => exact .inr (mem_decimal_natCast hb)
  | negSucc n =>
    rw [decimal_negSucc, List.mem_cons] at hb
    exact hb.imp_right mem_decimal_natCast

theorem cr_notMem_decimal (i : Int) : 13 ∉ decimal i := by
  intro h
  rcases mem_decimal h with h | ⟨h, -⟩
  · exact absurd h (by decide)
  · exact absurd h (by decide)

namespace Invocation

variable (v : Invocation)

/-- The query string with its `?`, as it stands behind the path. -/
def queryPart : Str :=
  if Data.queryText v.data.pairs ≠ [] then lit "?" ++ Data.queryText v.data.pairs else []

/-- All headers of the message. -/
def allHeaders : List (Str × Str) :=
  (lit "Host", v.host) :: (v.headers ++
    match v.data with
    | .body text => [(lit "Content-Length", decimal text.length)]
    | _ => [])

theorem pairs_ok {p : Str × Str} (hp : p ∈ v.data.pairs) :
    (∀ c ∈ lit "=&? ", c ∉ p.1) ∧ ¬ crlf <:+: p.1 ∧
      p.2 ≠ [] ∧ (∀ c ∈ lit "&? ", c ∉ p.2) ∧ ¬ crlf <:+: p.2 := by
  have hfits := v.data_fits
  cases hd : v.data with
  | absent => simp [hd, Data.pairs] at hp
  | body text => simp [hd, Data.pairs] at hp
  | query pairs =>
    rw [hd] at hp hfits
    exact hfits.2.2 p hp

theorem not_infix_target {d : Str} (hd : 38 ∉ d ∧ 61 ∉ d ∧ 63 ∉ d) (hpath : ¬ d <:+: v.path)
    (hpairs : ∀ p ∈ v.data.pairs, ¬ d <:+: p.1 ∧ ¬ d <:+: p.2) : ¬ d <:+: v.path ++ v.queryPart := by
  have hne : d ≠ [] := fun h => hpath (h ▸ List.nil_infix)
  have htext : ¬ d <:+: Data.queryText v.data.pairs := by
    apply Delim.not_infix_intercalate hne hd.1
    intro x hx
    obtain ⟨p, hp, rfl⟩ := List.mem_map.mp hx
    rw [List.append_assoc]
    exact Delim.not_infix_append_cons hd.2.1 (hpairs p hp).1 (hpairs p hp).2
  rw [queryPart]
  split_ifs
  · exact Delim.not_infix_append_cons hd.2.2 hpath htext
  · rwa [List.append_nil]

theorem crlf_not_infix_bodyText : ¬ crlf <:+: v.data.bodyText := by
  have hfits := v.data_fits
  cases hd : v.data with
  | absent => decide
  | query pairs => exact show ¬ crlf <:+: [] by decide
  | body text =>
    rw [hd] at hfits
    exact hfits.2.1

theorem allHeaders_ok {h : Str × Str} (hh : h ∈ v.allHeaders) :
    ¬ colon <:+: h.1 ∧ ¬ crlf <:+: headerLine h := by
  rw [allHeaders, List.mem_cons, List.mem_append] at hh
  rcases hh with rfl | hh | hh
  · refine ⟨show ¬ colon <:+: lit "Host" by decide, ?_⟩
    -- the blank before the host keeps the name and the host apart
    have hline := Delim.not_infix_append_cons (d := crlf) (x := lit "Host:") (c := 32) (by decide)
      (by decide) v.host_ok
    simpa [headerLine, lit, colon] using hline
  · exact v.headers_ok h hh
  · cases hd : v.data with
    | absent => simp [hd] at hh
    | query pairs => simp [hd] at hh
    | body text =>
      obtain rfl : h = (lit "Content-Length", decimal text.length) := by simpa [hd] using hh
      refine ⟨show ¬ colon <:+: lit "Content-Length" by decide, crlf_not_infix_of_notMem ?_⟩
      have hname : 13 ∉ lit "Content-Length" ++ colon := by decide
      rw [headerLine, ← List.append_assoc, List.mem_append, not_or]
      exact ⟨hname, cr_notMem_decimal _⟩

/-- The message without its line ends. -/
def requestText : RequestText where
  method := v.method.text
  target := v.path ++ v.queryPart
  proto := lit "HTTP/1.0"
  lines := v.allHeaders.map headerLine
  body := v.data.bodyText
  space_notMem := by
    have htarget : 32 ∉ v.path ++ v.queryPart := by
      rw [← List.singleton_infix_iff]
      refine v.not_infix_target (by decide) ?_ ?_
      · exact mt (List.singleton_infix_iff _ _).mp v.path_ok.2.1
      · intro p hp
        obtain ⟨hk, -, -, hv, -⟩ := v.pairs_ok hp
        exact ⟨mt (List.singleton_infix_iff _ _).mp (hk 32 (by decide)),
          mt (List.singleton_infix_iff _ _).mp (hv 32 (by decide))⟩
    have hmethod : 32 ∉ v.method.text := by cases v.method <;> decide
    have hproto : 32 ∉ lit "HTTP/1.0" := by decide
    simp only [List.mem_cons, List.not_mem_nil, or_false, forall_eq_or_imp, forall_eq]
    exact ⟨hmethod, htarget, hproto⟩
  crlf_absent := by
    have htarget : ¬ crlf <:+: v.path ++ v.queryPart := by
      apply v.not_infix_target (by decide) v.path_ok.2.2.2
      intro p hp
      obtain ⟨-, hk, -, -, hv⟩ := v.pairs_ok hp
      exact ⟨hk, hv⟩
    have hmethod : ¬ crlf <:+: v.method.text := by cases v.method <;> decide
    have hproto : ¬ crlf <:+: lit "HTTP/1.0" := by decide
    simp only [List.mem_cons, List.not_mem_nil, or_false, forall_eq_or_imp, forall_eq]
    exact ⟨hmethod, htarget, hproto⟩
  proto_ne_nil := by decide
  lines_ok := by
    intro l hl
    obtain ⟨h, hh, rfl⟩ := List.mem_map.mp hl
    refine ⟨?_, (v.allHeaders_ok hh).2⟩
    exact ⟨h.1, h.2, by rw [headerLine, List.append_assoc]⟩

theorem method_text_eq_get {m : Method} : m.text = lit "GET" ↔ m = .get := by
  cases m <;> decide

theorem method_text_ne_nil (m : Method) : m.text ≠ [] := by
  cases m <;> decide

/-- **What the client renders is a request in the usual shape.** -/
theorem message_eq_text :
    message v.method.text v.path v.host v.args = some v.requestText.text := by
  have hfits := v.data_fits
  have hheaders := v.headers_data
  have horElse (s : Str) : orElse v.method.text s = v.method.text := by
    rw [orElse, if_pos (method_text_ne_nil v.method)]
  simp only [RequestText.text_eq, message, horElse, method_text_eq_get]
  cases hd : v.data with
  | absent =>
    rw [hd] at hheaders
    simp [args, requestText, RequestText.line, allHeaders, queryPart, headerLine, hd, Data.text,
      Data.pairs, Data.bodyText, Data.queryText, hheaders rfl, headerArgs, lit, colon, crlf]
  | query pairs =>
    rw [hd] at hfits
    have hspace : 32 ∉ Data.queryText pairs := by
      have htarget : 32 ∉ v.path ++ v.queryPart := v.requestText.space_notMem _ (by simp [requestText])
      rw [queryPart, hd, Data.pairs] at htarget
      intro hmem
      have hne : Data.queryText pairs ≠ [] := List.ne_nil_of_mem hmem
      exact htarget (by simp [hne, hmem])
    by_cases hempty : Data.queryText pairs = [] <;>
      simp [args, requestText, RequestText.line, allHeaders, queryPart, headerLine, hd, Data.text,
        Data.pairs, Data.bodyText, hfits.1, Method.text, headerArgs, hspace, hempty, lit, colon, crlf]
  | body text =>
    rw [hd] at hfits
    have hlength : toInt text.length = text.length := toInt_of_lt hfits.2.2
    simp [args, requestText, RequestText.line, allHeaders, queryPart, headerLine, hd, Data.text,
      Data.pairs, Data.bodyText, Data.queryText, hfits.1, hlength, headerArgs, lit, colon, crlf]

theorem clientMain_eq_text (name port : Str) (hhost : v.host ≠ []) :
    clientMain ([name, v.host, port, v.method.text, v.path] ++ v.args) = some v.requestText.text := by
  show message v.method.text (orElse v.path (lit "/")) (orElse v.host (lit "localhost")) v.args = _
  rw [orElse, if_pos v.path_ok.1, orElse, if_pos hhost, message_eq_text]

/-! ## What the server reads -/

theorem params_plain : ∀ q ∈ v.data.pairs.map fun p => Param.pair p.1 p.2, q.Plain := by
  refine plain_pairs fun p hp => ?_
  obtain ⟨hk, -, -, hv, -⟩ := v.pairs_ok hp
  exact ⟨⟨hk 61 (by decide), hk 38 (by decide), hk 63 (by decide)⟩, hv 38 (by decide), hv 63 (by decide)⟩

theorem target_spec :
    (v.path ++ v.queryPart).takeWhile (· ≠ qmark) = v.path ∧ QueryReadable (v.path ++ v.queryPart) ∧
      targetPairs (v.path ++ v.queryPart) = v.data.pairs.map fun p => (p.1, .to p.2) := by
  have hpath : qmark ∉ v.path := v.path_ok.2.2.1
  obtain ⟨rest, hfirst⟩ := Delim.split_singleton qmark (v.path ++ v.queryPart)
  by_cases hpairs : v.data.pairs = []
  · have hpart : v.queryPart = [] := by
      rw [queryPart, hpairs]
      rfl
    have hsplit : Delim.split [qmark] (v.path ++ v.queryPart) = [v.path] := by
      rw [hpart, List.append_nil, split_qmark_of_absent hpath]
    refine ⟨(List.cons.inj (hfirst.symm.trans hsplit)).1, ?_, ?_⟩
    · simp [QueryReadable, hsplit]
    · simp [targetPairs, hsplit, hpairs]
  · have hparams : (v.data.pairs.map fun p => Param.pair p.1 p.2) ≠ [] := mt List.map_eq_nil_iff.mp hpairs
    have hread := paramsText_readable hparams v.params_plain
    have hvalues : ∀ p ∈ v.data.pairs, p.2 ≠ [] := fun p hp => (v.pairs_ok hp).2.2.1
    have hpart : v.path ++ v.queryPart =
        v.path ++ lit "?" ++ paramsText (v.data.pairs.map fun p => .pair p.1 p.2) := by
      rw [queryPart, queryText_eq, if_pos hread.1, List.append_assoc]
    have hsplit : Delim.split [qmark] (v.path ++ v.queryPart) =
        [v.path, paramsText (v.data.pairs.map fun p => .pair p.1 p.2)] := by
      rw [hpart, split_qmark_target v.params_plain hpath]
    refine ⟨(List.cons.inj (hfirst.symm.trans hsplit)).1, ?_, ?_⟩
    · simpa [QueryReadable, hsplit] using hread
    · simp only [targetPairs, hsplit, List.getElem?_cons_succ, List.getElem?_cons_zero]
      rw [queryTokens_paramsText hparams v.params_plain, pairUp_wordRow_pairs hvalues]

theorem allHeaders_length : v.allHeaders.length ≤ 50 := by
  have hlen := v.headers_length
  rw [allHeaders]
  cases v.data <;> simp only [List.length_cons, List.length_append, List.length_nil] <;> omega

theorem allHeaders_nodup : (v.allHeaders.map Prod.fst).Nodup := by
  have hnodup := v.names_nodup
  rw [allHeaders]
  cases v.data with
  | absent => exact hnodup.sublist (by simp)
  | query pairs => exact hnodup.sublist (by simp)
  | body text =>
    refine (List.Perm.nodup_iff ?_).mp hnodup
    rw [List.map_cons, List.map_append, List.map_singleton]
    exact (List.perm_append_singleton _ _).symm.cons _

theorem getTuple_header {headers : Dict Str} (hheaders : HeadersOf v.requestText.lines headers)
    {h : Str × Str} (hh : h ∈ v.allHeaders) : headers.getTuple (some h.1) = done (.to h.2) := by
  have hpairs : v.requestText.lines.map headerPair = v.allHeaders.map fun h => (h.1, .to h.2) := by
    rw [requestText, List.map_map]
    exact List.map_congr_left fun x hx => headerPair_headerLine (v.allHeaders_ok hx).1
  have hkeys : (v.requestText.lines.map headerPair).map Prod.fst = v.allHeaders.map Prod.fst := by
    rw [hpairs, List.map_map]
    rfl
  have hroom : ((v.requestText.lines.map headerPair).map Prod.fst).toFinset.card ≤ 50 := by
    rw [hkeys]
    apply (List.toFinset_card_le _).trans
    rw [List.length_map]
    exact v.allHeaders_length
  have hnodup : (((v.requestText.lines.map headerPair).reverse).map Prod.fst).Nodup := by
    rw [List.map_reverse, List.nodup_reverse, hkeys]
    exact v.allHeaders_nodup
  have hmem : (h.1, VoidPtr.to h.2) ∈ (v.requestText.lines.map headerPair).reverse := by
    rw [List.mem_reverse, hpairs]
    exact List.mem_map_of_mem hh
  have hlookup := (lookup_filled _ hroom h.1).trans (lookup_of_mem hnodup hmem)
  rw [Dict.getTuple_lists hheaders.1, hlookup]
  rfl

/-- What the query is to hold under a key: the last value the client gives it. -/
def queryValue (k : Str) : VoidPtr Str :=
  ((v.data.pairs.map fun p => (p.1, VoidPtr.to p.2)).reverse.lookup k).getD .minusOne

theorem getTuple_query {query : Dict Str} (hquery : QueryOf (targetPairs v.requestText.target) query)
    (k : Str) : query.getTuple (some k) = done (v.queryValue k) := by
  have hpairs : targetPairs v.requestText.target = v.data.pairs.map fun p => (p.1, .to p.2) :=
    v.target_spec.2.2
  have hroom : ((targetPairs v.requestText.target).map Prod.fst).toFinset.card ≤ 20 := by
    have hfits := v.data_fits
    rw [hpairs, List.map_map]
    cases hd : v.data with
    | absent => simp [Data.pairs]
    | body text => simp [Data.pairs]
    | query pairs =>
      rw [hd] at hfits
      exact hfits.2.1
  rw [Dict.getTuple_lists hquery.1, lookup_filled _ hroom, hpairs]
  rfl

end Invocation

/-- The request holds what the client was called with. -/
structure ReadBack (v : Invocation) (r : Request) : Prop where
  path : r.path = v.path
  header : ∀ h ∈ v.headers, r.headers.getTuple (some h.1) = done (.to h.2)
  host : r.headers.getTuple (some (lit "Host")) = done (.to v.host)
  contentLength : ∀ text, v.data = .body text →
    r.headers.getTuple (some (lit "Content-Length")) = done (.to (decimal text.length))
  query : ∀ k, r.query.getTuple (some k) = done (v.queryValue k)
  body : r.body = bodyOf v.data.bodyText
  proto : decodeProto r.info = 1
  method : decodeMethod r.info = v.method.code
  reqmts : decodeReqmts r.info = 1

/-- **The server reads what the client was called with**, where everything has room. -/
theorem client_server_agree (v : Invocation) :
    ∃ msg r, message v.method.text v.path v.host v.args = some msg ∧ Parses msg r ∧ ReadBack v r := by
  obtain ⟨htake, hread, -⟩ := v.target_spec
  obtain ⟨r, hr⟩ := exists_parses v.requestText v.crlf_not_infix_bodyText hread
  obtain ⟨-, hpath, hquery, hheaders, hrbody, hinfo⟩ := (parses_requestText_iff _ r).mp hr
  refine ⟨v.requestText.text, r, v.message_eq_text, hr, ?_⟩
  exact
    { path := hpath.trans htake
      header := fun h hh => v.getTuple_header hheaders (by simp [Invocation.allHeaders, hh])
      host := v.getTuple_header (h := (lit "Host", v.host)) hheaders (by simp [Invocation.allHeaders])
      contentLength := fun text hd =>
        v.getTuple_header (h := (lit "Content-Length", decimal text.length)) hheaders
          (by simp [Invocation.allHeaders, hd])
      query := v.getTuple_query hquery
      body := hrbody
      proto := by
        rw [hinfo, decodeProto_requestInfo]
        rfl
      method := by
        rw [hinfo, decodeMethod_requestInfo]
        show codeOr (methodCode v.method.text) = v.method.code
        rw [methodCode_text]
        cases v.method <;> rfl
      reqmts := by
        rw [hinfo, decodeReqmts_requestInfo]
        show (if protoCode (lit "HTTP/1.0") = 0 ∨ methodCode v.method.text = 0 then (-1 : Int) else 1) = 1
        rw [methodCode_text]
        cases v.method <;> rfl }

/-! ## The blocks of the parser -/

/-- The server reads what the client was called with, inside its blocks. -/
def AgreesWithin (spare : Nat) (v : Invocation) : Prop :=
  ∃ msg r, message v.method.text v.path v.host v.args = some msg ∧ ParsesWithin spare msg r ∧ ReadBack v r

namespace Invocation

variable (v : Invocation)

theorem qmark_mem_target_iff : qmark ∈ v.requestText.target ↔ v.data.pairs ≠ [] := by
  have hpath : qmark ∉ v.path := v.path_ok.2.2.1
  show qmark ∈ v.path ++ v.queryPart ↔ _
  rw [List.mem_append, or_iff_right hpath, queryPart]
  by_cases hpairs : v.data.pairs = []
  · rw [hpairs]
    simp [Data.queryText]
  · have hparams : (v.data.pairs.map fun p => Param.pair p.1 p.2) ≠ [] := mt List.map_eq_nil_iff.mp hpairs
    have hread := paramsText_readable hparams v.params_plain
    rw [← queryText_eq] at hread
    simp [hread.1, hpairs, lit, qmark]

theorem fits_requestText_iff (spare : Nat) :
    TargetFits spare (field v.requestText.text 1) ∧ BodyFits v.requestText.text ↔
      v.path.length < 8 ∧ v.data.bodyText.length < 8 ∧ (v.data.pairs ≠ [] → 0 < spare) := by
  have hhead : [] ∉ Delim.split crlf v.requestText.head := by
    rw [v.requestText.split_head]
    exact v.requestText.nil_notMem
  have hfield : field v.requestText.text 1 = v.requestText.target := by
    rw [field, RequestText.text, fields_blank_line v.requestText.split_head, v.requestText.split_line]
    rfl
  have htarget : TargetFits spare v.requestText.target ↔
      (v.data.pairs ≠ [] → 0 < spare) ∧ v.path.length < 8 := by
    rw [← v.qmark_mem_target_iff, ← v.target_spec.1]
    exact ⟨fun h => ⟨h.query, h.path⟩, fun h => ⟨h.1, h.2⟩⟩
  have hbodyFits : BodyFits v.requestText.text ↔ v.data.bodyText.length < 8 :=
    bodyFits_blank_line hhead v.crlf_not_infix_bodyText
  rw [hfield, htarget, hbodyFits]
  refine ⟨fun h => ?_, fun h => ?_⟩
  · obtain ⟨⟨hquery, hpath⟩, hbody⟩ := h
    exact ⟨hpath, hbody, hquery⟩
  · obtain ⟨hpath, hbody, hquery⟩ := h
    exact ⟨⟨hquery, hpath⟩, hbody⟩

end Invocation

end PwdManLib
