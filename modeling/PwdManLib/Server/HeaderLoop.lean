import PwdManLib.Server.Parse
import PwdManLib.Util.DictFill

/-!
# The header loop of `parseRequest`

The loop runs over the lines between the request line and the last two pieces of the text. A line with
a `": "` moves it on; any other line sets `i` back by one, so the loop reads the same line for ever.
`buildsHeaders_iff` is what the loop does to any text, and `buildsHeaders_blank_line` what it does to a
text with a blank line in it: it ends only if no line ends behind the blank line.
-/

namespace PwdManLib

open Exec

/-- What a header line adds to the dictionary. -/
def headerPair (line : Str) : Str × VoidPtr Str :=
  ((parseHeader line).name, VoidPtr.ofStr (parseHeader line).value)

/-- The dictionary of `parseRequest` after the given header lines. -/
def HeadersOf (lines : List Str) (headers : Dict Str) : Prop :=
  headers.Lists ((lines.map headerPair).foldl (fillStep 50) []) ∧ headers.size = 50

theorem parseHeader_value_eq_none {line : Str} : (parseHeader line).value = none ↔ ¬ colon <:+: line := by
  rw [← Delim.find_eq_none_iff, parseHeader]
  cases h : strstr line colon <;> simp [strstr] at h ⊢ <;> simp [h]

theorem borderless_colon : Delim.Borderless colon := Delim.borderless_pair (by decide)

theorem colon_ne_nil : colon ≠ [] := by decide

theorem headerPair_append {name : Str} (hname : ¬ colon <:+: name) (value : Str) :
    headerPair (name ++ colon ++ value) = (name, .to value) := by
  have hfind : Delim.find colon (name ++ colon ++ value) = some name.length := by
    rw [List.append_assoc]
    exact Delim.find_append_delim borderless_colon hname value
  have hparse : parseHeader (name ++ colon ++ value) = { name := name, value := some value } := by
    simp only [parseHeader, strstr, hfind]
    rw [List.append_assoc, List.take_left, ← List.append_assoc,
      List.drop_left' (by rw [List.length_append])]
  rw [headerPair, hparse]
  rfl

/-! ## One round -/

section round

variable (pre : List Str) {post : List Str} {headers : Dict Str}

private theorem sizeSub_length {ls : List Str} (hpost : post.length = 2) :
    sizeSub (tokensOf (pre ++ ls ++ post)).len 2 = pre.length + ls.length := by
  have hlen : (tokensOf (pre ++ ls ++ post)).len = pre.length + ls.length + 2 := by
    rw [tokensOf, List.length_append, List.length_append, hpost]
  rw [hlen, sizeSub, if_pos (Nat.le_add_left 2 _), Nat.add_sub_cancel]

theorem headerStep_exit (hpost : post.length = 2) :
    headerStep (tokensOf (pre ++ [] ++ post)) ⟨pre.length, headers⟩ = done (.inr headers) := by
  rw [headerStep, sizeSub_length pre hpost, if_neg (by simp)]

theorem headerStep_line (hpost : post.length = 2) (l : Str) (ls : List Str) :
    headerStep (tokensOf (pre ++ l :: ls ++ post)) ⟨pre.length, headers⟩ =
      match (parseHeader l).value with
      | none => done (.inl ⟨pre.length, headers⟩)
      | some value =>
        headers.setTuple (some (parseHeader l).name) (.to value) >>= fun p =>
          done (.inl ⟨pre.length + 1, p.1⟩) := by
  have hrest : ls ++ post ≠ [] := by
    intro h
    rw [(List.append_eq_nil_iff.mp h).2] at hpost
    exact absurd hpost (by decide)
  have hstr : (tokensOf (pre ++ l :: ls ++ post)).slots.str pre.length = done l := by
    rw [tokensOf, List.append_assoc, List.cons_append]
    exact str_slotsOf_append pre l hrest
  rw [headerStep, sizeSub_length pre hpost, if_pos (by simp), hstr]
  exact done_bind l _

theorem headerStep_next (hpost : post.length = 2) {l : Str} (hl : colon <:+: l) (ls : List Str)
    {kvs : List (Str × VoidPtr Str)} (hd : headers.Lists kvs) :
    ∃ headers' : Dict Str,
      headerStep (tokensOf (pre ++ l :: ls ++ post)) ⟨pre.length, headers⟩ =
        done (.inl ⟨pre.length + 1, headers'⟩) ∧
      headers'.Lists (fillStep headers.size kvs (headerPair l)) ∧ headers'.size = headers.size := by
  cases hv : (parseHeader l).value with
  | none => exact absurd hl (parseHeader_value_eq_none.mp hv)
  | some value =>
    obtain ⟨headers', n, hset, hlists, hsize⟩ :=
      Dict.setTuple_lists hd (parseHeader l).name (.to value)
    refine ⟨headers', ?_, ?_, hsize⟩
    · simp only [headerStep_line pre hpost, hv, hset, done_bind]
    · rwa [headerPair, hv]

theorem headerStep_stuck (hpost : post.length = 2) {l : Str} (hl : ¬ colon <:+: l) (ls : List Str) :
    headerStep (tokensOf (pre ++ l :: ls ++ post)) ⟨pre.length, headers⟩ =
      done (.inl ⟨pre.length, headers⟩) := by
  rw [headerStep_line pre hpost, parseHeader_value_eq_none.mpr hl]

end round

/-! ## The whole loop -/

theorem finishes_headers (post : List Str) (hpost : post.length = 2) (ls : List Str)
    (hls : ∀ l ∈ ls, colon <:+: l) (pre : List Str) (headers : Dict Str)
    (kvs : List (Str × VoidPtr Str)) (hd : headers.Lists kvs) :
    ∃ headers' : Dict Str,
      Finishes (loop (headerStep (tokensOf (pre ++ ls ++ post))) ⟨pre.length, headers⟩) headers' ∧
      headers'.Lists ((ls.map headerPair).foldl (fillStep headers.size) kvs) ∧
      headers'.size = headers.size := by
  induction ls generalizing pre headers kvs with
  | nil => exact ⟨headers, (finishes_loop_exit (headerStep_exit pre hpost)).mpr rfl, hd, rfl⟩
  | cons l ls ih =>
    obtain ⟨headers₁, hstep, hlists, hsize⟩ :=
      headerStep_next pre hpost (hls l (by simp)) ls hd
    obtain ⟨headers', hrun, hlists', hsize'⟩ :=
      ih (fun m hm => hls m (by simp [hm])) (pre ++ [l]) headers₁ _ hlists
    refine ⟨headers', (finishes_loop_next hstep).mpr ?_, ?_, hsize'.trans hsize⟩
    · simpa using hrun
    · rwa [hsize] at hlists'

theorem not_halts_headers (post : List Str) (hpost : post.length = 2) (ls : List Str)
    (hls : ∃ l ∈ ls, ¬ colon <:+: l) (pre : List Str) (headers : Dict Str)
    (kvs : List (Str × VoidPtr Str)) (hd : headers.Lists kvs) :
    ¬ Halts (loop (headerStep (tokensOf (pre ++ ls ++ post))) ⟨pre.length, headers⟩) := by
  induction ls generalizing pre headers kvs with
  | nil => simp at hls
  | cons l ls ih =>
    by_cases hl : colon <:+: l
    · obtain ⟨headers₁, hstep, hlists, -⟩ := headerStep_next pre hpost hl ls hd
      rw [halts_loop_next hstep]
      have hls' : ∃ m ∈ ls, ¬ colon <:+: m := by
        obtain ⟨m, hm, hmc⟩ := hls
        rcases List.mem_cons.mp hm with rfl | hm
        · exact absurd hl hmc
        · exact ⟨m, hm, hmc⟩
      simpa using ih hls' (pre ++ [l]) headers₁ _ hlists
    · exact not_halts_loop_of_stuck (headerStep_stuck pre hpost hl ls)

/-- **The header loop ends exactly when every line it runs over has a `": "`**, and then the
dictionary holds what these lines add. -/
theorem buildsHeaders_iff {text first : Str} {ls post : List Str}
    (htext : Delim.split crlf text = first :: (ls ++ post)) (hpost : post.length = 2)
    {headers : Dict Str} :
    BuildsHeaders text headers ↔ (∀ l ∈ ls, colon <:+: l) ∧ HeadersOf ls headers := by
  have htokens : strsplit text crlf = tokensOf ([first] ++ ls ++ post) := by
    rw [strsplit_eq, htext]
    rfl
  have hempty : (Dict.initDict 50 : Dict Str).Lists [] := Dict.lists_initDict (by decide)
  rw [BuildsHeaders, htokens]
  constructor
  · intro h
    have hls : ∀ l ∈ ls, colon <:+: l := by
      by_contra hno
      push Not at hno
      exact not_halts_headers post hpost ls hno [first] _ [] hempty h.halts
    obtain ⟨headers', hrun, hlists, hsize⟩ := finishes_headers post hpost ls hls [first] _ [] hempty
    obtain rfl := Finishes.unique (stable_loop _) h hrun
    exact ⟨hls, hlists, hsize⟩
  · rintro ⟨hls, hlists, hsize⟩
    obtain ⟨headers', hrun, hlists', hsize'⟩ := finishes_headers post hpost ls hls [first] _ [] hempty
    rwa [hlists.unique hlists' (hsize.trans hsize'.symm)]

theorem exists_headersOf {ls : List Str} (hls : ∀ l ∈ ls, colon <:+: l) :
    ∃ headers, HeadersOf ls headers := by
  obtain ⟨headers, -, hlists, hsize⟩ := finishes_headers [[], []] rfl ls hls []
    (Dict.initDict 50) [] (Dict.lists_initDict (by decide))
  exact ⟨headers, hlists, hsize⟩

/-! ## A text with a blank line -/

theorem split_blank_line (h b : Str) :
    Delim.split crlf (h ++ crlf ++ crlf ++ b) =
      Delim.split crlf h ++ [] :: Delim.split crlf b := by
  rw [List.append_assoc, List.append_assoc, Delim.split_append_delim borderless_crlf crlf_ne_nil,
    show crlf ++ b = [] ++ (crlf ++ b) from rfl,
    Delim.split_cons_delim borderless_crlf crlf_ne_nil (by decide)]

/-- Behind a blank line the text must not hold a further line: the loop would run into the empty line
and never leave it. -/
theorem buildsHeaders_blank_line (h b : Str) (headers : Dict Str) :
    BuildsHeaders (h ++ crlf ++ crlf ++ b) headers ↔
      ¬ crlf <:+: b ∧ (∀ l ∈ (Delim.split crlf h).tail, colon <:+: l) ∧
        HeadersOf (Delim.split crlf h).tail headers := by
  obtain ⟨first, hl, hh⟩ := List.exists_cons_of_ne_nil (Delim.split_ne_nil crlf h)
  have hsplit := split_blank_line h b
  by_cases hb : crlf <:+: b
  · obtain ⟨mid, post, hpost, hmid⟩ : ∃ mid post : List Str, post.length = 2 ∧
        Delim.split crlf b = mid ++ post := by
      have hlen := (Delim.infix_iff_length_split crlf_ne_nil b).mp hb
      refine ⟨(Delim.split crlf b).take ((Delim.split crlf b).length - 2),
        (Delim.split crlf b).drop ((Delim.split crlf b).length - 2), ?_, ?_⟩
      · rw [List.length_drop]
        omega
      · rw [List.take_append_drop]
    rw [hmid, hh, show (first :: hl) ++ [] :: (mid ++ post) = first :: ((hl ++ [] :: mid) ++ post) by
      simp] at hsplit
    rw [buildsHeaders_iff hsplit hpost]
    constructor
    · rintro ⟨hlines, -⟩
      exact absurd (hlines [] (by simp)) (by decide)
    · rintro ⟨hno, -⟩
      exact absurd hb hno
  · rw [Delim.split_of_absent hb, hh, List.cons_append] at hsplit
    rw [buildsHeaders_iff hsplit rfl, hh, List.tail_cons]
    simp [hb]

/-- **When the text behind a blank line leaves the headers alone**: if the header lines are in order,
only the presence of a CRLF behind the blank line decides whether the loop ends. -/
theorem headers_eq_iff (h b₁ b₂ : Str) :
    (∀ headers, BuildsHeaders (h ++ crlf ++ crlf ++ b₁) headers ↔
        BuildsHeaders (h ++ crlf ++ crlf ++ b₂) headers) ↔
      ((∀ l ∈ (Delim.split crlf h).tail, colon <:+: l) → (crlf <:+: b₁ ↔ crlf <:+: b₂)) := by
  simp only [buildsHeaders_blank_line]
  constructor
  · intro hsame hlines
    obtain ⟨headers, hheaders⟩ := exists_headersOf hlines
    have hiff := hsame headers
    rw [and_iff_left ⟨hlines, hheaders⟩, and_iff_left ⟨hlines, hheaders⟩] at hiff
    exact not_iff_not.mp hiff
  · intro hbodies headers
    constructor
    · rintro ⟨hb, hlines, hheaders⟩
      exact ⟨mt (hbodies hlines).mpr hb, hlines, hheaders⟩
    · rintro ⟨hb, hlines, hheaders⟩
      exact ⟨mt (hbodies hlines).mp hb, hlines, hheaders⟩

/-- One more line in the body, and the loop that ended before runs for ever. -/
theorem body_stops_header_loop :
    ¬ ∀ h b₁ b₂ : Str, ∀ headers, BuildsHeaders (h ++ crlf ++ crlf ++ b₁) headers ↔
      BuildsHeaders (h ++ crlf ++ crlf ++ b₂) headers := by
  intro hall
  have hlines : ∀ l ∈ (Delim.split crlf (lit "POST / HTTP/1.0\r\nHost: a")).tail, colon <:+: l := by
    decide
  obtain ⟨headers, hheaders⟩ := exists_headersOf hlines
  have hends := (buildsHeaders_blank_line _ (lit "x") headers).mpr ⟨by decide, hlines, hheaders⟩
  have hruns := (hall _ _ (lit "x\r\ny") headers).mp hends
  exact ((buildsHeaders_blank_line _ _ headers).mp hruns).1 (by decide)

end PwdManLib
