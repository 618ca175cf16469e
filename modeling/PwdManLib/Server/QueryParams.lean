import PwdManLib.Server.ParseSpec

/-!
# Query parameters

A `Param` is a `key=value` or a bare key. `parseQueryStr` writes the words of all parameters in one row,
a key and then its value unless that is empty (`queryTokens_paramsText`), and `parseRequest` takes the
row two by two. As long as every parameter has two words this gives the pairs back
(`parseQueryStr_pairs`); a parameter of one word moves everything behind it by one place
(`keepsParams_iff`).
-/

namespace PwdManLib

open Exec

/-- A query parameter. -/
inductive Param where
  | pair (key value : Str)
  | bare (key : Str)
  deriving DecidableEq, Repr

namespace Param

def key : Param → Str
  | pair k _ => k
  | bare k => k

/-- The parameter as it stands in a query string. -/
def text : Param → Str
  | pair k v => k ++ lit "=" ++ v
  | bare k => k

/-- The key, and the value unless it is empty. -/
def words : Param → List Str
  | pair k v => k :: (if v ≠ [] then [v] else [])
  | bare k => [k]

/-- The characters that separate are not part of the words, and a bare key is not empty. -/
def Plain : Param → Prop
  | pair k v => (61 ∉ k ∧ 38 ∉ k ∧ qmark ∉ k) ∧ 38 ∉ v ∧ qmark ∉ v
  | bare k => (61 ∉ k ∧ 38 ∉ k ∧ qmark ∉ k) ∧ k ≠ []

instance (p : Param) : Decidable p.Plain := by
  cases p <;> exact instDecidableAnd

end Param

/-- The query string of some parameters. -/
def paramsText (params : List Param) : Str := (lit "&").intercalate (params.map Param.text)

/-- The words of all parameters in one row. -/
def wordRow (params : List Param) : List Str := params.flatMap Param.words

/-! ## The query string comes apart -/

section plain

variable {p : Param} (hp : p.Plain)

include hp

theorem Param.queryParts_text : queryParts p.text = p.words := by
  cases p with
  | pair k v =>
    have hfind : Delim.find (lit "=") (k ++ (lit "=" ++ v)) = some k.length :=
      Delim.find_append_delim (Delim.borderless_singleton 61)
        (mt (List.singleton_infix_iff _ _).mp hp.1.1) v
    rw [text, List.append_assoc, queryParts, strstr, hfind]
    simp [lit, words]
  | bare k =>
    have hfind : Delim.find (lit "=") k = none :=
      Delim.find_eq_none_iff.mpr (mt (List.singleton_infix_iff _ _).mp hp.1.1)
    rw [text, queryParts, strstr, hfind]
    simp [words, hp.2]

theorem Param.text_ne_nil : p.text ≠ [] := by
  cases p with
  | pair k v => simp [text, lit]
  | bare k => exact hp.2

theorem Param.amp_notMem_text : 38 ∉ p.text := by
  cases p with
  | pair k v => simp [text, lit, hp.1.2.1, hp.2.1]
  | bare k => exact hp.1.2.1

theorem Param.qmark_notMem_text : qmark ∉ p.text := by
  cases p with
  | pair k v => simpa [text, lit, qmark] using ⟨hp.1.2.2, hp.2.2⟩
  | bare k => exact hp.1.2.2

end plain

section params

variable {params : List Param} (hne : params ≠ []) (hparams : ∀ p ∈ params, p.Plain)

include hne hparams

theorem split_paramsText : Delim.split (lit "&") (paramsText params) = params.map Param.text := by
  obtain ⟨p, ps, rfl⟩ := List.exists_cons_of_ne_nil hne
  apply Delim.split_intercalate (Delim.borderless_singleton 38) (by decide)
  intro t ht
  obtain ⟨q, hq, rfl⟩ := List.mem_map.mp (List.map_cons ▸ ht)
  exact mt (List.singleton_infix_iff _ _).mp (Param.amp_notMem_text (hparams q hq))

/-- **The tokens of a query string are the words of its parameters.** -/
theorem queryTokens_paramsText : queryTokens (paramsText params) = wordRow params := by
  rw [queryTokens, split_paramsText hne hparams, List.flatMap_map, wordRow]
  exact List.flatMap_congr fun p hp => Param.queryParts_text (hparams p hp)

theorem paramsText_readable : paramsText params ≠ [] ∧ ¬ lit "&" <:+ paramsText params := by
  have hlast : (Delim.split (lit "&") (paramsText params)).getLast? = some [] ↔
      paramsText params = [] ∨ lit "&" <:+ paramsText params :=
    Delim.getLast?_split_eq_nil_iff (Delim.borderless_singleton 38) (by decide) _
  rw [← not_or, ← hlast, split_paramsText hne hparams, List.getLast?_map]
  intro h
  obtain ⟨p, hp, htext⟩ := Option.map_eq_some_iff.mp h
  exact Param.text_ne_nil (hparams p (List.mem_of_getLast? hp)) htext

omit hne in
theorem split_qmark_target {path : Str} (hpath : qmark ∉ path) :
    Delim.split [qmark] (path ++ lit "?" ++ paramsText params) = [path, paramsText params] := by
  have habsent : ¬ [qmark] <:+: paramsText params := by
    apply Delim.not_infix_intercalate (by simp) (c := 38) (by decide)
    intro t ht
    obtain ⟨p, hp, rfl⟩ := List.mem_map.mp ht
    exact mt (List.singleton_infix_iff _ _).mp (Param.qmark_notMem_text (hparams p hp))
  rw [List.append_assoc, show lit "?" = [qmark] from rfl,
    Delim.split_cons_delim (Delim.borderless_singleton qmark) (by simp)
      (mt (List.singleton_infix_iff _ _).mp hpath), Delim.split_of_absent habsent]

theorem parseQueryStr_params {path : Str} (hpath : qmark ∉ path) :
    parseQueryStr (path ++ lit "?" ++ paramsText params) =
      done { slots := (path :: wordRow params).map some ++ [none], len := (wordRow params).length + 1 } := by
  have hread := paramsText_readable hne hparams
  rw [parseQueryStr_eq (split_qmark_target hparams hpath), queryTokens_paramsText hne hparams,
    if_neg (not_or.mpr hread)]

end params

/-! ## Parameters with a value -/

section pairs

variable {pairs : List (Str × Str)}

theorem paramsText_pairs (pairs : List (Str × Str)) :
    paramsText (pairs.map fun p => .pair p.1 p.2) =
      (lit "&").intercalate (pairs.map fun p => p.1 ++ lit "=" ++ p.2) := by
  rw [paramsText, List.map_map]
  rfl

theorem plain_pairs (h : ∀ p ∈ pairs, (61 ∉ p.1 ∧ 38 ∉ p.1 ∧ qmark ∉ p.1) ∧ 38 ∉ p.2 ∧ qmark ∉ p.2) :
    ∀ q ∈ pairs.map fun p => Param.pair p.1 p.2, q.Plain := by
  intro q hq
  obtain ⟨p, hp, rfl⟩ := List.mem_map.mp hq
  exact h p hp

theorem wordRow_pairs (h : ∀ p ∈ pairs, p.2 ≠ []) :
    wordRow (pairs.map fun p => .pair p.1 p.2) = pairs.flatMap fun p => [p.1, p.2] := by
  rw [wordRow, List.flatMap_map]
  refine List.flatMap_congr fun p hp => ?_
  rw [Param.words, if_pos (h p hp)]

theorem pairUp_wordRow_pairs (h : ∀ p ∈ pairs, p.2 ≠ []) :
    pairUp (wordRow (pairs.map fun p => .pair p.1 p.2)) = pairs.map fun p => (p.1, .to p.2) := by
  rw [wordRow_pairs h]
  clear h
  induction pairs with
  | nil => rfl
  | cons p pairs ih =>
    rw [List.flatMap_cons, List.cons_append, List.cons_append, List.nil_append, pairUp, ih, List.map_cons]

end pairs

/-- **Key=value parameters come back in order**, keys and values in turn. -/
theorem parseQueryStr_pairs (path : Str) (pairs : List (Str × Str)) (hpath : qmark ∉ path)
    (hne : pairs ≠ []) (hkeys : ∀ p ∈ pairs, 61 ∉ p.1 ∧ 38 ∉ p.1 ∧ qmark ∉ p.1)
    (hvalues : ∀ p ∈ pairs, p.2 ≠ [] ∧ 38 ∉ p.2 ∧ qmark ∉ p.2) :
    parseQueryStr (path ++ lit "?" ++
        (lit "&").intercalate (pairs.map fun p => p.1 ++ lit "=" ++ p.2)) =
      done { slots := (path :: pairs.flatMap fun p => [p.1, p.2]).map some ++ [none]
             len := 2 * pairs.length + 1 } := by
  have hplain := plain_pairs fun p hp => ⟨hkeys p hp, (hvalues p hp).2⟩
  have hlen : (pairs.flatMap fun p => [p.1, p.2]).length = 2 * pairs.length := by
    simp [List.length_flatMap, Nat.mul_comm]
  have h := parseQueryStr_params (mt List.map_eq_nil_iff.mp hne) hplain hpath
  rwa [wordRow_pairs fun p hp => (hvalues p hp).1, hlen, paramsText_pairs] at h

/-! ## Two by two -/

/-- The words at even places. -/
def evens : List Str → List Str
  | [] => []
  | [w] => [w]
  | w :: _ :: ws => w :: evens ws

theorem evens_append {ws : List Str} (h : 2 ∣ ws.length) (vs : List Str) :
    evens (ws ++ vs) = evens ws ++ evens vs := by
  induction ws using evens.induct with
  | case1 => rfl
  | case2 w => simp at h
  | case3 a b ws ih =>
    have heven : 2 ∣ ws.length := by
      simp only [List.length_cons] at h
      omega
    rw [List.cons_append, List.cons_append, evens, evens, ih heven, List.cons_append]

theorem mem_evens (before : List Str) (h : 2 ∣ before.length) (w : Str) (after : List Str) :
    w ∈ evens (before ++ w :: after) := by
  rw [evens_append h, List.mem_append]
  right
  cases after with
  | nil => simp [evens]
  | cons v after => simp [evens]

theorem map_fst_pairUp (toks : List Str) : (pairUp toks).map Prod.fst = evens toks := by
  induction toks using pairUp.induct with
  | case1 => rfl
  | case2 k => rfl
  | case3 k v toks ih => rw [pairUp, List.map_cons, ih, evens]

theorem value_ne_minusOne {toks : List Str} {p : Str × VoidPtr Str} (hp : p ∈ pairUp toks) :
    p.2 ≠ .minusOne := by
  induction toks using pairUp.induct with
  | case1 => simp [pairUp] at hp
  | case2 k =>
    rw [pairUp, List.mem_singleton] at hp
    simp [hp]
  | case3 k v toks ih =>
    rw [pairUp, List.mem_cons] at hp
    rcases hp with rfl | hp
    · simp
    · exact ih hp

theorem lookup_reverse_pairUp_eq_none {toks : List Str} {k : Str} :
    (pairUp toks).reverse.lookup k = none ↔ k ∉ evens toks := by
  rw [← map_fst_pairUp, List.lookup_eq_none_iff]
  simp only [List.mem_reverse, bne_iff_ne, List.mem_map, not_exists, not_and]
  constructor
  · exact fun h p hp hk => h p hp hk.symm
  · exact fun h p hp hk => h p hp hk.symm

theorem lookup_reverse_pairUp_iff {toks : List Str} {k v : Str} :
    (pairUp toks).reverse.lookup k = some (.to v) ↔
      ∃ before after, toks = before ++ k :: v :: after ∧ 2 ∣ before.length ∧ k ∉ evens after := by
  induction toks using pairUp.induct with
  | case1 => simp [pairUp]
  | case2 a =>
    refine iff_of_false ?_ ?_
    · rw [pairUp, List.reverse_singleton, lookup_cons_eq]
      split_ifs <;> simp
    · rintro ⟨before, after, htoks, -, -⟩
      have hlen := congrArg List.length htoks
      simp only [List.length_append, List.length_cons, List.length_nil] at hlen
      omega
  | case3 a b toks ih =>
    rw [pairUp, List.reverse_cons, List.lookup_append, lookup_cons_eq, List.lookup_nil]
    constructor
    · intro h
      cases hrest : (pairUp toks).reverse.lookup k with
      | some w =>
        rw [hrest, Option.some_or] at h
        obtain ⟨before, after, rfl, heven, hlast⟩ := ih.mp (hrest.trans h)
        exact ⟨a :: b :: before, after, rfl, by simp only [List.length_cons]; omega, hlast⟩
      | none =>
        rw [hrest, Option.none_or] at h
        split_ifs at h with hk
        obtain rfl := VoidPtr.to.inj (Option.some.inj h)
        exact ⟨[], toks, by rw [hk]; rfl, by simp, lookup_reverse_pairUp_eq_none.mp hrest⟩
    · rintro ⟨before, after, htoks, heven, hlast⟩
      rcases before with _ | ⟨x, _ | ⟨y, before⟩⟩
      · obtain ⟨rfl, rfl, rfl⟩ : a = k ∧ b = v ∧ toks = after := by simpa using htoks
        rw [lookup_reverse_pairUp_eq_none.mpr hlast, Option.none_or, if_pos rfl]
      · simp at heven
      · obtain ⟨-, -, rfl⟩ : a = x ∧ b = y ∧ toks = before ++ k :: v :: after := by simpa using htoks
        have heven' : 2 ∣ before.length := by
          simp only [List.length_cons] at heven
          omega
        rw [ih.mpr ⟨before, after, rfl, heven', hlast⟩, Option.some_or]

/-! ## The query dictionary -/

/-- A path and parameters with non-empty keys, not more than 20 different ones. -/
structure ParamTarget where
  path : Str
  params : List Param
  path_plain : qmark ∉ path
  params_ne_nil : params ≠ []
  params_plain : ∀ p ∈ params, p.Plain
  keys_ne_nil : ∀ p ∈ params, p.key ≠ []
  few_keys : (params.map Param.key).toFinset.card ≤ 20

def ParamTarget.text (q : ParamTarget) : Str := q.path ++ lit "?" ++ paramsText q.params

/-- The key of every `key=value` has its own value, that of its last parameter, and there are no other
keys than those given. -/
structure KeepsParams (params : List Param) (query : Dict Str) : Prop where
  own_value : ∀ front k v back, params = front ++ .pair k v :: back → (∀ w, Param.pair k w ∉ back) →
    query.getTuple (some k) = done (.to v)
  no_other : ∀ k, k ∉ params.map Param.key → query.getTuple (some k) = done .minusOne

/-- The words in one row fall into the right places: the first 20 different words at even places are
keys, and the last value of every `key=value` stands behind its key, where the key is at an even place
for the last time. -/
structure InPlace (params : List Param) : Prop where
  keys : ∀ k ∈ (evens (wordRow params)).eraseDups.take 20, k ∈ params.map Param.key
  values : ∀ front k v back, params = front ++ .pair k v :: back → (∀ w, Param.pair k w ∉ back) →
    ∃ before after, wordRow params = before ++ k :: v :: after ∧ 2 ∣ before.length ∧ k ∉ evens after

namespace ParamTarget

variable (q : ParamTarget)

theorem reads_iff {path : Str} {query : Dict Str} :
    parseTarget q.text = done (path, query) ↔
      path = q.path ∧ QueryOf (pairUp (wordRow q.params)) query := by
  have hsplit : Delim.split [qmark] q.text = [q.path, paramsText q.params] :=
    split_qmark_target q.params_plain q.path_plain
  have hread : QueryReadable q.text := by
    have hparams := paramsText_readable q.params_ne_nil q.params_plain
    simp [QueryReadable, hsplit, hparams]
  have hpath : q.text.takeWhile (· ≠ qmark) = q.path := by
    obtain ⟨rest, hfirst⟩ := Delim.split_singleton qmark q.text
    exact (List.cons.inj (hfirst.symm.trans hsplit)).1
  have hpairs : targetPairs q.text = pairUp (wordRow q.params) := by
    simp [targetPairs, hsplit, queryTokens_paramsText q.params_ne_nil q.params_plain]
  rw [parseTarget_iff, and_iff_right hread, hpath, hpairs]

theorem exists_reads : ∃ query, parseTarget q.text = done (q.path, query) := by
  obtain ⟨query, -, hquery⟩ := setQuery_tokens q.path (wordRow q.params)
  exact ⟨query, q.reads_iff.mpr ⟨rfl, hquery⟩⟩

theorem absent_iff {query : Dict Str} (h : QueryOf (pairUp (wordRow q.params)) query) (k : Str) :
    query.getTuple (some k) = done .minusOne ↔ k ∉ (evens (wordRow q.params)).eraseDups.take 20 := by
  rw [Dict.getTuple_foldl h.1, map_fst_pairUp, done.injEq]
  by_cases hk : k ∈ (evens (wordRow q.params)).eraseDups.take 20
  · rw [if_pos hk]
    refine iff_of_false ?_ (not_not_intro hk)
    cases hlast : (pairUp (wordRow q.params)).reverse.lookup k with
    | none =>
      have heven := List.mem_eraseDups.mp (List.mem_of_mem_take hk)
      exact absurd heven (lookup_reverse_pairUp_eq_none.mp hlast)
    | some v =>
      obtain ⟨l₁, l₂, hsplit, -⟩ := List.lookup_eq_some_iff.mp hlast
      have hmem : (k, v) ∈ pairUp (wordRow q.params) := by
        rw [← List.mem_reverse, hsplit]
        simp
      exact value_ne_minusOne hmem
  · rw [if_neg hk]
    exact iff_of_true rfl hk

theorem getTuple_iff {query : Dict Str} (h : QueryOf (pairUp (wordRow q.params)) query) (k v : Str) :
    query.getTuple (some k) = done (.to v) ↔
      k ∈ (evens (wordRow q.params)).eraseDups.take 20 ∧
        ∃ before after, wordRow q.params = before ++ k :: v :: after ∧ 2 ∣ before.length ∧
          k ∉ evens after := by
  rw [← lookup_reverse_pairUp_iff, Dict.getTuple_foldl h.1, map_fst_pairUp, done.injEq]
  by_cases hk : k ∈ (evens (wordRow q.params)).eraseDups.take 20
  · rw [if_pos hk, and_iff_right hk]
    cases (pairUp (wordRow q.params)).reverse.lookup k <;> simp
  · rw [if_neg hk]
    simp [hk]

theorem mem_take_of_mem_evens (hkeys : ∀ k ∈ (evens (wordRow q.params)).eraseDups.take 20,
    k ∈ q.params.map Param.key) {k : Str} (hk : k ∈ q.params.map Param.key)
    (heven : k ∈ evens (wordRow q.params)) : k ∈ (evens (wordRow q.params)).eraseDups.take 20 := by
  have hfew := q.few_keys
  rcases Nat.le_total (evens (wordRow q.params)).eraseDups.length 20 with hle | hge
  · rwa [List.take_of_length_le hle, List.mem_eraseDups]
  · -- the 20 words are different keys, and there are no more keys than that
    have hsub : ((evens (wordRow q.params)).eraseDups.take 20).toFinset ⊆
        (q.params.map Param.key).toFinset := by
      intro x hx
      exact List.mem_toFinset.mpr (hkeys x (List.mem_toFinset.mp hx))
    have hcard : ((evens (wordRow q.params)).eraseDups.take 20).toFinset.card = 20 := by
      rw [List.toFinset_card_of_nodup ((nodup_eraseDups _).take), List.length_take, Nat.min_eq_left hge]
    have hall := Finset.eq_of_subset_of_card_le hsub (by omega)
    rw [← List.mem_toFinset, hall, List.mem_toFinset]
    exact hk

/-- **When the query parameters do not shift one another**: when each of them falls into its place (`InPlace`). -/
theorem keepsParams_iff :
    (∃ path query, parseTarget q.text = done (path, query) ∧ KeepsParams q.params query) ↔
      InPlace q.params := by
  constructor
  · intro h
    obtain ⟨path, query, hread, hown, hother⟩ := h
    have hquery := (q.reads_iff.mp hread).2
    constructor
    · intro k hk
      by_contra hno
      exact (q.absent_iff hquery k).mp (hother k hno) hk
    · intro front k v back hsplit hlast
      exact ((q.getTuple_iff hquery k v).mp (hown front k v back hsplit hlast)).2
  · intro h
    obtain ⟨hkeys, hvalues⟩ := h
    obtain ⟨query, hread⟩ := q.exists_reads
    have hquery := (q.reads_iff.mp hread).2
    refine ⟨q.path, query, hread, ?_, ?_⟩
    · intro front k v back hsplit hlast
      obtain ⟨before, after, hrow, heven, hbehind⟩ := hvalues front k v back hsplit hlast
      have hkey : k ∈ q.params.map Param.key := by
        rw [hsplit]
        simp [Param.key]
      have hin := q.mem_take_of_mem_evens hkeys hkey (hrow ▸ mem_evens before heven k (v :: after))
      exact (q.getTuple_iff hquery k v).mpr ⟨hin, before, after, hrow, heven, hbehind⟩
    · intro k hk
      exact (q.absent_iff hquery k).mpr fun hin => hk (hkeys k hin)

end ParamTarget

/-- A bare key in front of a `key=value` makes the value a key. -/
theorem bare_key_shifts :
    ¬ ∀ q : ParamTarget, ∃ path query, parseTarget q.text = done (path, query) ∧
      KeepsParams q.params query := by
  intro hall
  let q : ParamTarget :=
    { path := lit "/"
      params := [.bare (lit "a"), .pair (lit "b") (lit "1")]
      path_plain := by decide
      params_ne_nil := by decide
      params_plain := by decide
      keys_ne_nil := by decide
      few_keys := by decide }
  obtain ⟨path, query, hread, hkeeps⟩ := hall q
  have hquery := (q.reads_iff.mp hread).2
  have habsent := hkeeps.no_other (lit "1") (by decide)
  exact (q.absent_iff hquery (lit "1")).mp habsent (by decide)

/-! ## Parameters in place -/

theorem evens_wordRow {params : List Param} (h : ∀ p ∈ params, ∃ k v, p = .pair k v ∧ v ≠ []) :
    evens (wordRow params) = params.map Param.key ∧ 2 ∣ (wordRow params).length := by
  induction params with
  | nil => simp [wordRow, evens]
  | cons p params ih =>
    obtain ⟨k, v, rfl, hv⟩ := h p (by simp)
    obtain ⟨hkeys, heven⟩ := ih fun q hq => h q (by simp [hq])
    have hrow : wordRow (.pair k v :: params) = k :: v :: wordRow params := by
      simp [wordRow, Param.words, hv]
    rw [hrow, evens, hkeys, List.map_cons]
    refine ⟨rfl, ?_⟩
    simp only [List.length_cons]
    omega

theorem inPlace_of_pairs {params : List Param}
    (h : ∀ p ∈ params, ∃ k v, p = .pair k v ∧ v ≠ []) : InPlace params := by
  constructor
  · intro k hk
    rw [← (evens_wordRow h).1]
    exact List.mem_eraseDups.mp (List.mem_of_mem_take hk)
  · rintro front k v back rfl hlast
    have hv : v ≠ [] := by
      obtain ⟨k', v', hp, hv⟩ := h (.pair k v) (by simp)
      obtain ⟨-, rfl⟩ := Param.pair.inj hp
      exact hv
    have hback : evens (wordRow back) = back.map Param.key :=
      (evens_wordRow fun p hp => h p (by simp [hp])).1
    refine ⟨wordRow front, wordRow back, by simp [wordRow, Param.words, hv],
      (evens_wordRow fun p hp => h p (by simp [hp])).2, ?_⟩
    rw [hback]
    intro hk
    obtain ⟨p, hp, rfl⟩ := List.mem_map.mp hk
    obtain ⟨k', w, rfl, -⟩ := h p (by simp [hp])
    exact hlast w hp

theorem InPlace.value_is_key {front back : List Param} {k v : Str} (hv : v ≠ [])
    (h : InPlace (front ++ .pair k v :: back)) (hodd : ¬ 2 ∣ (wordRow front).length)
    (hfew : (evens (wordRow (front ++ .pair k v :: back))).eraseDups.length ≤ 20) :
    v ∈ (front ++ .pair k v :: back).map Param.key := by
  apply h.keys
  rw [List.take_of_length_le hfew, List.mem_eraseDups]
  have hrow : wordRow (front ++ .pair k v :: back) = (wordRow front ++ [k]) ++ v :: wordRow back := by
    simp [wordRow, Param.words, hv]
  rw [hrow]
  exact mem_evens _ (by rw [List.length_append, List.length_singleton]; omega) v (wordRow back)

end PwdManLib
