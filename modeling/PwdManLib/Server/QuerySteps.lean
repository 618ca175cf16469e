import PwdManLib.Lib.Trace
import PwdManLib.Server.QueryParams

/-!
# What `parseQueryStr` uses and stores

`parseQueryStr` uses the entries of two splits as strings without looking at them, and stores its tokens
into a block sized by the number of parameters. `parseQueryStrSteps` is `parseQueryStr` with a record of
both. A use fails exactly when the query string is empty or ends in `&` (`noNullPassed_iff`); the NULL at
the end has a slot unless all parameters bring two tokens (`storesBelow_iff`).
-/

namespace PwdManLib

open Exec Trace

/-- A step of `parseQueryStr`: it uses an entry of a split as a string, allocates the slots of `result`,
or stores into one of them. -/
inductive QueryStep where
  | use (slot : Option (Option Str))
  | alloc (slots : Nat)
  | store (index : Nat)
  deriving DecidableEq, Repr

/-- Use slot `i` as a string. -/
def useSlot (slots : Slots) (i : Nat) : Trace QueryStep Str where
  sent := [.use slots[i]?]
  next := slots.str i

/-- `result[j++] = strdup(tok)`: `j` is the number of tokens stored before. -/
def storeToken (tok : Str) (result : List Str) : Trace QueryStep (List Str) where
  sent := [.store result.length]
  next := done (result ++ [tok])

/-- The tokens of one parameter: the key before the first `=`, and what follows it unless that is
empty. -/
def paramSteps (sub_str : Str) (result : List Str) : Trace QueryStep (List Str) :=
  match strstr sub_str (lit "=") with
  | some tok => do
    let result ← storeToken (sub_str.take tok) result
    let sub_str := sub_str.drop (tok + 1)
    if sub_str ≠ [] then storeToken sub_str result else pure result
  | none => if sub_str ≠ [] then storeToken sub_str result else pure result

/-- One round of the loop over the parameters. -/
def paramRound (sub_tokens : Slots) (i : Nat) (result : List Str) : Trace QueryStep (List Str) := do
  let sub_str ← useSlot sub_tokens i
  paramSteps sub_str result

/-- `parseQueryStr` with its uses and stores. -/
def parseQueryStrSteps (str : Str) : Trace QueryStep SplitResult := do
  let tokens := strsplit str (lit "?")
  let query ← useSlot tokens.slots 1
  let sub_tokens := strsplit query (lit "&")
  emit (.alloc (sub_tokens.len * 2 + 1))
  let path ← useSlot tokens.slots 0
  let result ← storeToken path []
  let result ← Trace.forRange (paramRound sub_tokens.slots) sub_tokens.len 0 result
  emit (.store result.length)
  pure { slots := result.map some ++ [none], len := result.length }

theorem next_paramSteps (sub_str : Str) (result : List Str) :
    (paramSteps sub_str result).next = done (result ++ queryParts sub_str) := by
  rw [paramSteps, queryParts]
  cases strstr sub_str (lit "=") with
  | none => by_cases h : sub_str = [] <;> simp [h, storeToken]
  | some tok =>
    by_cases h : sub_str.drop (tok + 1) = []
    · simp [h, storeToken]
    · simp [h, storeToken]

theorem next_parseQueryStrSteps (str : Str) : (parseQueryStrSteps str).next = parseQueryStr str := by
  simp only [parseQueryStrSteps, paramRound, parseQueryStr, next_bind, useSlot, storeToken, next_forRange,
    next_paramSteps, next_emit, next_pure, done_bind, List.nil_append]

/-! ## Uses -/

/-- What is used is a string. -/
def QueryStep.NonNull : QueryStep → Prop
  | use slot => ∃ s, slot = some (some s)
  | _ => True

/-- Every entry of a split that is used as a string is one. -/
def NoNullPassed (target : Str) : Prop := ∀ e ∈ (parseQueryStrSteps target).sent, e.NonNull

theorem tells_useSlot (slots : Slots) (i : Nat) : Tells QueryStep.NonNull (useSlot slots i) := by
  simp only [Tells, useSlot, List.forall_mem_singleton, str_eq_done_iff, QueryStep.NonNull]

theorem tells_storeToken (tok : Str) (result : List Str) :
    Tells QueryStep.NonNull (storeToken tok result) := by
  refine iff_of_true ?_ ⟨_, rfl⟩
  simp [storeToken, QueryStep.NonNull]

theorem tells_paramSteps (sub_str : Str) (result : List Str) :
    Tells QueryStep.NonNull (paramSteps sub_str result) := by
  have hrest (sub_str : Str) (result : List Str) :
      Tells QueryStep.NonNull (if sub_str ≠ [] then storeToken sub_str result else pure result) := by
    split_ifs
    · exact tells_storeToken _ _
    · exact tells_pure result
  rw [paramSteps]
  cases strstr sub_str (lit "=") with
  | none => exact hrest sub_str result
  | some tok => exact (tells_storeToken _ _).bind fun result => hrest _ result

theorem tells_parseQueryStrSteps (str : Str) : Tells QueryStep.NonNull (parseQueryStrSteps str) := by
  refine (tells_useSlot _ _).bind fun query => (tells_emit trivial).bind fun _ =>
    (tells_useSlot _ _).bind fun path => (tells_storeToken _ _).bind fun result =>
    Tells.bind ?_ fun result => (tells_emit trivial).bind fun _ => tells_pure _
  apply tells_forRange
  intro i result
  exact (tells_useSlot _ _).bind fun sub_str => tells_paramSteps sub_str result

/-- **When no NULL is used as a string**: when there is a query string, and it does not end in `&`. -/
theorem noNullPassed_iff (target : Str) (h : qmark ∈ target) :
    NoNullPassed target ↔ QueryReadable target := by
  obtain ⟨path, query, more, hsplit⟩ := mem_target_iff.mp h
  have hread : QueryReadable target ↔ ¬ (query = [] ∨ lit "&" <:+ query) := by
    simp [QueryReadable, hsplit]
  apply (tells_parseQueryStrSteps target).trans
  rw [next_parseQueryStrSteps, parseQueryStr_eq hsplit, hread]
  by_cases hbad : query = [] ∨ lit "&" <:+ query
  · simp [hbad]
  · rw [if_neg hbad]
    exact iff_of_true ⟨_, rfl⟩ hbad

theorem noNullPassed_iff_login :
    qmark ∈ lit "/login?user=foo" ∧
      (NoNullPassed (lit "/login?user=foo") ↔ QueryReadable (lit "/login?user=foo")) :=
  ⟨by decide, noNullPassed_iff _ (by decide)⟩

/-- A `?` at the end is a query string that is not there. -/
theorem empty_query_null : ¬ ∀ target : Str, qmark ∈ target → NoNullPassed target := by
  intro hall
  obtain ⟨s, hs⟩ := hall (lit "/?") (by decide) (.use (some none)) (by decide)
  simp at hs

/-! ## Stores -/

/-- The parameters of a request target: what stands between the first `?` and the second, cut at every
`&`. -/
def queryParams (target : Str) : List Str :=
  match (Delim.split [qmark] target)[1]? with
  | some query => Delim.split (lit "&") query
  | none => []

/-- Every store into `result` goes to a slot that was allocated. -/
def StoresBelow (target : Str) : Prop :=
  ∀ n i, .alloc n ∈ (parseQueryStrSteps target).sent → .store i ∈ (parseQueryStrSteps target).sent →
    i < n

/-- Tokens are added at the end: when this is done, exactly the slots in between have been stored. -/
structure Appends (result : List Str) (x : Trace QueryStep (List Str)) : Prop where
  no_alloc : ∀ n, .alloc n ∉ x.sent
  length_le : ∀ result', x.next = done result' → result.length ≤ result'.length
  stores : ∀ result', x.next = done result' →
    ∀ i, .store i ∈ x.sent ↔ result.length ≤ i ∧ i < result'.length

theorem appends_pure (result : List Str) : Appends result (pure result) where
  no_alloc := by simp
  length_le := by
    intro result' h
    rw [done.inj h]
  stores := by
    intro result' h i
    rw [← done.inj h, sent_pure]
    apply iff_of_false List.not_mem_nil
    omega

theorem appends_storeToken (tok : Str) (result : List Str) : Appends result (storeToken tok result) where
  no_alloc := by simp [storeToken]
  length_le := by
    intro result' h
    rw [← done.inj h, List.length_append]
    omega
  stores := by
    intro result' h i
    rw [← done.inj h, List.length_append, List.length_singleton, storeToken, List.mem_singleton,
      QueryStep.store.injEq]
    omega

theorem Appends.bind {result : List Str} {x : Trace QueryStep (List Str)}
    {f : List Str → Trace QueryStep (List Str)} (hx : Appends result x)
    (hf : ∀ result, Appends result (f result)) : Appends result (x >>= f) where
  no_alloc n h := by
    rcases mem_sent_bind.mp h with h | ⟨result', -, h⟩
    · exact hx.no_alloc n h
    · exact (hf result').no_alloc n h
  length_le := by
    intro result'' h
    rw [next_bind, bind_eq_done] at h
    obtain ⟨result', hfirst, hrest⟩ := h
    exact (hx.length_le result' hfirst).trans ((hf result').length_le result'' hrest)
  stores := by
    intro result'' h i
    rw [next_bind, bind_eq_done] at h
    obtain ⟨result', hfirst, hrest⟩ := h
    have hle := hx.length_le result' hfirst
    have hle' := (hf result').length_le result'' hrest
    rw [bind_of_done hfirst, List.mem_append, hx.stores result' hfirst,
      (hf result').stores result'' hrest]
    omega

theorem Appends.use {result : List Str} {f : Str → Trace QueryStep (List Str)}
    (hf : ∀ s, Appends result (f s)) (slots : Slots) (i : Nat) :
    Appends result (useSlot slots i >>= f) where
  no_alloc n h := by
    rcases mem_sent_bind.mp h with h | ⟨s, -, h⟩
    · simp [useSlot] at h
    · exact (hf s).no_alloc n h
  length_le := by
    intro result' h
    rw [next_bind, bind_eq_done] at h
    obtain ⟨s, -, hrest⟩ := h
    exact (hf s).length_le result' hrest
  stores := by
    intro result' h j
    rw [next_bind, bind_eq_done] at h
    obtain ⟨s, hs, hrest⟩ := h
    rw [bind_of_done hs, List.mem_append, (hf s).stores result' hrest]
    simp [useSlot]

theorem appends_paramSteps (sub_str : Str) (result : List Str) :
    Appends result (paramSteps sub_str result) := by
  have hrest (sub_str : Str) (result : List Str) :
      Appends result (if sub_str ≠ [] then storeToken sub_str result else pure result) := by
    split_ifs
    · exact appends_storeToken _ _
    · exact appends_pure result
  rw [paramSteps]
  cases strstr sub_str (lit "=") with
  | none => exact hrest sub_str result
  | some tok => exact (appends_storeToken _ _).bind fun result => hrest _ result

theorem appends_forRange (slots : Slots) (n i : Nat) (result : List Str) :
    Appends result (Trace.forRange (paramRound slots) n i result) := by
  induction n generalizing i result with
  | zero => exact appends_pure result
  | succ n ih =>
    have hround := Appends.use (fun s => appends_paramSteps s result) slots i
    exact hround.bind fun result' => ih (i + 1) result'

/-- **The slots that are stored** when `parseQueryStr` comes to its end: one for each token, and the one
behind them. -/
theorem steps_of_done {target path query : Str} {more : List Str} {r : SplitResult}
    (hsplit : Delim.split [qmark] target = path :: query :: more)
    (h : parseQueryStr target = done r) :
    (∀ n, .alloc n ∈ (parseQueryStrSteps target).sent ↔ n = (strsplit query (lit "&")).len * 2 + 1) ∧
      ∀ i, .store i ∈ (parseQueryStrSteps target).sent ↔ i ≤ r.len := by
  have htokens : strsplit target (lit "?") = tokensOf (path :: query :: more) := by
    rw [strsplit_eq, ← hsplit]
    rfl
  simp only [parseQueryStr, bind_eq_done] at h
  obtain ⟨query', hquery, path', hpath, result, hloop, hr⟩ := h
  obtain rfl : query = query' := by
    rw [htokens] at hquery
    simpa using getElem?_of_str hquery
  have happends := appends_forRange (strsplit query (lit "&")).slots (strsplit query (lit "&")).len 0 [path']
  have hnext : (Trace.forRange (paramRound (strsplit query (lit "&")).slots)
      (strsplit query (lit "&")).len 0 [path']).next = done result := by
    simpa only [next_forRange, paramRound, next_bind, next_paramSteps, useSlot] using hloop
  have hlen := happends.length_le result hnext
  have hstores := happends.stores result hnext
  obtain rfl := done.inj hr
  have huse : (useSlot (strsplit target (lit "?")).slots 1).next = done query := hquery
  have huse' : (useSlot (strsplit target (lit "?")).slots 0).next = done path' := hpath
  have hstore : (storeToken path' []).next = done [path'] := rfl
  rw [parseQueryStrSteps, bind_of_done huse, bind_of_done (next_emit _), bind_of_done huse',
    bind_of_done hstore, bind_of_done hnext, bind_of_done (next_emit _)]
  constructor
  · intro n
    simp [useSlot, storeToken, happends.no_alloc n]
  · intro i
    rw [List.length_singleton] at hlen
    simp only [useSlot, storeToken, sent_emit, sent_pure, List.mem_append, hstores, List.mem_singleton,
      List.not_mem_nil, reduceCtorEq, QueryStep.store.injEq, List.length_singleton, List.length_nil, false_or,
      or_false]
    omega

/-- A key and a value that is not empty. -/
def TwoWords (sub_str : Str) : Prop := ∃ k v, sub_str = k ++ lit "=" ++ v ∧ 61 ∉ k ∧ v ≠ []

/-- The key of a `key=value` with a value that is not empty. -/
def pairKey (sub_str : Str) : Option Str :=
  match strstr sub_str (lit "=") with
  | some tok => if sub_str.drop (tok + 1) ≠ [] then some (sub_str.take tok) else none
  | none => none

theorem pairKey_eq_some_iff {sub_str k : Str} :
    pairKey sub_str = some k ↔ ∃ v, sub_str = k ++ lit "=" ++ v ∧ 61 ∉ k ∧ v ≠ [] := by
  constructor
  · intro h
    rw [pairKey] at h
    cases hfind : strstr sub_str (lit "=") with
    | none => simp [hfind] at h
    | some tok =>
      simp only [hfind] at h
      split_ifs at h with hv
      obtain rfl := Option.some.inj h
      refine ⟨sub_str.drop (tok + 1), ?_, ?_, hv⟩
      · rw [List.append_assoc]
        exact (Delim.take_append_drop_of_find hfind).symm
      · have hk := Delim.not_infix_take_of_find (d := lit "=") (by decide) hfind
        rwa [show lit "=" = [61] from rfl, List.singleton_infix_iff] at hk
  · rintro ⟨v, rfl, hk, hv⟩
    have hfind : strstr (k ++ lit "=" ++ v) (lit "=") = some k.length := by
      rw [List.append_assoc]
      exact Delim.find_append_delim (Delim.borderless_singleton 61)
        (mt (List.singleton_infix_iff _ _).mp hk) v
    rw [pairKey, hfind]
    simp [lit, hv]

theorem length_queryParts (sub_str : Str) :
    (queryParts sub_str).length ≤ 2 ∧ ((queryParts sub_str).length = 2 ↔ TwoWords sub_str) := by
  have htwo : TwoWords sub_str ↔ ∃ k, pairKey sub_str = some k := by
    simp only [pairKey_eq_some_iff, TwoWords]
  rw [htwo, queryParts, pairKey]
  cases strstr sub_str (lit "=") with
  | none => by_cases h : sub_str = [] <;> simp [h]
  | some tok => by_cases h : sub_str.drop (tok + 1) = [] <;> simp [h]

theorem length_flatMap_queryParts (ps : List Str) :
    (ps.flatMap queryParts).length ≤ ps.length * 2 ∧
      ((ps.flatMap queryParts).length < ps.length * 2 ↔ ∃ p ∈ ps, ¬ TwoWords p) := by
  induction ps with
  | nil => simp
  | cons p ps ih =>
    obtain ⟨hle, hlt⟩ := ih
    obtain ⟨hp, htwo⟩ := length_queryParts p
    rw [List.flatMap_cons, List.length_append, List.length_cons]
    refine ⟨by omega, ?_⟩
    simp only [List.mem_cons, exists_eq_or_imp]
    rw [← hlt, ← htwo]
    omega

/-- **When the stores of `parseQueryStr` stay below its slots**: when some parameter is not a key with
a value, so that there is a slot left for the NULL at the end. -/
theorem storesBelow_iff (target : Str) (h : qmark ∈ target)
    (hparams : ∀ p ∈ queryParams target, p ≠ []) :
    StoresBelow target ↔ ∃ p ∈ queryParams target, ¬ TwoWords p := by
  obtain ⟨path, query, more, hsplit⟩ := mem_target_iff.mp h
  have hquery : queryParams target = Delim.split (lit "&") query := by
    simp [queryParams, hsplit]
  rw [hquery] at hparams ⊢
  have hlast : (Delim.split (lit "&") query).getLast? = some [] ↔ query = [] ∨ lit "&" <:+ query :=
    Delim.getLast?_split_eq_nil_iff (Delim.borderless_singleton 38) (by decide) query
  have hread : ¬ (query = [] ∨ lit "&" <:+ query) := by
    rw [← hlast]
    exact fun hnil => hparams [] (List.mem_of_getLast? hnil) rfl
  have hdone := parseQueryStr_eq hsplit
  rw [if_neg hread] at hdone
  obtain ⟨halloc, hstore⟩ := steps_of_done hsplit hdone
  obtain ⟨-, hlt⟩ := length_flatMap_queryParts (Delim.split (lit "&") query)
  have hcount : (strsplit query (lit "&")).len = (Delim.split (lit "&") query).length := by
    rw [strsplit_eq, tokensOf]
  simp only [StoresBelow, halloc, hstore, hcount]
  rw [← hlt, ← queryTokens]
  constructor
  · intro hall
    have hlast := hall _ _ rfl le_rfl
    omega
  · rintro hfew n i rfl hi
    omega

theorem storesBelow_iff_flag :
    qmark ∈ lit "/?a=1&b" ∧ (∀ p ∈ queryParams (lit "/?a=1&b"), p ≠ []) ∧
      (StoresBelow (lit "/?a=1&b") ↔ ∃ p ∈ queryParams (lit "/?a=1&b"), ¬ TwoWords p) :=
  ⟨by decide, by decide, storesBelow_iff _ (by decide) (by decide)⟩

/-- With `key=value` parameters only, the NULL goes behind the slots. -/
theorem full_pairs_overrun :
    ¬ ∀ target : Str, qmark ∈ target → (∀ p ∈ queryParams target, p ≠ []) → StoresBelow target := by
  intro hall
  have hlt := hall (lit "/?a=1") (by decide) (by decide) 3 3 (by decide) (by decide)
  exact absurd hlt (by decide)

end PwdManLib
