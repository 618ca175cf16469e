import PwdManLib.Server.HeaderLoop

/-!
# What `parseRequest` reads out of a request target

The path is the target up to the first `?`. What stands between the first `?` and the second is cut at
every `&`, and the tokens of the parameters are paired up from the start, whichever parameter they come
from. `parseTarget_iff` is what becomes of any target, and when it is read at all.
-/

namespace PwdManLib

open Exec

/-! ## The query string -/

/-- The tokens `parseQueryStr` makes of a query string. -/
def queryTokens (query : Str) : List Str := (Delim.split (lit "&") query).flatMap queryParts

/-- `parseQueryStr` runs into a missing token when the query string is empty or ends in `&`. -/
def QueryReadable (target : Str) : Prop :=
  ∀ query, (Delim.split [qmark] target)[1]? = some query → query ≠ [] ∧ ¬ lit "&" <:+ query

instance (target : Str) : Decidable (QueryReadable target) := by
  unfold QueryReadable
  cases (Delim.split [qmark] target)[1]? with
  | none => exact .isTrue (by simp)
  | some query => exact decidable_of_iff (query ≠ [] ∧ ¬ lit "&" <:+ query) (by simp)

/-- The query tokens as `parseRequest` pairs them up: a last key without a value gets NULL. -/
def pairUp : List Str → List (Str × VoidPtr Str)
  | [] => []
  | [k] => [(k, .null)]
  | k :: v :: toks => (k, .to v) :: pairUp toks

/-- The pairs of a request target. -/
def targetPairs (target : Str) : List (Str × VoidPtr Str) :=
  match (Delim.split [qmark] target)[1]? with
  | some query => pairUp (queryTokens query)
  | none => []

/-- The dictionary of `parseRequest` after the given query pairs. -/
def QueryOf (pairs : List (Str × VoidPtr Str)) (query : Dict Str) : Prop :=
  query.Lists (pairs.foldl (fillStep 20) []) ∧ query.size = 20

theorem forRange_queryParts (ps result : List Str) :
    forRange (fun i result => do
        let sub_str ← (slotsOf ps).str i
        done (result ++ queryParts sub_str)) ps.length 0 result =
      if ps.getLast? = some [] then fault else done (result ++ ps.flatMap queryParts) := by
  rcases List.eq_nil_or_concat' ps with rfl | ⟨pre, p, rfl⟩
  · simp [forRange]
  · have hbody (i : Nat) (q : Str) (result : List Str) (hq : pre[i]? = some q) :
        (do
          let sub_str ← (slotsOf (pre ++ [p])).str (0 + i)
          done (result ++ queryParts sub_str)) = done (result ++ queryParts q) := by
      have hi := (List.getElem?_eq_some_iff.mp hq).1
      have hnotlast : ¬ (q = [] ∧ i + 1 = (pre ++ [p]).length) := by simp; omega
      rw [Nat.zero_add, str_slotsOf, List.getElem?_append_left hi, hq]
      simp only [if_neg hnotlast, done_bind]
    have hlast : (slotsOf (pre ++ [p])).str (0 + pre.length) = if p = [] then fault else done p := by
      simp [str_slotsOf]
    rw [List.length_append, List.length_singleton, forRange_succ_last, forRange_append hbody, done_bind,
      hlast, List.getLast?_concat, List.flatMap_append, List.flatMap_singleton]
    by_cases hp : p = []
    · simp [hp]
    · simp [hp]

theorem parseQueryStr_eq {target path query : Str} {more : List Str}
    (h : Delim.split [qmark] target = path :: query :: more) :
    parseQueryStr target =
      if query = [] ∨ lit "&" <:+ query then fault
      else done { slots := (path :: queryTokens query).map some ++ [none]
                  len := (queryTokens query).length + 1 } := by
  have hsplit : strsplit target (lit "?") = tokensOf (path :: query :: more) := by
    rw [strsplit_eq, ← h]
    rfl
  have hpath : (tokensOf (path :: query :: more)).slots.str 0 = done path :=
    str_slotsOf_append [] path (List.cons_ne_nil query more)
  have hlast : (Delim.split (lit "&") query).getLast? = some [] ↔ query = [] ∨ lit "&" <:+ query :=
    Delim.getLast?_split_eq_nil_iff (Delim.borderless_singleton 38) (by decide) query
  have hloop := forRange_queryParts (Delim.split (lit "&") query) [path]
  simp only [hlast] at hloop
  simp only [parseQueryStr, hsplit, hpath, done_bind]
  by_cases hquery : query = [] ∧ more = []
  · rw [if_pos (Or.inl hquery.1)]
    simp [tokensOf, str_slotsOf, hquery]
  · have hstr : (tokensOf (path :: query :: more)).slots.str 1 = done query := by
      rw [tokensOf, str_slotsOf]
      simp only [List.getElem?_cons_succ, List.getElem?_cons_zero]
      rw [if_neg]
      rintro ⟨hq, hlen⟩
      exact hquery ⟨hq, by simpa using hlen⟩
    rw [hstr, done_bind, strsplit_eq]
    simp only [tokensOf] at hloop ⊢
    rw [hloop]
    split_ifs
    · rfl
    · simp [queryTokens]

/-! ## The query dictionary -/

private theorem setQuery_loop (toks : List Str) (pre : List Str) (k : Nat)
    (hpre : pre.length = 1 + 2 * k) (query : Dict Str) (kvs : List (Str × VoidPtr Str))
    (hd : query.Lists kvs) :
    ∃ query' : Dict Str,
      forRange (fun k query => do
          let key ← Slots.read ((pre ++ toks).map some ++ [none]) (1 + 2 * k)
          let val ← Slots.read ((pre ++ toks).map some ++ [none]) (1 + 2 * k + 1)
          let (query, _) ← query.setTuple key (VoidPtr.ofStr val)
          done query) ((toks.length + 1) / 2) k query = done query' ∧
      query'.Lists ((pairUp toks).foldl (fillStep query.size) kvs) ∧ query'.size = query.size := by
  induction toks using pairUp.induct generalizing pre k query kvs with
  | case1 => exact ⟨query, rfl, hd, rfl⟩
  | case2 key =>
    obtain ⟨query', n, hset, hlists, hsize⟩ := Dict.setTuple_lists hd key .null
    refine ⟨query', ?_, hlists, hsize⟩
    have hkey : Slots.read ((pre ++ [key]).map some ++ [none]) (1 + 2 * k) = done (some key) :=
      Slots.read_of_getElem? (by simp [← hpre])
    have hval : Slots.read ((pre ++ [key]).map some ++ [none]) (1 + 2 * k + 1) = done none :=
      Slots.read_of_getElem? (by simp [← hpre])
    simp only [List.length_singleton, show (1 + 1) / 2 = 1 from rfl, forRange, hkey, hval, done_bind,
      VoidPtr.ofStr, hset]
  | case3 key val toks ih =>
    obtain ⟨query₁, n, hset, hlists, hsize⟩ := Dict.setTuple_lists hd key (.to val)
    have hih := ih (pre ++ [key, val]) (k + 1) (by simp [hpre]; omega) query₁ _ hlists
    rw [List.append_assoc, hsize] at hih
    obtain ⟨query', hrun, hlists', hsize'⟩ := hih
    refine ⟨query', ?_, hlists', hsize'⟩
    have hkey : Slots.read ((pre ++ key :: val :: toks).map some ++ [none]) (1 + 2 * k) =
        done (some key) := Slots.read_of_getElem? (by simp [← hpre])
    have hval : Slots.read ((pre ++ key :: val :: toks).map some ++ [none]) (1 + 2 * k + 1) =
        done (some val) := Slots.read_of_getElem? (by simp [← hpre])
    have hrounds : ((key :: val :: toks).length + 1) / 2 = (toks.length + 1) / 2 + 1 := by
      simp only [List.length_cons]
      omega
    rw [hrounds, forRange, hkey, done_bind, hval, done_bind, VoidPtr.ofStr, hset, done_bind,
      done_bind]
    exact hrun

theorem setQuery_tokens (path : Str) (toks : List Str) :
    ∃ query, setQuery { slots := (path :: toks).map some ++ [none], len := toks.length + 1 }
        (Dict.initDict 20) = done query ∧ QueryOf (pairUp toks) query :=
  setQuery_loop toks [path] 0 rfl (Dict.initDict 20) [] (Dict.lists_initDict (by decide))

/-! ## The request target -/

theorem mem_target_iff {target : Str} :
    qmark ∈ target ↔ ∃ path query more, Delim.split [qmark] target = path :: query :: more := by
  rw [← List.singleton_infix_iff, Delim.infix_iff_length_split (by simp)]
  constructor
  · intro h
    match hs : Delim.split [qmark] target, h with
    | path :: query :: more, _ => exact ⟨path, query, more, rfl⟩
  · rintro ⟨path, query, more, h⟩
    simp [h]

theorem split_qmark_of_absent {target : Str} (h : qmark ∉ target) :
    Delim.split [qmark] target = [target] :=
  Delim.split_of_absent (by rwa [List.singleton_infix_iff])

theorem queryReadable_of_absent {target : Str} (h : qmark ∉ target) : QueryReadable target := by
  simp [QueryReadable, split_qmark_of_absent h]

/-- **What `parseRequest` makes of a request target**: the path is the target up to the first `?`. -/
theorem parseTarget_iff {target path : Str} {query : Dict Str} :
    parseTarget target = done (path, query) ↔
      QueryReadable target ∧ path = target.takeWhile (· ≠ qmark) ∧
        QueryOf (targetPairs target) query := by
  obtain ⟨rest, hfirst⟩ := Delim.split_singleton qmark target
  by_cases hmem : qmark ∈ target
  · obtain ⟨path', str, more, hsplit⟩ := mem_target_iff.mp hmem
    obtain ⟨rfl, -⟩ := List.cons.inj (hfirst.symm.trans hsplit)
    obtain ⟨query', hset, hquery'⟩ :=
      setQuery_tokens (target.takeWhile (· ≠ qmark)) (queryTokens str)
    have hread : QueryReadable target ↔ ¬ (str = [] ∨ lit "&" <:+ str) := by
      simp [QueryReadable, hsplit]
    have hpairs : targetPairs target = pairUp (queryTokens str) := by
      simp [targetPairs, hsplit]
    have hpath : Slots.str ((target.takeWhile (· ≠ qmark) :: queryTokens str).map some ++ [none]) 0 =
        done (target.takeWhile (· ≠ qmark)) := rfl
    rw [parseTarget, if_neg (not_not_intro hmem), parseQueryStr_eq hsplit, hread, hpairs]
    by_cases hbad : str = [] ∨ lit "&" <:+ str
    · simp [hbad]
    · rw [if_neg hbad, done_bind, hpath, done_bind, hset, done_bind, done.injEq, Prod.mk.injEq,
        and_iff_right hbad]
      constructor
      · intro h
        obtain ⟨rfl, rfl⟩ := h
        exact ⟨rfl, hquery'⟩
      · intro h
        obtain ⟨rfl, hquery⟩ := h
        exact ⟨rfl, hquery'.1.unique hquery.1 (hquery'.2.trans hquery.2.symm)⟩
  · have hsplit := split_qmark_of_absent hmem
    have hread := queryReadable_of_absent hmem
    have hpairs : targetPairs target = [] := by simp [targetPairs, hsplit]
    have hpath : target.takeWhile (· ≠ qmark) = target :=
      (List.cons.inj (hfirst.symm.trans hsplit)).1
    have hinit : QueryOf [] (Dict.initDict 20) := ⟨Dict.lists_initDict (by decide), rfl⟩
    rw [parseTarget, if_pos hmem, hpairs, hpath, done.injEq, Prod.mk.injEq]
    constructor
    · intro h
      obtain ⟨rfl, rfl⟩ := h
      exact ⟨hread, rfl, hinit⟩
    · intro h
      obtain ⟨-, rfl, hquery⟩ := h
      exact ⟨rfl, hinit.1.unique hquery.1 hquery.2.symm⟩

theorem exists_queryOf (target : Str) : ∃ query, QueryOf (targetPairs target) query := by
  rw [targetPairs]
  cases (Delim.split [qmark] target)[1]? with
  | none => exact ⟨Dict.initDict 20, Dict.lists_initDict (by decide), rfl⟩
  | some str =>
    obtain ⟨query, -, hquery⟩ := setQuery_tokens [] (queryTokens str)
    exact ⟨query, hquery⟩

end PwdManLib
