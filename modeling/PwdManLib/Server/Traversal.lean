import PwdManLib.Lib.LexPath
import PwdManLib.Server.RequestText
import PwdManLib.Server.Route

/-!
# Which files a GET can name

`routeClient` puts the requested path behind `root_dir` and opens the result. Paths are resolved
lexically (`LexPath`), without symbolic links. `place_append` says where the combined path leads from
the root directory, and `resource_inside_iff` which requests stay inside it: nothing in the server keeps
`..` out of the target.
-/

namespace PwdManLib

open Exec LexPath

def slash : UInt8 := 47

/-! ## Places -/

/-- The move a path component stands for. -/
def toMove (component : Str) : Move Str :=
  if component = [] ∨ component = lit "." then .stay
  else if component = lit ".." then .up
  else .down component

/-- The components of a path. -/
def components (path : Str) : List (Move Str) := (Delim.split [slash] path).map toMove

/-- The directory or file an absolute path denotes, innermost name first. -/
def place (path : Str) : List Str := walk [] (components path)

/-- The resolved path has the resolved directory as a component-wise beginning. -/
def Inside (dir path : Str) : Prop := (place dir).reverse <+: (place path).reverse

instance (dir path : Str) : Decidable (Inside dir path) :=
  inferInstanceAs (Decidable ((place dir).reverse <+: (place path).reverse))

theorem components_append_slash (x y : Str) :
    components (x ++ slash :: y) = components x ++ components y := by
  rw [components, show x ++ slash :: y = x ++ ([slash] ++ y) from rfl,
    Delim.split_append_delim (Delim.borderless_singleton slash) (by simp), List.map_append]
  rfl

theorem components_of_notMem {x : Str} (h : slash ∉ x) : components x = [toMove x] := by
  rw [components, Delim.split_of_absent (mt (List.singleton_infix_iff _ _).mp h)]
  rfl

theorem place_append_slash (x y : Str) : place (x ++ slash :: y) = walk (place x) (components y) := by
  rw [place, components_append_slash, walk_append]
  rfl

/-! ## The root directory and what follows it -/

/-- The last component of a directory. -/
def lastName (dir : Str) : Str := (dir.reverse.takeWhile (· ≠ slash)).reverse

/-- What stands before the last component. -/
def parent (dir : Str) : Str := (dir.reverse.dropWhile (· ≠ slash)).tail.reverse

theorem parent_append_lastName {dir : Str} (h : slash ∈ dir) :
    parent dir ++ slash :: lastName dir = dir := by
  have hsplit := List.takeWhile_append_dropWhile (p := (· ≠ slash)) (l := dir.reverse)
  obtain ⟨c, rest, hrest⟩ : ∃ c rest, dir.reverse.dropWhile (· ≠ slash) = c :: rest := by
    apply List.exists_cons_of_ne_nil
    rw [ne_eq, List.dropWhile_eq_nil_iff]
    intro hall
    simpa using hall slash (by simpa using h)
  obtain rfl : c = slash := by
    have hhead := List.head?_dropWhile_not (· ≠ slash) dir.reverse
    rw [hrest] at hhead
    simpa using hhead
  rw [parent, lastName, hrest, List.tail_cons]
  rw [hrest] at hsplit
  have hdir := congrArg List.reverse hsplit
  simpa using hdir

theorem slash_notMem_lastName (dir : Str) : slash ∉ lastName dir := by
  intro h
  rw [lastName, List.mem_reverse] at h
  simpa using List.mem_takeWhile_imp h

/-- The moves a requested path makes from the root directory. Without a `/` between the two, the last
name of the directory and the first of the path are glued into one: up, and down into that one. -/
def pathMoves (root_dir path : Str) : List (Move Str) :=
  if path.head? = some slash ∨ root_dir.getLast? = some slash ∨ path = [] then components path
  else back (place (parent root_dir)) (toMove (lastName root_dir)) ++
    components (lastName root_dir ++ path)

theorem place_append {root_dir : Str} (habs : root_dir.head? = some slash) (path : Str) :
    place (root_dir ++ path) = walk (place root_dir) (pathMoves root_dir path) := by
  rw [pathMoves]
  split_ifs with h
  · rcases h with h | h | rfl
    · obtain ⟨p, rfl⟩ := List.head?_eq_some_iff.mp h
      have hstay : components (slash :: p) = .stay :: components p :=
        components_append_slash [] p
      rw [place_append_slash, hstay]
      rfl
    · obtain ⟨r, rfl⟩ := List.getLast?_eq_some_iff.mp h
      rw [List.append_assoc, List.singleton_append, place_append_slash, place_append_slash]
      rfl
    · rw [List.append_nil]
      rfl
  · have hmem : slash ∈ root_dir := List.mem_of_mem_head? habs
    have hroot : place root_dir = go (place (parent root_dir)) (toMove (lastName root_dir)) := by
      conv_lhs => rw [← parent_append_lastName hmem]
      rw [place_append_slash, components_of_notMem (slash_notMem_lastName root_dir)]
      rfl
    conv_lhs => rw [← parent_append_lastName hmem]
    rw [List.append_assoc, List.cons_append, place_append_slash, walk_append, hroot, walk_back]

/-- The path enters again all the directories of `root_dir` it climbs out of. -/
def StaysInside (root_dir path : Str) : Prop :=
  (place root_dir).take (climb (pathMoves root_dir path)).ups <:+ (climb (pathMoves root_dir path)).downs

instance (root_dir path : Str) : Decidable (StaysInside root_dir path) :=
  inferInstanceAs (Decidable (_ <:+ _))

theorem inside_append_iff {root_dir : Str} (habs : root_dir.head? = some slash) (path : Str) :
    Inside root_dir (root_dir ++ path) ↔ StaysInside root_dir path := by
  rw [Inside, List.reverse_prefix, place_append habs, suffix_walk_iff, StaysInside]

theorem staysInside_name (root_dir : Str) {name : Str} (h : slash ∉ name) (hup : toMove name ≠ .up) :
    StaysInside root_dir (slash :: name) := by
  have hmoves : pathMoves root_dir (slash :: name) = [.stay, toMove name] := by
    rw [pathMoves, if_pos (.inl rfl), ← List.nil_append (slash :: name), components_append_slash,
      components_of_notMem h]
    rfl
  rw [StaysInside, hmoves]
  cases hm : toMove name with
  | stay => simp [climb, Climb.step]
  | up => exact absurd hm hup
  | down name => simp [climb, Climb.step]

/-! ## The requested path -/

/-- The request target of a text, up to the first `?`. -/
def requestedPath (text : Str) : Str :=
  match (Delim.split (lit " ") ((Delim.split crlf text).headD []))[1]? with
  | some target => target.takeWhile (· ≠ qmark)
  | none => []

theorem path_of_parses {text : Str} {r : Request} (h : Parses text r) : r.path = requestedPath text := by
  obtain ⟨line, target, proto, method, hline, htarget, hpath, -⟩ := parses_iff.mp h
  rw [strsplit_eq] at hline htarget
  have hfirst : (Delim.split crlf text).headD [] = line := by
    rw [List.headD_eq_head?_getD, List.head?_eq_getElem?, getElem?_of_str hline]
    rfl
  rw [requestedPath, hfirst, getElem?_of_str htarget]
  exact (parseTarget_iff.mp hpath).2.1

theorem routeClient_congr {tree tree' : FileTree} {r : Request} {root_dir : Str}
    (h : decodeMethod r.info = 1 →
      tree (resourcePath root_dir r.path) = tree' (resourcePath root_dir r.path))
    (worker : Conn) (rounds : Nat) :
    routeClient worker tree r root_dir rounds = routeClient worker tree' r root_dir rounds := by
  by_cases hget : decodeMethod r.info = 1
  · simp only [routeClient, routeGet, readFile, h hget]
  · simp only [routeClient, if_neg hget]

theorem resource_inside_iff {text root_dir : Str} {r : Request} (habs : root_dir.head? = some slash)
    (h : Parses text r) :
    Inside root_dir (resourcePath root_dir r.path) ↔ StaysInside root_dir (requestedPath text) := by
  rw [resourcePath, path_of_parses h, inside_append_iff habs]
  split_ifs with hindex
  · -- `/index.html` and `/` both stay inside
    have hname : StaysInside root_dir (lit "/index.html") :=
      staysInside_name root_dir (show slash ∉ lit "index.html" by decide) (by decide)
    have hroot : StaysInside root_dir (lit "/") :=
      staysInside_name root_dir (show slash ∉ [] by decide) (by decide)
    rw [hindex]
    exact iff_of_true hname hroot
  · rfl

/-- **When a GET is kept inside the root directory**: its path enters again whatever it climbs out of. -/
theorem get_inside_iff (text root_dir : Str) (habs : root_dir.head? = some slash) :
    (∀ r, Parses text r → decodeMethod r.info = 1 →
        Inside root_dir (resourcePath root_dir r.path)) ↔
      ((∃ r, Parses text r ∧ decodeMethod r.info = 1) →
        StaysInside root_dir (requestedPath text)) := by
  constructor
  · rintro hinside ⟨r, hr, hget⟩
    exact (resource_inside_iff habs hr).mp (hinside r hr hget)
  · intro hstays r hr hget
    exact (resource_inside_iff habs hr).mpr (hstays ⟨r, hr, hget⟩)

theorem get_inside_iff_srv :
    (lit "/srv").head? = some slash ∧
      ((∀ r, Parses (lit "GET /a/../b HTTP/1.0\r\n\r\n") r → decodeMethod r.info = 1 →
          Inside (lit "/srv") (resourcePath (lit "/srv") r.path)) ↔
        ((∃ r, Parses (lit "GET /a/../b HTTP/1.0\r\n\r\n") r ∧ decodeMethod r.info = 1) →
          StaysInside (lit "/srv") (requestedPath (lit "GET /a/../b HTTP/1.0\r\n\r\n")))) :=
  ⟨by decide, get_inside_iff _ _ (by decide)⟩

/-- A path with `..` in front leads out of the root directory. -/
theorem dotdot_escapes :
    ¬ ∀ text root_dir : Str, root_dir.head? = some slash → ∀ r, Parses text r →
      decodeMethod r.info = 1 → Inside root_dir (resourcePath root_dir r.path) := by
  intro hall
  obtain ⟨r, hr, hpath, hinfo⟩ := exists_parses_line (lit "GET") (lit "/../etc/passwd") (lit "HTTP/1.0")
    (by decide) (by decide) (by decide) (by decide)
  have hget : decodeMethod r.info = 1 := by
    rw [hinfo]
    decide
  have hinside := hall _ (lit "/srv") (by decide) r hr hget
  rw [hpath] at hinside
  exact absurd hinside (by decide)

end PwdManLib
