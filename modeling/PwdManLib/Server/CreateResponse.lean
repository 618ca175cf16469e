import PwdManLib.Lib.Block
import PwdManLib.Lib.Format
import PwdManLib.Util.StringOps

/-!
# Responses from templates

`createReponse` of `server/response.h` writes a template with its argument into a block that is as long as
both together: the two characters of `%s` are the room for the NUL (`createReponse_eq`). `snprintf` is
`Format.render` cut off at its size, stored into the block.
-/

namespace PwdManLib

open Exec

/-! ## The code -/

/-- `snprintf` with strings for arguments: what does not fit in `n - 1` characters is left out. -/
def snprintf (str : Block UInt8) (n : Nat) (format : Str) (args : List Str) : Exec (Block UInt8) :=
  match Format.render 37 115 format args with
  | none => fault
  | some text => if n = 0 then done str else str.storeAll 0 (text.take (n - 1) ++ [0])

/-- The block that is returned. -/
def createReponse (resp_template arg : Str) : Exec (Block UInt8) :=
  let len := resp_template.length + arg.length
  let resp := Block.malloc len
  snprintf resp len resp_template [arg]

/-- `*len` behind the pointer that is returned. -/
def getResponseLen (response : Str) : Int := toInt response.length

def not_found_response_template : Str :=
  lit ("HTTP/1.0 404 Not Found\r\n" ++
    "Content-type: text/html\r\n" ++
    "\r\n" ++
    "<html>\r\n" ++
    " <body>\r\n" ++
    "  <h1>Not Found</h1>\r\n" ++
    "  <p>The requested URL %s was not found on this server.</p>\r\n" ++
    " </body>\r\n" ++
    "</html>\r\n")

def server_error_response_template : Str :=
  lit ("HTTP/1.0 500 Internal Server Error\r\n" ++
    "Content-type: text/html\r\n" ++
    "\r\n" ++
    "<html>\r\n" ++
    " <body>\r\n" ++
    "  <h1>Internal Server Error</h1>\r\n" ++
    "  <p>The server encountered an error and cannot process your request.</p>\r\n" ++
    "  <p>Error: %s.\r\n</p>" ++
    " </body>\r\n" ++
    "</html>\r\n")

def bad_method_response_template : Str :=
  lit ("HTTP/1.0 501 Method Not Implemented\r\n" ++
    "Content-type: text/html\r\n" ++
    "\r\n" ++
    "<html>\r\n" ++
    " <body>\r\n" ++
    "  <h1>Method Not Implemented</h1>\r\n" ++
    "  <p>The method %s is not implemented by this server.</p>\r\n" ++
    " </body>\r\n" ++
    "</html>\r\n")

/-! ## Templates -/

/-- A text with one `%s` and no other `%`, cut there. -/
structure Template where
  pre : Str
  post : Str
  pre_plain : 37 ∉ pre
  post_plain : 37 ∉ post

namespace Template

def text (t : Template) : Str := t.pre ++ lit "%s" ++ t.post

/-- The argument in the place of `%s`. -/
def fill (t : Template) (arg : Str) : Str := t.pre ++ arg ++ t.post

theorem length_fill (t : Template) (arg : Str) : (t.fill arg).length + 2 = t.text.length + arg.length := by
  have hconv : (lit "%s").length = 2 := by decide
  simp only [fill, text, List.length_append, hconv]
  omega

theorem render_text (t : Template) (arg : Str) : Format.render 37 115 t.text [arg] = some (t.fill arg) := by
  have h : Format.render 37 115 (Format.spell 37 115 t.pre ([(t.post, arg)].map Prod.fst))
      ([(t.post, arg)].map Prod.snd) = _ :=
    Format.render_pieces (by decide) t.pre_plain (by simpa using t.post_plain)
  simpa [Format.spell, text, fill, lit] using h

theorem exists_text_eq_iff {s : Str} : (∃ t : Template, t.text = s) ↔ s.count 37 = 1 ∧ lit "%s" <:+: s := by
  have hcount (pre post : Str) :
      (pre ++ lit "%s" ++ post).count 37 = 1 ↔ pre.count 37 = 0 ∧ post.count 37 = 0 := by
    have hconv : (lit "%s").count 37 = 1 := by decide
    rw [List.count_append, List.count_append, hconv]
    omega
  constructor
  · intro h
    obtain ⟨t, rfl⟩ := h
    have hpre := List.count_eq_zero.mpr t.pre_plain
    have hpost := List.count_eq_zero.mpr t.post_plain
    exact ⟨(hcount t.pre t.post).mpr ⟨hpre, hpost⟩, t.pre, t.post, rfl⟩
  · intro h
    obtain ⟨hone, pre, post, rfl⟩ := h
    obtain ⟨hpre, hpost⟩ := (hcount pre post).mp hone
    exact ⟨⟨pre, post, List.count_eq_zero.mp hpre, List.count_eq_zero.mp hpost⟩, rfl⟩

theorem exists_text_eq {s : Str} (h : s.count 37 = 1 ∧ lit "%s" <+: s.dropWhile (· ≠ 37)) :
    ∃ t : Template, t.text = s :=
  exists_text_eq_iff.mpr ⟨h.1, h.2.isInfix.trans (List.dropWhile_suffix _).isInfix⟩

theorem exists_text_eq_of_mem {s : Str}
    (h : s ∈ [not_found_response_template, server_error_response_template, bad_method_response_template]) :
    ∃ t : Template, t.text = s := by
  apply exists_text_eq
  simp only [List.mem_cons, List.not_mem_nil, or_false] at h
  rcases h with h | h | h
  · rw [h, not_found_response_template]
    simp only [lit_append]
    decide +kernel
  · rw [h, server_error_response_template]
    simp only [lit_append]
    decide +kernel
  · rw [h, bad_method_response_template]
    simp only [lit_append]
    decide +kernel

end Template

/-! ## The response -/

theorem snprintf_of_fits {n : Nat} {format text : Str} {args : List Str}
    (htext : Format.render 37 115 format args = some text) (hfits : text.length < n) :
    snprintf (Block.malloc n) n format args =
      done (Block.ofList (text ++ [0]) ++ Block.malloc (n - (text.length + 1))) := by
  have hn : n ≠ 0 := by omega
  have hall : text.take (n - 1) = text := List.take_of_length_le (by omega)
  have hroom : (text ++ [0]).length ≤ n := by simpa using Nat.succ_le_of_lt hfits
  have hstores := Block.storeAll_malloc hroom
  rw [List.length_append, List.length_singleton] at hstores
  simp only [snprintf, htext, if_neg hn, hall, hstores]

theorem createReponse_eq (t : Template) (arg : Str) :
    createReponse t.text arg = done (Block.ofList (t.fill arg ++ [0]) ++ [none]) := by
  have hlength := t.length_fill arg
  have hspare : t.text.length + arg.length - ((t.fill arg).length + 1) = 1 := by omega
  rw [createReponse, snprintf_of_fits (t.render_text arg) (by omega), hspare]
  rfl

/-- The argument is not a format string. -/
example : createReponse (lit "<%s>") (lit "%d") = done ((lit "<%d>").map some ++ [some 0, none]) := by decide

theorem getResponseLen_createReponse (t : Template) (arg : Str) (htext : 0 ∉ t.text) (harg : 0 ∉ arg) :
    (createReponse t.text arg >>= fun resp => getResponseLen <$> resp.upTo 0) =
      done (toInt (t.text.length + arg.length - 2)) := by
  have hfill : 0 ∉ t.fill arg := by
    simp only [Template.text, Template.fill, List.mem_append, not_or] at htext ⊢
    exact ⟨⟨htext.1.1, harg⟩, htext.2⟩
  have hlength := t.length_fill arg
  have hfilled : (t.fill arg).length = t.text.length + arg.length - 2 := by omega
  rw [createReponse_eq, done_bind, Block.upTo_ofList hfill, map_done, getResponseLen, hfilled]

end PwdManLib
