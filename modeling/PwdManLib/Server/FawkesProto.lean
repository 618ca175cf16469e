import PwdManLib.Util.StringOps

/-!
# The information byte of `server/fawkes_proto.h`

Bits 0-1 say whether the requirements are met, bits 2-3 hold the protocol, bits 4-7 the method. The
`strncmp` calls compare a literal together with its terminating NUL, which is equality of strings.
-/

namespace PwdManLib

/-- The supported methods. -/
inductive Method where
  | get | head | post | put | delete | connect | options | trace
  deriving DecidableEq, Repr

namespace Method

def text : Method → Str
  | get => lit "GET"
  | head => lit "HEAD"
  | post => lit "POST"
  | put => lit "PUT"
  | delete => lit "DELETE"
  | connect => lit "CONNECT"
  | options => lit "OPTIONS"
  | trace => lit "TRACE"

def code : Method → Nat
  | get => 1
  | head => 2
  | post => 3
  | put => 4
  | delete => 5
  | connect => 6
  | options => 7
  | trace => 8

end Method

/-! ## Encoding -/

/-- The `x` of `encodeProto`. -/
def protoCode (proto : Str) : Nat :=
  if proto = lit "HTTP/1.0" then 1
  else if proto = lit "HTTP/1.1" then 2
  else if proto = lit "HTTP/2.0" then 3
  else 0

/-- The `x` of `encodeMethod`; a missing and an unsupported method differ in what is printed only. -/
def methodCode (method : Str) : Nat :=
  if method = lit "GET" then 1
  else if method = lit "HEAD" then 2
  else if method = lit "POST" then 3
  else if method = lit "PUT" then 4
  else if method = lit "DELETE" then 5
  else if method = lit "CONNECT" then 6
  else if method = lit "OPTIONS" then 7
  else if method = lit "TRACE" then 8
  else 0

/-- `info = (info & 243) | ((x << 2) & ~243)`. -/
def encodeProto (proto : Str) (info : UInt8) : UInt8 :=
  let x := UInt8.ofNat (protoCode proto)
  (info &&& 243) ||| ((x <<< (2 : UInt8)) &&& ~~~(243 : UInt8))

/-- `info = (info & 15) | ((x << 4) & ~15)`. -/
def encodeMethod (method : Str) (info : UInt8) : UInt8 :=
  let x := UInt8.ofNat (methodCode method)
  (info &&& 15) ||| ((x <<< (4 : UInt8)) &&& ~~~(15 : UInt8))

/-- `info = (info & 252) | (x & ~252)`, with `x` set when both fields hold a supported value. -/
def encodeReqmts (info : UInt8) : UInt8 :=
  let x : UInt8 := if (info >>> 2) &&& 3 ≠ 0 ∧ info >>> 4 ≠ 0 ∧ info >>> 4 < 9 then 1 else 0
  (info &&& 252) ||| (x &&& ~~~(252 : UInt8))

/-! ## Decoding -/

def decodeProto (info : UInt8) : Int :=
  if (info >>> 2) &&& 3 = 1 then 1
  else if (info >>> 2) &&& 3 = 2 then 2
  else if (info >>> 2) &&& 3 = 3 then 3
  else -1

def decodeMethod (info : UInt8) : Int :=
  if info >>> 4 = 1 then 1
  else if info >>> 4 = 2 then 2
  else if info >>> 4 = 3 then 3
  else if info >>> 4 = 4 then 4
  else if info >>> 4 = 5 then 5
  else if info >>> 4 = 6 then 6
  else if info >>> 4 = 7 then 7
  else if info >>> 4 = 8 then 8
  else -1

def decodeReqmts (info : UInt8) : Int :=
  if info &&& 3 = 1 then 1 else -1

/-! ## The byte `parseRequest` builds -/

/-- The three encoders in the order `parseRequest` calls them, from a zero byte. -/
def requestInfo (proto method : Str) : UInt8 :=
  encodeReqmts (encodeMethod method (encodeProto proto 0))

theorem protoCode_lt (proto : Str) : protoCode proto < 4 := by
  rw [protoCode]
  split_ifs <;> decide

theorem methodCode_lt (method : Str) : methodCode method < 9 := by
  rw [methodCode]
  split_ifs <;> decide

theorem methodCode_text (m : Method) : methodCode m.text = m.code := by
  cases m <;> decide

/-- What a decoder returns for a code: the code itself, or -1 for 0. -/
def codeOr (n : Nat) : Int := if n = 0 then -1 else n

private theorem decode_fields (x : Fin 4) (y : Fin 9) :
    let proto : UInt8 := (0 &&& 243) ||| ((UInt8.ofNat x <<< (2 : UInt8)) &&& ~~~(243 : UInt8))
    let info := encodeReqmts ((proto &&& 15) |||
      ((UInt8.ofNat y <<< (4 : UInt8)) &&& ~~~(15 : UInt8)))
    decodeProto info = codeOr x ∧ decodeMethod info = codeOr y ∧
      decodeReqmts info = if x.val = 0 ∨ y.val = 0 then -1 else 1 := by
  decide +revert

theorem decodeProto_requestInfo (proto method : Str) :
    decodeProto (requestInfo proto method) = codeOr (protoCode proto) :=
  (decode_fields ⟨_, protoCode_lt proto⟩ ⟨_, methodCode_lt method⟩).1

theorem decodeMethod_requestInfo (proto method : Str) :
    decodeMethod (requestInfo proto method) = codeOr (methodCode method) :=
  (decode_fields ⟨_, protoCode_lt proto⟩ ⟨_, methodCode_lt method⟩).2.1

theorem decodeMethod_requestInfo_eq_one_iff (proto method : Str) :
    decodeMethod (requestInfo proto method) = 1 ↔ method = lit "GET" := by
  rw [decodeMethod_requestInfo]
  constructor
  · intro h
    rw [methodCode] at h
    split_ifs at h with hget
    · exact hget
    all_goals simp [codeOr] at h
  · rintro rfl
    rfl

theorem decodeReqmts_requestInfo (proto method : Str) :
    decodeReqmts (requestInfo proto method) =
      if protoCode proto = 0 ∨ methodCode method = 0 then -1 else 1 :=
  (decode_fields ⟨_, protoCode_lt proto⟩ ⟨_, methodCode_lt method⟩).2.2

end PwdManLib
