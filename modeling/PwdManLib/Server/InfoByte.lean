import PwdManLib.Lib.Registers
import PwdManLib.Server.RequestLine

/-!
# The info byte as three registers

Bits 0-1, 2-3 and 4-7 of the info byte belong to `encodeReqmts`, `encodeProto` and `encodeMethod`. Each
encoder masks its own bits out and leaves the others alone, so the byte is a `RegisterFile` with three
registers (`infoByte`), whatever it starts from and in whatever order the encoders are called.
-/

namespace PwdManLib

/-- The fields of the info byte. -/
inductive Field where
  | proto
  | method
  | reqmts
  deriving DecidableEq, Repr

/-- The bits of a field, as the decoders read them. -/
def Field.bits : Field → UInt8 → UInt8
  | proto, info => (info >>> 2) &&& 3
  | method, info => info >>> 4
  | reqmts, info => info &&& 3

/-- Where a field is in the byte. -/
def Field.mask : Field → UInt8
  | proto => 12
  | method => 240
  | reqmts => 3

/-- A call of an encoder. -/
inductive EncodeCall where
  | proto (proto : Str)
  | method (method : Str)
  | reqmts
  deriving DecidableEq, Repr

namespace EncodeCall

/-- The field a call sets. -/
def field : EncodeCall → Field
  | proto _ => .proto
  | method _ => .method
  | reqmts => .reqmts

/-- The byte after a call. -/
def encode (info : UInt8) : EncodeCall → UInt8
  | proto p => encodeProto p info
  | method m => encodeMethod m info
  | reqmts => encodeReqmts info

/-- What a call sets its field to. -/
def value : EncodeCall → UInt8 → UInt8
  | proto p, _ => UInt8.ofNat (protoCode p)
  | method m, _ => UInt8.ofNat (methodCode m)
  | reqmts, info => if decodeProto info ≠ -1 ∧ decodeMethod info ≠ -1 then 1 else 0

end EncodeCall

/-! ## The bits of a field -/

theorem Field.bits_of_mask {f : Field} {a b : UInt8} (h : a &&& f.mask = b &&& f.mask) :
    f.bits a = f.bits b := by
  have hproto (a : UInt8) : (a >>> 2) &&& (3 : UInt8) = (a &&& (12 : UInt8)) >>> 2 := by
    rw [UInt8.shiftRight_and]
    rfl
  have hmethod (a : UInt8) : a >>> 4 = (a &&& (240 : UInt8)) >>> 4 := by
    have hlt := a.toNat_lt
    apply UInt8.toNat_inj.mp
    rw [UInt8.shiftRight_and, UInt8.toNat_and, UInt8.toNat_shiftRight]
    show a.toNat >>> 4 = a.toNat >>> 4 &&& (2 ^ 4 - 1)
    rw [Nat.and_two_pow_sub_one_eq_mod, Nat.shiftRight_eq_div_pow]
    omega
  cases f with
  | proto => rw [bits, bits, hproto a, hproto b, show a &&& 12 = b &&& 12 from h]
  | method => rw [bits, bits, hmethod a, hmethod b, show a &&& 240 = b &&& 240 from h]
  | reqmts => exact h

theorem bits_masked (f g : Field) (info x : UInt8) :
    g.bits ((info &&& ~~~f.mask) ||| (x &&& ~~~(~~~f.mask))) = if g = f then f.bits x else g.bits info := by
  by_cases hg : g = f
  · rw [if_pos hg, hg]
    apply Field.bits_of_mask
    have hset := MaskedByte.masked_sets info x (~~~f.mask)
    rwa [UInt8.not_not] at hset ⊢
  · rw [if_neg hg]
    apply Field.bits_of_mask
    apply MaskedByte.masked_keeps
    cases f <;> cases g <;> first | rfl | exact absurd rfl hg

/-! ## The decoders -/

theorem decodeProto_of_bits {info : UInt8} {n : Nat} (hn : n < 4)
    (h : Field.proto.bits info = UInt8.ofNat n) : decodeProto info = codeOr n := by
  rw [decodeProto, show (info >>> 2) &&& 3 = UInt8.ofNat n from h]
  clear h
  revert n
  decide

theorem decodeMethod_of_bits {info : UInt8} {n : Nat} (hn : n < 9)
    (h : Field.method.bits info = UInt8.ofNat n) : decodeMethod info = codeOr n := by
  rw [decodeMethod, show info >>> 4 = UInt8.ofNat n from h]
  clear h
  revert n
  decide

theorem decodeReqmts_of_bits {info : UInt8} {c : Prop} [Decidable c]
    (h : Field.reqmts.bits info = if c then 1 else 0) : decodeReqmts info = if c then 1 else -1 := by
  rw [decodeReqmts, show info &&& 3 = if c then 1 else 0 from h]
  split_ifs with hc hbit hbit
  · rfl
  · exact absurd rfl hbit
  · exact absurd hbit (by decide)
  · rfl

theorem decode_congr {a b : UInt8} :
    (Field.proto.bits a = Field.proto.bits b → decodeProto a = decodeProto b) ∧
      (Field.method.bits a = Field.method.bits b → decodeMethod a = decodeMethod b) ∧
      (Field.reqmts.bits a = Field.reqmts.bits b → decodeReqmts a = decodeReqmts b) := by
  refine ⟨fun h => ?_, fun h => ?_, fun h => ?_⟩
  · change (a >>> 2) &&& (3 : UInt8) = (b >>> 2) &&& (3 : UInt8) at h
    rw [decodeProto, h]
    rfl
  · change a >>> 4 = b >>> 4 at h
    rw [decodeMethod, h]
    rfl
  · change a &&& (3 : UInt8) = b &&& (3 : UInt8) at h
    rw [decodeReqmts, h]
    rfl

/-- The number of values a field can hold. -/
def Field.size : Field → Nat
  | proto => 4
  | method => 16
  | reqmts => 4

theorem Field.bits_lt (f : Field) (info : UInt8) : (f.bits info).toNat < f.size := by
  have hlt := info.toNat_lt
  have hand (a b : UInt8) : (a &&& b).toNat ≤ b.toNat := by
    rw [UInt8.toNat_and]
    exact Nat.and_le_right
  cases f with
  | proto => exact (hand _ 3).trans_lt (by decide)
  | method =>
    rw [bits, size, UInt8.toNat_shiftRight]
    show info.toNat >>> 4 < 16
    rw [Nat.shiftRight_eq_div_pow]
    omega
  | reqmts => exact (hand _ 3).trans_lt (by decide)

theorem decodeProto_ne_iff (info : UInt8) : decodeProto info ≠ -1 ↔ (info >>> 2) &&& 3 ≠ 0 := by
  have hlt := Field.proto.bits_lt info
  rw [decodeProto, show (info >>> 2) &&& 3 = UInt8.ofNat (Field.proto.bits info).toNat from
    UInt8.ofNat_toNat.symm]
  generalize (Field.proto.bits info).toNat = n at hlt
  revert n
  decide

theorem decodeMethod_ne_iff (info : UInt8) :
    decodeMethod info ≠ -1 ↔ info >>> 4 ≠ 0 ∧ info >>> 4 < 9 := by
  have hlt := Field.method.bits_lt info
  rw [decodeMethod, show info >>> 4 = UInt8.ofNat (Field.method.bits info).toNat from
    UInt8.ofNat_toNat.symm]
  generalize (Field.method.bits info).toNat = n at hlt
  revert n
  decide

/-! ## The byte as a register file -/

/-- **Every encoder sets its own field and leaves the others alone.** -/
theorem bits_encode (info : UInt8) (c : EncodeCall) (f : Field) :
    f.bits (c.encode info) = if f = c.field then c.value info else f.bits info := by
  cases c with
  | proto p =>
    have hcode : Field.proto.bits (UInt8.ofNat (protoCode p) <<< 2) = UInt8.ofNat (protoCode p) := by
      have hlt := protoCode_lt p
      generalize protoCode p = n at hlt
      revert n
      decide
    exact (bits_masked .proto f info _).trans (by rw [hcode]; rfl)
  | method m =>
    have hcode : Field.method.bits (UInt8.ofNat (methodCode m) <<< 4) = UInt8.ofNat (methodCode m) := by
      have hlt := methodCode_lt m
      generalize methodCode m = n at hlt
      revert n
      decide
    exact (bits_masked .method f info _).trans (by rw [hcode]; rfl)
  | reqmts =>
    have hset (c : Prop) [Decidable c] : Field.reqmts.bits (if c then 1 else 0) = if c then 1 else 0 := by
      split_ifs <;> rfl
    apply (bits_masked .reqmts f info _).trans
    rw [hset]
    simp only [EncodeCall.field, EncodeCall.value, decodeProto_ne_iff, decodeMethod_ne_iff]

/-- The info byte with its three fields. -/
def infoByte : RegisterFile UInt8 EncodeCall Field UInt8 where
  step := EncodeCall.encode
  get := Field.bits
  target := EncodeCall.field
  value := EncodeCall.value
  get_target info c := by rw [bits_encode, if_pos rfl]
  get_other info c f hf := by rw [bits_encode, if_neg hf]

/-! ## Runs -/

/-- The supported methods, in the order of their codes. -/
def methods : List Str :=
  [Method.get, .head, .post, .put, .delete, .connect, .options, .trace].map Method.text

/-- The code of a supported name, from 1 on, or -1. -/
def codeIn (names : List Str) (name : Str) : Int :=
  match names.findIdx? fun n => n == name with
  | some i => i + 1
  | none => -1

theorem codeIn_of_notMem {names : List Str} {name : Str} (h : name ∉ names) : codeIn names name = -1 := by
  have hnone : (names.findIdx? fun n => n == name) = none := by
    rw [List.findIdx?_eq_none_iff]
    intro n hn
    rw [beq_eq_false_iff_ne]
    rintro rfl
    exact h hn
  rw [codeIn, hnone]

theorem mem_methods_iff (m : Str) : m ∈ methods ↔ methodCode m ≠ 0 := by
  rw [methodCode_ne_zero_iff]
  constructor
  · intro h
    obtain ⟨x, -, hx⟩ := List.mem_map.mp h
    exact ⟨x, hx.symm⟩
  · rintro ⟨x, rfl⟩
    apply List.mem_map_of_mem
    cases x <;> decide

theorem codeOr_protoCode (p : Str) : codeOr (protoCode p) = codeIn protocols p := by
  by_cases hp : p ∈ protocols
  · revert p
    decide
  · have hzero : protoCode p = 0 := by
      by_contra hne
      exact hp ((protoCode_ne_zero_iff p).mp hne)
    rw [hzero, codeIn_of_notMem hp]
    rfl

theorem codeOr_methodCode (m : Str) : codeOr (methodCode m) = codeIn methods m := by
  by_cases hm : m ∈ methods
  · revert m
    decide
  · have hzero : methodCode m = 0 := by
      by_contra hne
      exact hm ((mem_methods_iff m).mpr hne)
    rw [hzero, codeIn_of_notMem hm]
    rfl

/-- The byte after some calls. -/
def encodeAll (info : UInt8) (calls : List EncodeCall) : UInt8 := calls.foldl EncodeCall.encode info

/-- What the decoders find after some calls: every field is as its own encoder left it last, or as it was. -/
structure InfoRegisters (info : UInt8) (calls : List EncodeCall) : Prop where
  proto_last : ∀ pre p post, calls = pre ++ .proto p :: post → (∀ c ∈ post, c.field ≠ .proto) →
    decodeProto (encodeAll info calls) = codeIn protocols p
  proto_initial : (∀ c ∈ calls, c.field ≠ .proto) →
    decodeProto (encodeAll info calls) = decodeProto info
  method_last : ∀ pre m post, calls = pre ++ .method m :: post → (∀ c ∈ post, c.field ≠ .method) →
    decodeMethod (encodeAll info calls) = codeIn methods m
  method_initial : (∀ c ∈ calls, c.field ≠ .method) →
    decodeMethod (encodeAll info calls) = decodeMethod info
  reqmts_last : ∀ pre post, calls = pre ++ .reqmts :: post → (∀ c ∈ post, c.field ≠ .reqmts) →
    decodeReqmts (encodeAll info calls) =
      if decodeProto (encodeAll info pre) ≠ -1 ∧ decodeMethod (encodeAll info pre) ≠ -1 then 1 else -1
  reqmts_initial : (∀ c ∈ calls, c.field ≠ .reqmts) →
    decodeReqmts (encodeAll info calls) = decodeReqmts info
  undisturbed : ∀ pre c post, calls = pre ++ c :: post → ∀ f ≠ c.field,
    f.bits (encodeAll info (pre ++ [c])) = f.bits (encodeAll info pre)

/-- **The info byte is three independent registers.** -/
theorem info_registers (info : UInt8) (calls : List EncodeCall) : InfoRegisters info calls where
  proto_last pre p post hcalls hpost := by
    have hbits := infoByte.get_run_last info pre (.proto p) hpost
    rw [← codeOr_protoCode]
    subst hcalls
    exact decodeProto_of_bits (protoCode_lt p) hbits
  proto_initial h := decode_congr.1 (infoByte.get_run_of_untouched h info)
  method_last pre m post hcalls hpost := by
    have hbits := infoByte.get_run_last info pre (.method m) hpost
    rw [← codeOr_methodCode]
    subst hcalls
    exact decodeMethod_of_bits (methodCode_lt m) hbits
  method_initial h := decode_congr.2.1 (infoByte.get_run_of_untouched h info)
  reqmts_last pre post hcalls hpost := by
    have hbits := infoByte.get_run_last info pre .reqmts hpost
    subst hcalls
    exact decodeReqmts_of_bits hbits
  reqmts_initial h := decode_congr.2.2 (infoByte.get_run_of_untouched h info)
  undisturbed pre c post _ f hf := by
    show infoByte.get f (infoByte.run info (pre ++ [c])) = _
    rw [RegisterFile.run_append]
    exact infoByte.get_other _ c f hf

end PwdManLib
