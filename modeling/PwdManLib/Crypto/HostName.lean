import PwdManLib.Lib.Verdict
import PwdManLib.Util.StringOps

/-!
# Validating a host name

`validate_hostname` of `validation/openssl_validation.h`. A certificate is seen as OpenSSL hands it out: the
entries of its subject, and the names of its subject alternative name extension. The extension decides alone
when it is there, even without a DNS name in it; otherwise the first common name does. What is accepted is the
host name, up to case and to the last byte (`validateHostname_eq_matchFound_iff`), so a NUL in a name hides
nothing. The order of the names matters only to a certificate with a good name and a malformed one
(`validateHostname_perm_iff`).
-/

namespace PwdManLib

/-! ## `strcasecmp` -/

/-- `tolower` in the C locale. -/
def tolower (c : UInt8) : UInt8 := if 65 ≤ c ∧ c ≤ 90 then c + 32 else c

/-- `strcasecmp`: the difference of the first two bytes that differ, with the NUL at the end. -/
def strcasecmp : Str → Str → Int
  | [], [] => 0
  | [], d :: _ => -((tolower d).toNat : Int)
  | c :: _, [] => (tolower c).toNat
  | c :: s, d :: t => if tolower c = tolower d then strcasecmp s t else (tolower c).toNat - (tolower d).toNat

theorem tolower_eq_zero_iff (c : UInt8) : tolower c = 0 ↔ c = 0 := by
  rw [tolower]
  split_ifs with hupper
  · have hlow : 65 ≤ c.toNat := UInt8.le_iff_toNat_le.mp hupper.1
    have hhigh : c.toNat ≤ 90 := UInt8.le_iff_toNat_le.mp hupper.2
    rw [← UInt8.toNat_inj, ← UInt8.toNat_inj, UInt8.toNat_add]
    simp only [UInt8.reduceToNat]
    omega
  · rfl

theorem strcasecmp_eq_zero_iff {s t : Str} (hs : 0 ∉ s) (ht : 0 ∉ t) :
    strcasecmp s t = 0 ↔ s.map tolower = t.map tolower := by
  have hne {c : UInt8} {u : Str} (hu : 0 ∉ c :: u) : (tolower c).toNat ≠ 0 := by
    intro hzero
    have hc := (tolower_eq_zero_iff c).mp (UInt8.toNat_inj.mp hzero)
    exact hu (hc ▸ List.mem_cons_self)
  induction s generalizing t with
  | nil =>
    cases t with
    | nil => simp [strcasecmp]
    | cons d t =>
      have hd := hne ht
      simp [strcasecmp]
      omega
  | cons c s ih =>
    cases t with
    | nil =>
      have hc := hne hs
      simp [strcasecmp]
      omega
    | cons d t =>
      rw [strcasecmp, List.map_cons, List.map_cons, List.cons.injEq]
      split_ifs with heq
      · have hrest := ih (fun h => hs (List.mem_cons_of_mem c h)) (fun h => ht (List.mem_cons_of_mem d h))
        exact hrest.trans (and_iff_right heq).symm
      · have hdiff : (tolower c).toNat ≠ (tolower d).toNat := mt UInt8.toNat_inj.mp heq
        simp only [heq, false_and, iff_false]
        omega

/-! ## Certificates -/

/-- An entry of a subject: its kind, and the bytes of its `ASN1_STRING`. Behind the bytes of an `ASN1_STRING`
there is a NUL. -/
structure NameEntry where
  nid : Nat
  data : Option (List UInt8)

inductive GeneralName where
  | dNSName (name : List UInt8)
  | other

/-- A certificate, with NULL for a subject alternative name extension that cannot be had. -/
structure X509 where
  subject : List NameEntry
  subject_alt_name : Option (List GeneralName)

def NID_commonName : Nat := 13

/-- The first entry of the kind, or -1. -/
def X509_NAME_get_index_by_NID (name : List NameEntry) (nid : Nat) : Int :=
  match name.findIdx? fun entry => entry.nid = nid with
  | some i => i
  | none => -1

inductive HostnameValidationResult where
  | matchFound
  | matchNotFound
  | noSANPresent
  | malformedCertificate
  | error
  deriving DecidableEq, Repr

open HostnameValidationResult

/-! ## The code -/

/-- Try to find a match for the host name in the common name of the certificate. -/
def matchesCommonName (hostname : Str) (server_cert : X509) : HostnameValidationResult :=
  let common_name_loc := X509_NAME_get_index_by_NID server_cert.subject NID_commonName
  if common_name_loc < 0 then error
  else
    match server_cert.subject[common_name_loc.toNat]? with
    | none => error
    | some common_name_entry =>
      match common_name_entry.data with
      | none => error
      | some common_name =>
        if common_name.length ≠ (cstr common_name).length then malformedCertificate
        else if strcasecmp hostname (cstr common_name) = 0 then matchFound
        else matchNotFound

/-- One round of the loop over the names: what it ends with, if it does. -/
def checkName (hostname : Str) (current_name : GeneralName) : Option HostnameValidationResult :=
  match current_name with
  | .dNSName dns_name =>
    if dns_name.length ≠ (cstr dns_name).length then some malformedCertificate
    else if strcasecmp hostname (cstr dns_name) = 0 then some matchFound
    else none
  | .other => none

/-- Try to find a match for the host name in the subject alternative names of the certificate. -/
def matchesSubjectAlternativeName (hostname : Str) (server_cert : X509) : HostnameValidationResult :=
  match server_cert.subject_alt_name with
  | none => noSANPresent
  | some san_names => (san_names.findSome? (checkName hostname)).getD matchNotFound

def validateHostname (hostname : Option Str) (server_cert : Option X509) : HostnameValidationResult :=
  match hostname, server_cert with
  | some hostname, some server_cert =>
    let result := matchesSubjectAlternativeName hostname server_cert
    if result = noSANPresent then matchesCommonName hostname server_cert else result
  | _, _ => error

/-! ## What is accepted -/

/-- A host name as the code gets it: without NUL bytes. -/
abbrev HostName := { s : Str // 0 ∉ s }

/-- The bytes are those of the host name, up to case. -/
def HostName.Spelt (hostname : HostName) (name : List UInt8) : Prop :=
  name.map tolower = hostname.val.map tolower

variable (hostname : HostName)

theorem HostName.Spelt.zero_notMem {hostname : HostName} {name : List UInt8} (h : hostname.Spelt name) :
    0 ∉ name := by
  intro hmem
  have hzero : 0 ∈ name.map tolower := List.mem_map.mpr ⟨0, hmem, rfl⟩
  rw [h] at hzero
  obtain ⟨c, hc, hlower⟩ := List.mem_map.mp hzero
  exact hostname.property ((tolower_eq_zero_iff c).mp hlower ▸ hc)

instance (hostname : HostName) (name : List UInt8) : Decidable (hostname.Spelt name) :=
  inferInstanceAs (Decidable (_ = _))

theorem tests_eq {β : Type} (malformed found other : β) (name : List UInt8) :
    (if name.length ≠ (cstr name).length then malformed
      else if strcasecmp hostname.val (cstr name) = 0 then found
      else other) =
      if 0 ∈ name then malformed else if hostname.Spelt name then found else other := by
  have hlength : name.length ≠ (cstr name).length ↔ 0 ∈ name := by rw [Ne, length_cstr_eq_iff, not_not]
  simp only [hlength]
  by_cases hzero : 0 ∈ name
  · rw [if_pos hzero, if_pos hzero]
  · have hcompare : strcasecmp hostname.val (cstr name) = 0 ↔ hostname.Spelt name := by
      rw [strcasecmp_eq_zero_iff hostname.property (zero_notMem_cstr name), (cstr_eq_self_iff name).mpr hzero]
      exact eq_comm
    simp only [hcompare]

theorem checkName_eq_some_iff {current_name : GeneralName} {result : HostnameValidationResult} :
    checkName hostname.val current_name = some result ↔
      ∃ name, current_name = .dNSName name ∧
        (0 ∈ name ∧ result = malformedCertificate ∨ hostname.Spelt name ∧ result = matchFound) := by
  cases current_name with
  | other => simp [checkName]
  | dNSName name =>
    rw [checkName, tests_eq]
    by_cases hzero : 0 ∈ name
    · have hspelt : ¬ hostname.Spelt name := fun h => h.zero_notMem hzero
      simp [hzero, hspelt, eq_comm]
    · by_cases hspelt : hostname.Spelt name
      · simp [hzero, hspelt, eq_comm]
      · simp [hzero, hspelt]

/-- The certificate is for the host: one of its alternative names is the host's, with no malformed name in front
of it; or, without alternative names, its first common name is. -/
def X509.IsFor (cert : X509) (hostname : HostName) : Prop :=
  match cert.subject_alt_name with
  | some names =>
    ∃ before name after, names = before ++ .dNSName name :: after ∧ hostname.Spelt name ∧
      ∀ other, .dNSName other ∈ before → 0 ∉ other
  | none =>
    ∃ entry name, (cert.subject.find? fun entry => entry.nid = NID_commonName) = some entry ∧
      entry.data = some name ∧ hostname.Spelt name

theorem findSome?_checkName_iff {names : List GeneralName} :
    names.findSome? (checkName hostname.val) = some matchFound ↔
      ∃ before name after, names = before ++ .dNSName name :: after ∧ hostname.Spelt name ∧
        ∀ other, .dNSName other ∈ before → 0 ∉ other := by
  refine ⟨fun h => ?_, fun h => ?_⟩
  · obtain ⟨before, current_name, after, rfl, hcheck, hbefore⟩ := List.findSome?_eq_some_iff.mp h
    obtain ⟨name, rfl, hname⟩ := (checkName_eq_some_iff hostname).mp hcheck
    refine ⟨before, name, after, rfl, by simpa using hname, ?_⟩
    intro other hother hzero
    have hverdict := (checkName_eq_some_iff hostname).mpr ⟨other, rfl, Or.inl ⟨hzero, rfl⟩⟩
    rw [hbefore _ hother] at hverdict
    cases hverdict
  · obtain ⟨before, name, after, rfl, hspelt, hbefore⟩ := h
    induction before with
    | nil =>
      have hcheck := (checkName_eq_some_iff hostname).mpr ⟨name, rfl, Or.inr ⟨hspelt, rfl⟩⟩
      rw [List.nil_append, List.findSome?_cons, hcheck]
    | cons current_name before ih =>
      have hrest := ih fun other hother => hbefore other (List.mem_cons_of_mem _ hother)
      rw [List.cons_append, List.findSome?_cons]
      cases hcheck : checkName hostname.val current_name with
      | none => exact hrest
      | some result =>
        obtain ⟨other, rfl, hother⟩ := (checkName_eq_some_iff hostname).mp hcheck
        have hresult : result = matchFound := by
          rcases hother with hbad | hgood
          · exact absurd hbad.1 (hbefore other List.mem_cons_self)
          · exact hgood.2
        rw [hresult]

/-- The bytes of the first common name. -/
def X509.commonName (cert : X509) : Option (List UInt8) :=
  (cert.subject.find? fun entry => entry.nid = NID_commonName).bind NameEntry.data

/-- What a common name comes to. -/
def nameVerdict : Option (List UInt8) → HostnameValidationResult
  | none => error
  | some name =>
    if 0 ∈ name then malformedCertificate else if hostname.Spelt name then matchFound else matchNotFound

theorem matchesCommonName_eq (cert : X509) :
    matchesCommonName hostname.val cert = nameVerdict hostname cert.commonName := by
  rw [matchesCommonName, X509_NAME_get_index_by_NID, X509.commonName]
  cases hfind : cert.subject.find? fun entry => entry.nid = NID_commonName with
  | none =>
    have hindex : (cert.subject.findIdx? fun entry => entry.nid = NID_commonName) = none := by
      rw [List.findIdx?_eq_none_iff]
      simpa using hfind
    simp [hindex, nameVerdict]
  | some entry =>
    obtain ⟨hentry, before, after, hsubject, hbefore⟩ := List.find?_eq_some_iff_append.mp hfind
    have hnone : (before.findIdx? fun entry => entry.nid = NID_commonName) = none := by
      rw [List.findIdx?_eq_none_iff]
      simpa using hbefore
    have hindex : (cert.subject.findIdx? fun entry => entry.nid = NID_commonName) = some before.length := by
      rw [hsubject, List.findIdx?_append, hnone, List.findIdx?_cons, if_pos hentry]
      simp
    have hget : cert.subject[before.length]? = some entry := by
      rw [hsubject, List.getElem?_append_right (Nat.le_refl _), Nat.sub_self, List.getElem?_cons_zero]
    have hpos : ¬ ((before.length : Int) < 0) := by omega
    simp only [hindex, if_neg hpos, Int.toNat_natCast, hget, Option.bind_some]
    cases hdata : entry.data with
    | none => rfl
    | some name => exact tests_eq hostname _ _ _ name

theorem nameVerdict_eq_matchFound_iff {name : Option (List UInt8)} :
    nameVerdict hostname name = matchFound ↔ ∃ bytes, name = some bytes ∧ hostname.Spelt bytes := by
  cases name with
  | none => simp [nameVerdict]
  | some bytes =>
    rw [nameVerdict]
    by_cases hzero : 0 ∈ bytes
    · have hspelt : ¬ hostname.Spelt bytes := fun h => h.zero_notMem hzero
      simp [hzero, hspelt]
    · by_cases hspelt : hostname.Spelt bytes
      · simp [hzero, hspelt]
      · simp [hzero, hspelt]

theorem nameVerdict_cases (name : Option (List UInt8)) :
    (nameVerdict hostname name = error ↔ name = none) ∧ nameVerdict hostname name ≠ noSANPresent := by
  cases name with
  | none => simp [nameVerdict]
  | some bytes =>
    rw [nameVerdict]
    split_ifs <;> simp

theorem matchesCommonName_eq_matchFound_iff {cert : X509} :
    matchesCommonName hostname.val cert = matchFound ↔
      ∃ entry name, (cert.subject.find? fun entry => entry.nid = NID_commonName) = some entry ∧
        entry.data = some name ∧ hostname.Spelt name := by
  rw [matchesCommonName_eq, nameVerdict_eq_matchFound_iff, X509.commonName]
  simp only [Option.bind_eq_some_iff]
  refine ⟨fun h => ?_, fun h => ?_⟩
  · obtain ⟨name, ⟨entry, hentry, hname⟩, hspelt⟩ := h
    exact ⟨entry, name, hentry, hname, hspelt⟩
  · obtain ⟨entry, name, hentry, hname, hspelt⟩ := h
    exact ⟨name, ⟨entry, hentry, hname⟩, hspelt⟩

theorem verdict_cases {names : List GeneralName} {result : HostnameValidationResult}
    (h : names.findSome? (checkName hostname.val) = some result) :
    result = malformedCertificate ∨ result = matchFound := by
  obtain ⟨current_name, -, hcheck⟩ := List.exists_of_findSome?_eq_some h
  obtain ⟨name, -, hname⟩ := (checkName_eq_some_iff hostname).mp hcheck
  exact hname.imp And.right And.right

theorem validateHostname_of_names {cert : X509} {names : List GeneralName} (h : cert.subject_alt_name = some names) :
    validateHostname (some hostname.val) (some cert) =
      (names.findSome? (checkName hostname.val)).getD matchNotFound := by
  have hmatch : matchesSubjectAlternativeName hostname.val cert =
      (names.findSome? (checkName hostname.val)).getD matchNotFound := by
    rw [matchesSubjectAlternativeName, h]
  have hpresent : (names.findSome? (checkName hostname.val)).getD matchNotFound ≠ noSANPresent := by
    cases hverdict : names.findSome? (checkName hostname.val) with
    | none => decide
    | some result =>
      rcases verdict_cases hostname hverdict with rfl | rfl
      · decide
      · decide
  simp only [validateHostname, hmatch, if_neg hpresent]

theorem validateHostname_of_no_names {cert : X509} (h : cert.subject_alt_name = none) :
    validateHostname (some hostname.val) (some cert) = matchesCommonName hostname.val cert := by
  simp only [validateHostname, matchesSubjectAlternativeName, h, if_true]

theorem validateHostname_eq_matchFound_iff (cert : X509) :
    validateHostname (some hostname.val) (some cert) = matchFound ↔ cert.IsFor hostname := by
  cases h : cert.subject_alt_name with
  | none =>
    rw [validateHostname_of_no_names hostname h, matchesCommonName_eq_matchFound_iff, X509.IsFor, h]
  | some names =>
    rw [validateHostname_of_names hostname h, X509.IsFor, h]
    refine Iff.trans ?_ (findSome?_checkName_iff hostname)
    cases names.findSome? (checkName hostname.val) with
    | none => simp
    | some result => simp

/-- **The verdict on a certificate**: which ones are accepted for a host, and that an error is reported only of one
with no name to compare at all. -/
theorem validateHostname_verdict (cert : X509) :
    (validateHostname (some hostname.val) (some cert) = matchFound ↔ cert.IsFor hostname) ∧
      (validateHostname (some hostname.val) (some cert) = error ↔
        cert.subject_alt_name = none ∧ cert.commonName = none) ∧
      validateHostname (some hostname.val) (some cert) ≠ noSANPresent := by
  refine ⟨validateHostname_eq_matchFound_iff hostname cert, ?_⟩
  cases h : cert.subject_alt_name with
  | none =>
    rw [validateHostname_of_no_names hostname h, matchesCommonName_eq]
    simpa using nameVerdict_cases hostname cert.commonName
  | some names =>
    rw [validateHostname_of_names hostname h]
    cases hverdict : names.findSome? (checkName hostname.val) with
    | none => simp
    | some result =>
      rcases verdict_cases hostname hverdict with rfl | rfl
      · simp
      · simp

example : validateHostname (some (lit "devopsec.net"))
    (some { subject := [], subject_alt_name := some [.other, .dNSName (lit "DevOpSec.net")] }) = matchFound := by
  decide

/-! ## The order of the names -/

/-- One of the names is the host's, and one is malformed. -/
def HostName.Disputed (hostname : HostName) (names : List GeneralName) : Prop :=
  (∃ name, .dNSName name ∈ names ∧ hostname.Spelt name) ∧ ∃ name, .dNSName name ∈ names ∧ 0 ∈ name

/-- The verdict on a certificate with these alternative names. -/
def namesVerdict (subject : List NameEntry) (names : List GeneralName) : HostnameValidationResult :=
  validateHostname (some hostname.val) (some { subject := subject, subject_alt_name := some names })

theorem namesVerdict_eq (subject : List NameEntry) (names : List GeneralName) :
    namesVerdict hostname subject names = (names.findSome? (checkName hostname.val)).getD matchNotFound :=
  validateHostname_of_names hostname rfl

theorem namesVerdict_perm_iff (subject : List NameEntry) (names : List GeneralName) :
    (∀ names' : List GeneralName, names'.Perm names →
        namesVerdict hostname subject names' = namesVerdict hostname subject names) ↔
      ¬ hostname.Disputed names := by
  have hdefault (names : List GeneralName) : names.findSome? (checkName hostname.val) ≠ some matchNotFound := by
    intro h
    rcases verdict_cases hostname h with hresult | hresult
    · cases hresult
    · cases hresult
  have hsame (names' : List GeneralName) :
      namesVerdict hostname subject names' = namesVerdict hostname subject names ↔
        names'.findSome? (checkName hostname.val) = names.findSome? (checkName hostname.val) := by
    rw [namesVerdict_eq, namesVerdict_eq]
    exact Verdict.getD_inj (hdefault names') (hdefault names)
  simp only [hsame, Verdict.perm_findSome?_iff]
  constructor
  · intro hagree h
    obtain ⟨⟨good, hgood, hspelt⟩, bad, hbad, hzero⟩ := h
    have hfound := (checkName_eq_some_iff hostname).mpr ⟨good, rfl, Or.inr ⟨hspelt, rfl⟩⟩
    have hmalformed := (checkName_eq_some_iff hostname).mpr ⟨bad, rfl, Or.inl ⟨hzero, rfl⟩⟩
    cases hagree _ hgood _ hbad _ _ hfound hmalformed
  · intro hno a ha a' ha' result result' hresult hresult'
    obtain ⟨name, rfl, hname⟩ := (checkName_eq_some_iff hostname).mp hresult
    obtain ⟨name', rfl, hname'⟩ := (checkName_eq_some_iff hostname).mp hresult'
    rcases hname with ⟨hzero, rfl⟩ | ⟨hspelt, rfl⟩
    · rcases hname' with ⟨-, rfl⟩ | ⟨hspelt', -⟩
      · rfl
      · exact absurd ⟨⟨name', ha', hspelt'⟩, name, ha, hzero⟩ hno
    · rcases hname' with ⟨hzero', -⟩ | ⟨-, rfl⟩
      · exact absurd ⟨⟨name, ha, hspelt⟩, name', ha', hzero'⟩ hno
      · rfl

theorem exists_namesVerdict_iff {names : List GeneralName} (h : hostname.Disputed names) (subject : List NameEntry)
    (verdict : HostnameValidationResult) :
    (∃ names' : List GeneralName, names'.Perm names ∧ namesVerdict hostname subject names' = verdict) ↔
      verdict = matchFound ∨ verdict = malformedCertificate := by
  obtain ⟨⟨good, hgood, hspelt⟩, bad, hbad, hzero⟩ := h
  have hfound := (checkName_eq_some_iff hostname).mpr ⟨good, rfl, Or.inr ⟨hspelt, rfl⟩⟩
  have hmalformed := (checkName_eq_some_iff hostname).mpr ⟨bad, rfl, Or.inl ⟨hzero, rfl⟩⟩
  constructor
  · intro hsome
    obtain ⟨names', hperm, rfl⟩ := hsome
    rw [namesVerdict_eq]
    cases hfirst : names'.findSome? (checkName hostname.val) with
    | none =>
      have hnone := List.findSome?_eq_none_iff.mp hfirst _ (hperm.mem_iff.mpr hgood)
      rw [hfound] at hnone
      cases hnone
    | some result => exact (verdict_cases hostname hfirst).symm
  · intro hverdict
    rcases hverdict with rfl | rfl
    · obtain ⟨names', hperm, hfirst⟩ := Verdict.exists_perm_findSome? hgood hfound
      exact ⟨names', hperm, by rw [namesVerdict_eq, hfirst, Option.getD_some]⟩
    · obtain ⟨names', hperm, hfirst⟩ := Verdict.exists_perm_findSome? hbad hmalformed
      exact ⟨names', hperm, by rw [namesVerdict_eq, hfirst, Option.getD_some]⟩

/-- **When the order of the alternative names does not matter**: unless one of them is the host's and one is
malformed, and then it decides between acceptance and a malformed certificate. -/
theorem validateHostname_perm_iff (subject : List NameEntry) (names : List GeneralName) :
    ((∀ names' : List GeneralName, names'.Perm names →
        validateHostname (some hostname.val) (some { subject := subject, subject_alt_name := some names' }) =
          validateHostname (some hostname.val) (some { subject := subject, subject_alt_name := some names })) ↔
      ¬ hostname.Disputed names) ∧
    (hostname.Disputed names → ∀ verdict,
      (∃ names' : List GeneralName, names'.Perm names ∧
        validateHostname (some hostname.val) (some { subject := subject, subject_alt_name := some names' }) =
          verdict) ↔
        verdict = matchFound ∨ verdict = malformedCertificate) :=
  ⟨namesVerdict_perm_iff hostname subject names, fun h => exists_namesVerdict_iff hostname h subject⟩

end PwdManLib
