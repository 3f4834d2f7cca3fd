import LukePanel.Library.Attempt
import LukePanel.Library.Base64
import LukePanel.Library.GoStrings
import LukePanel.Library.Utf8

/-! # Password verifiers

`internal/auth/password.go`: a password is hashed to a verifier in the PHC format, and a stored
verifier is parsed in two places, where a password is compared with it and where it is decided
whether it is to be replaced. -/
namespace LukePanel.Auth.Password
open LukePanel.Library LukePanel.Library.GoStrings

def argon2Version : Nat := 19

def argon2MemoryKiB : Nat := 32768

def argon2Time : Nat := 3

def argon2Threads : Nat := 1

def argon2SaltLength : Nat := 24

def argon2KeyLength : Nat := 32

/-! ## The strength of a password -/

/-- `unicode.IsLower`, `unicode.IsUpper` and `unicode.IsDigit`. -/
structure CharClasses where
  isLower : Char → Bool
  isUpper : Char → Bool
  isDigit : Char → Bool

def commonPasswords : List String :=
  ["123456789012", "1234567890", "password123", "password1234", "qwertyuiop123", "qwerty123456",
    "admin123456", "administrator", "letmein123456", "welcome123456", "changeme12345",
    "iloveyou12345", "lukepanel123", "lukepanel2026"]

def sequences : List String :=
  ["0123456789", "1234567890", "abcdefghijklmnopqrstuvwxyz", "qwertyuiop", "asdfghjkl", "zxcvbnm"]

def allSameRune (value : String) : Bool :=
  match value.toList with
  | [] => false
  | first :: rest => rest.all (· == first)

/-- How many of the four classes occur. -/
def categories (classes : CharClasses) (password : String) : Nat :=
  let chars := password.toList
  (chars.any classes.isLower).toNat
    + (chars.any fun c => !classes.isLower c && classes.isUpper c).toNat
    + (chars.any fun c => !classes.isLower c && !classes.isUpper c && classes.isDigit c).toNat
    + (chars.any fun c => !classes.isLower c && !classes.isUpper c && !classes.isDigit c).toNat

def validatePasswordStrength (classes : CharClasses) (password username : String) :
    Except String Unit := do
  let length := password.toList.length
  if length < 12 then throw "密码至少需要 12 个字符"
  if 128 < length then throw "密码不能超过 128 个字符"
  let trimmed := trimSpace password
  if trimmed ≠ password ∨ trimmed = "" then throw "密码首尾不能包含空格"
  let lower := toLower password
  let compact := String.ofList (lower.toList.filter fun c => c ≠ '-' ∧ c ≠ '_' ∧ c ≠ ' ')
  if compact ∈ commonPasswords then throw "这个密码过于常见，请换一个更难猜的密码"
  let username := toLower (trimSpace username)
  if 3 ≤ username.utf8ByteSize ∧ contains lower username = true then throw "密码不能包含用户名"
  if allSameRune password then throw "密码不能由同一个字符重复组成"
  if 6 ≤ compact.utf8ByteSize ∧ sequences.any (contains · compact) = true then
    throw "密码不能使用连续数字或键盘顺序"
  let categories := categories classes password
  if length < 16 ∧ categories < 3 ∨ categories < 2 then
    throw "密码需要混合大小写字母、数字或符号中的至少三类；16 位以上长密码至少两类"

/-! ## Hashing -/

/-- `argon2.IDKey`, which yields as many bytes as are asked for. -/
structure Argon2 where
  idKey : List UInt8 → List UInt8 → Nat → Nat → Nat → Nat → List UInt8
  length_idKey : ∀ password salt time memory threads keyLength, 1 ≤ time → 1 ≤ threads →
    (idKey password salt time memory threads keyLength).length = keyLength

/-- What `rand.Read` fills. -/
abbrev Salt := { bytes : List UInt8 // bytes.length = argon2SaltLength }

/-- The version and the parameters in a verifier. -/
def versionText : String := "v=" ++ toString argon2Version

def profile : String :=
  "m=" ++ toString argon2MemoryKiB ++ ",t=" ++ toString argon2Time ++ ",p=" ++ toString argon2Threads

/-- The verifier of a digest with the parameters of today. -/
def verifierText (salt digest : List UInt8) : String :=
  "$argon2id$" ++ versionText ++ "$" ++ profile ++ "$" ++ Base64.encodeToString salt ++ "$" ++
    Base64.encodeToString digest

variable (classes : CharClasses) (argon2 : Argon2)

def hashPasswordArgon2id (password : String) (salt : Option Salt) : Except String String :=
  match salt with
  | none => .error "rand: read failed"
  | some salt =>
    let digest := argon2.idKey (Utf8.encode password) salt argon2Time argon2MemoryKiB argon2Threads
      argon2KeyLength
    .ok (verifierText salt digest)

def hashPassword (password : String) (salt : Option Salt) : Except String String := do
  validatePasswordStrength classes password ""
  hashPasswordArgon2id argon2 password salt

def rehashVerifiedPassword (password : String) (salt : Option Salt) : Except String String :=
  if password = "" then .error "invalid verified password"
  else hashPasswordArgon2id argon2 password salt

/-! ## Verifying -/

/-- `strconv.ParseUint(value, 10, 32)` -/
def parseUint32 (value : String) : Option Nat :=
  let n := Nat.ofDigitChars 10 value.toList 0
  if value ≠ "" ∧ value.toList.all Char.isDigit = true ∧ n < 4294967296 then some n else none

/-- `strings.Cut(parameter, "=")` -/
def cut (parameter : String) : Option (String × String) :=
  let name := parameter.toList.takeWhile (· ≠ '=')
  match parameter.toList.drop name.length with
  | [] => none
  | _ :: value => some (String.ofList name, String.ofList value)

structure Parameters where
  memory : Nat
  rounds : Nat
  parallelism : Nat
  deriving DecidableEq

def readParameter (parameters : Parameters) (parameter : String) : Except String Parameters :=
  match cut parameter with
  | none => .error "invalid Argon2id parameters"
  | some (name, value) =>
    match parseUint32 value with
    | none => .error "invalid Argon2id parameters"
    | some parsed =>
      match name with
      | "m" => .ok { parameters with memory := parsed }
      | "t" => .ok { parameters with rounds := parsed }
      | "p" => .ok { parameters with parallelism := parsed }
      | _ => .error "invalid Argon2id parameters"

/-- What `verifyArgon2id` reads off a verifier. -/
structure Verifier extends Parameters where
  salt : List UInt8
  expected : List UInt8
  deriving DecidableEq

/-- `strings.TrimPrefix` -/
def trimPrefix (before s : String) : String :=
  if before.toList.isPrefixOf s.toList then String.ofList (s.toList.drop before.toList.length) else s

/-- `verifyArgon2id` up to the call of `deriveArgon2id`. -/
def parseArgon2id (encoded : String) : Except String Verifier :=
  match split '$' encoded with
  | [_, "argon2id", version, parameters, salt, digest] => do
    if parseInt (trimPrefix "v=" version) ≠ some (argon2Version : Int) then
      throw "unsupported Argon2id version"
    let parameters := split ',' parameters
    if parameters.length ≠ 3 then throw "invalid Argon2id parameters"
    let read ← parameters.foldlM readParameter ⟨0, 0, 0⟩
    if read.memory < 8192 ∨ 262144 < read.memory ∨ read.rounds < 1 ∨ 10 < read.rounds ∨
        read.parallelism < 1 ∨ 8 < read.parallelism then
      throw "unsafe Argon2id parameters"
    match Base64.decodeString salt with
    | none => throw "invalid Argon2id salt"
    | some salt =>
      if salt.length < 16 ∨ 64 < salt.length then throw "invalid Argon2id salt"
      match Base64.decodeString digest with
      | none => throw "invalid Argon2id digest"
      | some expected =>
        if expected.length < 16 ∨ 64 < expected.length then throw "invalid Argon2id digest"
        return ⟨read, salt, expected⟩
  | _ => .error "invalid Argon2id password hash"

def verifyArgon2id (password encoded : String) : Except String Bool := do
  let v ← parseArgon2id encoded
  return argon2.idKey (Utf8.encode password) v.salt v.rounds v.memory v.parallelism v.expected.length
    == v.expected

inductive HashFunction where
  | sha512
  | sha256
  deriving DecidableEq

variable (pbkdf2 : HashFunction → List UInt8 → List UInt8 → Nat → Nat → List UInt8)

def verifyLegacyPBKDF2 (password encoded : String) : Except String Bool :=
  match split '$' encoded with
  | [_, name, iterations, salt, digest] => do
    match parseInt (trimPrefix "i=" iterations) with
    | none => throw "invalid PBKDF2 iterations"
    | some iterations =>
      if iterations < 100000 ∨ 3000000 < iterations then throw "invalid PBKDF2 iterations"
      match Base64.decodeString salt with
      | none => throw "invalid password salt"
      | some salt =>
        if salt.length < 16 ∨ 64 < salt.length then throw "invalid password salt"
        match Base64.decodeString digest with
        | none => throw "invalid password digest"
        | some expected =>
          if expected.length < 16 ∨ 128 < expected.length then throw "invalid password digest"
          let factory ← match name with
            | "pbkdf2-sha512" => pure HashFunction.sha512
            | "pbkdf2-sha256" => pure HashFunction.sha256
            | _ => throw "unsupported password hash"
          return pbkdf2 factory (Utf8.encode password) salt iterations.toNat expected.length == expected
  | _ => .error "invalid password hash"

def verifyPassword (password encoded : String) : Except String Bool :=
  if "$argon2id$".toList.isPrefixOf encoded.toList then verifyArgon2id argon2 password encoded
  else verifyLegacyPBKDF2 pbkdf2 password encoded

def needsPasswordRehash (encoded : String) : Bool :=
  match split '$' encoded with
  | [_, "argon2id", version, parameters, salt, digest] =>
    if version ≠ versionText ∨ parameters ≠ profile then true
    else
      match Base64.decodeString salt with
      | none => true
      | some salt =>
        if salt.length < argon2SaltLength then true
        else
          match Base64.decodeString digest with
          | none => true
          | some digest => digest.length < argon2KeyLength
  | _ => true

/-! ## The elements of a verifier -/

variable {classes : CharClasses} {argon2 : Argon2}
  {pbkdf2 : HashFunction → List UInt8 → List UInt8 → Nat → Nat → List UInt8}
  {password encoded first salt digest : String} {saltBytes expected : List UInt8}

theorem join_elements (first version parameters salt digest : String) :
    join '$' [first, "argon2id", version, parameters, salt, digest] =
      first ++ ("$argon2id$" ++ version ++ "$" ++ parameters ++ "$" ++ salt ++ "$" ++ digest) := by
  refine String.toList_injective ?_
  simp [join, List.intercalate]

/-- A verifier with the parameters of today, whatever stands before it. -/
structure Current (encoded first salt digest : String) (saltBytes expected : List UInt8) : Prop where
  parts : split '$' encoded = [first, "argon2id", versionText, profile, salt, digest]
  salted : Base64.decodeString salt = some saltBytes
  digested : Base64.decodeString digest = some expected

theorem Current.parse_eq (h : Current encoded first salt digest saltBytes expected) :
    parseArgon2id encoded =
      if saltBytes.length < 16 ∨ 64 < saltBytes.length then .error "invalid Argon2id salt"
      else if expected.length < 16 ∨ 64 < expected.length then .error "invalid Argon2id digest"
      else .ok ⟨⟨argon2MemoryKiB, argon2Time, argon2Threads⟩, saltBytes, expected⟩ := by
  have hversion : ¬ parseInt (trimPrefix "v=" versionText) ≠ some (argon2Version : Int) := by
    decide +kernel
  have hlength : ¬ (split ',' profile).length ≠ 3 := by decide +kernel
  have hread : (split ',' profile).foldlM readParameter ⟨0, 0, 0⟩ =
      .ok ⟨argon2MemoryKiB, argon2Time, argon2Threads⟩ := by decide +kernel
  unfold parseArgon2id
  rw [h.parts]
  simp only [if_neg hversion, if_neg hlength, hread, h.salted, h.digested]
  split <;> rfl

theorem Current.needs_iff (h : Current encoded first salt digest saltBytes expected) :
    needsPasswordRehash encoded = false ↔ 24 ≤ saltBytes.length ∧ 32 ≤ expected.length := by
  have hsame : ¬ (versionText ≠ versionText ∨ profile ≠ profile) := by simp
  have hsalt : argon2SaltLength = 24 := rfl
  have hkey : argon2KeyLength = 32 := rfl
  unfold needsPasswordRehash
  rw [h.parts]
  simp only [if_neg hsame, h.salted, h.digested]
  split
  · simp only [Bool.true_eq_false, false_iff]
    omega
  · simp only [decide_eq_false_iff_not]
    omega

theorem current_of_not_needs (h : needsPasswordRehash encoded = false) :
    ∃ first salt digest saltBytes expected, Current encoded first salt digest saltBytes expected := by
  unfold needsPasswordRehash at h
  split at h
  · rename_i first version parameters salt digest hparts
    split at h
    · cases h
    · rename_i hsame
      obtain ⟨hversion, hprofile⟩ := not_or.mp hsame
      rw [not_not.mp hversion, not_not.mp hprofile] at hparts
      split at h
      · cases h
      · rename_i saltBytes hsalt
        split at h
        · cases h
        · split at h
          · cases h
          · rename_i expected hdigest
            exact ⟨first, salt, digest, saltBytes, expected, hparts, hsalt, hdigest⟩
  · cases h

/-- Such a verifier goes to `verifyArgon2id` if nothing stands before it. -/
theorem Current.isPrefixOf_iff (h : Current encoded first salt digest saltBytes expected) :
    "$argon2id$".toList.isPrefixOf encoded.toList = true ↔ first = "" := by
  have htext := join_elements first versionText profile salt digest
  rw [← h.parts, join_split] at htext
  rw [List.isPrefixOf_iff_prefix, htext, String.toList_append]
  constructor
  · intro hpre
    have hfree : '$' ∉ first.toList :=
      sep_not_mem_of_mem_split (h.parts ▸ List.mem_cons_self)
    cases hfirst : first.toList with
    | nil => exact String.toList_eq_nil_iff.mp hfirst
    | cons c more =>
      rw [hfirst, List.cons_append] at hpre
      have hc : '$' = c := (List.cons_prefix_cons.mp hpre).1
      rw [hfirst, ← hc] at hfree
      exact absurd List.mem_cons_self hfree
  · rintro rfl
    simp only [String.toList_append, List.append_assoc]
    exact List.prefix_append _ _

/-! ## The two parsers -/

/-- What Argon2 asks for. -/
structure Verifier.Allowed (v : Verifier) : Prop where
  memory : 8 * v.parallelism ≤ v.memory ∧ v.memory < 4294967296
  rounds : 1 ≤ v.rounds ∧ v.rounds < 4294967296
  parallelism : 1 ≤ v.parallelism ∧ v.parallelism < 256
  salt : 8 ≤ v.salt.length ∧ v.salt.length < 4294967296
  key : 4 ≤ v.expected.length ∧ v.expected.length < 4294967296

/-- A verifier that is not to be replaced can be compared with any password. -/
def Consistent (argon2 : Argon2)
    (pbkdf2 : HashFunction → List UInt8 → List UInt8 → Nat → Nat → List UInt8) (encoded : String) :
    Prop :=
  needsPasswordRehash encoded = false →
    (∀ password, ∃ same, verifyPassword argon2 pbkdf2 password encoded = .ok same) ∧
      ∃ v, parseArgon2id encoded = .ok v ∧ v.Allowed

/-- Nothing stands before the first separator, and the salt and the digest are not too long. -/
def Bounded (encoded : String) : Prop :=
  match split '$' encoded with
  | [first, _, _, _, salt, digest] => first = "" ∧
      (∀ bytes, Base64.decodeString salt = some bytes → bytes.length ≤ 64) ∧
      ∀ bytes, Base64.decodeString digest = some bytes → bytes.length ≤ 64
  | _ => True

theorem Current.bounded_iff (h : Current encoded first salt digest saltBytes expected) :
    Bounded encoded ↔ first = "" ∧ saltBytes.length ≤ 64 ∧ expected.length ≤ 64 := by
  unfold Bounded
  rw [h.parts]
  simp [h.salted, h.digested]

theorem Current.verify_eq (h : Current encoded first salt digest saltBytes expected)
    (hfirst : first = "") (password : String) :
    verifyPassword argon2 pbkdf2 password encoded = (do
      let v ← parseArgon2id encoded
      return argon2.idKey (Utf8.encode password) v.salt v.rounds v.memory v.parallelism
        v.expected.length == v.expected) := by
  rw [verifyPassword, if_pos (h.isPrefixOf_iff.mpr hfirst), verifyArgon2id]

/-- Behind a text the verifier has too many elements for the older format. -/
theorem Current.verify_error (h : Current encoded first salt digest saltBytes expected)
    (hfirst : first ≠ "") (password : String) :
    verifyPassword argon2 pbkdf2 password encoded = .error "invalid password hash" := by
  rw [verifyPassword, if_neg (mt h.isPrefixOf_iff.mp hfirst), verifyLegacyPBKDF2, h.parts]

theorem Current.consistent_iff (h : Current encoded first salt digest saltBytes expected)
    (hneeds : needsPasswordRehash encoded = false) :
    Consistent argon2 pbkdf2 encoded ↔ Bounded encoded := by
  obtain ⟨hsalt, hkey⟩ := h.needs_iff.mp hneeds
  rw [h.bounded_iff]
  constructor
  · intro hcons
    obtain ⟨hverify, v, hv, -⟩ := hcons hneeds
    refine ⟨?_, ?_, ?_⟩
    · by_contra hfirst
      obtain ⟨same, hsame⟩ := hverify ""
      rw [h.verify_error hfirst] at hsame
      cases hsame
    · by_contra hlong
      rw [h.parse_eq, if_pos (.inr (by omega))] at hv
      cases hv
    · by_contra hlong
      rw [h.parse_eq] at hv
      split at hv
      · cases hv
      · rw [if_pos (.inr (by omega))] at hv
        cases hv
  · rintro ⟨hfirst, hsalt', hkey'⟩ -
    have hparse := h.parse_eq
    rw [if_neg (by omega), if_neg (by omega)] at hparse
    refine ⟨fun password => ?_, _, hparse, ?_⟩
    · rw [h.verify_eq hfirst, hparse]
      exact ⟨_, rfl⟩
    · have hmemory : 8 * argon2Threads ≤ argon2MemoryKiB ∧ argon2MemoryKiB < 4294967296 := by decide
      have hrounds : 1 ≤ argon2Time ∧ argon2Time < 4294967296 := by decide
      have hlanes : 1 ≤ argon2Threads ∧ argon2Threads < 256 := by decide
      have hbytes : 8 ≤ saltBytes.length ∧ saltBytes.length < 4294967296 := by omega
      have htag : 4 ≤ expected.length ∧ expected.length < 4294967296 := by omega
      exact ⟨hmemory, hrounds, hlanes, hbytes, htag⟩

/-! ## Verifiers that are produced -/

theorem current_hashed {salt : Salt} (h : hashPasswordArgon2id argon2 password (some salt) = .ok encoded) :
    Current encoded "" (Base64.encodeToString salt)
      (Base64.encodeToString (argon2.idKey (Utf8.encode password) salt argon2Time argon2MemoryKiB
        argon2Threads argon2KeyLength)) salt
      (argon2.idKey (Utf8.encode password) salt argon2Time argon2MemoryKiB argon2Threads
        argon2KeyLength) := by
  cases h
  refine ⟨?_, Base64.decodeString_encodeToString _, Base64.decodeString_encodeToString _⟩
  have htext := join_elements "" versionText profile (Base64.encodeToString salt)
    (Base64.encodeToString (argon2.idKey (Utf8.encode password) salt argon2Time argon2MemoryKiB
      argon2Threads argon2KeyLength))
  rw [String.empty_append] at htext
  rw [verifierText, ← htext]
  refine split_join (by simp) fun s hs => ?_
  simp only [List.mem_cons, List.not_mem_nil, or_false] at hs
  rcases hs with rfl | rfl | rfl | rfl | rfl | rfl
  · decide
  · decide
  · decide +kernel
  · decide +kernel
  · exact Base64.not_mem_encodeToString (by decide)
  · exact Base64.not_mem_encodeToString (by decide)

/-- The password of which a verifier was produced is verified, and the verifier is kept. -/
theorem hashed_verifies {salt : Option Salt}
    (h : hashPasswordArgon2id argon2 password salt = .ok encoded) :
    verifyPassword argon2 pbkdf2 password encoded = .ok true ∧
      needsPasswordRehash encoded = false := by
  cases salt with
  | none => cases h
  | some salt =>
    have hcur := current_hashed h
    have hsalt : salt.val.length = 24 := salt.property
    have hkey : (argon2.idKey (Utf8.encode password) salt argon2Time argon2MemoryKiB argon2Threads
        argon2KeyLength).length = 32 :=
      argon2.length_idKey _ _ _ _ _ _ (by decide) (by decide)
    refine ⟨?_, hcur.needs_iff.mpr ⟨hsalt.ge, hkey.ge⟩⟩
    rw [hcur.verify_eq rfl, hcur.parse_eq, if_neg (by omega), if_neg (by omega)]
    change Except.ok (_ == _) = _
    rw [hkey]
    exact congrArg Except.ok (beq_self_eq_true _)

/-- **When the two parsers agree.** A password is verified by the verifier it was hashed to, which
is not to be replaced; and a verifier that is not to be replaced is well formed and safe for
Argon2 exactly if nothing stands before it and its salt and digest are at most 64 bytes long. -/
theorem parsers_agree_iff (classes : CharClasses) (argon2 : Argon2)
    (pbkdf2 : HashFunction → List UInt8 → List UInt8 → Nat → Nat → List UInt8) :
    (∀ password salt encoded, hashPassword classes argon2 password salt = .ok encoded ∨
        rehashVerifiedPassword argon2 password salt = .ok encoded →
      verifyPassword argon2 pbkdf2 password encoded = .ok true ∧
        needsPasswordRehash encoded = false) ∧
    ∀ encoded, Consistent argon2 pbkdf2 encoded ↔
      (needsPasswordRehash encoded = false → Bounded encoded) := by
  refine ⟨fun password salt encoded hencoded => ?_, fun encoded => ⟨fun hcons hneeds => ?_,
    fun hbounded hneeds => ?_⟩⟩
  · rcases hencoded with hhash | hrehash
    · obtain ⟨-, -, hhash⟩ := Attempt.bind_eq_ok hhash
      exact hashed_verifies hhash
    · obtain ⟨-, hrehash⟩ | ⟨-, hrehash⟩ := Attempt.ite_eq_ok hrehash
      · cases hrehash
      · exact hashed_verifies hrehash
  · obtain ⟨_, _, _, _, _, hcur⟩ := current_of_not_needs hneeds
    exact (hcur.consistent_iff hneeds).mp hcons
  · obtain ⟨_, _, _, _, _, hcur⟩ := current_of_not_needs hneeds
    exact (hcur.consistent_iff hneeds).mpr (hbounded hneeds) hneeds

/-- A key derivation that yields zeros. -/
def Argon2.zeros : Argon2 where
  idKey _ _ _ _ _ keyLength := List.replicate keyLength 0
  length_idKey _ _ _ _ _ _ _ _ := List.length_replicate

/-- A verifier of a salt and a digest of zeros, behind some text. -/
def zeroVerifier (before : String) : String :=
  before ++ "$argon2id$v=19$m=32768,t=3,p=1$AAAAAAAAAAAAAAAAAAAAAAAAAAAAAAAA$" ++
    "AAAAAAAAAAAAAAAAAAAAAAAAAAAAAAAAAAAAAAAAAAA"

theorem zeroVerifier_consistent :
    Consistent Argon2.zeros (fun _ _ _ _ _ => []) (zeroVerifier "") := by
  refine ((parsers_agree_iff ⟨Char.isLower, Char.isUpper, Char.isDigit⟩ Argon2.zeros
    fun _ _ _ _ _ => []).2 (zeroVerifier "")).mpr fun _ => ?_
  have hcur : Current (zeroVerifier "") "" "AAAAAAAAAAAAAAAAAAAAAAAAAAAAAAAA"
      "AAAAAAAAAAAAAAAAAAAAAAAAAAAAAAAAAAAAAAAAAAA" (List.replicate 24 0)
      (List.replicate 32 0) :=
    ⟨by decide +kernel, by decide +kernel, by decide +kernel⟩
  exact hcur.bounded_iff.mpr ⟨rfl, by decide, by decide⟩

/-- A text before the first separator is not looked at when it is decided about a replacement, and
sends the verifier to the older format when a password is compared. -/
theorem prefixed_inconsistent : ¬ ∀ (argon2 : Argon2)
    (pbkdf2 : HashFunction → List UInt8 → List UInt8 → Nat → Nat → List UInt8) (encoded : String),
    Consistent argon2 pbkdf2 encoded := by
  intro h
  obtain ⟨hverify, -⟩ := h Argon2.zeros (fun _ _ _ _ _ => []) (zeroVerifier "x") (by decide +kernel)
  obtain ⟨same, hsame⟩ := hverify ""
  have herror : verifyPassword Argon2.zeros (fun _ _ _ _ _ => []) "" (zeroVerifier "x") =
      .error "invalid password hash" := by decide +kernel
  rw [herror] at hsame
  cases hsame

end LukePanel.Auth.Password
