import LukePanel.Auth.Password
import LukePanel.Crypto.AnyOrder

/-! # Stored passwords

`internal/auth/password.go` over the Argon2id of `internal/crypto/argon2`: the parameters that a
verifier may have never make `IDKey` panic, and a password is accepted exactly if its tag is the
stored one. -/
namespace LukePanel.Auth.PasswordKey
open LukePanel.Library LukePanel.Auth.Password LukePanel.Crypto.Argon2.Reference
  LukePanel.Crypto.VariableHash

/-- `deriveArgon2id`, when there is a free slot. -/
def deriveArgon2id (password salt : List UInt8) (rounds memory parallelism keyLength : Nat) :
    Option (List UInt8) :=
  Crypto.Argon2.idKey password salt rounds.toUInt32 memory.toUInt32 parallelism.toUInt8
    keyLength.toUInt32

/-- `hashPasswordArgon2id`, and `none` for a panic. -/
def hashPasswordArgon2id (password : String) (salt : Option Salt) : Option (Except String String) :=
  match salt with
  | none => some (.error "rand: read failed")
  | some salt =>
    (deriveArgon2id (Utf8.encode password) salt argon2Time argon2MemoryKiB argon2Threads
      argon2KeyLength).map fun digest => .ok (verifierText salt digest)

/-- `verifyArgon2id`, and `none` for a panic. -/
def verifyArgon2id (password encoded : String) : Option (Except String Bool) :=
  match parseArgon2id encoded with
  | .error message => some (.error message)
  | .ok v =>
    (deriveArgon2id (Utf8.encode password) v.salt v.rounds v.memory v.parallelism v.expected.length).map
      fun actual => .ok (actual == v.expected)

/-- The tag with the parameters of a verifier. -/
def keyOf (password : String) (v : Verifier) (h : 0 < v.parallelism.toUInt8.toNat) : List UInt8 :=
  tag (Utf8.encode password) v.salt v.rounds.toUInt32 v.memory.toUInt32 v.parallelism.toUInt8 h
    v.expected.length.toUInt32

variable {encoded : String} {v : Verifier}

/-- The bounds that a verifier is held to before anything is derived. -/
structure InBounds (v : Verifier) : Prop where
  memory : 8192 ≤ v.memory ∧ v.memory ≤ 262144
  rounds : 1 ≤ v.rounds ∧ v.rounds ≤ 10
  parallelism : 1 ≤ v.parallelism ∧ v.parallelism ≤ 8
  salt : 16 ≤ v.salt.length ∧ v.salt.length ≤ 64
  expected : 16 ≤ v.expected.length ∧ v.expected.length ≤ 64

theorem inBounds_of_parse (h : parseArgon2id encoded = .ok v) : InBounds v := by
  unfold parseArgon2id at h
  split at h
  · simp only [bind, Except.bind, pure, Except.pure, throw, throwThe, MonadExceptOf.throw] at h
    repeat' split at h
    all_goals cases h
    refine ⟨?_, ?_, ?_, ?_, ?_⟩ <;> simp only <;> omega
  · cases h

theorem toNat_toUInt32 {n : Nat} (h : n < 4294967296) : n.toUInt32.toNat = n :=
  Nat.mod_eq_of_lt (show n < 2 ^ 32 from h)

/-- Parameters in the bounds are safe for `IDKey`. -/
theorem InBounds.derive_eq (h : InBounds v) (password : String) :
    ∃ hparallelism, deriveArgon2id (Utf8.encode password) v.salt v.rounds v.memory v.parallelism
        v.expected.length = some (keyOf password v hparallelism) ∧
      (keyOf password v hparallelism).length = v.expected.length := by
  have hrounds := h.rounds
  have hparallelism := h.parallelism
  have hexpected := h.expected
  have hthreads : v.parallelism.toUInt8.toNat = v.parallelism :=
    Nat.mod_eq_of_lt (by omega : v.parallelism < 2 ^ 8)
  have hpos : 0 < v.parallelism.toUInt8.toNat := by omega
  have hlength := toNat_toUInt32 (by omega : v.expected.length < 4294967296)
  have htime := toNat_toUInt32 (by omega : v.rounds < 4294967296)
  refine ⟨hpos, ?_, ?_⟩
  · rw [deriveArgon2id, Crypto.Argon2.Tag.idKey_eq, dif_pos ⟨by omega, hpos, by omega⟩, keyOf]
  · rw [keyOf, tag, length_variableHash, hlength]

/-- `IDKey` for the rest of the package, which asks for keys that it can derive. -/
def argon2 : Argon2 where
  idKey password salt time memory threads keyLength :=
    ((deriveArgon2id password salt time memory threads keyLength).filter
      fun key => key.length = keyLength).getD (List.replicate keyLength 0)
  length_idKey password salt time memory threads keyLength _ _ := by
    cases h : (deriveArgon2id password salt time memory threads keyLength).filter
        fun key => key.length = keyLength with
    | none => exact List.length_replicate
    | some key => exact of_decide_eq_true (Option.filter_eq_some_iff.mp h).2

theorem argon2_idKey {password salt key : List UInt8} {time memory threads keyLength : Nat}
    (h : deriveArgon2id password salt time memory threads keyLength = some key)
    (hlength : key.length = keyLength) :
    argon2.idKey password salt time memory threads keyLength = key := by
  simp only [argon2, h, Option.filter_some, hlength, decide_true, if_true, Option.getD_some]

/-- Verifying is what the rest of the package takes it for. -/
theorem verifyArgon2id_argon2 (password encoded : String) :
    verifyArgon2id password encoded = some (Password.verifyArgon2id argon2 password encoded) := by
  rw [verifyArgon2id, Password.verifyArgon2id]
  cases hparse : parseArgon2id encoded with
  | error message => rfl
  | ok v =>
    obtain ⟨_, hderive, hlength⟩ := (inBounds_of_parse hparse).derive_eq password
    dsimp only
    rw [hderive, Option.map_some]
    change _ = some (Except.ok (argon2.idKey _ _ _ _ _ _ == _))
    rw [argon2_idKey hderive hlength]

/-- No password and no stored text make a verification panic, and it succeeds exactly if the text is
a verifier that holds the tag of the password. -/
theorem verifyArgon2id_eq (password encoded : String) :
    verifyArgon2id password encoded ≠ none ∧
      (verifyArgon2id password encoded = some (.ok true) ↔
        ∃ v h, parseArgon2id encoded = .ok v ∧ keyOf password v h = v.expected) := by
  rw [verifyArgon2id]
  cases hparse : parseArgon2id encoded with
  | error message => simp
  | ok v =>
    obtain ⟨hparallelism, hderive, -⟩ := (inBounds_of_parse hparse).derive_eq password
    simp only [hderive, Option.map_some, ne_eq, reduceCtorEq, not_false_eq_true, true_and,
      Option.some.injEq, Except.ok.injEq, beq_iff_eq]
    exact ⟨fun heq => ⟨v, hparallelism, rfl, heq⟩, fun ⟨_, _, heq, hkey⟩ => by subst heq; exact hkey⟩

/-- Today's parameters, with a salt and a digest. -/
def today (salt : Salt) (expected : List UInt8) : Verifier :=
  ⟨⟨argon2MemoryKiB, argon2Time, argon2Threads⟩, salt, expected⟩

theorem today_inBounds (salt : Salt) {expected : List UInt8} (h : expected.length = 32) :
    InBounds (today salt expected) := by
  have hsalt : salt.val.length = 24 := salt.property
  constructor <;> simp only [today, argon2MemoryKiB, argon2Time, argon2Threads] <;> omega

/-- The tag of a password with the parameters of today. -/
def keyToday (password : String) (salt : Salt) : List UInt8 :=
  tag (Utf8.encode password) salt argon2Time.toUInt32 argon2MemoryKiB.toUInt32 argon2Threads.toUInt8
    (by decide) argon2KeyLength.toUInt32

theorem keyOf_today {password : String} {salt : Salt} {expected : List UInt8} (h : expected.length = 32)
    (hparallelism : 0 < (today salt expected).parallelism.toUInt8.toNat) :
    keyOf password (today salt expected) hparallelism = keyToday password salt := by
  simp only [keyOf, today, h, keyToday, argon2KeyLength]

theorem derive_today (other : String) (salt : Salt) :
    deriveArgon2id (Utf8.encode other) salt argon2Time argon2MemoryKiB argon2Threads argon2KeyLength =
      some (keyToday other salt) ∧ (keyToday other salt).length = argon2KeyLength := by
  have h : (List.replicate argon2KeyLength (0 : UInt8)).length = 32 := List.length_replicate
  obtain ⟨hparallelism, hkey, hlength⟩ := (today_inBounds salt h).derive_eq other
  rw [keyOf_today h] at hkey hlength
  simp only [today, h] at hkey hlength
  exact ⟨hkey, hlength⟩

/-- Hashing is what the rest of the package takes it for. -/
theorem hashPasswordArgon2id_argon2 (password : String) (salt : Option Salt) :
    hashPasswordArgon2id password salt = some (Password.hashPasswordArgon2id argon2 password salt) := by
  cases salt with
  | none => rfl
  | some salt =>
    obtain ⟨hderive, hlength⟩ := derive_today password salt
    rw [hashPasswordArgon2id, Password.hashPasswordArgon2id, hderive, Option.map_some]
    rw [argon2_idKey hderive hlength]

/-- Every password can be stored, and then one is accepted exactly if it has the same tag. -/
theorem hashPasswordArgon2id_eq (password : String) (salt : Salt) :
    ∃ encoded, hashPasswordArgon2id password (some salt) = some (.ok encoded) ∧
      ∀ other, verifyArgon2id other encoded =
        some (.ok (keyToday other salt == keyToday password salt)) := by
  obtain ⟨hstored, hlength⟩ := derive_today password salt
  have hsame := argon2_idKey hstored hlength
  have hcur := current_hashed (rfl : Password.hashPasswordArgon2id argon2 password (some salt) = .ok _)
  have hsalt : salt.val.length = 24 := salt.property
  have hparse := hcur.parse_eq
  rw [hsame] at hparse
  rw [show argon2KeyLength = 32 from rfl] at hlength
  rw [if_neg (by omega), if_neg (by omega)] at hparse
  refine ⟨_, by rw [hashPasswordArgon2id, hstored]; rfl, fun other => ?_⟩
  have hother := (derive_today other salt).1
  rw [show argon2KeyLength = 32 from rfl, ← hlength] at hother
  rw [verifyArgon2id, hparse]
  simp only [hother, Option.map_some]

end LukePanel.Auth.PasswordKey
