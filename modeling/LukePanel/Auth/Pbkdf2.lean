import LukePanel.Auth.Password
import LukePanel.Library.CountedLoops
import Mathlib.Data.List.GetD

/-! # The key derivation of old passwords

`pbkdf2` of `internal/auth/password.go`, whose loops xor block after block, against the bytes of
the key as RFC 8018 defines them; and the stored passwords of the profiles before Argon2id. -/
namespace LukePanel.Auth.Pbkdf2
open LukePanel.Library LukePanel.Library.CountedLoops LukePanel.Library.GoStrings
open LukePanel.Auth.Password

/-- HMAC with a hash function. -/
structure Prf where
  size : Nat
  mac : List UInt8 → List UInt8 → List UInt8
  size_pos : 0 < size
  length_mac : ∀ key message, (mac key message).length = size

/-- `t[j] ^= u[j]` for every `j`; `none` is a panic. -/
def xorInto (t u : List UInt8) : Option (List UInt8) :=
  (List.range t.length).foldlM (fun t j => do
    let a ← t[j]?
    let b ← u[j]?
    return t.set j (a ^^^ b)) t

/-- The bytes of the number of a block. -/
def blockIndex (block : Nat) : List UInt8 :=
  [(block >>> 24).toUInt8, (block >>> 16).toUInt8, (block >>> 8).toUInt8, block.toUInt8]

variable (prf : Prf) (password salt : List UInt8)

/-- The body of the outer loop, which counts from 1. -/
def addBlock (iterations : Nat) (result : List UInt8) (block : Nat) : Option (List UInt8) := do
  let u := prf.mac password (salt ++ blockIndex (block + 1))
  let (_, t) ← (List.range (iterations - 1)).foldlM (fun (u, t) _ => do
    let u := prf.mac password u
    let t ← xorInto t u
    return (u, t)) (u, u)
  return result ++ t

def pbkdf2 (iterations length : Nat) : Option (List UInt8) := do
  let blocks := (length + prf.size - 1) / prf.size
  let result ← (List.range blocks).foldlM (addBlock prf password salt iterations) []
  if length ≤ result.length then return result.take length else none

/-! ## The key byte for byte -/

/-- What the function has made of a block after that many more rounds. -/
def chain (block : Nat) : Nat → List UInt8
  | 0 => prf.mac password (salt ++ blockIndex (block + 1))
  | round + 1 => prf.mac password (chain block round)

/-- The sum of the bytes at a place of the rounds of a block. -/
def blockByte (iterations block place : Nat) : UInt8 :=
  ((List.range iterations).map fun round =>
    (chain prf password salt block round).getD place 0).foldl (· ^^^ ·) 0

def keyByte (iterations index : Nat) : UInt8 :=
  blockByte prf password salt iterations (index / prf.size) (index % prf.size)

def key (iterations length : Nat) : List UInt8 :=
  (List.range length).map (keyByte prf password salt iterations)

variable {prf password salt} {iterations length : Nat}

theorem length_chain (block round : Nat) : (chain prf password salt block round).length = prf.size := by
  cases round <;> exact prf.length_mac _ _

theorem map_getD_range {bytes : List UInt8} {size : Nat} (h : bytes.length = size) :
    (List.range size).map (bytes.getD · 0) = bytes := by
  refine List.ext_getElem (by rw [List.length_map, List.length_range, h]) fun j hj hj' => ?_
  rw [List.getElem_map, List.getElem_range, List.getD_eq_getElem _ _ hj']

theorem getD_set {bytes : List UInt8} {i : Nat} (hi : i < bytes.length) (a : UInt8) (j : Nat) :
    (bytes.set i a).getD j 0 = if i = j then a else bytes.getD j 0 := by
  rw [List.getD_eq_getElem?_getD, List.getElem?_set, if_pos hi, apply_ite (Option.getD · 0),
    Option.getD_some, List.getD_eq_getElem?_getD]

theorem xorInto_eq {t u : List UInt8} (h : u.length = t.length) :
    xorInto t u = some ((List.range t.length).map fun j => t.getD j 0 ^^^ u.getD j 0) := by
  -- the first bytes are done, the others are as they were
  obtain ⟨t', hrun, hlength, hbytes⟩ := foldlM_range (b := t) (n := t.length)
    (f := fun t j => do
      let a ← t[j]?
      let b ← u[j]?
      return t.set j (a ^^^ b))
    (P := fun count t' => t'.length = t.length ∧ ∀ j < t.length,
      t'.getD j 0 = if j < count then t.getD j 0 ^^^ u.getD j 0 else t.getD j 0)
    ⟨rfl, fun j _ => by rw [if_neg (Nat.not_lt_zero j)]⟩ fun i hi t' ht' => by
      obtain ⟨hlength, hbytes⟩ := ht'
      have hi' : i < t'.length := hlength.symm ▸ hi
      have hiu : i < u.length := h.symm ▸ hi
      have hbyte := hbytes i hi
      rw [if_neg (Nat.lt_irrefl i)] at hbyte
      refine ⟨t'.set i (t'.getD i 0 ^^^ u.getD i 0), ?_, by rw [List.length_set, hlength],
        fun j hj => ?_⟩
      · rw [List.getElem?_eq_getElem hi', List.getElem?_eq_getElem hiu, List.getD_eq_getElem _ _ hi',
          List.getD_eq_getElem _ _ hiu]
        rfl
      · rw [getD_set hi', hbytes j hj, hbyte]
        by_cases hji : i = j
        · rw [if_pos hji, if_pos (by omega), hji]
        · rw [if_neg hji]
          exact if_congr (by omega) rfl rfl
  rw [xorInto, hrun, ← map_getD_range hlength]
  exact congrArg some (List.map_congr_left fun j hj =>
    (hbytes j (List.mem_range.mp hj)).trans (if_pos (List.mem_range.mp hj)))

theorem blockByte_succ (rounds block place : Nat) :
    blockByte prf password salt (rounds + 1) block place =
      blockByte prf password salt rounds block place ^^^
        (chain prf password salt block rounds).getD place 0 := by
  simp only [blockByte, List.range_succ, List.map_append, List.foldl_append, List.map_singleton,
    List.foldl_cons, List.foldl_nil]

/-- After some rounds `u` is what the last has made and `t` the sum of all. -/
theorem addBlock_eq (result : List UInt8) (block : Nat) :
    addBlock prf password salt iterations result block = some (result ++
      (List.range prf.size).map (blockByte prf password salt (max iterations 1) block)) := by
  obtain ⟨_, hrun, rfl⟩ := foldlM_range (n := iterations - 1)
    (b := (chain prf password salt block 0, chain prf password salt block 0))
    (f := fun (u, t) _ => do
      let u := prf.mac password u
      let t ← xorInto t u
      return (u, t))
    (P := fun rounds ut => ut = (chain prf password salt block rounds,
      (List.range prf.size).map (blockByte prf password salt (rounds + 1) block)))
    (by
      have hfirst : blockByte prf password salt 1 block = fun place =>
          (chain prf password salt block 0).getD place 0 := by
        funext place
        rw [blockByte_succ]
        exact UInt8.zero_xor
      rw [Nat.zero_add, hfirst, map_getD_range (length_chain block 0)])
    fun rounds _ _ hut => by
      subst hut
      have hlength : (prf.mac password (chain prf password salt block rounds)).length =
          ((List.range prf.size).map (blockByte prf password salt (rounds + 1) block)).length := by
        rw [prf.length_mac, List.length_map, List.length_range]
      refine ⟨_, ?_, rfl⟩
      simp only [xorInto_eq hlength, List.length_map, List.length_range, Option.bind_eq_bind,
        Option.bind_some]
      refine congrArg some (Prod.ext rfl (List.map_congr_left fun place hplace => ?_))
      rw [blockByte_succ (rounds + 1), List.getD_eq_getElem?_getD, List.getElem?_map,
        List.getElem?_range (List.mem_range.mp hplace)]
      rfl
  have hrounds : iterations - 1 + 1 = max iterations 1 := by omega
  rw [hrounds] at hrun
  exact congrArg (· >>= fun ut => some (result ++ ut.2)) hrun

/-- **The blocks make the key.** For every password, salt, number of rounds and length no index is out
of range, and byte for byte the result is what the standard defines; no rounds count as one. -/
theorem pbkdf2_eq (prf : Prf) (password salt : List UInt8) (iterations length : Nat) :
    pbkdf2 prf password salt iterations length =
      some (key prf password salt (max iterations 1) length) := by
  have hpos := prf.size_pos
  obtain ⟨_, hrun, rfl⟩ := foldlM_range (n := (length + prf.size - 1) / prf.size) (b := [])
    (f := addBlock prf password salt iterations)
    (P := fun blocks result => result = key prf password salt (max iterations 1) (blocks * prf.size))
    (by rw [Nat.zero_mul]; rfl)
    fun block _ result hresult => by
      subst hresult
      refine ⟨_, addBlock_eq _ block, ?_⟩
      rw [key, key, Nat.succ_mul, List.range_add, List.map_append, List.map_map]
      refine congrArg _ (List.map_congr_left fun place hplace => ?_)
      have hlt := List.mem_range.mp hplace
      rw [Function.comp_apply, keyByte, Nat.mul_comm block, Nat.mul_add_div hpos, Nat.mul_add_mod,
        Nat.div_eq_of_lt hlt, Nat.mod_eq_of_lt hlt, Nat.add_zero]
  have hle : length ≤ (length + prf.size - 1) / prf.size * prf.size := by
    have hdiv := Nat.div_add_mod (length + prf.size - 1) prf.size
    have hmod := Nat.mod_lt (length + prf.size - 1) hpos
    rw [Nat.mul_comm] at hdiv
    omega
  rw [pbkdf2]
  simp only [hrun, Option.bind_eq_bind, Option.bind_some, key, List.length_map, List.length_range,
    if_pos hle, ← List.map_take, List.take_range, Nat.min_eq_left hle]
  rfl

/-! ## The profiles before Argon2id -/

/-- What a stored password says of its derivation. -/
structure Profile where
  name : String
  factory : HashFunction
  iterations : Nat
  length : Nat

def sha256Profile : Profile := ⟨"pbkdf2-sha256", .sha256, 600000, 32⟩

def sha512Profile : Profile := ⟨"pbkdf2-sha512", .sha512, 750000, 64⟩

variable (prfs : HashFunction → Prf)

/-- The text of a stored password; `none` is a panic. -/
def legacyHash (p : Profile) (password : String) (salt : List UInt8) : Option String := do
  let digest ← pbkdf2 (prfs p.factory) (Utf8.encode password) salt p.iterations p.length
  return "$" ++ p.name ++ "$i=" ++ toString p.iterations ++ "$" ++ Base64.encodeToString salt ++ "$" ++
    Base64.encodeToString digest

def legacyPBKDF2Hash : String → List UInt8 → Option String := legacyHash prfs sha256Profile

def legacyPBKDF2SHA512Hash : String → List UInt8 → Option String := legacyHash prfs sha512Profile

/-- The derivation for the rest of the package; it never panics. -/
def derive (factory : HashFunction) (password salt : List UInt8) (iterations length : Nat) : List UInt8 :=
  (pbkdf2 (prfs factory) password salt iterations length).getD []

/-- A stored password of a profile, with its salt and its digest. -/
def stored (p : Profile) (salt digest : List UInt8) : String :=
  join '$' ["", p.name, "i=" ++ toString p.iterations, Base64.encodeToString salt,
    Base64.encodeToString digest]

/-- The profiles and the bounds that a stored password is held to fit. -/
structure Profile.Fits (p : Profile) : Prop where
  parsed : parseInt (trimPrefix "i=" ("i=" ++ toString p.iterations)) = some (p.iterations : Int)
  clean : '$' ∉ p.name.toList ∧ '$' ∉ ("i=" ++ toString p.iterations).toList
  other : ∀ rest, "$argon2id$".toList.isPrefixOf ('$' :: p.name.toList ++ rest) = false
  rounds : 100000 ≤ p.iterations ∧ p.iterations ≤ 3000000
  length : 16 ≤ p.length ∧ p.length ≤ 128
  factory : p.name = "pbkdf2-sha512" ∧ p.factory = .sha512 ∨ p.name = "pbkdf2-sha256" ∧ p.factory = .sha256

theorem fits_sha256 : sha256Profile.Fits where
  parsed := by decide +kernel
  clean := by decide +kernel
  other _ := rfl
  rounds := by decide
  length := by decide
  factory := .inr ⟨rfl, rfl⟩

theorem fits_sha512 : sha512Profile.Fits where
  parsed := by decide +kernel
  clean := by decide +kernel
  other _ := rfl
  rounds := by decide
  length := by decide
  factory := .inl ⟨rfl, rfl⟩

/-- The key of a password with the parameters of a profile. -/
def keyOf (p : Profile) (password : String) (salt : List UInt8) : List UInt8 :=
  key (prfs p.factory) (Utf8.encode password) salt p.iterations p.length

variable {prfs} {p : Profile} {digest : List UInt8}

theorem Profile.Fits.derives (hp : p.Fits) (password : String) (salt : List UInt8) :
    pbkdf2 (prfs p.factory) (Utf8.encode password) salt p.iterations p.length =
      some (keyOf prfs p password salt) := by
  have hrounds : max p.iterations 1 = p.iterations := by
    have := hp.rounds
    omega
  rw [pbkdf2_eq, hrounds, keyOf]

theorem toList_stored : (stored p salt digest).toList = '$' :: p.name.toList ++
    ("$i=" ++ toString p.iterations ++ "$" ++ Base64.encodeToString salt ++ "$" ++
      Base64.encodeToString digest).toList := by
  simp [stored, join, List.intercalate]

theorem legacyHash_eq (hp : p.Fits) (password : String) (salt : List UInt8) :
    legacyHash prfs p password salt = some (stored p salt (keyOf prfs p password salt)) := by
  rw [legacyHash, hp.derives]
  refine congrArg some (String.toList_injective ?_)
  rw [toList_stored]
  simp

theorem split_stored (hp : p.Fits) : split '$' (stored p salt digest) =
    ["", p.name, "i=" ++ toString p.iterations, Base64.encodeToString salt,
      Base64.encodeToString digest] := by
  refine split_join (by simp) fun s hs => ?_
  simp only [List.mem_cons, List.not_mem_nil, or_false] at hs
  rcases hs with rfl | rfl | rfl | rfl | rfl
  · decide
  · exact hp.clean.1
  · exact hp.clean.2
  · exact Base64.not_mem_encodeToString (by decide)
  · exact Base64.not_mem_encodeToString (by decide)

/-- The check of a stored password comes down to its digest. -/
theorem verify_stored (hp : p.Fits) (hsalt : 16 ≤ salt.length ∧ salt.length ≤ 64)
    (hdigest : digest.length = p.length) (argon2 : Argon2) (password : String) :
    verifyPassword argon2 (derive prfs) password (stored p salt digest) =
      .ok (keyOf prfs p password salt == digest) := by
  have hother : "$argon2id$".toList.isPrefixOf (stored p salt digest).toList = false := by
    rw [toList_stored]
    exact hp.other _
  have hrounds : ¬((p.iterations : Int) < 100000 ∨ 3000000 < (p.iterations : Int)) := by
    have := hp.rounds
    omega
  have hlength : ¬(digest.length < 16 ∨ 128 < digest.length) := by
    have := hp.length
    omega
  have hderive : derive prfs p.factory (Utf8.encode password) salt (p.iterations : Int).toNat
      digest.length = keyOf prfs p password salt := by
    rw [Int.toNat_natCast, hdigest, derive, hp.derives]
    rfl
  rw [verifyPassword, if_neg (by rw [hother]; exact Bool.false_ne_true), verifyLegacyPBKDF2,
    split_stored hp]
  dsimp only
  rw [hp.parsed]
  dsimp only
  rw [if_neg hrounds, Base64.decodeString_encodeToString, Base64.decodeString_encodeToString]
  dsimp only
  rw [if_neg (not_or.mpr ⟨by omega, by omega⟩), if_neg hlength]
  rcases hp.factory with ⟨hname, hfactory⟩ | ⟨hname, hfactory⟩
  all_goals
    rw [hfactory] at hderive
    rw [hname]
    exact congrArg (fun actual => Except.ok (actual == digest)) hderive

/-- A profile stores a password, to be replaced, and accepts those with its key. -/
theorem legacyHash_verified (hp : p.Fits) (hsalt : 16 ≤ salt.length ∧ salt.length ≤ 64)
    (argon2 : Argon2) (password : String) :
    ∃ encoded, legacyHash prfs p password salt = some encoded ∧
      needsPasswordRehash encoded = true ∧
      ∀ other, verifyPassword argon2 (derive prfs) other encoded =
        .ok (keyOf prfs p other salt == keyOf prfs p password salt) := by
  refine ⟨_, legacyHash_eq hp password salt, ?_, fun other =>
    verify_stored hp hsalt ?_ argon2 other⟩
  · -- five elements, where a verifier of today has six
    rw [needsPasswordRehash, split_stored hp]
    split
    · rename_i heq
      simp at heq
    · rfl
  · rw [keyOf, key, List.length_map, List.length_range]

/-- **Old passwords still work.** A password of either profile is stored without a panic and is to be
replaced, and until then a password is accepted exactly if it has the same key, never with an
error. -/
theorem legacy_verified (prfs : HashFunction → Prf) (argon2 : Argon2) (password : String)
    {salt : List UInt8} (hsalt : 16 ≤ salt.length ∧ salt.length ≤ 64) :
    (∃ encoded, legacyPBKDF2Hash prfs password salt = some encoded ∧
      needsPasswordRehash encoded = true ∧
      ∀ other, verifyPassword argon2 (derive prfs) other encoded =
        .ok (keyOf prfs sha256Profile other salt == keyOf prfs sha256Profile password salt)) ∧
    ∃ encoded, legacyPBKDF2SHA512Hash prfs password salt = some encoded ∧
      needsPasswordRehash encoded = true ∧
      ∀ other, verifyPassword argon2 (derive prfs) other encoded =
        .ok (keyOf prfs sha512Profile other salt == keyOf prfs sha512Profile password salt) := by
  constructor
  · exact legacyHash_verified fits_sha256 hsalt argon2 password
  · exact legacyHash_verified fits_sha512 hsalt argon2 password

/-- Blocks as long as those of the two hash functions, of the sum of the bytes of the key and the
message. -/
def byteSums (factory : HashFunction) : Prf where
  size :=
    match factory with
    | .sha256 => 32
    | .sha512 => 64
  mac key message := List.replicate _ ((key ++ message).foldl (· + ·) 0)
  size_pos := by cases factory <;> decide
  length_mac _ _ := List.length_replicate

theorem correct_horse_verified : ∃ encoded,
    legacyPBKDF2Hash byteSums "correct-horse" (List.replicate 16 7) = some encoded ∧
    needsPasswordRehash encoded = true ∧
    verifyPassword Argon2.zeros (derive byteSums) "correct-horse" encoded = .ok true := by
  have hsalt : 16 ≤ (List.replicate 16 (7 : UInt8)).length ∧
      (List.replicate 16 (7 : UInt8)).length ≤ 64 := by
    decide
  obtain ⟨encoded, hencoded, hneeds, hverify⟩ :=
    (legacy_verified byteSums Argon2.zeros "correct-horse" hsalt).1
  exact ⟨encoded, hencoded, hneeds, (hverify "correct-horse").trans
    (congrArg Except.ok (beq_self_eq_true _))⟩

end LukePanel.Auth.Pbkdf2
