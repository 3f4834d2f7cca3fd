import LukePanel.Library.GoStrings

/-! # One-time codes and recovery codes

`internal/auth/totp.go`: checking a time-based code and consuming a recovery code. The MACs
come from `crypto/hmac` and are parameters. -/
namespace LukePanel.Auth.Totp
open LukePanel.Library.GoStrings

/-- The MACs the package computes, each in the text form it compares. -/
structure Macs where
  /-- Unpadded URL-safe base64 of HMAC-SHA-512 of the message under the key. -/
  sha512 : (key message : String) → String
  /-- The same of HMAC-SHA-256. -/
  sha256 : (key message : String) → String
  /-- `totpCode`: six digits for a secret and a counter, empty for a secret that is no base32. -/
  totpCode : (secret : String) → (counter : Int) → String

/-! ## Time-based codes -/

def normalizeOneTimeCode (value : String) : String :=
  String.ofList ((trimSpace value).toList.filter fun r => '0' ≤ r && r ≤ '9')

/-- `now` is in seconds; Go's division truncates. -/
def verifyTOTP (macs : Macs) (secret code : String) (now : Int) : Bool :=
  let code := normalizeOneTimeCode code
  if code.length ≠ 6 then false
  else [-1, 0, 1].any fun offset => macs.totpCode secret (now.tdiv 30 + offset) == code

/-! ## Recovery codes -/

/-- `unicode.ToUpper` as far as the result can be ASCII: besides the ASCII letters, the dotless
i and the long s have ASCII capitals. -/
def toUpper (r : Char) : Char :=
  if r = '\u0131' then 'I' else if r = '\u017f' then 'S' else r.toUpper

def normalizeRecoveryCode (value : String) : String :=
  String.ofList (((trimSpace value).toList.map toUpper).filter fun r =>
    ('A' ≤ r && r ≤ 'Z') || ('0' ≤ r && r ≤ '9'))

example : normalizeRecoveryCode " abcd-2345-wxyz" = "ABCD2345WXYZ" := by decide

def hashRecoveryCode (macs : Macs) (code key : String) : String :=
  "sha512:" ++ macs.sha512 key (normalizeRecoveryCode code)

def legacyRecoveryCodeHash (macs : Macs) (code key : String) : String :=
  macs.sha256 key (normalizeRecoveryCode code)

/-- A stored hash is one of the code's two candidates. -/
def candidate (macs : Macs) (code key stored : String) : Bool :=
  [hashRecoveryCode macs code key, legacyRecoveryCodeHash macs code key].any (· == stored)

/-- The remaining hashes and whether one was used: the first that matches a candidate. -/
def consumeRecoveryCode (macs : Macs) (code key : String) (hashes : List String) :
    List String × Bool :=
  match hashes.findIdx? (candidate macs code key) with
  | some i => (hashes.take i ++ hashes.drop (i + 1), true)
  | none => (hashes, false)

/-- The entry that is consumed. -/
def consumedEntry (macs : Macs) (code key : String) (hashes : List String) : Option String :=
  hashes.find? (candidate macs code key)

/-- One entry, a candidate of the code, leaves the hashes; the others stay in their order. -/
theorem consume_some {macs : Macs} {code key : String} {hashes : List String}
    (h : (consumeRecoveryCode macs code key hashes).2 = true) :
    ∃ entry, consumedEntry macs code key hashes = some entry ∧
      candidate macs code key entry = true ∧
      (entry :: (consumeRecoveryCode macs code key hashes).1).Perm hashes := by
  unfold consumeRecoveryCode at h ⊢
  cases hidx : hashes.findIdx? (candidate macs code key) with
  | none => simp [hidx] at h
  | some i =>
    obtain ⟨hi, hp, hfirst⟩ := List.findIdx?_eq_some_iff_getElem.mp hidx
    refine ⟨hashes[i], ?_, hp, ?_⟩
    · rw [consumedEntry, List.find?_eq_some_iff_getElem]
      exact ⟨hp, i, hi, rfl, fun j hj => by simpa using hfirst j hj⟩
    · have hparts : hashes.take i ++ hashes[i] :: hashes.drop (i + 1) = hashes := by
        rw [List.getElem_cons_drop, List.take_append_drop]
      exact List.perm_middle.symm.trans (List.Perm.of_eq hparts)

end LukePanel.Auth.Totp
