import LukePanel.Server.ConfigHandlers

/-! # Recovery codes after an import

`backupImport` installs the recovery hashes of the archive next to the session secret of the running
panel, with which the second-factor check computes the hash of a submitted code. -/
namespace LukePanel.Server.ImportedCodes
open LukePanel.Library.GoStrings LukePanel.Auth.Totp
open LukePanel.Server.ConfigHandlers LukePanel.Server.SecondFactor

/-- A code that is submitted, and when. -/
structure Submission where
  code : String
  now : Int

variable (macs : Macs)

/-- The answer of the second-factor check, and the configuration it leaves when its save succeeds. -/
def submit (cfg : Config) (s : Submission) : Bool × Config :=
  match verifySecondFactor macs s.code true s.now cfg with
  | .answer ok _ => (ok, cfg)
  | .save updated => (true, updated)

/-- The configuration after some submissions. -/
def after (cfg : Config) (submissions : List Submission) : Config :=
  submissions.foldl (fun c s => (submit macs c s).2) cfg

/-- The code that is read off a submission. -/
def read (s : Submission) : String := normalizeRecoveryCode (trimSpace s.code)

/-- It is a time-based code, and no recovery code is asked for. -/
def oneTime (cfg : Config) (s : Submission) : Bool :=
  verifyTOTP macs cfg.totpSecret (trimSpace s.code) s.now

/-- The hashes that belong to a code under a key. -/
def hashesOf (key : String) (hashes : List String) (s : Submission) : List String :=
  hashes.filter (candidate macs (trimSpace s.code) key)

/-- The code belongs to one of the stored hashes. -/
def Unspent (cfg : Config) (s : Submission) : Prop :=
  hashesOf macs cfg.sessionSecret cfg.recoveryCodeHashes s ≠ []

/-- How often the code was submitted as a recovery code. -/
def submittedIn (cfg : Config) (before : List Submission) (s : Submission) : Nat :=
  before.countP fun x => !oneTime macs cfg x && read x = read s

/-- Every code that is unspent in the archive is accepted when it is first submitted to the installed
configuration and not again, whatever else is submitted, and no other code is accepted. -/
def AcceptedOnce (archive installed : Config) : Prop :=
  ∀ before s, oneTime macs installed s = false →
    ((submit macs (after macs installed before) s).1 = true ↔
      Unspent macs archive s ∧ submittedIn macs installed before s = 0)

/-- Under either secret the hashes of the archive belong to the same codes. -/
def SameCodes (archive : Config) (secret : String) : Prop :=
  ∀ s, oneTime macs archive s = false →
    (hashesOf macs archive.sessionSecret archive.recoveryCodeHashes s ≠ [] ↔
      hashesOf macs secret archive.recoveryCodeHashes s ≠ [])

/-- No code has two hashes. -/
def OneHashEach (archive : Config) (secret : String) : Prop :=
  ∀ s, oneTime macs archive s = false →
    (hashesOf macs secret archive.recoveryCodeHashes s).length ≤ 1

/-- The MACs under these keys have no collisions; base64 text has no colon. -/
structure CollisionFree (keys : List String) : Prop where
  sha512 : ∀ k ∈ keys, ∀ k' ∈ keys, ∀ m m', macs.sha512 k m = macs.sha512 k' m' → k = k' ∧ m = m'
  sha256 : ∀ k ∈ keys, ∀ k' ∈ keys, ∀ m m', macs.sha256 k m = macs.sha256 k' m' → k = k' ∧ m = m'
  text : ∀ k ∈ keys, ∀ code, ':' ∉ (legacyRecoveryCodeHash macs code k).toList

variable {macs} {keys hashes : List String} {key key' stored : String} {cfg archive current : Config}

/-! ## Hashes of codes -/

theorem candidate_iff {code : String} : candidate macs code key stored = true ↔
    hashRecoveryCode macs code key = stored ∨ legacyRecoveryCodeHash macs code key = stored := by
  simp [candidate]

theorem prefixed_ne {text other : String} (h : ':' ∉ other.toList) : "sha512:" ++ text ≠ other := by
  intro heq
  apply h
  rw [← heq, String.toList_append]
  simp

/-- A hash belongs to one code under one key. -/
theorem CollisionFree.candidate_inj (h : CollisionFree macs keys) {s x : Submission}
    (hkey : key ∈ keys) (hkey' : key' ∈ keys)
    (hs : candidate macs (trimSpace s.code) key stored = true)
    (hx : candidate macs (trimSpace x.code) key' stored = true) : key = key' ∧ read s = read x := by
  rcases candidate_iff.mp hs with hs | hs <;> rcases candidate_iff.mp hx with hx | hx
  · have heq := hs.trans hx.symm
    exact h.sha512 _ hkey _ hkey' _ _ (String.append_right_inj _ |>.mp heq)
  · exact absurd (hs.trans hx.symm) (prefixed_ne (h.text _ hkey' _))
  · exact absurd (hx.trans hs.symm) (prefixed_ne (h.text _ hkey _))
  · exact h.sha256 _ hkey _ hkey' _ _ (hs.trans hx.symm)

/-- What belongs to a submission depends on the code that is read off it. -/
theorem candidate_congr {s x : Submission} (h : read x = read s) :
    candidate macs (trimSpace x.code) key = candidate macs (trimSpace s.code) key := by
  funext stored
  unfold read at h
  simp only [candidate, hashRecoveryCode, legacyRecoveryCodeHash, h]

theorem consume_cons (code : String) (rest : List String) :
    consumeRecoveryCode macs code key (stored :: rest) =
      if candidate macs code key stored then (rest, true)
      else (stored :: (consumeRecoveryCode macs code key rest).1,
        (consumeRecoveryCode macs code key rest).2) := by
  unfold consumeRecoveryCode
  rw [List.findIdx?_cons]
  by_cases hstored : candidate macs code key stored = true
  · simp [hstored]
  · simp only [hstored, if_false, Bool.false_eq_true]
    cases List.findIdx? (candidate macs code key) rest <;> simp

/-- A code is accepted if it has a hash. -/
theorem consume_used (code : String) (hashes : List String) :
    (consumeRecoveryCode macs code key hashes).2 = true ↔
      hashes.filter (candidate macs code key) ≠ [] := by
  induction hashes with
  | nil => simp [consumeRecoveryCode]
  | cons stored rest ih =>
    rw [consume_cons]
    by_cases hstored : candidate macs code key stored = true
    · simp [hstored]
    · simp only [hstored, if_false, List.filter_cons_of_neg, ih, Bool.false_eq_true, not_false_eq_true]

/-- One hash of the code goes; those of other codes stay. -/
theorem hashesOf_consume (hfree : CollisionFree macs keys) (hkey : key ∈ keys) (s x : Submission)
    (hashes : List String) :
    hashesOf macs key (consumeRecoveryCode macs (trimSpace x.code) key hashes).1 s =
      if read x = read s then (hashesOf macs key hashes s).tail else hashesOf macs key hashes s := by
  unfold hashesOf
  induction hashes with
  | nil => simp [consumeRecoveryCode]
  | cons stored rest ih =>
    rw [consume_cons]
    by_cases hread : read x = read s
    · rw [if_pos hread] at ih ⊢
      have hsame : candidate macs (trimSpace x.code) key stored =
          candidate macs (trimSpace s.code) key stored := congrFun (candidate_congr hread) stored
      by_cases hstored : candidate macs (trimSpace s.code) key stored = true
      · simp [hsame, hstored]
      · simp only [hsame, hstored, if_false, List.filter_cons_of_neg, Bool.false_eq_true,
          not_false_eq_true, ih]
    · rw [if_neg hread] at ih ⊢
      by_cases hstored : candidate macs (trimSpace x.code) key stored = true
      · have hother : ¬ candidate macs (trimSpace s.code) key stored = true := fun hs =>
          hread (hfree.candidate_inj hkey hkey hstored hs).2
        simp [hstored, hother]
      · simp only [hstored, if_false, Bool.false_eq_true, List.filter_cons, ih]

/-! ## Submissions -/

theorem submit_eq {s : Submission} (hsecret : cfg.totpSecret ≠ "") (htime : oneTime macs cfg s = false) :
    submit macs cfg s =
      ((consumeRecoveryCode macs (trimSpace s.code) cfg.sessionSecret cfg.recoveryCodeHashes).2,
        { cfg with recoveryCodeHashes :=
          (consumeRecoveryCode macs (trimSpace s.code) cfg.sessionSecret cfg.recoveryCodeHashes).1 }) := by
  unfold oneTime at htime
  unfold submit verifySecondFactor
  simp only [hsecret, htime, if_false, Bool.false_eq_true, Bool.not_true]
  cases hused : (consumeRecoveryCode macs (trimSpace s.code) cfg.sessionSecret
      cfg.recoveryCodeHashes).2 with
  | true => simp
  | false =>
    have hkept : (consumeRecoveryCode macs (trimSpace s.code) cfg.sessionSecret
        cfg.recoveryCodeHashes).1 = cfg.recoveryCodeHashes := by
      unfold consumeRecoveryCode at hused ⊢
      split at hused
      · cases hused
      · rfl
    simp [hkept]

theorem submit_oneTime {s : Submission} (hsecret : cfg.totpSecret ≠ "")
    (htime : oneTime macs cfg s = true) : submit macs cfg s = (true, cfg) := by
  unfold oneTime at htime
  simp [submit, verifySecondFactor, hsecret, htime]

theorem after_cons (x : Submission) (before : List Submission) :
    after macs cfg (x :: before) = after macs (submit macs cfg x).2 before := rfl

/-- A submission leaves both secrets, and takes one hash of the code it submits. -/
theorem hashesOf_submit (hfree : CollisionFree macs keys) (hkey : cfg.sessionSecret ∈ keys)
    (hsecret : cfg.totpSecret ≠ "") (s x : Submission) :
    (submit macs cfg x).2.totpSecret = cfg.totpSecret ∧
      (submit macs cfg x).2.sessionSecret = cfg.sessionSecret ∧
        hashesOf macs cfg.sessionSecret (submit macs cfg x).2.recoveryCodeHashes s =
          if !oneTime macs cfg x && read x = read s then
            (hashesOf macs cfg.sessionSecret cfg.recoveryCodeHashes s).tail
          else hashesOf macs cfg.sessionSecret cfg.recoveryCodeHashes s := by
  cases htime : oneTime macs cfg x with
  | true =>
    rw [submit_oneTime hsecret htime]
    exact ⟨rfl, rfl, by simp⟩
  | false =>
    rw [submit_eq hsecret htime]
    refine ⟨rfl, rfl, ?_⟩
    simpa using hashesOf_consume hfree hkey s x cfg.recoveryCodeHashes

/-- After some submissions as many hashes of a code are gone as it was submitted. -/
theorem hashesOf_after (hfree : CollisionFree macs keys) (hkey : cfg.sessionSecret ∈ keys)
    (hsecret : cfg.totpSecret ≠ "") (s : Submission) (before : List Submission) :
    (after macs cfg before).totpSecret = cfg.totpSecret ∧
      (after macs cfg before).sessionSecret = cfg.sessionSecret ∧
        hashesOf macs cfg.sessionSecret (after macs cfg before).recoveryCodeHashes s =
          (hashesOf macs cfg.sessionSecret cfg.recoveryCodeHashes s).drop
            (submittedIn macs cfg before s) := by
  induction before generalizing cfg with
  | nil => exact ⟨rfl, rfl, rfl⟩
  | cons x before ih =>
    obtain ⟨htotp, hsession, hhashes⟩ := hashesOf_submit hfree hkey hsecret s x
    have hcount : submittedIn macs (submit macs cfg x).2 before s = submittedIn macs cfg before s := by
      simp only [submittedIn, oneTime, htotp]
    have hrest := @ih (submit macs cfg x).2 (by rwa [hsession]) (by rwa [htotp])
    rw [htotp, hsession, hcount, hhashes] at hrest
    rw [after_cons]
    refine ⟨hrest.1, hrest.2.1, hrest.2.2.trans ?_⟩
    unfold submittedIn
    by_cases hread : (!oneTime macs cfg x && read x = read s) = true
    · rw [if_pos hread, List.countP_cons, if_pos hread, List.drop_tail]
    · rw [if_neg hread, List.countP_cons, if_neg hread, Nat.add_zero]

/-- A code is accepted if more of its hashes are stored than it was submitted before. -/
theorem accepted_iff (hfree : CollisionFree macs keys) (hkey : cfg.sessionSecret ∈ keys)
    (hsecret : cfg.totpSecret ≠ "") {s : Submission} (before : List Submission)
    (htime : oneTime macs cfg s = false) :
    (submit macs (after macs cfg before) s).1 = true ↔ submittedIn macs cfg before s <
      (hashesOf macs cfg.sessionSecret cfg.recoveryCodeHashes s).length := by
  obtain ⟨htotp, hsession, hhashes⟩ := hashesOf_after hfree hkey hsecret s before
  have hs : oneTime macs (after macs cfg before) s = false := by
    rw [oneTime, htotp]
    exact htime
  rw [submit_eq (by rwa [htotp]) hs, hsession, consume_used]
  change hashesOf macs _ (after macs cfg before).recoveryCodeHashes s ≠ [] ↔ _
  rw [hhashes, ne_eq, List.drop_eq_nil_iff, not_le]

/-! ## The import -/

/-- Without a second factor every code is accepted, and nothing is used up. -/
theorem submit_disabled (hsecret : cfg.totpSecret = "") (s : Submission) :
    submit macs cfg s = (true, cfg) := by
  simp [submit, verifySecondFactor, hsecret]

/-- The codes of an archive whose hashes are all of its own secret have hashes under one more secret
only if it is the same. -/
theorem sameCodes_iff {secret : String} (hfree : CollisionFree macs [archive.sessionSecret, secret])
    (hheld : ∃ s, oneTime macs archive s = false ∧ Unspent macs archive s)
    (hown : ∀ stored ∈ archive.recoveryCodeHashes, ∃ s : Submission,
      candidate macs (trimSpace s.code) archive.sessionSecret stored = true) :
    SameCodes macs archive secret ↔ archive.sessionSecret = secret := by
  constructor
  · intro h
    obtain ⟨s, htime, hs⟩ := hheld
    obtain ⟨stored, hstored⟩ := List.exists_mem_of_ne_nil _ ((h s htime).mp hs)
    obtain ⟨hmem, hcurrent⟩ := List.mem_filter.mp hstored
    obtain ⟨x, hx⟩ := hown stored hmem
    exact (hfree.candidate_inj List.mem_cons_self (by simp) hx hcurrent).1
  · intro h s _
    rw [h]

/-- **Where imported codes work.** After an import every code that is unspent in the archive is
accepted once, and no other one, exactly if the archive has a second factor, its hashes belong to the
same codes under the panel's session secret as under its own, and no code has two of them. For an
archive with hashes of its own secret only this is the same secret. -/
theorem acceptedOnce_iff (macs : Macs) (archive current : Config)
    (hfree : CollisionFree macs [archive.sessionSecret, current.sessionSecret])
    (hheld : ∃ s, oneTime macs archive s = false ∧ Unspent macs archive s) :
    (AcceptedOnce macs archive (restore archive current) ↔ archive.totpSecret ≠ "" ∧
      SameCodes macs archive current.sessionSecret ∧
        OneHashEach macs archive current.sessionSecret) ∧
    ((∀ stored ∈ archive.recoveryCodeHashes, ∃ s : Submission,
        candidate macs (trimSpace s.code) archive.sessionSecret stored = true) →
      (SameCodes macs archive current.sessionSecret ↔
        archive.sessionSecret = current.sessionSecret)) := by
  refine ⟨?_, sameCodes_iff hfree hheld⟩
  have haccepted : archive.totpSecret ≠ "" → ∀ before s, oneTime macs archive s = false →
      ((submit macs (after macs (restore archive current) before) s).1 = true ↔
        submittedIn macs archive before s <
          (hashesOf macs current.sessionSecret archive.recoveryCodeHashes s).length) :=
    fun hsecret before s htime =>
      @accepted_iff _ _ (restore archive current) hfree (by simp [restore]) hsecret s before htime
  have hagain : ∀ s, oneTime macs archive s = false → submittedIn macs archive [s] s = 1 :=
    fun s htime => by simp [submittedIn, htime]
  constructor
  · intro h
    have hsecret : archive.totpSecret ≠ "" := by
      intro hnone
      obtain ⟨s, htime, -⟩ := hheld
      have htwice := h [s] s htime
      have hok : (submit macs (after macs (restore archive current) [s]) s).1 = true := by
        rw [after_cons, @submit_disabled macs (restore archive current) hnone]
        change (submit macs (restore archive current) s).1 = true
        rw [@submit_disabled macs (restore archive current) hnone]
      have hzero : submittedIn macs archive [s] s = 0 := (htwice.mp hok).2
      rw [hagain s htime] at hzero
      cases hzero
    refine ⟨hsecret, fun s htime => ?_, fun s htime => ?_⟩
    · have hfirst := (haccepted hsecret [] s htime).symm.trans (h [] s htime)
      have hpositive : submittedIn macs archive [] s = 0 := rfl
      rw [hpositive, List.length_pos_iff] at hfirst
      exact ⟨fun hs => hfirst.mpr ⟨hs, rfl⟩, fun hs => (hfirst.mp hs).1⟩
    · have hsecond := (haccepted hsecret [s] s htime).symm.trans (h [s] s htime)
      by_contra hmany
      have hzero : submittedIn macs archive [s] s = 0 :=
        (hsecond.mp (by rw [hagain s htime]; omega)).2
      rw [hagain s htime] at hzero
      cases hzero
  · intro h before s htime
    obtain ⟨hsecret, hsame, hone⟩ := h
    have hlength := hone s htime
    have hzero : submittedIn macs (restore archive current) before s =
      submittedIn macs archive before s := rfl
    rw [haccepted hsecret before s htime, Unspent, hsame s htime, ← List.length_pos_iff, hzero]
    omega

/-- MACs that put the key before the message, and a panel with one code under the key `north`. -/
def openMacs : Macs :=
  ⟨fun key message => key ++ message, fun key message => key ++ message, fun _ _ => ""⟩

def northern : Config :=
  { Config.default with
    sessionSecret := "north", totpSecret := "SECRET", recoveryCodeHashes := ["sha512:northABCD"] }

def southern : Config := { Config.default with sessionSecret := "south" }

theorem openMacs_collisionFree {keys : List String}
    (h : ∀ k ∈ keys, k = "north" ∨ k = "south") : CollisionFree openMacs keys := by
  have hinj : ∀ k ∈ keys, ∀ k' ∈ keys, ∀ m m' : String,
      k ++ m = k' ++ m' → k = k' ∧ m = m' := by
    intro k hk k' hk' m m' heq
    have hlists := congrArg String.toList heq
    rw [String.toList_append, String.toList_append] at hlists
    have hlength : k.toList.length = k'.toList.length := by
      rcases h k hk with rfl | rfl <;> rcases h k' hk' with rfl | rfl <;> rfl
    obtain ⟨hkeys, hmessages⟩ := List.append_inj hlists hlength
    exact ⟨String.toList_injective hkeys, String.toList_injective hmessages⟩
  refine ⟨hinj, hinj, fun k hk code hmem => ?_⟩
  unfold legacyRecoveryCodeHash openMacs normalizeRecoveryCode at hmem
  rw [String.toList_append, String.toList_ofList, List.mem_append] at hmem
  rcases hmem with hmem | hmem
  · rcases h k hk with rfl | rfl
    all_goals simp at hmem
  · have hcolon := (List.mem_filter.mp hmem).2
    revert hcolon
    decide

theorem northern_unspent :
    oneTime openMacs northern ⟨"abcd", 0⟩ = false ∧ Unspent openMacs northern ⟨"abcd", 0⟩ := by
  constructor
  · decide +kernel
  · have h : (hashesOf openMacs northern.sessionSecret northern.recoveryCodeHashes
        ⟨"abcd", 0⟩).isEmpty = false := by decide +kernel
    intro hnone
    rw [hnone] at h
    cases h

/-- Imported into a panel with the same secret, the code is accepted once. -/
theorem same_secret_acceptedOnce :
    AcceptedOnce openMacs northern (restore northern { southern with sessionSecret := "north" }) := by
  have hfree : CollisionFree openMacs [northern.sessionSecret, "north"] :=
    openMacs_collisionFree fun k hk => by
      simp only [List.mem_cons, List.not_mem_nil, or_false] at hk
      rcases hk with rfl | rfl <;> exact Or.inl rfl
  refine (acceptedOnce_iff openMacs northern { southern with sessionSecret := "north" } hfree
    ⟨_, northern_unspent⟩).1.mpr ⟨by decide, fun s _ => Iff.rfl, fun s _ => ?_⟩
  exact List.length_filter_le _ _

/-- Imported into a panel with another secret, the code is refused. -/
theorem other_secret_refused :
    CollisionFree openMacs [northern.sessionSecret, southern.sessionSecret] ∧
      Unspent openMacs northern ⟨"abcd", 0⟩ ∧
        (submit openMacs (restore northern southern) ⟨"abcd", 0⟩).1 = false ∧
          ¬ AcceptedOnce openMacs northern (restore northern southern) := by
  have hfree : CollisionFree openMacs [northern.sessionSecret, southern.sessionSecret] :=
    openMacs_collisionFree fun k hk => by
      simp only [List.mem_cons, List.not_mem_nil, or_false] at hk
      rcases hk with rfl | rfl
      · exact Or.inl rfl
      · exact Or.inr rfl
  have hrefused : (submit openMacs (restore northern southern) ⟨"abcd", 0⟩).1 = false := by
    decide +kernel
  refine ⟨hfree, northern_unspent.2, hrefused, fun h => ?_⟩
  have hfirst := (h [] ⟨"abcd", 0⟩ northern_unspent.1).mpr ⟨northern_unspent.2, rfl⟩
  rw [after, List.foldl_nil, hrefused] at hfirst
  cases hfirst

end LukePanel.Server.ImportedCodes
