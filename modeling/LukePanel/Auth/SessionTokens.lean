import LukePanel.Auth.SessionStore
import LukePanel.Library.Base64
import LukePanel.Library.Utf8
import Mathlib.Data.List.TakeWhile

/-! # Session tokens

`Store` of `internal/auth/session.go` as its callers see it, by signed tokens. Expired sessions are
dropped when they are asked for and by `Cleanup`; neither can be noticed, so that a token is good
until its time is over or something revokes it. -/
namespace LukePanel.Auth.SessionTokens
open LukePanel.Library LukePanel.Auth.SessionStore

variable (mac : List UInt8 → List UInt8 → List UInt8) (secret : String)

/-- `mac` is HMAC-SHA-512 of a message under a key. -/
def sign (id : String) : String := Base64.encodeURLString (mac (Utf8.encode secret) (Utf8.encode id))

/-- The id of a token whose signature is right. -/
def verify (token : String) : Option String :=
  let id := String.ofList (token.toList.takeWhile (· ≠ '.'))
  match token.toList.dropWhile (· ≠ '.') with
  | [] => none
  | _ :: signature =>
    if String.ofList signature = sign mac secret id then some id else none

def tokenOf (id : String) : String := id ++ "." ++ sign mac secret id

/-- `Create`; the bytes are what `randomBytes` yields, if it does. -/
def create (s : Store) (raw csrf : Option (List UInt8)) (username : String) (now : Nat) :
    Store × Option (String × Session) :=
  match raw, csrf with
  | some raw, some csrf =>
    let id := Base64.encodeURLString raw
    let (s, session) := s.create id (Base64.encodeURLString csrf) username now
    (s, some (tokenOf mac secret id, session))
  | _, _ => (s, none)

def get (s : Store) (token : String) (now : Nat) : Option Session × Store :=
  match verify mac secret token with
  | none => (none, s)
  | some id => s.get id now

def delete (s : Store) (token : String) : Store :=
  match verify mac secret token with
  | none => s
  | some id => s.delete id

/-- `List`, in the order that the map yields. -/
def list (s : Store) (now : Nat) : List Session :=
  (s.sessions.filter fun e => now < e.2.expiresAt).map (·.2)

inductive Call where
  | create (raw csrf : Option (List UInt8)) (username : String)
  | get (token : String)
  | delete (token : String)
  | renameCurrentAndDeleteOthers (sessionID username : String)
  | deleteAllExcept (sessionID : String)
  | cleanup
  deriving DecidableEq

def step (s : Store) (now : Nat) : Call → Store
  | .create raw csrf username => (create mac secret s raw csrf username now).1
  | .get token => (get mac secret s token now).2
  | .delete token => delete mac secret s token
  | .renameCurrentAndDeleteOthers sessionID username =>
    (s.renameCurrentAndDeleteOthers sessionID username).1
  | .deleteAllExcept sessionID => (s.deleteAllExcept sessionID).1
  | .cleanup => s.cleanup now

/-- The store after calls at their times, the latest call first. -/
def after (ttl : Nat) : List (Nat × Call) → Store
  | [] => newStore ttl
  | (now, call) :: before => step mac secret (after ttl before) now call

/-! ## Tokens -/

variable {mac secret}

theorem dot_not_mem_id (raw : List UInt8) : '.' ∉ (Base64.encodeURLString raw).toList := by
  rw [Base64.encodeURLString, String.toList_ofList]
  intro h
  obtain ⟨c, hc, heq⟩ := List.mem_map.mp h
  have hmem := Base64.mem_alphabet_of_mem_encode hc
  split at heq
  · exact absurd heq (by decide)
  · split at heq
    · exact absurd heq (by decide)
    · subst heq
      exact absurd hmem (by decide)

/-- A token is verified as that of an id without a dot, and only that one. -/
theorem verify_eq_some_iff {token id : String} (hid : '.' ∉ id.toList) :
    verify mac secret token = some id ↔ token = tokenOf mac secret id := by
  constructor
  · intro h
    have hsplit := List.takeWhile_append_dropWhile (p := (· ≠ '.')) (l := token.toList)
    unfold verify at h
    simp only at h
    split at h
    · cases h
    · rename_i c signature hrest
      have hdot : c = '.' := by
        have := List.head?_dropWhile_not (· ≠ '.') token.toList
        rw [hrest] at this
        simpa using this
      split at h
      · rename_i hsig
        cases h
        rw [hrest, hdot] at hsplit
        rw [tokenOf, ← hsig, ← String.toList_inj]
        simpa using hsplit.symm
      · cases h
  · rintro rfl
    have hall : ∀ c ∈ id.toList, decide (c ≠ '.') = true := fun c hc =>
      decide_eq_true fun heq => hid (heq ▸ hc)
    have htoken : (tokenOf mac secret id).toList = id.toList ++ '.' :: (sign mac secret id).toList := by
      simp [tokenOf]
    unfold verify
    rw [htoken, List.takeWhile_append_of_pos hall, List.dropWhile_append_of_pos hall]
    simp

theorem dot_not_mem_of_verify {token id : String} (h : verify mac secret token = some id) :
    '.' ∉ id.toList := by
  unfold verify at h
  simp only at h
  split at h
  · cases h
  · split at h
    · cases h
      rw [String.toList_ofList]
      exact fun hmem => by simpa using List.mem_takeWhile_imp hmem
    · cases h

/-! ## What the calls mean -/

/-- The session of an id, for those who do not ask what time it is. -/
def track (mac : List UInt8 → List UInt8 → List UInt8) (secret : String) (ttl : Nat)
    (issued : String → Option Session) (now : Nat) (call : Call) (id : String) : Option Session :=
  match call with
  | .create (some raw) (some csrf) username =>
    if Base64.encodeURLString raw = id then
      some ⟨shortID id, username, Base64.encodeURLString csrf, now, now + ttl⟩
    else issued id
  | .delete token => if verify mac secret token = some id then none else issued id
  | .renameCurrentAndDeleteOthers sessionID username =>
    ((issued id).filter (·.id == sessionID)).map fun session => { session with username }
  | .deleteAllExcept sessionID => (issued id).filter (·.id == sessionID)
  | _ => issued id

/-- The store holds the sessions that have been issued, but for some whose time is over. -/
structure Tracks (s : Store) (ttl : Nat) (issued : String → Option Session) (now : Nat) : Prop where
  ttl_eq : s.ttl = ttl
  sound : ∀ e ∈ s.sessions, issued e.1 = some e.2
  complete : ∀ id session, issued id = some session →
    (id, session) ∈ s.sessions ∨ session.expiresAt < now

variable {s : Store} {ttl now later : Nat} {issued : String → Option Session} {id : String}

theorem Tracks.lookup_eq (h : Tracks s ttl issued now) {session : Session} :
    s.sessions.lookup id = some session ↔ (id, session) ∈ s.sessions := by
  constructor
  · intro hlookup
    obtain ⟨l₁, l₂, hl, -⟩ := List.lookup_eq_some_iff.mp hlookup
    exact hl ▸ List.mem_append_right _ List.mem_cons_self
  · intro hmem
    cases hlookup : s.sessions.lookup id with
    | none =>
      rw [List.lookup_eq_none_iff] at hlookup
      simpa using hlookup _ hmem
    | some found =>
      obtain ⟨l₁, l₂, hl, -⟩ := List.lookup_eq_some_iff.mp hlookup
      have hfound := h.sound (id, found) (hl ▸ List.mem_append_right _ List.mem_cons_self)
      exact hfound.symm.trans (h.sound _ hmem)

/-- What is dropped has been expired. -/
theorem Tracks.drop (h : Tracks s ttl issued now) (hle : now ≤ later) {s' : Store}
    (httl : s'.ttl = s.ttl) (hsub : ∀ e ∈ s'.sessions, e ∈ s.sessions)
    (hkept : ∀ e ∈ s.sessions, e ∈ s'.sessions ∨ e.2.expiresAt < later) : Tracks s' ttl issued later :=
  ⟨httl.trans h.ttl_eq, fun e he => h.sound e (hsub e he), fun id session hissued =>
    (h.complete id session hissued).elim (hkept _) fun hexpired => Or.inr (Nat.lt_of_lt_of_le hexpired hle)⟩

theorem Tracks.get (h : Tracks s ttl issued now) (hle : now ≤ later) (id : String) :
    Tracks (s.get id later).2 ttl issued later := by
  cases hlookup : s.sessions.lookup id with
  | none =>
    have hget : (s.get id later).2 = s := by rw [Store.get, hlookup]
    exact h.drop hle (by rw [hget]) (fun e he => hget ▸ he) fun e he => Or.inl (hget.symm ▸ he)
  | some found =>
    by_cases hexpired : found.expiresAt < later
    · have hget : (s.get id later).2 = s.delete id := by
        rw [Store.get, hlookup]
        simp only [hexpired, if_true]
      rw [hget]
      refine h.drop hle rfl (fun e he => Store.mem_delete he) fun e he => ?_
      by_cases heq : e.1 = id
      · have hsame : e.2 = found := by
          have := h.lookup_eq.mpr (show (id, e.2) ∈ s.sessions from heq ▸ he)
          rw [hlookup] at this
          exact (Option.some.inj this).symm
        exact Or.inr (hsame ▸ hexpired)
      · exact Or.inl (List.mem_filter.mpr ⟨he, by simpa using heq⟩)
    · have hget : (s.get id later).2 = s := by
        rw [Store.get, hlookup]
        simp only [hexpired, if_false]
      exact h.drop hle (by rw [hget]) (fun e he => hget ▸ he) fun e he => Or.inl (hget.symm ▸ he)

theorem Tracks.step (h : Tracks s ttl issued now) (hle : now ≤ later) (call : Call) :
    Tracks (step mac secret s later call) ttl (track mac secret ttl issued later call) later := by
  have hkeep : Tracks s ttl issued later := h.drop hle rfl (fun _ he => he) fun _ he => Or.inl he
  cases call with
  | create raw csrf username =>
    cases raw with
    | none => exact hkeep
    | some raw =>
      cases csrf with
      | none => exact hkeep
      | some csrf =>
        refine ⟨h.ttl_eq, fun e he => ?_, fun id session hissued => ?_⟩
        · rcases Store.mem_create he with rfl | ⟨hmem, hne⟩
          · rw [track, if_pos rfl, h.ttl_eq]
          · rw [track, if_neg (Ne.symm hne), h.sound e hmem]
        · rw [track] at hissued
          split at hissued
          · rename_i heq
            cases hissued
            left
            rw [← h.ttl_eq, ← heq]
            exact List.mem_cons_self
          · rename_i hne
            exact (hkeep.complete id session hissued).imp_left fun hmem =>
              List.mem_cons_of_mem _ (List.mem_filter.mpr ⟨hmem, by simpa using Ne.symm hne⟩)
  | get token =>
    rw [SessionTokens.step, SessionTokens.get]
    cases verify mac secret token with
    | none => exact hkeep
    | some id => exact h.get hle id
  | delete token =>
    rw [SessionTokens.step, SessionTokens.delete]
    cases hverify : verify mac secret token with
    | none =>
      refine ⟨h.ttl_eq, fun e he => ?_, fun id session hissued => ?_⟩
      · rw [track, hverify, if_neg nofun, h.sound e he]
      · rw [track, hverify, if_neg nofun] at hissued
        exact hkeep.complete id session hissued
    | some key =>
      refine ⟨h.ttl_eq, fun e he => ?_, fun id session hissued => ?_⟩
      · obtain ⟨hmem, hne⟩ := List.mem_filter.mp he
        have hkey : some key ≠ some e.1 := fun heq => by simp [Option.some.inj heq] at hne
        rw [track, hverify, if_neg hkey, h.sound e hmem]
      · rw [track, hverify] at hissued
        split at hissued
        · cases hissued
        · rename_i hne
          exact (hkeep.complete id session hissued).imp_left fun hmem =>
            List.mem_filter.mpr ⟨hmem, by simpa using fun heq => hne (congrArg some (Eq.symm heq))⟩
  | renameCurrentAndDeleteOthers sessionID username =>
    refine ⟨h.ttl_eq, fun e he => ?_, fun id session hissued => ?_⟩
    · obtain ⟨e', he', rfl⟩ := List.mem_map.mp he
      obtain ⟨hmem, hid⟩ := List.mem_filter.mp he'
      rw [track, h.sound e' hmem, Option.filter_some, if_pos hid]
      rfl
    · obtain ⟨old, hold, rfl⟩ := Option.map_eq_some_iff.mp hissued
      obtain ⟨hold, hid⟩ := Option.filter_eq_some_iff.mp hold
      exact (hkeep.complete id old hold).imp_left fun hmem =>
        List.mem_map.mpr ⟨_, List.mem_filter.mpr ⟨hmem, hid⟩, rfl⟩
  | deleteAllExcept sessionID =>
    refine ⟨h.ttl_eq, fun e he => ?_, fun id session hissued => ?_⟩
    · obtain ⟨hmem, hid⟩ := List.mem_filter.mp he
      rw [track, h.sound e hmem, Option.filter_some, if_pos hid]
    · obtain ⟨hold, hid⟩ := Option.filter_eq_some_iff.mp hissued
      exact (hkeep.complete id session hold).imp_left fun hmem => List.mem_filter.mpr ⟨hmem, hid⟩
  | cleanup =>
    exact h.drop hle rfl (fun _ he => Store.mem_cleanup he) fun e he => by
      by_cases hexpired : e.2.expiresAt < later
      · exact Or.inr hexpired
      · exact Or.inl (List.mem_filter.mpr ⟨he, by simpa using hexpired⟩)

/-! ## Histories of calls -/

variable (mac secret) in
/-- The sessions that a history of calls has issued, the latest call first. -/
def issuedBy (ttl : Nat) : List (Nat × Call) → String → Option Session
  | [] => fun _ => none
  | (now, call) :: before => track mac secret ttl (issuedBy ttl before) now call

theorem tracks_after {history : List (Nat × Call)} (hsorted : history.Pairwise fun c d => d.1 ≤ c.1)
    (hnow : ∀ c ∈ history, c.1 ≤ now) :
    Tracks (after mac secret ttl history) ttl (issuedBy mac secret ttl history) now := by
  induction history generalizing now with
  | nil => exact ⟨rfl, nofun, nofun⟩
  | cons c history ih =>
    obtain ⟨hfirst, hrest⟩ := List.pairwise_cons.mp hsorted
    have hstep : Tracks (after mac secret ttl (c :: history)) ttl
        (issuedBy mac secret ttl (c :: history)) c.1 :=
      (ih hrest hfirst).step (Nat.le_refl c.1) c.2
    exact hstep.drop (hnow c List.mem_cons_self) rfl (fun _ he => he) fun _ he => Or.inl he

variable (mac secret) in
/-- The call ends a session of this id, if there is one. -/
def Call.Ends (id : String) : Call → Prop
  | .create (some raw) (some _) _ => Base64.encodeURLString raw = id
  | .delete token => token = tokenOf mac secret id
  | .renameCurrentAndDeleteOthers sessionID _ | .deleteAllExcept sessionID => shortID id ≠ sessionID
  | _ => False

def Call.newName : Call → Option String
  | .renameCurrentAndDeleteOthers _ username => some username
  | _ => none

variable (mac secret) in
/-- The session was created, nothing has ended it since, and it has the name that it was given
last. -/
def Live (ttl : Nat) (history : List (Nat × Call)) (id : String) (session : Session) : Prop :=
  ∃ since created raw csrf username before,
    history = since ++ (created, .create (some raw) (some csrf) username) :: before ∧
    Base64.encodeURLString raw = id ∧ (∀ c ∈ since, ¬c.2.Ends mac secret id) ∧
    session = ⟨shortID id, (since.findSome? (·.2.newName)).getD username, Base64.encodeURLString csrf,
      created, created + ttl⟩

theorem live_cons {c : Nat × Call} {history : List (Nat × Call)} {session : Session} :
    Live mac secret ttl (c :: history) id session ↔
      (∃ raw csrf username, c.2 = .create (some raw) (some csrf) username ∧
        Base64.encodeURLString raw = id ∧
        session = ⟨shortID id, username, Base64.encodeURLString csrf, c.1, c.1 + ttl⟩) ∨
      ¬c.2.Ends mac secret id ∧ ∃ old, Live mac secret ttl history id old ∧
        session = { old with username := c.2.newName.getD old.username } := by
  constructor
  · rintro ⟨since, created, raw, csrf, username, before, heq, hid, hends, rfl⟩
    cases since with
    | nil =>
      obtain ⟨rfl, rfl⟩ := List.cons.inj heq
      exact Or.inl ⟨raw, csrf, username, rfl, hid, rfl⟩
    | cons d since =>
      obtain ⟨rfl, rfl⟩ := List.cons.inj heq
      refine Or.inr ⟨hends c List.mem_cons_self, _, ⟨since, created, raw, csrf, username, before, rfl,
        hid, fun d hd => hends d (List.mem_cons_of_mem _ hd), rfl⟩, ?_⟩
      rw [List.findSome?_cons]
      cases c.2.newName <;> rfl
  · rintro (⟨raw, csrf, username, hc, hid, rfl⟩ |
      ⟨hends, old, ⟨since, created, raw, csrf, username, before, rfl, hid, hrest, rfl⟩, rfl⟩)
    · exact ⟨[], c.1, raw, csrf, username, history, by rw [← hc]; rfl, hid, nofun, rfl⟩
    · refine ⟨c :: since, created, raw, csrf, username, before, rfl, hid, ?_, ?_⟩
      · exact List.forall_mem_cons.mpr ⟨hends, hrest⟩
      · rw [List.findSome?_cons]
        cases c.2.newName <;> rfl

theorem Live.id_eq {history : List (Nat × Call)} {session : Session}
    (h : Live mac secret ttl history id session) : session.id = shortID id := by
  obtain ⟨_, _, _, _, _, _, -, -, -, rfl⟩ := h
  rfl

/-- What a call leaves of a session, in the words of histories. -/
theorem track_eq_some_iff (hid : '.' ∉ id.toList) {call : Call} {session : Session}
    (hissued : ∀ old, issued id = some old → old.id = shortID id) :
    track mac secret ttl issued now call id = some session ↔
      (∃ raw csrf username, call = .create (some raw) (some csrf) username ∧
        Base64.encodeURLString raw = id ∧
        session = ⟨shortID id, username, Base64.encodeURLString csrf, now, now + ttl⟩) ∨
      ¬call.Ends mac secret id ∧ ∃ old, issued id = some old ∧
        session = { old with username := call.newName.getD old.username } := by
  -- the entry is kept by its own id, which is that of its token
  have hfilter (sessionID : String) (old : Session) :
      (issued id).filter (·.id == sessionID) = some old ↔ shortID id = sessionID ∧ issued id = some old := by
    rw [Option.filter_eq_some_iff]
    constructor
    · exact fun h => ⟨(hissued old h.1).symm.trans (by simpa using h.2), h.1⟩
    · exact fun h => ⟨h.2, by simpa using (hissued old h.2).trans h.1⟩
  cases call with
  | create raw csrf username =>
    cases raw with
    | none => simp [track, Call.Ends, Call.newName]
    | some raw =>
      cases csrf with
      | none => simp [track, Call.Ends, Call.newName]
      | some csrf =>
        by_cases heq : Base64.encodeURLString raw = id
        · simp [track, Call.Ends, heq, eq_comm]
        · simp [track, Call.Ends, Call.newName, heq]
  | get token => simp [track, Call.Ends, Call.newName]
  | cleanup => simp [track, Call.Ends, Call.newName]
  | delete token =>
    simp only [track, verify_eq_some_iff hid]
    by_cases heq : token = tokenOf mac secret id
    · simp [Call.Ends, heq]
    · simp [Call.Ends, Call.newName, heq]
  | renameCurrentAndDeleteOthers sessionID username =>
    simp only [track, Option.map_eq_some_iff, hfilter, Call.Ends, Call.newName, Option.getD_some]
    grind
  | deleteAllExcept sessionID =>
    simp [track, hfilter, Call.Ends, Call.newName]

theorem issuedBy_eq_some_iff (hid : '.' ∉ id.toList) {history : List (Nat × Call)} {session : Session} :
    issuedBy mac secret ttl history id = some session ↔ Live mac secret ttl history id session := by
  induction history generalizing session with
  | nil =>
    refine iff_of_false nofun ?_
    rintro ⟨since, _, _, _, _, _, heq, -⟩
    simp at heq
  | cons c history ih =>
    obtain ⟨now, call⟩ := c
    rw [live_cons, issuedBy, track_eq_some_iff hid fun old hold => (ih.mp hold).id_eq]
    simp only [ih]

theorem get_of_tracks (h : Tracks s ttl issued now) (token : String) (session : Session) :
    (get mac secret s token now).1 = some session ↔ ∃ id, verify mac secret token = some id ∧
      issued id = some session ∧ now ≤ session.expiresAt := by
  rw [get]
  cases verify mac secret token with
  | none => simp
  | some id =>
    simp only [Option.some.injEq, exists_eq_left', Store.get]
    cases hlookup : s.sessions.lookup id with
    | none =>
      refine iff_of_false nofun fun hissued => ?_
      rcases h.complete id session hissued.1 with hmem | hexpired
      · rw [h.lookup_eq.mpr hmem] at hlookup
        cases hlookup
      · exact Nat.not_lt_of_le hissued.2 hexpired
    | some found =>
      have hfound := h.sound _ (h.lookup_eq.mp hlookup)
      simp only at hfound
      simp only [hfound, Option.some.injEq]
      split <;> grind

/-- A token is good exactly from when it was created until its time is over, unless it was deleted
or the sessions but another one were; the times at which it is looked up and cleaned up do not
matter. -/
theorem get_iff_live {history : List (Nat × Call)} (hsorted : history.Pairwise fun c d => d.1 ≤ c.1)
    (hnow : ∀ c ∈ history, c.1 ≤ now) (token : String) (session : Session) :
    (get mac secret (after mac secret ttl history) token now).1 = some session ↔
      ∃ id, token = tokenOf mac secret id ∧ Live mac secret ttl history id session ∧
        now ≤ session.expiresAt := by
  rw [get_of_tracks (tracks_after hsorted hnow)]
  refine exists_congr fun id => ⟨fun ⟨hverify, hissued, hle⟩ => ?_, fun ⟨htoken, hlive, hle⟩ => ?_⟩
  · have hid := dot_not_mem_of_verify hverify
    exact ⟨(verify_eq_some_iff hid).mp hverify, (issuedBy_eq_some_iff hid).mp hissued, hle⟩
  · have hid : '.' ∉ id.toList := by
      obtain ⟨_, _, raw, _, _, _, -, rfl, -, -⟩ := hlive
      exact dot_not_mem_id raw
    exact ⟨(verify_eq_some_iff hid).mpr htoken, (issuedBy_eq_some_iff hid).mpr hlive, hle⟩

theorem get_iff_live_renamed :
    let mac : List UInt8 → List UInt8 → List UInt8 := fun _ message => message
    let history : List (Nat × Call) := [(5, .cleanup), (4, .renameCurrentAndDeleteOthers "AAEC" "root"),
      (2, .get "AAEC."), (1, .create (some [0, 1, 2]) (some [7]) "admin")]
    (get mac "key" (after mac "key" 10 history) "AAEC.QUFFQw" 11).1 =
        some ⟨"AAEC", "root", "Bw", 1, 11⟩ ↔
      ∃ id, "AAEC.QUFFQw" = tokenOf mac "key" id ∧
        Live mac "key" 10 history id ⟨"AAEC", "root", "Bw", 1, 11⟩ ∧ 11 ≤ 11 :=
  get_iff_live (by decide) (by decide) "AAEC.QUFFQw" ⟨"AAEC", "root", "Bw", 1, 11⟩

end LukePanel.Auth.SessionTokens
