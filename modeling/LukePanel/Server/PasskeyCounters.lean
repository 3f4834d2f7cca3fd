import LukePanel.Library.Machine
import LukePanel.Library.History
import LukePanel.Server.ConfigHandlers

/-! # The counters of passkeys

Passkey logins, registrations and deletions of `internal/server/passkey.go` interleaved: a login
verifies against a copy of the passkeys and writes the counter back under a later lock. -/
namespace LukePanel.Server.PasskeyCounters
open LukePanel.Library
open LukePanel.Library.History (Since Justified)
open LukePanel.Server.ConfigHandlers

/-! ## Runs -/

/-- `VerifyPasskey`. What it has found before it compares the counters is an error, or the counter
that the credential has signed. -/
def verifyPasskey (presented : Except String UInt32) (credential : PasskeyCredential) :
    Except String UInt32 :=
  match presented with
  | .error err => .error err
  | .ok signCount =>
    if 0 < credential.signCount ∧ 0 < signCount ∧ signCount ≤ credential.signCount then
      .error "Passkey 计数异常，可能已被复制"
    else .ok signCount

/-- A login that has been verified and is not written back. -/
structure Verified where
  origin : String
  rpID : String
  id : String
  count : UInt32

inductive Entry where
  | registered (id : String)
  | accepted (id : String) (count : UInt32)
  | deleted (id : String)
deriving DecidableEq

structure State where
  cfg : Config
  verified : List Verified
  history : List Entry

def start (cfg : Config) : State := ⟨cfg, [], []⟩

/-- `written` is whether the save succeeds. -/
inductive Action where
  | verify (origin rpID id : String) (presented : Except String UInt32)
  | finish (index : ℕ) (now : ℕ) (written : Bool)
  | register (origin rpID : String) (credential : PasskeyCredential) (written : Bool)
  | delete (id : String) (written : Bool)

def verify (s : State) (origin rpID id : String) (presented : Except String UInt32) : State :=
  match s.cfg.passkeys.find? (·.id == id) with
  | none => s
  | some credential =>
    match verifyPasskey presented credential with
    | .error _ => s
    | .ok count => { s with verified := s.verified ++ [⟨origin, rpID, credential.id, count⟩] }

/-- A handler that has changed the configuration saves it. -/
def save (s : State) (updated : Option Config) (written : Bool) (entry : Entry) : State :=
  match updated with
  | none => s
  | some updated => if written then ⟨updated, s.verified, entry :: s.history⟩ else s

def finish (s : State) (index : ℕ) (login : Verified) (now : ℕ) (written : Bool) : State :=
  save { s with verified := s.verified.eraseIdx index }
    (passkeyLoginFinish login.origin login.rpID login.id login.count now s.cfg) written
    (.accepted login.id login.count)

def step (s : State) : Action → Option State
  | .verify origin rpID id presented => some (verify s origin rpID id presented)
  | .finish index now written =>
    -- The clock does not show the zero time.
    if now = 0 then none
    else s.verified[index]?.map fun login => finish s index login now written
  | .register origin rpID credential written =>
    some (save s (passkeyRegisterFinish origin rpID { credential with lastUsed := 0 } s.cfg) written
      (.registered credential.id))
  | .delete id written => some (save s (passkeyDelete id s.cfg) written (.deleted id))

/-! ## What counters are for -/

/-- A registration of the credential begins its count anew. -/
def Renews (id : String) : Entry → Prop
  | .registered other => other = id
  | .accepted _ _ | .deleted _ => False

/-- A counter other than zero is accepted once between registrations. -/
def Because : Entry → List Entry → Prop
  | .accepted id count, before => count ≠ 0 → ¬ Since (Renews id) (.accepted id count) before
  | .registered _, _ | .deleted _, _ => True

/-- The counter that is written back is above the stored one, or both are zero, or it is the
stored one and the passkey was not used since it was registered. -/
def Rises (stored : PasskeyCredential) (count : UInt32) : Prop :=
  stored.signCount < count ∨ stored.signCount = 0 ∧ count = 0 ∨
    stored.signCount = count ∧ stored.lastUsed = 0

instance (stored : PasskeyCredential) (count : UInt32) : Decidable (Rises stored count) :=
  inferInstanceAs (Decidable (_ ∨ _))

def Meets (s : State) : Action → Prop
  | .finish index _ written => ∀ login ∈ s.verified[index]?, written = true →
    ∀ stored ∈ s.cfg.passkeys.find? (·.id == login.id), Rises stored login.count
  | .verify _ _ _ _ | .register _ _ _ _ | .delete _ _ => True

instance (s : State) : (a : Action) → Decidable (Meets s a)
  | .finish index _ _ => inferInstanceAs (Decidable (∀ login ∈ s.verified[index]?, _))
  | .verify _ _ _ _ | .register _ _ _ _ | .delete _ _ => inferInstanceAs (Decidable True)

/-! ## What the handlers do to the passkeys -/

variable {s s' : State} {a : Action} {cfg updated : Config} {origin rpID id : String}
  {count : UInt32} {now : ℕ}

def used (stored : PasskeyCredential) (count : UInt32) (now : ℕ) : PasskeyCredential :=
  { stored with signCount := count, lastUsed := now }

/-- A login writes to the passkey of its id. -/
theorem loginFinish_passkeys (h : passkeyLoginFinish origin rpID id count now cfg = some updated) :
    ∃ before stored after, cfg.passkeys = before ++ stored :: after ∧
      cfg.passkeys.find? (·.id == id) = some stored ∧ stored.id = id ∧
      updated.passkeys = before ++ used stored count now :: after := by
  unfold passkeyLoginFinish at h
  dsimp only at h
  rw [pinWebAuthn_passkeys] at h
  split at h
  · cases h
  · rename_i i hfind
    obtain ⟨hi, hid, hfirst⟩ := List.findIdx?_eq_some_iff_getElem.mp hfind
    have hsplit : cfg.passkeys =
        cfg.passkeys.take i ++ cfg.passkeys[i] :: cfg.passkeys.drop (i + 1) := by
      rw [← List.drop_eq_getElem_cons hi, List.take_append_drop]
    refine ⟨cfg.passkeys.take i, cfg.passkeys[i], cfg.passkeys.drop (i + 1), hsplit, ?_, ?_, ?_⟩
    · refine List.find?_eq_some_iff_append.mpr ⟨hid, _, _, hsplit, fun other hother => ?_⟩
      obtain ⟨j, hj, rfl⟩ := List.mem_take_iff_getElem.mp hother
      simpa using hfirst j (by omega)
    · simpa using hid
    · rw [← Option.some.inj h]
      exact List.modify_eq_take_cons_drop hi

theorem registerFinish_passkeys {credential : PasskeyCredential}
    (h : passkeyRegisterFinish origin rpID credential cfg = some updated) :
    (∀ item ∈ cfg.passkeys, item.id ≠ credential.id) ∧
      updated.passkeys = cfg.passkeys ++ [credential] := by
  unfold passkeyRegisterFinish at h
  dsimp only at h
  rw [pinWebAuthn_passkeys] at h
  split at h
  · cases h
  rename_i hnew
  split at h
  · cases h
  · rw [← Option.some.inj h]
    exact ⟨fun item hitem hid => hnew (List.any_eq_true.mpr ⟨item, hitem, by simp [hid]⟩), rfl⟩

theorem delete_passkeys (h : passkeyDelete id cfg = some updated) :
    updated.passkeys = cfg.passkeys.filter fun item => !(item.id == id) := by
  unfold passkeyDelete at h
  split at h
  · rw [← Option.some.inj h]
  · cases h

/-! ## What a step keeps -/

/-- The ids are distinct, and a stored counter is at least every one accepted. -/
structure Inv (s : State) : Prop where
  distinct : (s.cfg.passkeys.map (·.id)).Nodup
  above : ∀ stored ∈ s.cfg.passkeys, ∀ count,
    Since (Renews stored.id) (.accepted stored.id count) s.history →
      count ≤ stored.signCount ∧ stored.lastUsed ≠ 0
  justified : Justified Because s.history

/-- What a step may do to the passkey of an id. -/
def Grows (before after : List PasskeyCredential) (id : String) : Prop :=
  ∀ stored ∈ before, stored.id = id → ∃ kept ∈ after, kept.id = id ∧
    stored.signCount ≤ kept.signCount

/-- A step leaves the history, or adds an entry after which the counters are still in order. -/
structure Advance (s s' : State) : Prop where
  inv : Inv s'
  adds : ∃ new, s'.history = new ++ s.history
  grows : ∀ id, (∃ later, s'.history = later ++ s.history ∧ .deleted id ∉ later) →
    Grows s.cfg.passkeys s'.cfg.passkeys id

theorem Advance.of_same (h : Inv s) (hcfg : s'.cfg = s.cfg) (hhistory : s'.history = s.history) :
    Advance s s' := by
  refine ⟨⟨hcfg ▸ h.distinct, ?_, hhistory ▸ h.justified⟩, ⟨[], hhistory⟩,
    fun id _ stored hstored hid => ?_⟩
  · rw [hcfg, hhistory]
    exact h.above
  · exact ⟨stored, hcfg ▸ hstored, hid, UInt32.le_refl _⟩

/-- A counter that rises is at least the stored one, and was not accepted before unless it is
zero. -/
theorem Inv.of_rises (h : Inv s) {stored : PasskeyCredential} (hstored : stored ∈ s.cfg.passkeys)
    (hrises : Rises stored count) : stored.signCount ≤ count ∧
      Because (.accepted stored.id count) s.history := by
  refine ⟨?_, fun hcount hsince => ?_⟩
  · rcases hrises with hlt | ⟨hzero, rfl⟩ | ⟨heq, _⟩
    · exact UInt32.le_of_lt hlt
    · rw [hzero]
      exact UInt32.le_refl _
    · rw [heq]
      exact UInt32.le_refl _
  · obtain ⟨hle, hused⟩ := h.above stored hstored count hsince
    rcases hrises with hlt | ⟨_, hzero⟩ | ⟨_, hunused⟩
    · exact absurd (UInt32.lt_of_lt_of_le hlt hle) (UInt32.lt_irrefl _)
    · exact hcount hzero
    · exact hused hunused

/-- The entries about other passkeys say nothing about this one. -/
theorem since_accepted_cons {x : Entry} {history : List Entry} (hx : ∀ c, x ≠ .accepted id c)
    (h : Since (Renews id) (.accepted id count) (x :: history)) :
    ¬ Renews id x ∧ Since (Renews id) (.accepted id count) history :=
  h.of_cons.resolve_left (hx count)

/-- A save that does not succeed changes nothing. -/
theorem Advance.save (h : Inv s) {updated : Option Config} {written : Bool} {entry : Entry}
    (hsave : ∀ cfg, updated = some cfg → written = true →
      Advance s ⟨cfg, s.verified, entry :: s.history⟩) :
    Advance s (PasskeyCounters.save s updated written entry) := by
  unfold PasskeyCounters.save
  split
  · exact .of_same h rfl rfl
  · split
    · exact hsave _ rfl ‹_›
    · exact .of_same h rfl rfl

theorem mem_used {before after : List PasskeyCredential} {middle item : PasskeyCredential}
    (h : item ∈ before ++ middle :: after) : item ∈ before ++ after ∨ item = middle := by
  simp only [List.mem_append, List.mem_cons] at h ⊢
  tauto

theorem mem_around {before after : List PasskeyCredential} {middle item : PasskeyCredential}
    (h : item ∈ before ++ after) : item ∈ before ++ middle :: after := by
  simp only [List.mem_append, List.mem_cons] at h ⊢
  tauto

/-- A login whose counter rises is written back. -/
theorem Advance.accept (h : Inv s) {verified : List Verified}
    (hlogin : passkeyLoginFinish origin rpID id count now s.cfg = some updated) (hnow : now ≠ 0)
    (hrises : ∀ stored ∈ s.cfg.passkeys.find? (·.id == id), Rises stored count) :
    Advance s ⟨updated, verified, .accepted id count :: s.history⟩ := by
  obtain ⟨before, stored, after, hbefore, hfind, rfl, hafter⟩ := loginFinish_passkeys hlogin
  have hstored : stored ∈ s.cfg.passkeys := hbefore ▸ by simp
  obtain ⟨hle, hbecause⟩ := h.of_rises hstored (hrises stored hfind)
  have hids : updated.passkeys.map (·.id) = s.cfg.passkeys.map (·.id) := by
    rw [hbefore, hafter]
    simp [used]
  have hdistinct := h.distinct
  rw [hbefore, List.map_append, List.map_cons] at hdistinct
  have hother : ∀ item ∈ before ++ after, item.id ≠ stored.id := by
    intro item hitem hid
    rw [List.nodup_append] at hdistinct
    rcases List.mem_append.mp hitem with hmem | hmem
    · exact hdistinct.2.2 item.id (List.mem_map_of_mem hmem) stored.id List.mem_cons_self hid
    · exact (List.nodup_cons.mp hdistinct.2.1).1 (hid ▸ List.mem_map_of_mem hmem)
  refine ⟨⟨hids ▸ h.distinct, fun item hitem c hsince => ?_, hbecause, h.justified⟩, ⟨[_], rfl⟩,
    fun id _ item hitem hid => ?_⟩
  · rcases mem_used (hafter ▸ hitem) with hmem | rfl
    · have hitem : item ∈ s.cfg.passkeys := hbefore ▸ mem_around hmem
      refine h.above item hitem c (since_accepted_cons (fun d heq => ?_) hsince).2
      exact hother item hmem (Entry.accepted.inj heq).1.symm
    · rcases hsince.of_cons with heq | ⟨_, hsince⟩
      · cases heq
        exact ⟨UInt32.le_refl _, hnow⟩
      · exact ⟨UInt32.le_trans (h.above stored hstored c hsince).1 hle, hnow⟩
  · show ∃ kept ∈ updated.passkeys, _
    rcases mem_used (hbefore ▸ hitem) with hmem | rfl
    · exact ⟨item, hafter ▸ mem_around hmem, hid, UInt32.le_refl _⟩
    · exact ⟨used item count now, hafter ▸ by simp, hid, hle⟩

theorem Advance.register (h : Inv s) {credential : PasskeyCredential}
    (hregister : passkeyRegisterFinish origin rpID credential s.cfg = some updated) :
    Advance s ⟨updated, s.verified, .registered credential.id :: s.history⟩ := by
  obtain ⟨hnew, hafter⟩ := registerFinish_passkeys hregister
  refine ⟨⟨?_, fun item hitem c hsince => ?_, trivial, h.justified⟩, ⟨[_], rfl⟩,
    fun id _ stored hstored hid => ⟨stored, ?_, hid, UInt32.le_refl _⟩⟩
  · show (updated.passkeys.map (·.id)).Nodup
    rw [hafter, List.map_append, List.nodup_append]
    refine ⟨h.distinct, by simp, fun a ha b hb hab => ?_⟩
    obtain ⟨item, hitem, rfl⟩ := List.mem_map.mp ha
    have hb : b = credential.id := by simpa using hb
    exact hnew item hitem (hab.trans hb)
  · obtain ⟨hrenews, hsince⟩ := since_accepted_cons (fun _ heq => by cases heq) hsince
    rcases List.mem_append.mp (hafter ▸ hitem) with hold | hlast
    · exact h.above item hold c hsince
    · rw [List.mem_singleton.mp hlast] at hrenews
      exact absurd rfl hrenews
  · show stored ∈ updated.passkeys
    rw [hafter]
    exact List.mem_append_left _ hstored

theorem Advance.delete (h : Inv s) (hdelete : passkeyDelete id s.cfg = some updated) :
    Advance s ⟨updated, s.verified, .deleted id :: s.history⟩ := by
  have hafter := delete_passkeys hdelete
  refine ⟨⟨?_, fun item hitem c hsince => ?_, trivial, h.justified⟩, ⟨[_], rfl⟩,
    fun other hlater stored hstored hid => ⟨stored, ?_, hid, UInt32.le_refl _⟩⟩
  · show (updated.passkeys.map (·.id)).Nodup
    rw [hafter]
    exact h.distinct.sublist (List.filter_sublist.map _)
  · have hitem : item ∈ updated.passkeys := hitem
    rw [hafter] at hitem
    have hbefore := since_accepted_cons (fun _ heq => by cases heq) hsince
    exact h.above item (List.mem_of_mem_filter hitem) c hbefore.2
  · obtain ⟨later, hhistory, hdeleted⟩ := hlater
    have hlater : [.deleted id] = later :=
      List.append_cancel_right (show [.deleted id] ++ s.history = later ++ s.history from hhistory)
    have hne : stored.id ≠ id := fun heq => hdeleted (by simp [← hlater, ← hid, heq])
    show stored ∈ updated.passkeys
    rw [hafter]
    exact List.mem_filter.mpr ⟨hstored, by simp [hne]⟩

/-! ## Runs -/

theorem Advance.step (h : Inv s) (hm : Meets s a) (hstep : PasskeyCounters.step s a = some s') :
    Advance s s' := by
  cases a with
  | verify origin rpID id presented =>
    rw [← Option.some.inj hstep]
    unfold verify
    split
    · exact .of_same h rfl rfl
    · split
      · exact .of_same h rfl rfl
      · exact .of_same h rfl rfl
  | finish index now written =>
    simp only [PasskeyCounters.step, Option.ite_none_left_eq_some] at hstep
    obtain ⟨hnow, hstep⟩ := hstep
    obtain ⟨login, hlogin, rfl⟩ := Option.map_eq_some_iff.mp hstep
    have hkept : Advance s { s with verified := s.verified.eraseIdx index } := .of_same h rfl rfl
    have hsave : Advance { s with verified := s.verified.eraseIdx index }
        (finish s index login now written) := by
      refine .save hkept.inv fun updated hupdated hwritten => ?_
      exact .accept hkept.inv hupdated hnow (hm login hlogin hwritten)
    exact ⟨hsave.inv, hsave.adds, hsave.grows⟩
  | register origin rpID credential written =>
    rw [← Option.some.inj hstep]
    refine .save h fun updated hupdated _ => ?_
    have hregister := Advance.register h hupdated
    exact hregister
  | delete id written =>
    rw [← Option.some.inj hstep]
    exact .save h fun updated hupdated _ => .delete h hupdated

/-- What holds of the counters in a state of a run. -/
structure CountersKept (guard : State → Action → Prop) (s : State) : Prop where
  /-- No stored counter goes down until its passkey is deleted. -/
  grows : ∀ s', Machine.Reaches step guard s s' → ∀ stored ∈ s.cfg.passkeys,
    (∃ later, s'.history = later ++ s.history ∧ .deleted stored.id ∉ later) →
      ∃ kept ∈ s'.cfg.passkeys, kept.id = stored.id ∧ stored.signCount ≤ kept.signCount
  /-- No counter but zero has been accepted twice since a registration. -/
  once : ∀ later before id count, s.history = later ++ .accepted id count :: before →
    count ≠ 0 → ¬ Since (Renews id) (.accepted id count) before

theorem Inv.grows (h : Inv s) (hrun : Machine.Reaches step Meets s s') :
    ∃ later, s'.history = later ++ s.history ∧ ∀ stored ∈ s.cfg.passkeys,
      .deleted stored.id ∉ later →
        ∃ kept ∈ s'.cfg.passkeys, kept.id = stored.id ∧ stored.signCount ≤ kept.signCount := by
  refine (hrun.invariant_under (I := Inv) (P := fun t => ∃ later, t.history = later ++ s.history ∧
    ∀ stored ∈ s.cfg.passkeys, .deleted stored.id ∉ later → ∃ kept ∈ t.cfg.passkeys,
      kept.id = stored.id ∧ stored.signCount ≤ kept.signCount) h ?_
    (fun _ _ _ hinv hm hstep => (Advance.step hinv hm hstep).inv) ?_)
  · exact ⟨[], rfl, fun stored hstored _ => ⟨stored, hstored, rfl, UInt32.le_refl _⟩⟩
  · rintro t a u hinv ⟨later, hlater, hkept⟩ hm hstep
    have hadvance := Advance.step hinv hm hstep
    obtain ⟨new, hnew⟩ := hadvance.adds
    refine ⟨new ++ later, by rw [hnew, hlater, List.append_assoc], fun stored hstored hdel => ?_⟩
    rw [List.mem_append, not_or] at hdel
    obtain ⟨mid, hmid, hid, hle⟩ := hkept stored hstored hdel.2
    obtain ⟨kept, hmem, hkid, hkle⟩ := hadvance.grows stored.id ⟨new, hnew, hdel.1⟩ mid hmid hid
    exact ⟨kept, hmem, hkid, UInt32.le_trans hle hkle⟩

/-- **The counters are kept in every state that logins with rising counters lead to.** -/
theorem counters_kept (hids : (cfg.passkeys.map (·.id)).Nodup)
    (h : Machine.Reaches step Meets (start cfg) s) : CountersKept Meets s := by
  have hstart : Inv (start cfg) := by
    refine ⟨hids, fun stored _ count hsince => ?_, trivial⟩
    have hmem := hsince.mem
    cases hmem
  have hinv : Inv s := h.invariant (P := Inv) hstart
    fun _ _ _ hinv hm hstep => (Advance.step hinv hm hstep).inv
  refine ⟨fun s' hrun stored hstored hlater => ?_, fun later before id count hhistory hcount => ?_⟩
  · obtain ⟨later, hhistory, hdel⟩ := hlater
    obtain ⟨later', hhistory', hkept⟩ := hinv.grows hrun
    have heq : later = later' := List.append_cancel_right (hhistory.symm.trans hhistory')
    exact hkept stored hstored (heq ▸ hdel)
  · exact (hhistory ▸ hinv.justified).of_append hcount

/-! ## Concrete runs -/

def passkey (id : String) (signCount : UInt32) : PasskeyCredential :=
  ⟨id, Utf8.encode "laptop", "", "", signCount, 1, 0⟩

/-- Two logins one after the other, and the credential is registered again after it is deleted. -/
theorem counters_rise : ∃ s, Machine.Reaches step Meets (start Config.default) s ∧
    s.history.length = 5 ∧ CountersKept Meets s := by
  have hrun : (Machine.runIf step (fun s a => decide (Meets s a)) (start Config.default)
      [.register "https://panel" "panel" (passkey "key" 5) true,
        .verify "https://panel" "panel" "key" (.ok 7), .finish 0 1 true,
        .verify "https://panel" "panel" "key" (.ok 8), .finish 0 2 true, .delete "key" true,
        .register "https://panel" "panel" (passkey "key" 7) true]).map (·.history.length) =
      some 5 := by decide +kernel
  obtain ⟨s, hs, hlength⟩ := Option.map_eq_some_iff.mp hrun
  have hreach := Machine.reaches_of_runIf (fun _ _ h => of_decide_eq_true h) hs
  exact ⟨s, hreach, hlength, counters_kept (by decide) hreach⟩

/-- A login with the counter zero takes the stored counter back, and an old one is accepted
again. -/
theorem zero_counter_lowers : ∃ s, Machine.Reaches step Machine.Free (start Config.default) s ∧
    ¬ CountersKept Machine.Free s := by
  have hrun : (Machine.run step (start Config.default)
      [.register "https://panel" "panel" (passkey "key" 5) true,
        .verify "https://panel" "panel" "key" (.ok 7), .finish 0 1 true,
        .verify "https://panel" "panel" "key" (.ok 0), .finish 0 2 true,
        .verify "https://panel" "panel" "key" (.ok 7), .finish 0 3 true]).map State.history =
      some [.accepted "key" 7, .accepted "key" 0, .accepted "key" 7, .registered "key"] := by
    decide +kernel
  obtain ⟨s, hs, hhistory⟩ := Option.map_eq_some_iff.mp hrun
  refine ⟨s, Machine.reaches_of_run hs, fun hkept => ?_⟩
  have hbefore : Since (Renews "key") (.accepted "key" 7)
      [.accepted "key" 0, .accepted "key" 7, .registered "key"] := (Since.here _ _ _).cons nofun
  exact hkept.once [] _ "key" 7 hhistory (by decide) hbefore

end LukePanel.Server.PasskeyCounters
