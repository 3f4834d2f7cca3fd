import LukePanel.Library.History
import LukePanel.Server.ConfigHandlers
import Mathlib.Data.List.Induction

/-! # Recovery tokens of the IP allowlist

`ipAllowlist` issues a token when it enables the list, and `ipAllowlistRecover` takes it back: runs
of both, among any other requests that rewrite the configuration. `hashToken` is SHA-256 in
hexadecimal digits. -/
namespace LukePanel.Server.AllowlistRecovery
open LukePanel.Auth.Totp LukePanel.Config LukePanel.Library.History LukePanel.Library.LockedStore
open LukePanel.Library.Machine LukePanel.Server.ConfigHandlers

/-- `15 * time.Minute` in nanoseconds. -/
def recoveryLifetime : Nat := 900000000000

variable (hashToken : String → String)

/-- `ipAllowlist` with what it draws before it takes the lock: `token` at `now`. -/
def allowlist (enabled : Bool) (entries : List String) (token : String) (now : Nat) : Request :=
  .ipAllowlist enabled entries (if enabled then hashToken token else "")
    (if enabled then now + recoveryLifetime else 0)

/-- `ipAllowlistRecover` with a token that is trimmed. -/
def recover (token : String) (now : Nat) : Request := .ipAllowlistRecover (hashToken token) now

/-- The requests that come: those of the two handlers, and those that leave the token alone. -/
inductive Sent : Request → Prop
  | allowlist (enabled : Bool) (entries : List String) (token : String) (now : Nat) :
    Sent (allowlist hashToken enabled entries token now)
  | recover (token : String) (now : Nat) : token ≠ "" → Sent (recover hashToken token now)
  | other (r : Request) : .ipRecoveryHash ∉ touches (.inl r) → Sent r

/-- A request that replaces the token or takes it away. -/
def renews (e : Request ⊕ Config) : Prop := .ipRecoveryHash ∈ touches e

/-- After these requests the token is the one that was issued last, and nothing has taken it away;
it may have been issued before them. -/
def Latest (init : Config) (token : String) (expires : Nat) (before : List (Request ⊕ Config)) :
    Prop :=
  (∃ entries now, Since renews (.inl (allowlist hashToken true entries token now)) before.reverse ∧
    expires = now + recoveryLifetime) ∨
  ((∀ e ∈ before, ¬ renews e) ∧ init.ipRecoveryHash = hashToken token ∧
    init.ipRecoveryExpires = expires)

/-- The request issues the token. -/
def issues (token : String) : Request ⊕ Config → Bool
  | .inl (.ipAllowlist enabled _ hash _) => enabled && hash = hashToken token
  | _ => false

/-- The request takes the token. -/
def accepts (token : String) : Request ⊕ Config → Bool
  | .inl (.ipAllowlistRecover hash _) => hash = hashToken token
  | _ => false

/-- How often the token was issued, before the start and since. -/
def issued (init : Config) (token : String) (answered : List (Request ⊕ Config)) : Nat :=
  (if init.ipRecoveryHash = hashToken token then 1 else 0) + answered.countP (issues hashToken token)

variable {hashToken} {macs : Macs} {init c c' : Config} {s t : State Config Request Config}

/-! ## One request -/

/-- What a request does to the token. -/
inductive Renewed (hashToken : String → String) (c c' : Config) : Request → Prop
  | issued (entries : List String) (token : String) (now : Nat) :
    c'.ipRecoveryHash = hashToken token → c'.ipRecoveryExpires = now + recoveryLifetime →
    Renewed hashToken c c' (allowlist hashToken true entries token now)
  | withdrawn (entries : List String) (token : String) (now : Nat) : c'.ipRecoveryHash = "" →
    Renewed hashToken c c' (allowlist hashToken false entries token now)
  | used (token : String) (now : Nat) : c.ipRecoveryHash = hashToken token →
    now ≤ c.ipRecoveryExpires → c'.ipAllowlistEnabled = false → c'.ipRecoveryHash = "" →
    Renewed hashToken c c' (recover hashToken token now)
  | kept (r : Request) : ¬ renews (.inl r) → c'.ipRecoveryHash = c.ipRecoveryHash →
    c'.ipRecoveryExpires = c.ipRecoveryExpires → Renewed hashToken c c' r

theorem recover_some {token : String} {now : Nat}
    (h : locked macs (recover hashToken token now) c = some c') :
    c.ipRecoveryHash = hashToken token ∧ now ≤ c.ipRecoveryExpires ∧
      c' = { c with ipAllowlistEnabled := false, ipRecoveryHash := "", ipRecoveryExpires := 0 } := by
  simp only [recover, locked, ipAllowlistRecover, Option.ite_none_left_eq_some, Option.some.injEq,
    not_or, not_lt, ne_eq, not_not] at h
  exact ⟨h.1.2.2, h.1.2.1, h.2.symm⟩

theorem renewed_of_locked {r : Request} (hsent : Sent hashToken r) (h : locked macs r c = some c') :
    Renewed hashToken c c' r := by
  cases hsent with
  | allowlist enabled entries token now =>
    cases h
    cases enabled with
    | true => exact .issued entries token now rfl rfl
    | false => exact .withdrawn entries token now rfl
  | recover token now =>
    obtain ⟨hhash, hnow, rfl⟩ := recover_some h
    exact .used token now hhash hnow rfl rfl
  | other r hother =>
    have hexpires : Field.ipRecoveryExpires ∉ touches (.inl r) := by
      cases r <;> simp [touches] at hother ⊢
    have happly : (panel macs).apply c (.inl r) = some c' := h
    exact .kept r hother (frame_apply happly _ hother).symm (frame_apply happly _ hexpires).symm

/-! ## Histories of requests -/

/-- Each request of a history found what the requests before it left. -/
theorem serial_last {before : List (Request ⊕ Config)} {e : Request ⊕ Config}
    (h : (panel macs).serial init (before ++ [e]) = some c') :
    ∃ c, (panel macs).serial init before = some c ∧ (panel macs).apply c e = some c' := by
  obtain ⟨c, c₁, hc, he, hrest⟩ := serial_split h
  simp only [Writers.serial, List.foldlM_nil, Option.pure_def, Option.some.injEq] at hrest
  exact ⟨c, hc, hrest ▸ he⟩

/-- The stored hash is that of the latest token. -/
theorem latest_of_serial (hinj : Function.Injective hashToken) (hne : ∀ token, hashToken token ≠ "")
    {before : List (Request ⊕ Config)} (hsent : ∀ e ∈ before, ∃ r, e = .inl r ∧ Sent hashToken r)
    (h : (panel macs).serial init before = some c) {token : String}
    (htoken : c.ipRecoveryHash = hashToken token) :
    Latest hashToken init token c.ipRecoveryExpires before := by
  induction before using List.reverseRecOn generalizing c with
  | nil =>
    simp only [Writers.serial, List.foldlM_nil, Option.pure_def, Option.some.injEq] at h
    subst h
    exact Or.inr ⟨fun e he => absurd he List.not_mem_nil, htoken, rfl⟩
  | append_singleton before e ih =>
    obtain ⟨d, hd, happly⟩ := serial_last h
    obtain ⟨r, rfl, hr⟩ := hsent e (by simp)
    have hlocked : locked macs r d = some c := happly
    have hbefore := ih (fun e he => hsent e (List.mem_append_left _ he)) hd
    cases renewed_of_locked hr hlocked with
    | issued entries token' now hhash hexpires =>
      obtain rfl : token' = token := hinj (hhash.symm.trans htoken)
      refine Or.inl ⟨entries, now, ?_, hexpires⟩
      rw [List.reverse_append]
      exact Since.here _ _ _
    | withdrawn entries token' now hhash => exact absurd (htoken.symm.trans hhash) (hne token)
    | used token' now _ _ _ hhash => exact absurd (htoken.symm.trans hhash) (hne token)
    | kept r hkept hhash hexpires =>
      rw [hexpires]
      rcases hbefore (hhash.symm.trans htoken) with ⟨entries, now, hsince, heq⟩ | ⟨hnone, hinit⟩
      · refine Or.inl ⟨entries, now, ?_, heq⟩
        rw [List.reverse_append]
        exact hsince.cons hkept
      · refine Or.inr ⟨fun e he => ?_, hinit⟩
        rcases List.mem_append.mp he with he | he
        · exact hnone e he
        · rw [List.mem_singleton.mp he]
          exact hkept

/-- A request that takes the token found it stored, and one that stores it issues it. -/
theorem count_step (hne : ∀ token, hashToken token ≠ "") (token : String) {r : Request}
    (hr : Renewed hashToken c c' r) :
    (if accepts hashToken token (.inl r) then 1 else 0) +
        (if c'.ipRecoveryHash = hashToken token then 1 else 0) ≤
      (if issues hashToken token (.inl r) then 1 else 0) +
        (if c.ipRecoveryHash = hashToken token then 1 else 0) := by
  cases hr with
  | issued entries token' now hhash hexpires =>
    have haccepts : accepts hashToken token (.inl (allowlist hashToken true entries token' now)) =
      false := rfl
    have hissues : issues hashToken token (.inl (allowlist hashToken true entries token' now)) =
      decide (hashToken token' = hashToken token) := rfl
    rw [haccepts, hissues, hhash]
    by_cases htoken : hashToken token' = hashToken token
    · simp [htoken]
    · simp [htoken]
  | withdrawn entries token' now hhash =>
    have haccepts : accepts hashToken token (.inl (allowlist hashToken false entries token' now)) =
      false := rfl
    have hnone : c'.ipRecoveryHash ≠ hashToken token := fun heq => hne token (heq.symm.trans hhash)
    rw [haccepts, if_neg hnone]
    simp
  | used token' now hfound _ _ hhash =>
    have haccepts : accepts hashToken token (.inl (recover hashToken token' now)) =
      decide (hashToken token' = hashToken token) := rfl
    have hnone : c'.ipRecoveryHash ≠ hashToken token := fun heq => hne token (heq.symm.trans hhash)
    rw [haccepts, hfound, if_neg hnone]
    by_cases htoken : hashToken token' = hashToken token
    · simp [htoken]
    · simp [htoken]
  | kept r hkept hhash hexpires =>
    have hneither : issues hashToken token (.inl r) = false ∧
        accepts hashToken token (.inl r) = false := by
      cases r <;> simp [renews, touches, issues, accepts] at hkept ⊢
    rw [hneither.1, hneither.2, hhash]

/-- A token that is stored was issued once more than it was accepted. -/
theorem accepted_of_serial (hne : ∀ token, hashToken token ≠ "") (token : String)
    {before : List (Request ⊕ Config)}
    (hsent : ∀ e ∈ before, ∃ r, e = .inl r ∧ Sent hashToken r)
    (h : (panel macs).serial init before = some c) :
    before.countP (accepts hashToken token) + (if c.ipRecoveryHash = hashToken token then 1 else 0) ≤
      issued hashToken init token before := by
  induction before using List.reverseRecOn generalizing c with
  | nil =>
    simp only [Writers.serial, List.foldlM_nil, Option.pure_def, Option.some.injEq] at h
    subst h
    simp [issued]
  | append_singleton before e ih =>
    obtain ⟨d, hd, happly⟩ := serial_last h
    obtain ⟨r, rfl, hr⟩ := hsent e (by simp)
    have hbefore := ih (fun e he => hsent e (List.mem_append_left _ he)) hd
    have hstep := count_step hne token (renewed_of_locked hr happly)
    unfold issued at hbefore ⊢
    rw [List.countP_append, List.countP_append, List.countP_singleton, List.countP_singleton]
    omega

/-! ## Runs -/

/-- **A recovery token works once, in time, and as long as no other is issued.** In every run of the
two handlers among the other locked requests: a token is accepted no more often than it was issued;
when it is accepted it is the one that was issued last and its time is not over; then the list is off
in the file and in memory; and if the save fails, both are what they were and the token is still
good. -/
theorem recovery_token (macs : Macs) (init : Config) (hinj : Function.Injective hashToken)
    (hne : ∀ token, hashToken token ≠ "")
    (h : Reaches (step (panel macs)) (LockedOnly (Sent hashToken)) (start init) s) :
    (∀ token, s.answered.countP (accepts hashToken token) ≤
      issued hashToken init token s.answered) ∧
    (∀ before token now after, s.answered = before ++ .inl (recover hashToken token now) :: after →
      ∃ expires, Latest hashToken init token expires before ∧ now ≤ expires) ∧
    (∀ i token now updated t, s.thread i = .written (recover hashToken token now) updated →
      step (panel macs) s (.publish i) = some t →
        t.answered = s.answered ++ [.inl (recover hashToken token now)] ∧
          t.file = t.memory ∧ t.memory.ipAllowlistEnabled = false ∧ t.memory.ipRecoveryHash = "") ∧
    (∀ i token now updated t, s.thread i = .holding (recover hashToken token now) updated →
      step (panel macs) s (.write i false) = some t →
        t.file = s.file ∧ t.memory = s.memory ∧ t.file = t.memory ∧
          ∀ later ≤ t.memory.ipRecoveryExpires,
            (locked macs (recover hashToken token later) t.memory).isSome) := by
  obtain ⟨hi, ho⟩ := ordered_of_lockedOnly h
  refine ⟨?_, ?_, ?_, ?_⟩
  · intro token
    have hcount := accepted_of_serial hne token ho.answers hi.history
    omega
  · intro before token now after hsplit
    have hserial := hi.history
    rw [hsplit] at hserial
    obtain ⟨c, c', hc, he, -⟩ := serial_split hserial
    have hlocked : locked macs (recover hashToken token now) c = some c' := he
    obtain ⟨hhash, hnow, -⟩ := recover_some hlocked
    exact ⟨c.ipRecoveryExpires, latest_of_serial hinj hne
      (fun e he => ho.answers e (hsplit ▸ List.mem_append_left _ he)) hc hhash, hnow⟩
  · intro i token now updated t hphase hs
    have hfile := (file_of_lockedOnly h i).2 _ _ hphase
    have hlocked : locked macs (recover hashToken token now) s.memory = some updated :=
      (hi.lock i (recover hashToken token now) updated (by rw [hphase]; rfl)).2
    obtain ⟨-, -, rfl⟩ := recover_some hlocked
    cases did_of_step hs with
    | published hp =>
      rw [hphase] at hp
      cases hp
      exact ⟨rfl, hfile, rfl, rfl⟩
  · intro i token now updated t hphase hs
    have hfile := (file_of_lockedOnly h i).1 _ _ hphase
    have hlocked : locked macs (recover hashToken token now) s.memory = some updated :=
      (hi.lock i (recover hashToken token now) updated (by rw [hphase]; rfl)).2
    obtain ⟨hhash, -, -⟩ := recover_some hlocked
    cases did_of_step hs with
    | failed hp =>
      refine ⟨rfl, rfl, hfile, fun later hlater => ?_⟩
      have hopen : ¬ (s.memory.ipRecoveryHash = "" ∨ s.memory.ipRecoveryExpires < later ∨
          s.memory.ipRecoveryHash ≠ hashToken token) := by
        rw [not_or, not_or]
        exact ⟨fun hnone => hne token (hhash.symm.trans hnone), not_lt.mpr hlater, not_not.mpr hhash⟩
      change (ipAllowlistRecover (hashToken token) later s.memory).isSome = true
      rw [ipAllowlistRecover, if_neg hopen]
      rfl

/-! ## One token -/

/-- A hash that shows the token, and MACs that play no part. -/
def marked (token : String) : String := "#" ++ token

def noMacs : Macs := ⟨fun _ _ => "", fun _ _ => "", fun _ _ => ""⟩

theorem marked_injective : Function.Injective marked :=
  fun _ _ h => String.append_right_inj _ |>.mp h

theorem marked_ne (token : String) : marked token ≠ "" := by
  intro h
  have hlists := congrArg String.toList h
  simp [marked, String.toList_append] at hlists

/-- The list is enabled, and the token comes back at `now`. -/
def issueThenRecover (now : Nat) : List Request :=
  [allowlist marked true ["203.0.113.7"] "token" 0, recover marked "token" now]

theorem sent_issueThenRecover {now : Nat} {r : Request} (h : r ∈ issueThenRecover now) :
    Sent marked r := by
  rcases List.mem_pair.mp h with rfl | rfl
  · exact .allowlist true _ "token" 0
  · exact .recover "token" now (by decide)

/-- A save fails, the next one does not, and the token does not work again. -/
theorem token_used_once : ∃ s : State Config Request Config,
    run (step (panel noMacs)) (start Config.default)
      [.enter 0 (allowlist marked true ["203.0.113.7"] "token" 0), .write 0 true, .publish 0,
        .enter 1 (recover marked "token" 60), .write 1 false,
        .enter 2 (recover marked "token" 60), .write 2 true, .publish 2,
        .enter 3 (recover marked "token" 60)] = some s ∧
    s.answered = (issueThenRecover 60).map Sum.inl ∧
    s.answered.countP (accepts marked "token") ≤ issued marked Config.default "token" s.answered := by
  have hrun : (runIf (step (panel noMacs))
      (lockedOnlyCheck fun r => decide (r ∈ issueThenRecover 60)) (start Config.default)
      [.enter 0 (allowlist marked true ["203.0.113.7"] "token" 0), .write 0 true, .publish 0,
        .enter 1 (recover marked "token" 60), .write 1 false,
        .enter 2 (recover marked "token" 60), .write 2 true, .publish 2,
        .enter 3 (recover marked "token" 60)]).map (fun s => s.answered) =
      some ((issueThenRecover 60).map Sum.inl) := by decide +kernel
  obtain ⟨s, hs, hanswered⟩ := Option.map_eq_some_iff.mp hrun
  have hreach := (reaches_of_runIf lockedOnly_of_check hs).mono fun _ _ h =>
    h.mono fun r hr => sent_issueThenRecover (of_decide_eq_true hr)
  exact ⟨s, run_of_runIf hs, hanswered,
    (recovery_token noMacs Config.default marked_injective marked_ne hreach).1 "token"⟩

/-- At the instant its time is over the token is still accepted. -/
theorem accepted_at_expiry : ¬ ∀ s : State Config Request Config,
    Reaches (step (panel noMacs)) (LockedOnly (Sent marked)) (start Config.default) s →
      ∀ before token now after, s.answered = before ++ .inl (recover marked token now) :: after →
        ∃ expires, Latest marked Config.default token expires before ∧ now < expires := by
  intro h
  have hrun : (runIf (step (panel noMacs))
      (lockedOnlyCheck fun r => decide (r ∈ issueThenRecover recoveryLifetime))
      (start Config.default)
      [.enter 0 (allowlist marked true ["203.0.113.7"] "token" 0), .write 0 true, .publish 0,
        .enter 1 (recover marked "token" recoveryLifetime), .write 1 true, .publish 1]).map
      (fun s => s.answered) = some ((issueThenRecover recoveryLifetime).map Sum.inl) := by
    decide +kernel
  obtain ⟨s, hs, hanswered⟩ := Option.map_eq_some_iff.mp hrun
  have hreach := (reaches_of_runIf lockedOnly_of_check hs).mono fun _ _ h =>
    h.mono fun r hr => sent_issueThenRecover (of_decide_eq_true hr)
  obtain ⟨expires, hlatest, hbefore⟩ := h s hreach
    [.inl (allowlist marked true ["203.0.113.7"] "token" 0)] "token" recoveryLifetime [] hanswered
  rcases hlatest with ⟨entries, now, hsince, hexpires⟩ | ⟨-, hinit, -⟩
  · have hissue := List.mem_singleton.mp hsince.mem
    have htimes : now + recoveryLifetime = 0 + recoveryLifetime := by
      simp only [allowlist, if_true, Sum.inl.injEq, Request.ipAllowlist.injEq] at hissue
      exact hissue.2.2.2
    omega
  · exact marked_ne "token" hinit.symm

end LukePanel.Server.AllowlistRecovery
