import Mathlib.Data.List.Basic

/-! # The session store

`Store` of `internal/auth/session.go`: sessions kept in memory under the random part of their
token. A cookie whose signature does not verify reaches none of these functions. -/
namespace LukePanel.Auth.SessionStore

structure Session where
  id : String
  username : String
  csrfToken : String
  createdAt : Nat
  expiresAt : Nat
  deriving DecidableEq, Repr

structure Store where
  sessions : List (String × Session)
  ttl : Nat
  deriving DecidableEq, Repr

def newStore (ttl : Nat) : Store := ⟨[], ttl⟩

/-- The ids are base64, so characters are bytes. -/
def shortID (id : String) : String :=
  if 10 < id.length then String.ofList (id.toList.take 10) else id

namespace Store

/-- `raw` and `csrf` are what `randomBytes` yields, encoded. -/
def create (s : Store) (raw csrf username : String) (now : Nat) : Store × Session :=
  let session : Session := ⟨shortID raw, username, csrf, now, now + s.ttl⟩
  ({ s with sessions := (raw, session) :: s.sessions.filter fun e => !(e.1 == raw) }, session)

def delete (s : Store) (id : String) : Store :=
  { s with sessions := s.sessions.filter fun e => !(e.1 == id) }

/-- A session found expired is deleted. -/
def get (s : Store) (id : String) (now : Nat) : Option Session × Store :=
  match s.sessions.lookup id with
  | none => (none, s)
  | some session => if session.expiresAt < now then (none, s.delete id) else (some session, s)

def renameCurrentAndDeleteOthers (s : Store) (sessionID username : String) : Store × Nat :=
  let kept := s.sessions.filter fun e => e.2.id == sessionID
  ({ s with sessions := kept.map fun e => (e.1, { e.2 with username }) },
    s.sessions.length - kept.length)

def deleteAllExcept (s : Store) (sessionID : String) : Store × Nat :=
  let kept := s.sessions.filter fun e => e.2.id == sessionID
  ({ s with sessions := kept }, s.sessions.length - kept.length)

def cleanup (s : Store) (now : Nat) : Store :=
  { s with sessions := s.sessions.filter fun e => !(decide (e.2.expiresAt < now)) }

/-! ## What is left -/

theorem mem_delete {s : Store} {id : String} {e : String × Session}
    (h : e ∈ (s.delete id).sessions) : e ∈ s.sessions := (List.mem_filter.mp h).1

theorem mem_cleanup {s : Store} {now : Nat} {e : String × Session}
    (h : e ∈ (s.cleanup now).sessions) : e ∈ s.sessions := (List.mem_filter.mp h).1

theorem mem_get {s : Store} {id : String} {now : Nat} {e : String × Session}
    (h : e ∈ (s.get id now).2.sessions) : e ∈ s.sessions := by
  unfold get at h
  split at h
  · exact h
  · split at h
    · exact mem_delete h
    · exact h

theorem get_some {s : Store} {id : String} {now : Nat} {session : Session}
    (h : (s.get id now).1 = some session) : (id, session) ∈ s.sessions := by
  unfold get at h
  split at h
  · cases h
  · rename_i found hlookup
    split at h
    · cases h
    · cases h
      obtain ⟨l₁, l₂, hl, _⟩ := List.lookup_eq_some_iff.mp hlookup
      rw [hl]
      exact List.mem_append_right _ List.mem_cons_self

theorem mem_create {s : Store} {raw csrf username : String} {now : Nat} {e : String × Session}
    (h : e ∈ (s.create raw csrf username now).1.sessions) :
    e = (raw, ⟨shortID raw, username, csrf, now, now + s.ttl⟩) ∨ e ∈ s.sessions ∧ e.1 ≠ raw := by
  rcases List.mem_cons.mp h with rfl | hrest
  · exact Or.inl rfl
  · obtain ⟨hmem, hne⟩ := List.mem_filter.mp hrest
    exact Or.inr ⟨hmem, by simpa using hne⟩

/-- Only entries of the kept session are left by a deletion of the others. -/
theorem mem_deleteAllExcept {s : Store} {sessionID : String} {e : String × Session}
    (h : e ∈ (s.deleteAllExcept sessionID).1.sessions) : e ∈ s.sessions ∧ e.2.id = sessionID := by
  obtain ⟨hmem, hid⟩ := List.mem_filter.mp h
  exact ⟨hmem, by simpa using hid⟩

theorem mem_renameCurrent {s : Store} {sessionID username : String} {e : String × Session}
    (h : e ∈ (s.renameCurrentAndDeleteOthers sessionID username).1.sessions) :
    ∃ session, (e.1, session) ∈ s.sessions ∧ session.id = sessionID ∧ e.2.id = sessionID := by
  obtain ⟨e', he', rfl⟩ := List.mem_map.mp h
  obtain ⟨hmem, hid⟩ := List.mem_filter.mp he'
  have hid : e'.2.id = sessionID := by simpa using hid
  exact ⟨e'.2, hmem, hid, hid⟩

end Store

end LukePanel.Auth.SessionStore
