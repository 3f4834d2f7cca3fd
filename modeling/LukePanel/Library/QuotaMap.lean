import Mathlib.Data.List.AList

/-! # Counting the items of a map

Maps whose items are counted by a property: what inserting, erasing and sweeping do to a
count. -/
namespace LukePanel.Library.QuotaMap

variable {α β : Type*} {p q : β → Bool}

/-- A map with its entries listed. -/
abbrev Map (α β : Type*) := AList fun _ : α => β

def size (m : Map α β) : ℕ := m.entries.length

def count (p : β → Bool) (m : Map α β) : ℕ := m.entries.countP fun entry => p entry.2

/-- The entries whose items are to be kept. -/
def sweep (keep : β → Bool) (m : Map α β) : Map α β :=
  ⟨m.entries.filter fun entry => keep entry.2, m.nodupKeys.sublist List.filter_sublist⟩

/-! ## Counts -/

theorem count_le_of_sublist {m m' : Map α β} (h : m'.entries.Sublist m.entries) :
    count p m' ≤ count p m ∧ size m' ≤ size m :=
  ⟨h.countP_le, h.length_le⟩

theorem count_mono (h : ∀ x, p x = true → q x = true) (m : Map α β) : count p m ≤ count q m :=
  List.countP_mono_left fun entry _ => h entry.2

theorem count_sweep_le (p keep : β → Bool) (m : Map α β) :
    count p (sweep keep m) ≤ count p m ∧ size (sweep keep m) ≤ size m :=
  count_le_of_sublist List.filter_sublist

variable [DecidableEq α] {a b : α} {x y : β}

/-! ## Entries -/

theorem lookup_of_erase {m : Map α β} (h : (m.erase b).lookup a = some x) :
    a ≠ b ∧ m.lookup a = some x := by
  have hne : a ≠ b := by
    rintro rfl
    rw [AList.lookup_erase] at h
    cases h
  exact ⟨hne, by rwa [AList.lookup_erase_ne hne] at h⟩

theorem lookup_of_insert {m : Map α β} (h : (m.insert b y).lookup a = some x) :
    a = b ∧ x = y ∨ m.lookup a = some x := by
  by_cases hab : a = b
  · subst hab
    rw [AList.lookup_insert] at h
    exact .inl ⟨rfl, (Option.some.inj h).symm⟩
  · exact .inr (by rwa [AList.lookup_insert_ne hab] at h)

theorem lookup_of_sweep {m : Map α β} (h : (sweep p m).lookup a = some x) :
    m.lookup a = some x := by
  rw [← Option.mem_def, AList.mem_lookup_iff] at h ⊢
  exact List.mem_of_mem_filter h

/-! ## Counts after an update -/

theorem count_erase_le (p : β → Bool) (a : α) (m : Map α β) :
    count p (m.erase a) ≤ count p m ∧ size (m.erase a) ≤ size m :=
  count_le_of_sublist (List.kerase_sublist a m.entries)

theorem size_insert_le (a : α) (x : β) (m : Map α β) : size (m.insert a x) ≤ size m + 1 := by
  unfold size
  rw [AList.entries_insert, List.length_cons]
  exact Nat.succ_le_succ (List.kerase_sublist a m.entries).length_le

theorem count_insert_le (p : β → Bool) (a : α) (x : β) (m : Map α β) :
    count p (m.insert a x) ≤ count p m + if p x then 1 else 0 := by
  unfold count
  rw [AList.entries_insert, List.countP_cons]
  exact Nat.add_le_add_right (List.kerase_sublist a m.entries).countP_le _

end LukePanel.Library.QuotaMap
