import LukePanel.Library.NetAddress

/-! # Addresses are read as they are written

`net.ParseIP` of what `IP.String` writes. -/
namespace LukePanel.Library.NetAddress
open LukePanel.Library.GoStrings

/-! ## Groups of hexadecimal digits -/

theorem hexDigit_digitChar {d : ℕ} (h : d < 16) : hexDigit d.digitChar = some d := by
  have hall : ∀ d : Fin 16, hexDigit (Nat.digitChar d) = some d.val := by decide
  exact hall ⟨d, h⟩

theorem hexText_of_lt {n : ℕ} (h : n < 16) : hexText n = [n.digitChar] := Nat.toDigits_of_lt_base h

theorem hexText_of_le {n : ℕ} (h : 16 ≤ n) :
    hexText n = hexText (n / 16) ++ [(n % 16).digitChar] :=
  Nat.toDigits_of_base_le (by decide) h

theorem isSome_hexDigit_of_mem {n : ℕ} {c : Char} (h : c ∈ hexText n) : (hexDigit c).isSome = true := by
  induction n using Nat.strongRecOn with
  | ind n ih =>
    by_cases hn : n < 16
    · rw [hexText_of_lt hn, List.mem_singleton] at h
      rw [h, hexDigit_digitChar hn]
      rfl
    · rw [hexText_of_le (Nat.not_lt.mp hn), List.mem_append, List.mem_singleton] at h
      rcases h with h | h
      · exact ih (n / 16) (by omega) h
      · rw [h, hexDigit_digitChar (Nat.mod_lt n (by decide))]
        rfl

/-- The value of the digits. -/
theorem foldl_hexText (n : ℕ) :
    (hexText n).foldl (fun n c => n * 16 + (hexDigit c).getD 0) 0 = n := by
  induction n using Nat.strongRecOn with
  | ind n ih =>
    by_cases hn : n < 16
    · rw [hexText_of_lt hn, List.foldl_cons, List.foldl_nil, hexDigit_digitChar hn]
      simp
    · rw [hexText_of_le (Nat.not_lt.mp hn), List.foldl_append, ih (n / 16) (by omega),
        List.foldl_cons, List.foldl_nil, hexDigit_digitChar (Nat.mod_lt n (by decide)),
        Option.getD_some]
      omega

theorem hexText_ne_nil (n : ℕ) : hexText n ≠ [] := Nat.toDigits_ne_nil

theorem length_hexText_le {n : ℕ} (h : n < 65536) : (hexText n).length ≤ 4 :=
  (Nat.length_toDigits_le_iff (by decide) (by decide)).mpr h

/-! ## Reading the groups -/

variable {g room : ℕ} {groups more : List ℕ} {ellipsis : Option ℕ} {rest : List Char} {c : Char}

theorem takeWhile_hexText (h : rest.takeWhile (fun c => (hexDigit c).isSome) = []) :
    (hexText g ++ rest).takeWhile (fun c => (hexDigit c).isSome) = hexText g := by
  rw [List.takeWhile_append_of_pos fun c hc => isSome_hexDigit_of_mem hc, h, List.append_nil]

theorem hexText_fits (h : g < 65536) : ¬ (hexText g = [] ∨ 4 < (hexText g).length) :=
  not_or.mpr ⟨hexText_ne_nil g, Nat.not_lt.mpr (length_hexText_le h)⟩

/-- The group is the last one. -/
theorem readGroups_last (hg : g < 65536) :
    readGroups (room + 1) (hexText g) groups ellipsis = some (groups ++ [g], ellipsis, []) := by
  have htake := @takeWhile_hexText g [] rfl
  rw [List.append_nil] at htake
  rw [readGroups]
  simp only [htake, List.drop_length, if_neg (hexText_fits hg), List.head?_nil, foldl_hexText,
    reduceCtorEq, if_false]

/-- Another group follows. -/
theorem readGroups_next (hg : g < 65536) (hc : c ≠ ':') :
    readGroups (room + 1) (hexText g ++ ':' :: c :: rest) groups ellipsis =
      readGroups room (c :: rest) (groups ++ [g]) ellipsis := by
  have htake := @takeWhile_hexText g (':' :: c :: rest) rfl
  have hdot : ¬ some ':' = some '.' := by decide
  rw [readGroups]
  simp only [htake, List.drop_left, if_neg (hexText_fits hg), List.head?_cons, foldl_hexText,
    if_neg hdot]

/-- The first `::` follows. -/
theorem readGroups_double (hg : g < 65536) :
    readGroups (room + 1) (hexText g ++ ':' :: ':' :: rest) groups none =
      if rest = [] then some (groups ++ [g], some (groups.length + 1), [])
      else readGroups room rest (groups ++ [g]) (some (groups.length + 1)) := by
  have htake := @takeWhile_hexText g (':' :: ':' :: rest) rfl
  have hdot : ¬ some ':' = some '.' := by decide
  rw [readGroups]
  simp only [htake, List.drop_left, if_neg (hexText_fits hg), List.head?_cons, foldl_hexText,
    if_neg hdot, Option.isSome_none, Bool.false_eq_true, if_false, List.length_append,
    List.length_singleton]

/-! ## Groups with colons between -/

theorem joinGroups_cons_cons (g g' : ℕ) (gs : List ℕ) :
    joinGroups (g :: g' :: gs) = hexText g ++ ':' :: joinGroups (g' :: gs) := by
  rw [joinGroups, List.map_cons, List.map_cons, List.intercalate_cons_cons, List.append_assoc]
  rfl

theorem joinGroups_singleton (g : ℕ) : joinGroups [g] = hexText g := by
  simp [joinGroups]

/-- Groups begin with a digit. -/
theorem joinGroups_cons (g : ℕ) (gs : List ℕ) :
    ∃ c rest, joinGroups (g :: gs) = c :: rest ∧ (hexDigit c).isSome = true := by
  have hbegins : ∃ tail, joinGroups (g :: gs) = hexText g ++ tail := by
    cases gs with
    | nil => exact ⟨[], by rw [joinGroups_singleton, List.append_nil]⟩
    | cons g' gs => exact ⟨_, joinGroups_cons_cons g g' gs⟩
  obtain ⟨tail, htail⟩ := hbegins
  cases hg : hexText g with
  | nil => exact absurd hg (hexText_ne_nil g)
  | cons c rest =>
    refine ⟨c, rest ++ tail, by rw [htail, hg, List.cons_append], ?_⟩
    exact isSome_hexDigit_of_mem (n := g) (by rw [hg]; exact List.mem_cons_self)

theorem ne_colon_of_isSome (h : (hexDigit c).isSome = true) : c ≠ ':' := by
  rintro rfl
  revert h
  decide

/-- Groups to the end of the text. -/
theorem readGroups_join {gs : List ℕ} (hne : gs ≠ []) (hlt : ∀ g ∈ gs, g < 65536)
    (hroom : gs.length ≤ room) :
    readGroups room (joinGroups gs) groups ellipsis = some (groups ++ gs, ellipsis, []) := by
  induction gs generalizing room groups with
  | nil => exact absurd rfl hne
  | cons g gs ih =>
    obtain ⟨room, rfl⟩ : ∃ r, room = r + 1 := ⟨room - 1, by simp at hroom; omega⟩
    rw [List.forall_mem_cons] at hlt
    cases gs with
    | nil => rw [joinGroups_singleton, readGroups_last hlt.1]
    | cons g' gs =>
      obtain ⟨c, rest, hrest, hc⟩ := joinGroups_cons g' gs
      rw [joinGroups_cons_cons, hrest, readGroups_next hlt.1 (ne_colon_of_isSome hc), ← hrest,
        ih (List.cons_ne_nil _ _) hlt.2 (by simpa using hroom), List.append_assoc,
        List.singleton_append]

/-- Groups before `::`. -/
theorem readGroups_join_double {gs : List ℕ} (hne : gs ≠ []) (hlt : ∀ g ∈ gs, g < 65536)
    (hroom : gs.length ≤ room) :
    readGroups room (joinGroups gs ++ ':' :: ':' :: rest) groups none =
      if rest = [] then some (groups ++ gs, some (groups.length + gs.length), [])
      else readGroups (room - gs.length) rest (groups ++ gs) (some (groups.length + gs.length)) := by
  induction gs generalizing room groups with
  | nil => exact absurd rfl hne
  | cons g gs ih =>
    obtain ⟨room, rfl⟩ : ∃ r, room = r + 1 := ⟨room - 1, by simp at hroom; omega⟩
    rw [List.forall_mem_cons] at hlt
    cases gs with
    | nil => rw [joinGroups_singleton, readGroups_double hlt.1, List.length_singleton,
        Nat.add_sub_cancel]
    | cons g' gs =>
      obtain ⟨c, tail, htail, hc⟩ := joinGroups_cons g' gs
      rw [joinGroups_cons_cons, List.append_assoc, htail, List.cons_append, List.cons_append,
        readGroups_next hlt.1 (ne_colon_of_isSome hc), ← List.cons_append, ← htail,
        ih (List.cons_ne_nil _ _) hlt.2 (by simpa using hroom)]
      simp only [List.length_append, List.length_cons, List.length_nil, List.append_assoc,
        List.singleton_append]
      have hlength : groups.length + (0 + 1) + (gs.length + 1) = groups.length + (gs.length + 1 + 1) := by
        omega
      have hroom' : room - (gs.length + 1) = room + 1 - (gs.length + 1 + 1) := by omega
      rw [hlength, hroom']

/-! ## Addresses of 128 bits -/

/-- A text that does not begin with `::`. -/
theorem parseIPv6_eq_of_read {at_ : Option ℕ} (hc : c ≠ ':')
    (hread : readGroups 8 (c :: rest) [] none = some (groups, at_, [])) :
    parseIPv6 (c :: rest) =
      if groups.length < 8 then at_.map fun at_ =>
        ofGroups (groups.take at_ ++ List.replicate (8 - groups.length) 0 ++ groups.drop at_)
      else if at_ = none then some (ofGroups groups) else none := by
  have hstart : ∀ more, c :: rest ≠ ':' :: ':' :: more := by
    intro more heq
    exact hc (List.cons.inj heq).1
  unfold parseIPv6
  split
  · rename_i heq
    exact absurd heq (hstart _)
  · dsimp only
    rw [hread, if_neg (by simp)]
    cases at_ with
    | none =>
      dsimp only
      split
      · rfl
      · rw [if_pos rfl]
    | some at_ =>
      dsimp only
      split
      · rfl
      · rw [if_neg (Option.some_ne_none at_)]

/-- Eight groups. -/
theorem parseIPv6_join {gs : List ℕ} (hlt : ∀ g ∈ gs, g < 65536) (hlength : gs.length = 8) :
    parseIPv6 (joinGroups gs) = some (ofGroups gs) := by
  have hne : gs ≠ [] := List.ne_nil_of_length_pos (by omega)
  have hread := @readGroups_join 8 [] none gs hne hlt (Nat.le_of_eq hlength)
  obtain ⟨g, gs, rfl⟩ := List.exists_cons_of_ne_nil hne
  obtain ⟨c, rest, hrest, hc⟩ := joinGroups_cons g gs
  rw [hrest] at hread ⊢
  rw [parseIPv6_eq_of_read (ne_colon_of_isSome hc) hread, List.nil_append, if_neg (by omega),
    if_pos rfl]

/-- Groups on both sides of `::`, which stands for the missing zeros. -/
theorem parseIPv6_double {front back : List ℕ} (hfront : ∀ g ∈ front, g < 65536)
    (hback : ∀ g ∈ back, g < 65536) (hlength : front.length + back.length < 8) :
    parseIPv6 (joinGroups front ++ ':' :: ':' :: joinGroups back) =
      some (ofGroups (front ++ List.replicate (8 - (front.length + back.length)) 0 ++ back)) := by
  cases front with
  | nil =>
    cases back with
    | nil => decide
    | cons g gs =>
      obtain ⟨c, rest, hrest, hc⟩ := joinGroups_cons g gs
      have hread := @readGroups_join 8 [] (some 0) (g :: gs) (List.cons_ne_nil g gs) hback
        (by simp at hlength ⊢; omega)
      have hshort : (g :: gs).length < 8 := by simpa using hlength
      have hchars : joinGroups [] ++ ':' :: ':' :: joinGroups (g :: gs) =
          ':' :: ':' :: joinGroups (g :: gs) := rfl
      have hsome : ¬ (joinGroups (g :: gs) = []) := by rw [hrest]; exact List.cons_ne_nil c rest
      rw [hchars, parseIPv6]
      dsimp only
      rw [hread, if_neg (fun h => hsome h.2)]
      dsimp only
      rw [List.nil_append, if_pos hshort]
      simp
  | cons f fs =>
    obtain ⟨c, rest, hrest, hc⟩ := joinGroups_cons f fs
    have hread := @readGroups_join_double 8 [] (joinGroups back) (f :: fs) (List.cons_ne_nil f fs)
      hfront (by omega)
    have hboth : readGroups 8 (joinGroups (f :: fs) ++ ':' :: ':' :: joinGroups back) [] none =
        some (f :: fs ++ back, some (f :: fs).length, []) := by
      rw [hread]
      cases back with
      | nil => simp [joinGroups]
      | cons g gs =>
        obtain ⟨c', rest', hrest', -⟩ := joinGroups_cons g gs
        have hsome : joinGroups (g :: gs) ≠ [] := by rw [hrest']; exact List.cons_ne_nil c' rest'
        rw [if_neg hsome, readGroups_join (List.cons_ne_nil g gs) hback (by omega)]
        simp
    rw [hrest, List.cons_append] at hboth ⊢
    rw [parseIPv6_eq_of_read (ne_colon_of_isSome hc) hboth, List.length_append, if_pos hlength,
      Option.map_some, List.take_left, List.drop_left]

/-! ## What is written -/

/-- A run of zeros, with its length. -/
def ZeroRun (groups : List ℕ) (start run : ℕ) : Prop :=
  2 ≤ run ∧ run = ((groups.drop start).takeWhile (· = 0)).length

theorem zeroRun_of_longestZeros {start run : ℕ} (h : longestZeros groups = some (start, run)) :
    ZeroRun groups start run := by
  have hall : ∀ (l : List ℕ) (best : Option (ℕ × ℕ)),
      (∀ s r, best = some (s, r) → ZeroRun groups s r) →
      ∀ s r, l.foldl (fun best i =>
        let run := ((groups.drop i).takeWhile (· = 0)).length
        if 2 ≤ run ∧ (best.map (·.2)).getD 0 < run then some (i, run) else best) best =
          some (s, r) → ZeroRun groups s r := by
    intro l
    induction l with
    | nil => exact fun best hbest => hbest
    | cons i l ih =>
      intro best hbest
      refine ih _ fun s r heq => ?_
      dsimp only at heq
      split at heq
      · rename_i hrun
        obtain ⟨rfl, rfl⟩ := Prod.mk.inj (Option.some.inj heq)
        exact ⟨hrun.1, rfl⟩
      · exact hbest s r heq
  exact hall _ none (fun _ _ heq => by cases heq) start run h

/-- The groups before and behind the run. -/
theorem ZeroRun.parts {start run : ℕ} (h : ZeroRun groups start run) :
    groups = groups.take start ++ List.replicate run 0 ++ groups.drop (start + run) ∧
      start + run ≤ groups.length := by
  obtain ⟨htwo, hrun⟩ := h
  have hzeros : (groups.drop start).take run = List.replicate run 0 := by
    have htake := List.prefix_iff_eq_take.mp (List.takeWhile_prefix (· = 0) (l := groups.drop start))
    rw [← hrun] at htake
    rw [← htake]
    refine List.eq_replicate_iff.mpr ⟨hrun.symm, fun g hg => ?_⟩
    have hzero := List.mem_takeWhile_imp hg
    exact of_decide_eq_true hzero
  have hlength : run ≤ (groups.drop start).length := by
    rw [hrun]
    exact (List.takeWhile_prefix _).length_le
  rw [List.length_drop] at hlength
  refine ⟨?_, by omega⟩
  rw [← hzeros, List.append_assoc, ← List.drop_drop, List.take_append_drop, List.take_append_drop]

theorem groupsOf_lt {ip : IP} : ∀ g ∈ groupsOf ip, g < 65536 := by
  intro g hg
  obtain ⟨i, -, rfl⟩ := List.mem_map.mp hg
  exact Nat.mod_lt _ (by decide)

theorem length_groupsOf (ip : IP) : (groupsOf ip).length = 8 := by
  rw [groupsOf, List.length_map, List.length_range]

theorem ofGroups_groupsOf (ip : IP) : ofGroups (groupsOf ip) = ip := by
  have hrange : List.range 8 = [0, 1, 2, 3, 4, 5, 6, 7] := rfl
  have hlt := ip.isLt
  refine BitVec.eq_of_toNat_eq ?_
  simp only [ofGroups, groupsOf, hrange, List.map_cons, List.map_nil, List.foldl_cons, List.foldl_nil,
    BitVec.toNat_ofNat]
  omega

/-- The text of an address of 128 bits. -/
def text6 (groups : List ℕ) : List Char :=
  ((longestZeros groups).map fun (start, run) =>
    joinGroups (groups.take start) ++ ':' :: ':' :: joinGroups (groups.drop (start + run))).getD
      (joinGroups groups)

theorem parseIPv6_text6 (ip : IP) : parseIPv6 (text6 (groupsOf ip)) = some ip := by
  unfold text6
  cases hzeros : longestZeros (groupsOf ip) with
  | none =>
    rw [Option.map_none, Option.getD_none, parseIPv6_join groupsOf_lt (length_groupsOf ip),
      ofGroups_groupsOf]
  | some best =>
    obtain ⟨start, run⟩ := best
    have hrun := zeroRun_of_longestZeros hzeros
    obtain ⟨hparts, hfits⟩ := hrun.parts
    have height := length_groupsOf ip
    have hfront : ((groupsOf ip).take start).length = start := by
      rw [List.length_take]
      omega
    have hback : ((groupsOf ip).drop (start + run)).length = 8 - (start + run) := by
      rw [List.length_drop, height]
    have htwo := hrun.1
    rw [Option.map_some, Option.getD_some, parseIPv6_double
      (fun g hg => groupsOf_lt g (List.mem_of_mem_take hg))
      (fun g hg => groupsOf_lt g (List.mem_of_mem_drop hg)) (by omega), hfront, hback]
    have hmissing : 8 - (start + (8 - (start + run))) = run := by omega
    rw [hmissing, ← hparts, ofGroups_groupsOf]

theorem mem_joinGroups {gs : List ℕ} (h : c ∈ joinGroups gs) :
    (hexDigit c).isSome = true ∨ c = ':' := by
  induction gs with
  | nil => cases h
  | cons g gs ih =>
    cases gs with
    | nil =>
      rw [joinGroups_singleton] at h
      exact Or.inl (isSome_hexDigit_of_mem h)
    | cons g' gs =>
      rw [joinGroups_cons_cons, List.mem_append, List.mem_cons] at h
      rcases h with h | rfl | h
      · exact Or.inl (isSome_hexDigit_of_mem h)
      · exact Or.inr rfl
      · exact ih h

theorem mem_text6 {gs : List ℕ} (h : c ∈ text6 gs) : (hexDigit c).isSome = true ∨ c = ':' := by
  unfold text6 at h
  cases hzeros : longestZeros gs with
  | none =>
    rw [hzeros] at h
    exact mem_joinGroups h
  | some best =>
    rw [hzeros, Option.map_some, Option.getD_some, List.mem_append, List.mem_cons, List.mem_cons] at h
    rcases h with h | h | h | h
    · exact mem_joinGroups h
    · exact Or.inr h
    · exact Or.inr h
    · exact mem_joinGroups h

theorem colon_mem_text6 (ip : IP) : ':' ∈ text6 (groupsOf ip) := by
  unfold text6
  cases longestZeros (groupsOf ip) with
  | none =>
    obtain ⟨g, gs, hgs⟩ := List.exists_cons_of_ne_nil
      (List.ne_nil_of_length_pos (by rw [length_groupsOf ip]; decide : 0 < (groupsOf ip).length))
    cases gs with
    | nil =>
      have hlength := length_groupsOf ip
      rw [hgs] at hlength
      cases hlength
    | cons g' gs =>
      rw [hgs, Option.map_none, Option.getD_none, joinGroups_cons_cons]
      simp
  | some best => simp

theorem find?_text6 (ip : IP) :
    (text6 (groupsOf ip)).find? (fun c => c = '.' ∨ c = ':') = some ':' := by
  cases hfind : (text6 (groupsOf ip)).find? (fun c => c = '.' ∨ c = ':') with
  | none =>
    have hnone := List.find?_eq_none.mp hfind ':' (colon_mem_text6 ip)
    exact absurd (decide_eq_true (Or.inr rfl)) hnone
  | some c =>
    have hfound := List.find?_some hfind
    have hmark : c = '.' ∨ c = ':' := of_decide_eq_true hfound
    rcases mem_text6 (List.mem_of_find?_eq_some hfind) with hhex | rfl
    · rcases hmark with rfl | rfl
      · cases hhex
      · rfl
    · rfl

/-! ## Addresses of 32 bits -/

/-- The text of an address of 32 bits. -/
def text4 (n : ℕ) : List Char :=
  Nat.toDigits 10 (n / 16777216) ++ '.' :: (Nat.toDigits 10 (n / 65536 % 256) ++ '.' ::
    (Nat.toDigits 10 (n / 256 % 256) ++ '.' :: Nat.toDigits 10 (n % 256)))

theorem parseOctet_toDigits {n : ℕ} (h : n < 256) : parseOctet (Nat.toDigits 10 n) = some n := by
  have hall : ∀ n : Fin 256, parseOctet (Nat.toDigits 10 n) = some n.val := by decide +kernel
  exact hall ⟨n, h⟩

theorem dot_not_mem_toDigits (n : ℕ) : '.' ∉ Nat.toDigits 10 n := by
  intro h
  have hdigit := Nat.isDigit_of_mem_toDigits (by decide) (by decide) h
  revert hdigit
  decide

theorem parseIPv4_text4 {n : ℕ} (h : n < 4294967296) :
    parseIPv4 (text4 n) = some (n / 16777216, n / 65536 % 256, n / 256 % 256, n % 256) := by
  have hsplit : (text4 n).splitOn '.' = [Nat.toDigits 10 (n / 16777216),
      Nat.toDigits 10 (n / 65536 % 256), Nat.toDigits 10 (n / 256 % 256),
      Nat.toDigits 10 (n % 256)] := by
    rw [text4, List.splitOn_append_cons_self_of_not_mem (dot_not_mem_toDigits _),
      List.splitOn_append_cons_self_of_not_mem (dot_not_mem_toDigits _),
      List.splitOn_append_cons_self_of_not_mem (dot_not_mem_toDigits _),
      List.splitOn_eq_singleton (dot_not_mem_toDigits _)]
  rw [parseIPv4, hsplit]
  dsimp only
  rw [parseOctet_toDigits (by omega), parseOctet_toDigits (by omega), parseOctet_toDigits (by omega),
    parseOctet_toDigits (by omega)]
  rfl

theorem mem_text4 {n : ℕ} (h : c ∈ text4 n) : c.isDigit = true ∨ c = '.' := by
  have hdigits : ∀ {m : ℕ}, c ∈ Nat.toDigits 10 m → c.isDigit = true := fun hm =>
    Nat.isDigit_of_mem_toDigits (by decide) (by decide) hm
  simp only [text4, List.mem_append, List.mem_cons] at h
  rcases h with h | h | h | h | h | h | h
  · exact Or.inl (hdigits h)
  · exact Or.inr h
  · exact Or.inl (hdigits h)
  · exact Or.inr h
  · exact Or.inl (hdigits h)
  · exact Or.inr h
  · exact Or.inl (hdigits h)

theorem find?_text4 (n : ℕ) : (text4 n).find? (fun c => c = '.' ∨ c = ':') = some '.' := by
  have hnone : (Nat.toDigits 10 (n / 16777216)).find? (fun c => c = '.' ∨ c = ':') = none := by
    refine List.find?_eq_none.mpr fun c hc hmark => ?_
    have hdigit := Nat.isDigit_of_mem_toDigits (by decide) (by decide) hc
    have hmark : c = '.' ∨ c = ':' := of_decide_eq_true hmark
    rcases hmark with rfl | rfl
    · cases hdigit
    · cases hdigit
  rw [text4, List.find?_append, hnone, Option.none_or]
  rfl

/-! ## All addresses -/

theorem toList_string (ip : IP) : ip.string.toList =
    (ip.to4.map fun v4 => text4 v4.toNat).getD (text6 (groupsOf ip)) := by
  unfold IP.string
  cases ip.to4 with
  | none =>
    dsimp only
    unfold text6
    cases longestZeros (groupsOf ip) with
    | none => exact String.toList_ofList
    | some best =>
      dsimp only
      rw [String.toList_ofList, List.append_assoc]
      rfl
  | some v4 =>
    dsimp only
    simp only [String.toList_append, Nat.toString_eq_repr, Nat.toList_repr, List.append_assoc,
      Option.map_some, Option.getD_some, text4]
    rfl

theorem to4_eq_some {ip : IP} {v4 : BitVec 32} (h : ip.to4 = some v4) :
    ip.toNat = 65535 * 4294967296 + v4.toNat := by
  unfold IP.to4 at h
  split at h
  · rename_i hbegin
    rw [← Option.some.inj h, BitVec.toNat_ofNat]
    omega
  · cases h

/-- `net.ParseIP` reads what `IP.String` writes. -/
theorem parseIP_string (ip : IP) : parseIP ip.string = some ip := by
  have hchars := toList_string ip
  cases hip : ip.to4 with
  | none =>
    rw [hip, Option.map_none, Option.getD_none] at hchars
    have hpercent : '%' ∉ text6 (groupsOf ip) := by
      intro h
      rcases mem_text6 h with h | h
      · cases h
      · revert h
        decide
    rw [parseIP]
    dsimp only
    rw [hchars, if_neg hpercent, find?_text6]
    exact parseIPv6_text6 ip
  | some v4 =>
    rw [hip, Option.map_some, Option.getD_some] at hchars
    have hpercent : '%' ∉ text4 v4.toNat := by
      intro h
      rcases mem_text4 h with h | h
      · cases h
      · revert h
        decide
    rw [parseIP]
    dsimp only
    rw [hchars, if_neg hpercent, find?_text4]
    have hlt := v4.isLt
    have hvalue := to4_eq_some hip
    simp only [parseIPv4_text4 hlt, Option.map_some]
    refine congrArg some (BitVec.eq_of_toNat_eq ?_)
    simp only [IP.ofV4, BitVec.toNat_ofNat]
    omega

/-! ## What stands in an address -/

def AddressChar (c : Char) : Prop := (hexDigit c).isSome = true ∨ c = '.' ∨ c = ':'

theorem isDigit_of_parseOctet {field : List Char} {n : ℕ} (h : parseOctet field = some n) :
    ∀ c ∈ field, c.isDigit = true := by
  obtain ⟨⟨-, hdigits, -⟩, -⟩ := Option.ite_none_right_eq_some.mp h
  exact List.all_eq_true.mp hdigits

theorem isDigit_of_parseIPv4 {chars : List Char} {fields : ℕ × ℕ × ℕ × ℕ}
    (h : parseIPv4 chars = some fields) : ∀ c ∈ chars, c.isDigit = true ∨ c = '.' := by
  unfold parseIPv4 at h
  split at h
  · rename_i w x y z hsplit
    simp only [Option.bind_eq_bind, Option.bind_eq_some_iff, Option.pure_def] at h
    obtain ⟨_, hw, _, hx, _, hy, _, hz, -⟩ := h
    have hchars := @List.intercalate_splitOn _ chars _ _ '.'
    rw [hsplit] at hchars
    intro c hc
    rw [← hchars] at hc
    simp only [List.intercalate_cons_cons, List.intercalate_singleton, List.mem_append,
      List.mem_singleton] at hc
    rcases hc with ((hc | rfl) | ((hc | rfl) | ((hc | rfl) | hc)))
    · exact Or.inl (isDigit_of_parseOctet hw c hc)
    · exact Or.inr rfl
    · exact Or.inl (isDigit_of_parseOctet hx c hc)
    · exact Or.inr rfl
    · exact Or.inl (isDigit_of_parseOctet hy c hc)
    · exact Or.inr rfl
    · exact Or.inl (isDigit_of_parseOctet hz c hc)
  · cases h

theorem addressChar_of_parseIPv4 {chars : List Char} {fields : ℕ × ℕ × ℕ × ℕ}
    (h : parseIPv4 chars = some fields) : ∀ c ∈ chars, AddressChar c := by
  intro c hc
  rcases isDigit_of_parseIPv4 h c hc with hdigit | hdot
  · refine Or.inl ?_
    rw [hexDigit, if_pos hdigit]
    rfl
  · exact Or.inr (Or.inl hdot)

/-- What is read, up to what is left. -/
theorem addressChar_of_readGroups {chars : List Char} {at_ : Option ℕ} {gs : List ℕ}
    (h : readGroups room chars groups ellipsis = some (gs, at_, rest)) :
    ∀ c ∈ chars, AddressChar c ∨ c ∈ rest := by
  induction room generalizing chars groups ellipsis with
  | zero =>
    simp only [readGroups, Option.some.injEq, Prod.mk.injEq] at h
    rw [h.2.2]
    exact fun c hc => Or.inr hc
  | succ room ih =>
    rw [readGroups] at h
    dsimp only at h
    obtain ⟨-, h⟩ := Option.ite_none_left_eq_some.mp h
    have hdigits : ∀ c ∈ chars.takeWhile (fun c => (hexDigit c).isSome), AddressChar c := by
      intro c hc
      have hhex := List.mem_takeWhile_imp hc
      exact Or.inl hhex
    have hparts : chars = chars.takeWhile (fun c => (hexDigit c).isSome) ++
        chars.drop (chars.takeWhile fun c => (hexDigit c).isSome).length := by
      have htake := List.prefix_iff_eq_take.mp
        (List.takeWhile_prefix (fun c => (hexDigit c).isSome) (l := chars))
      conv_lhs => rw [← List.take_append_drop (chars.takeWhile fun c => (hexDigit c).isSome).length chars]
      rw [← htake]
    have hmore : (∀ c ∈ chars.drop (chars.takeWhile fun c => (hexDigit c).isSome).length,
        AddressChar c ∨ c ∈ rest) → ∀ c ∈ chars, AddressChar c ∨ c ∈ rest := by
      intro hmore c hc
      rw [hparts] at hc
      rcases List.mem_append.mp hc with hc | hc
      · exact Or.inl (hdigits c hc)
      · exact hmore c hc
    split at h
    · obtain ⟨-, h⟩ := Option.ite_none_left_eq_some.mp h
      obtain ⟨fields, hfields, -⟩ := Option.map_eq_some_iff.mp h
      exact fun c hc => Or.inl (addressChar_of_parseIPv4 hfields c hc)
    · refine hmore ?_
      split at h
      · rename_i heq
        rw [heq]
        exact fun c hc => absurd hc List.not_mem_nil
      · rename_i more heq
        rw [heq]
        obtain ⟨-, h⟩ := Option.ite_none_left_eq_some.mp h
        have hcolons : (∀ c ∈ more, AddressChar c ∨ c ∈ rest) →
            ∀ c ∈ ':' :: ':' :: more, AddressChar c ∨ c ∈ rest := by
          intro hrest c hc
          rcases List.mem_cons.mp hc with rfl | hc
          · exact Or.inl (Or.inr (Or.inr rfl))
          rcases List.mem_cons.mp hc with rfl | hc
          · exact Or.inl (Or.inr (Or.inr rfl))
          · exact hrest c hc
        refine hcolons ?_
        split at h
        · rename_i hnil
          rw [hnil]
          exact fun c hc => absurd hc List.not_mem_nil
        · exact ih h
      · rename_i c' more heq
        rw [heq]
        intro c hc
        rcases List.mem_cons.mp hc with rfl | hc
        · exact Or.inl (Or.inr (Or.inr rfl))
        · exact ih h c hc
      · cases h

theorem addressChar_of_parseIPv6 {chars : List Char} {ip : IP} (h : parseIPv6 chars = some ip) :
    ∀ c ∈ chars, AddressChar c := by
  have hall : ∀ {chars : List Char} {ellipsis gs at_},
      readGroups 8 chars [] ellipsis = some (gs, at_, []) → ∀ c ∈ chars, AddressChar c :=
    fun hread c hc => (addressChar_of_readGroups hread c hc).resolve_right List.not_mem_nil
  have hstart : ∃ front back : List Char, chars = front ++ back ∧ (∀ c ∈ front, AddressChar c) ∧
      (back = [] ∨ ∃ ellipsis gs at_, readGroups 8 back [] ellipsis = some (gs, at_, [])) := by
    unfold parseIPv6 at h
    split at h
    · rename_i back
      refine ⟨[':', ':'], back, rfl, ?_, ?_⟩
      · intro c hc
        have hcolon : c = ':' := by simpa using hc
        exact Or.inr (Or.inr hcolon)
      · dsimp only at h
        split at h
        · rename_i hnil
          exact Or.inl hnil.2
        · split at h
          · rename_i hread
            exact Or.inr ⟨_, _, _, hread⟩
          · rename_i hread
            exact Or.inr ⟨_, _, _, hread⟩
          · cases h
    · refine ⟨[], chars, rfl, fun c hc => absurd hc List.not_mem_nil, ?_⟩
      dsimp only at h
      split at h
      · rename_i hnil
        exact Or.inl hnil.2
      · split at h
        · rename_i hread
          exact Or.inr ⟨_, _, _, hread⟩
        · rename_i hread
          exact Or.inr ⟨_, _, _, hread⟩
        · cases h
  obtain ⟨front, back, rfl, hfront, hback⟩ := hstart
  intro c hc
  rcases List.mem_append.mp hc with hc | hc
  · exact hfront c hc
  · rcases hback with rfl | ⟨ellipsis, gs, at_, hread⟩
    · cases hc
    · exact hall hread c hc

/-- Only digits, dots and colons stand in an address. -/
theorem addressChar_of_parseIP {s : String} {ip : IP} (h : parseIP s = some ip) :
    ∀ c ∈ s.toList, AddressChar c := by
  unfold parseIP at h
  dsimp only at h
  obtain ⟨-, h⟩ := Option.ite_none_left_eq_some.mp h
  split at h
  · obtain ⟨fields, hfields, -⟩ := Option.map_eq_some_iff.mp h
    exact addressChar_of_parseIPv4 hfields
  · exact addressChar_of_parseIPv6 h
  · cases h

theorem addressChar_of_mem_string {ip : IP} (h : c ∈ ip.string.toList) : AddressChar c :=
  addressChar_of_parseIP (parseIP_string ip) c h

theorem lt_of_isSome_hexDigit (h : (hexDigit c).isSome = true) : c ≤ 'f' := by
  unfold hexDigit at h
  split at h
  · rename_i hdigit
    have hnine : c ≤ '9' := by
      simp only [Char.isDigit, Bool.and_eq_true, decide_eq_true_eq] at hdigit
      exact hdigit.2
    exact Char.le_trans hnine (by decide)
  · split at h
    · rename_i hlower
      exact hlower.2
    · split at h
      · rename_i hupper
        exact Char.le_trans hupper.2 (by decide)
      · cases h

theorem isSpace_of_addressChar (h : AddressChar c) : isSpace c = false := by
  rcases h with h | rfl | rfl
  · rw [isSpace, Bool.or_eq_false_iff]
    constructor
    · refine decide_eq_false fun hmem => ?_
      simp only [List.mem_cons, List.not_mem_nil, or_false] at hmem
      rcases hmem with rfl | rfl | rfl | rfl | rfl | rfl | rfl | rfl | rfl | rfl | rfl | rfl | rfl |
        rfl <;> exact absurd h (by decide)
    · have hle := lt_of_isSome_hexDigit h
      have hnot : ¬ '\u2000' ≤ c := fun hspace => absurd (Char.le_trans hspace hle) (by decide)
      simp [hnot]
  · decide
  · decide

end LukePanel.Library.NetAddress
