import CrossSafety.Table

/-!
# Tables through look-up

What a table holds is what a look-up finds. Every operation is described by the look-ups in its
result, and two tables in which every look-up agrees are equal. `last?` and `values` are described
by the order of the keys.
-/
namespace CrossSafety.Table

variable {κ α : Type} [Numbered κ] {key other : κ} {value : α} {t u : Table κ α}

theorem ext_entries (h : t.entries = u.entries) : t = u := by
  cases t
  cases u
  cases h
  rfl

/-! ## Look-up and entries -/

theorem lookup_eq_some {entries : List (κ × α)} (h : entries.Pairwise Above) :
    lookup key entries = some value ↔ (key, value) ∈ entries := by
  induction entries with
  | nil => simp [lookup]
  | cons head rest ih =>
    obtain ⟨k, v⟩ := head
    obtain ⟨habove, hrest⟩ := List.pairwise_cons.mp h
    have hnot : Numbered.number k ≤ Numbered.number key → (key, value) ∉ rest := fun hle hmem =>
      absurd (habove _ hmem) (Nat.not_lt.mpr hle)
    rw [lookup, List.mem_cons, Prod.mk.injEq]
    split
    · rename_i hlt
      have hne : key ≠ k := fun he => Nat.lt_irrefl _ (he ▸ hlt)
      rw [ih hrest]
      simp [hne]
    · rename_i hge
      have habsent := hnot (Nat.not_lt.mp hge)
      split
      · rename_i heq
        have hkey : key = k := Numbered.number_inj heq
        simp only [hkey, true_and, Option.some.injEq]
        rw [hkey] at habsent
        simp only [habsent, or_false]
        exact eq_comm
      · rename_i hne
        have hne : key ≠ k := fun he => hne (he ▸ rfl)
        simp [hne, habsent]

theorem get?_eq_some : t.get? key = some value ↔ (key, value) ∈ t.entries :=
  lookup_eq_some t.descending

theorem mem_toList : (key, value) ∈ t.toList ↔ t.get? key = some value := by
  rw [toList, List.mem_reverse, get?_eq_some]

theorem mem_keys : key ∈ t.keys ↔ ∃ value, t.get? key = some value := by
  simp only [keys, List.mem_map, Prod.exists, mem_toList, exists_and_right, exists_eq_right]

theorem toList_ascending :
    t.toList.Pairwise fun a b => Numbered.number a.1 < Numbered.number b.1 :=
  List.pairwise_reverse.mpr t.descending

theorem keys_ascending (t : Table κ α) :
    t.keys.Pairwise fun a b => Numbered.number a < Numbered.number b :=
  List.pairwise_map.mpr t.toList_ascending

theorem keys_nodup (t : Table κ α) : t.keys.Nodup :=
  t.keys_ascending.imp fun hlt heq => Nat.ne_of_lt hlt (congrArg _ heq)

theorem length_keys (t : Table κ α) : t.keys.length = t.size := by
  rw [keys, toList, List.length_map, List.length_reverse, size]

/-- Tables with the same keys list them in the same order. -/
theorem keys_eq (h : ∀ key, t.get? key = none ↔ u.get? key = none) : t.keys = u.keys := by
  refine List.Perm.eq_of_pairwise (fun a b _ _ hab hba => absurd hab (Nat.lt_asymm hba))
    t.keys_ascending u.keys_ascending
    ((List.perm_ext_iff_of_nodup t.keys_nodup u.keys_nodup).mpr fun key => ?_)
  rw [mem_keys, mem_keys, ← Option.ne_none_iff_exists', ← Option.ne_none_iff_exists', ne_eq, h key]

theorem mem_values : value ∈ t.values ↔ ∃ key, t.get? key = some value := by
  simp only [values, List.mem_map, Prod.exists, mem_toList, exists_eq_right]

theorem contains_iff : t.contains key = true ↔ ∃ value, t.get? key = some value := by
  rw [contains, Option.isSome_iff_exists]

@[simp] theorem get?_empty : (empty : Table κ α).get? key = none := rfl

theorem isEmpty_iff : t.isEmpty = true ↔ ∀ key, t.get? key = none := by
  rw [isEmpty, List.isEmpty_iff]
  constructor
  · intro h key
    rw [get?, h]
    rfl
  · intro h
    refine List.eq_nil_iff_forall_not_mem.mpr fun e he => ?_
    have hget := get?_eq_some.mpr he
    rw [h] at hget
    cases hget

/-- Two tables in which every look-up agrees are equal. -/
theorem ext_get? (h : ∀ key, t.get? key = u.get? key) : t = u := by
  have hnodup (table : Table κ α) : table.entries.Nodup := by
    refine List.Pairwise.imp (fun habove heq => ?_) table.descending
    exact Nat.lt_irrefl _ (heq ▸ habove)
  refine ext_entries (List.Perm.eq_of_pairwise
    (fun a b _ _ hab hba => absurd hab (Nat.lt_asymm hba)) t.descending u.descending
    ((List.perm_ext_iff_of_nodup (hnodup t) (hnodup u)).mpr fun entry => ?_))
  rw [← get?_eq_some, ← get?_eq_some, h]

/-! ## Changes -/

theorem mem_place_iff {entries : List (κ × α)} (h : entries.Pairwise Above) {e : κ × α} :
    e ∈ place key value entries ↔ e = (key, value) ∨ e ∈ entries ∧ e.1 ≠ key := by
  induction entries with
  | nil => simp [place]
  | cons head rest ih =>
    obtain ⟨k, v⟩ := head
    obtain ⟨habove, hrest⟩ := List.pairwise_cons.mp h
    unfold place
    split
    · rename_i hlt
      have hne : k ≠ key := fun he => Nat.lt_irrefl _ (he ▸ hlt)
      rw [List.mem_cons, ih hrest, List.mem_cons]
      constructor
      · rintro (rfl | rfl | ⟨hmem, hother⟩)
        · exact .inr ⟨.inl rfl, hne⟩
        · exact .inl rfl
        · exact .inr ⟨.inr hmem, hother⟩
      · rintro (rfl | ⟨rfl | hmem, hother⟩)
        · exact .inr (.inl rfl)
        · exact .inl rfl
        · exact .inr (.inr ⟨hmem, hother⟩)
    · have hbelow : Numbered.number k ≤ Numbered.number key → e ∈ rest → e.1 ≠ key :=
        fun hle hmem he => absurd (habove e hmem) (Nat.not_lt.mpr (he ▸ hle))
      split
      · rename_i heq
        have hkey : key = k := Numbered.number_inj heq
        rw [List.mem_cons, List.mem_cons]
        constructor
        · rintro (rfl | hmem)
          · exact .inl rfl
          · exact .inr ⟨.inr hmem, hbelow (Nat.le_of_eq heq.symm) hmem⟩
        · rintro (rfl | ⟨rfl | hmem, hother⟩)
          · exact .inl rfl
          · exact absurd hkey.symm hother
          · exact .inr hmem
      · rename_i hge hne
        have hle : Numbered.number k ≤ Numbered.number key := Nat.not_lt.mp hge
        rw [List.mem_cons]
        constructor
        · rintro (rfl | hmem)
          · exact .inl rfl
          · refine .inr ⟨hmem, ?_⟩
            rcases List.mem_cons.mp hmem with rfl | hmem
            · exact fun he => hne (he ▸ rfl)
            · exact hbelow hle hmem
        · rintro (rfl | ⟨hmem, -⟩)
          · exact .inl rfl
          · exact .inr hmem

theorem get?_insert_self : (t.insert key value).get? key = some value :=
  get?_eq_some.mpr ((mem_place_iff t.descending).mpr (.inl rfl))

theorem get?_insert_of_ne (h : other ≠ key) : (t.insert key value).get? other = t.get? other := by
  refine Option.ext fun v => ?_
  rw [get?_eq_some, get?_eq_some]
  have hmem : (other, v) ∈ place key value t.entries ↔ _ := mem_place_iff t.descending
  refine hmem.trans ?_
  simp [h]

theorem mem_keys_insert : other ∈ (t.insert key value).keys ↔ other = key ∨ other ∈ t.keys := by
  rw [mem_keys, mem_keys]
  by_cases heq : other = key
  · rw [heq, get?_insert_self]
    simp
  · rw [get?_insert_of_ne heq, or_iff_right heq]

theorem size_insert_of_none (h : t.get? key = none) : (t.insert key value).size = t.size + 1 := by
  have hnotin : key ∉ t.keys := fun hmem => by
    obtain ⟨found, hfound⟩ := mem_keys.mp hmem
    rw [h] at hfound
    cases hfound
  have hperm : (t.insert key value).keys.Perm (key :: t.keys) := by
    refine (List.perm_ext_iff_of_nodup (keys_nodup _)
      (List.nodup_cons.mpr ⟨hnotin, t.keys_nodup⟩)).mpr fun other => ?_
    rw [mem_keys_insert, List.mem_cons]
  rw [← length_keys, hperm.length_eq, List.length_cons, length_keys]

/-- Tables with the same keys have the same size. -/
theorem size_eq_of_mem_keys {β : Type} {u : Table κ β}
    (h : ∀ key, key ∈ t.keys ↔ key ∈ u.keys) : t.size = u.size := by
  rw [← length_keys, ← length_keys]
  exact ((List.perm_ext_iff_of_nodup t.keys_nodup u.keys_nodup).mpr h).length_eq

theorem get?_insertNew_of_ne (h : other ≠ key) :
    (t.insertNew key value).get? other = t.get? other := by
  rw [insertNew]
  split
  · rfl
  · exact get?_insert_of_ne h

theorem get?_insertNew_self :
    (t.insertNew key value).get? key = some ((t.get? key).getD value) := by
  rw [insertNew]
  split
  · rename_i h
    obtain ⟨v, hv⟩ := contains_iff.mp h
    rw [hv]
    rfl
  · rename_i h
    have hnone : t.get? key = none :=
      Option.eq_none_iff_forall_ne_some.mpr fun v hv => h (contains_iff.mpr ⟨v, hv⟩)
    rw [get?_insert_self, hnone]
    rfl

theorem mem_dropWhile {entries : List (κ × α)} (h : entries.Pairwise Above) {e : κ × α} :
    e ∈ entries.dropWhile (fun e => Numbered.number key ≤ Numbered.number e.1) ↔
      e ∈ entries ∧ Numbered.number e.1 < Numbered.number key := by
  induction entries with
  | nil => simp
  | cons head rest ih =>
    obtain ⟨habove, hrest⟩ := List.pairwise_cons.mp h
    by_cases hle : Numbered.number key ≤ Numbered.number head.1
    · rw [List.dropWhile_cons, if_pos (decide_eq_true hle), ih hrest, List.mem_cons]
      constructor
      · exact fun ⟨hmem, hlt⟩ => ⟨.inr hmem, hlt⟩
      · rintro ⟨rfl | hmem, hlt⟩
        · exact absurd hlt (Nat.not_lt.mpr hle)
        · exact ⟨hmem, hlt⟩
    · rw [List.dropWhile_cons, if_neg (by simpa using hle)]
      refine ⟨fun hmem => ⟨hmem, ?_⟩, fun hmem => hmem.1⟩
      rcases List.mem_cons.mp hmem with rfl | hmem
      · exact Nat.not_le.mp hle
      · exact Nat.lt_trans (habove e hmem) (Nat.not_le.mp hle)

theorem get?_below : (t.below key).get? other =
    if Numbered.number other < Numbered.number key then t.get? other else none := by
  refine Option.ext fun v => ?_
  rw [get?_eq_some]
  refine (mem_dropWhile t.descending).trans ?_
  split
  · rename_i h
    rw [get?_eq_some]
    simp [h]
  · rename_i h
    simp [h]

theorem eq_or_get?_of_insert {found : α} (h : (t.insert key value).get? other = some found) :
    found = value ∨ t.get? other = some found := by
  by_cases heq : other = key
  · subst heq
    rw [get?_insert_self] at h
    exact .inl (Option.some.inj h).symm
  · exact .inr (get?_insert_of_ne heq ▸ h)

/-- Nothing changes if a value is entered where it is. -/
theorem insert_same (h : t.get? key = some value) : t.insert key value = t := by
  refine ext_get? fun other => ?_
  by_cases heq : other = key
  · rw [heq, get?_insert_self, h]
  · rw [get?_insert_of_ne heq]

theorem eq_or_get?_of_insertNew {found : α}
    (h : (t.insertNew key value).get? other = some found) :
    found = value ∨ t.get? other = some found := by
  rw [insertNew] at h
  split at h
  · exact .inr h
  · exact eq_or_get?_of_insert h

theorem get?_of_below {found : α} (h : (t.below key).get? other = some found) :
    t.get? other = some found := by
  rw [get?_below] at h
  split at h
  · exact h
  · cases h

theorem get?_of_erase {found : α} (h : (t.erase key).get? other = some found) :
    t.get? other = some found :=
  get?_eq_some.mpr (List.mem_filter.mp (get?_eq_some.mp h)).1

theorem get?_filter {keep : α → Bool} :
    (t.filter keep).get? key = some value ↔ t.get? key = some value ∧ keep value = true := by
  simp only [get?_eq_some, filter, List.mem_filter]

theorem mem_takeWhile {entries : List (κ × α)} (h : entries.Pairwise Above) {e : κ × α} :
    e ∈ entries.takeWhile (fun e => Numbered.number key ≤ Numbered.number e.1) ↔
      e ∈ entries ∧ Numbered.number key ≤ Numbered.number e.1 := by
  induction entries with
  | nil => simp
  | cons head rest ih =>
    obtain ⟨habove, hrest⟩ := List.pairwise_cons.mp h
    by_cases hle : Numbered.number key ≤ Numbered.number head.1
    · rw [List.takeWhile_cons, if_pos (decide_eq_true hle), List.mem_cons, ih hrest, List.mem_cons]
      constructor
      · rintro (rfl | ⟨hmem, hnumber⟩)
        · exact ⟨.inl rfl, hle⟩
        · exact ⟨.inr hmem, hnumber⟩
      · exact fun ⟨hmem, hnumber⟩ => hmem.imp_right fun hmem => ⟨hmem, hnumber⟩
    · rw [List.takeWhile_cons, if_neg (by simpa using hle)]
      refine ⟨fun hmem => absurd hmem List.not_mem_nil, fun ⟨hmem, hnumber⟩ => ?_⟩
      rcases List.mem_cons.mp hmem with rfl | hmem
      · exact absurd hnumber hle
      · exact absurd (Nat.le_trans hnumber (Nat.le_of_lt (habove e hmem))) hle

theorem mem_valuesFrom : value ∈ t.valuesFrom key ↔
    ∃ other, t.get? other = some value ∧ Numbered.number key ≤ Numbered.number other := by
  simp only [valuesFrom, List.mem_reverse, List.mem_map, mem_takeWhile t.descending, Prod.exists,
    exists_eq_right, get?_eq_some]

/-! ## The order of the keys -/

theorem last?_eq_some : t.last? = some value ↔ ∃ key, t.get? key = some value ∧
    ∀ other v, t.get? other = some v → Numbered.number other ≤ Numbered.number key := by
  have hdescending := t.descending
  simp only [get?_eq_some, last?]
  cases hentries : t.entries with
  | nil => simp
  | cons head rest =>
    obtain ⟨k, v⟩ := head
    rw [hentries] at hdescending
    obtain ⟨habove, -⟩ := List.pairwise_cons.mp hdescending
    simp only [List.head?_cons, Option.map_some, Option.some.injEq]
    constructor
    · rintro rfl
      refine ⟨k, List.mem_cons_self, fun other w hmem => ?_⟩
      rcases List.mem_cons.mp hmem with he | hmem
      · cases he
        exact Nat.le_refl _
      · exact Nat.le_of_lt (habove _ hmem)
    · rintro ⟨key, hmem, hmax⟩
      rcases List.mem_cons.mp hmem with he | hmem
      · cases he
        rfl
      · exact absurd (habove _ hmem) (Nat.not_lt.mpr (hmax k v List.mem_cons_self))

/-- The last value with a property stands at the highest key with such a value. -/
theorem find?_values_reverse {keep : α → Bool} (h : t.values.reverse.find? keep = some value) :
    ∃ key, t.get? key = some value ∧ keep value = true ∧
      ∀ other v, t.get? other = some v → keep v = true →
        Numbered.number other ≤ Numbered.number key := by
  have hvalues : t.values.reverse = t.entries.map Prod.snd := by
    rw [values, toList, ← List.map_reverse, List.reverse_reverse]
  rw [hvalues, List.find?_map, Option.map_eq_some_iff] at h
  obtain ⟨⟨key, _⟩, hfind, rfl⟩ := h
  obtain ⟨hkeep, first, rest, hentries, hfirst⟩ := List.find?_eq_some_iff_append.mp hfind
  refine ⟨key, get?_eq_some.mpr (by simp [hentries]), hkeep, fun other v hget hv => ?_⟩
  have hmem := get?_eq_some.mp hget
  have hdescending := t.descending
  rw [hentries] at hmem hdescending
  rcases List.mem_append.mp hmem with hmem | hmem
  · have hnot := hfirst _ hmem
    simp [hv] at hnot
  · rcases List.mem_cons.mp hmem with he | hmem
    · cases he
      exact Nat.le_refl _
    · have hsorted := (List.pairwise_append.mp hdescending).2.1
      exact Nat.le_of_lt ((List.pairwise_cons.mp hsorted).1 _ hmem)

/-- The first value with a property stands at the lowest key with such a value. -/
theorem find?_values {keep : α → Bool} (hget : t.get? key = some value) (hkeep : keep value = true)
    (hlower : ∀ other v, t.get? other = some v → Numbered.number other < Numbered.number key →
      keep v = false) : t.values.find? keep = some value := by
  rw [values, List.find?_map, Option.map_eq_some_iff]
  refine ⟨(key, value), List.find?_eq_some_iff_append.mpr ⟨hkeep, ?_⟩, rfl⟩
  obtain ⟨lower, higher, hsplit⟩ := List.append_of_mem (mem_toList.mpr hget)
  refine ⟨lower, higher, hsplit, fun entry hmem => ?_⟩
  have hascending := t.toList_ascending
  rw [hsplit] at hascending
  have hlt := (List.pairwise_append.mp hascending).2.2 entry hmem _ List.mem_cons_self
  have hentry : t.get? entry.1 = some entry.2 :=
    mem_toList.mp (hsplit ▸ List.mem_append_left _ hmem)
  rw [Function.comp_apply, hlower _ _ hentry hlt]
  rfl

/-- The first value from a key on that has a property stands at the lowest key with such a value. -/
theorem find?_valuesFrom {keep : α → Bool} (h : (t.valuesFrom key).find? keep = some value) :
    ∃ found, t.get? found = some value ∧ keep value = true ∧
      ∀ other v, t.get? other = some v → Numbered.number key ≤ Numbered.number other →
        keep v = true → Numbered.number found ≤ Numbered.number other := by
  rw [valuesFrom, ← List.map_reverse, List.find?_map, Option.map_eq_some_iff] at h
  obtain ⟨⟨found, _⟩, hfind, rfl⟩ := h
  obtain ⟨hkeep, first, rest, hentries, hfirst⟩ := List.find?_eq_some_iff_append.mp hfind
  have hmem := List.mem_reverse.mp (hentries ▸ List.mem_append_right first List.mem_cons_self)
  refine ⟨found, get?_eq_some.mpr ((mem_takeWhile t.descending).mp hmem).1, hkeep,
    fun other v hget hle hv => ?_⟩
  have hother := List.mem_reverse.mpr ((mem_takeWhile t.descending).mpr ⟨get?_eq_some.mp hget, hle⟩)
  have hascending := List.pairwise_reverse.mpr
    (t.descending.sublist (List.takeWhile_sublist
      fun e : κ × α => Numbered.number key ≤ Numbered.number e.1))
  rw [hentries] at hother hascending
  rcases List.mem_append.mp hother with hother | hother
  · have hnot := hfirst _ hother
    simp [hv] at hnot
  · rcases List.mem_cons.mp hother with he | hother
    · cases he
      exact Nat.le_refl _
    · have hsorted := (List.pairwise_append.mp hascending).2.1
      exact Nat.le_of_lt ((List.pairwise_cons.mp hsorted).1 _ hother)

theorem last?_eq_none : t.last? = none ↔ ∀ key, t.get? key = none := by
  rw [← isEmpty_iff, isEmpty, last?]
  cases t.entries <;> simp

theorem values_eq : t.values = (t.entries.map Prod.snd).reverse := by
  rw [values, toList, List.map_reverse]

theorem last?_eq_getLast? : t.last? = t.values.getLast? := by
  rw [values_eq, List.getLast?_reverse, List.head?_map, last?]

/-- A value at a key above all others comes last. -/
theorem values_insert_top
    (h : ∀ other v, t.get? other = some v → Numbered.number other < Numbered.number key) :
    (t.insert key value).values = t.values ++ [value] := by
  have hplace : place key value t.entries = (key, value) :: t.entries := by
    cases hentries : t.entries with
    | nil => rfl
    | cons head rest =>
      obtain ⟨k, v⟩ := head
      have hlt : Numbered.number k < Numbered.number key :=
        h k v (get?_eq_some.mpr (hentries ▸ List.mem_cons_self))
      rw [place, if_neg (Nat.lt_asymm hlt), if_neg (Nat.ne_of_gt hlt)]
  rw [values_eq, values_eq, insert]
  simp only [hplace, List.map_cons, List.reverse_cons]

theorem toList_below_prefix : (t.below key).toList <+: t.toList :=
  List.reverse_prefix.mpr (List.dropWhile_suffix _)

theorem values_below_prefix : (t.below key).values <+: t.values :=
  toList_below_prefix.map Prod.snd

theorem below_eq_self
    (h : ∀ other v, t.get? other = some v → Numbered.number other < Numbered.number key) :
    t.below key = t := by
  refine ext_entries ?_
  change t.entries.dropWhile _ = t.entries
  cases hentries : t.entries with
  | nil => rfl
  | cons head rest =>
    have hlt := h head.1 head.2 (get?_eq_some.mpr (hentries ▸ List.mem_cons_self))
    rw [List.dropWhile_cons, if_neg (by simpa using hlt)]

theorem insertNew_of_some {found : α} (h : t.get? key = some found) : t.insertNew key value = t :=
  if_pos (contains_iff.mpr ⟨_, h⟩)

theorem insertNew_of_none (h : t.get? key = none) :
    t.insertNew key value = t.insert key value := by
  refine if_neg fun hcontains => ?_
  obtain ⟨v, hget⟩ := contains_iff.mp hcontains
  rw [h] at hget
  cases hget

end CrossSafety.Table
