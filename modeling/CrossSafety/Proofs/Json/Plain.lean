import CrossSafety.Json.Reader
import CrossSafety.Proofs.Json.Numeral

/-!
# Plain values read back

A plain value consists of `null`, numerals, strings without escapes, and objects of such. Whatever
shape its text is read for, the reader returns the value, and the text has no newline in it. Every
value that is written to a journal is plain.
-/
namespace CrossSafety.Json

/-- Whether every byte stands for itself in a string. -/
def Unescaped (bytes : Bytes) : Prop := ∀ c ∈ bytes, c ≠ 34 ∧ c ≠ 92 ∧ isControl c = false

instance (bytes : Bytes) : Decidable (Unescaped bytes) :=
  List.decidableBAll (fun c => c ≠ 34 ∧ c ≠ 92 ∧ isControl c = false) bytes

/-- A value without arrays, truth values, escapes or numbers other than numerals. -/
inductive Plain : Json → Prop where
  | null : Plain .null
  | natural (n : Nat) : Plain (.natural n)
  | string {spelling : Bytes} (h : Unescaped spelling) : Plain (.string spelling)
  | object {members : List (Bytes × Json)} (hkeys : ∀ member ∈ members, Unescaped member.1)
      (hvalues : ∀ member ∈ members, Plain member.2) : Plain (.object members)

/-- A text in front of which a number ends. -/
def EndsNumber (tail : Bytes) : Prop := ∀ c ∈ tail.head?, isNumberPart c = false

/-! ## Strings -/

theorem stringAfter_unescaped {spelling : Bytes} (h : Unescaped spelling) (rest : Bytes) :
    ∀ read, stringAfter read (spelling ++ 34 :: rest) = some (read.reverse ++ spelling, rest) := by
  induction spelling with
  | nil => intro read; simp [stringAfter]
  | cons c spelling ih =>
    intro read
    obtain ⟨hquote, hescape, hcontrol⟩ := h c List.mem_cons_self
    have hrest : Unescaped spelling := fun d hd => h d (List.mem_cons_of_mem _ hd)
    rw [List.cons_append, stringAfter, hcontrol, ih hrest]
    · simp
    all_goals intros; simp_all

theorem unescape?_unescaped {spelling : Bytes} (h : Unescaped spelling) :
    unescape? spelling = some spelling := by
  induction spelling with
  | nil => rfl
  | cons c spelling ih =>
    obtain ⟨-, hescape, -⟩ := h c List.mem_cons_self
    rw [unescape?, ih fun d hd => h d (List.mem_cons_of_mem _ hd)]
    · rfl
    all_goals intros; simp_all

/-! ## Numbers -/

theorem isDigit_of_allDigits {bytes : Bytes} (h : Bytes.AllDigits bytes) {c : UInt8}
    (hc : c ∈ bytes) : isDigit c = true := by
  obtain ⟨hlow, hhigh⟩ := h c hc
  simp only [isDigit, Bool.and_eq_true, decide_eq_true_eq, UInt8.le_iff_toNat_le]
  exact ⟨hlow, hhigh⟩

theorem takeWhile_digits {bytes tail : Bytes} (h : Bytes.AllDigits bytes)
    (hend : EndsNumber tail) : (bytes ++ tail).takeWhile isNumberPart = bytes ∧
      (bytes ++ tail).dropWhile isNumberPart = tail := by
  have hall : ∀ c ∈ bytes, isNumberPart c = true := fun c hc => by
    rw [isNumberPart, isDigit_of_allDigits h hc]
    rfl
  rw [List.takeWhile_append_of_pos hall, List.dropWhile_append_of_pos hall]
  cases tail with
  | nil => simp
  | cons c rest => simp [hend c rfl]

theorem isNumber_numeral {n : Nat} {bytes : Bytes} (h : Bytes.Numeral n bytes) :
    isNumber bytes = true := by
  cases bytes with
  | nil => exact absurd rfl h.nonempty
  | cons c rest =>
    obtain ⟨hlow, hhigh⟩ := h.digits c List.mem_cons_self
    have hsign : c ≠ 45 := by
      rintro rfl
      exact absurd hlow (by decide)
    have hrest : rest.dropWhile isDigit = [] := by
      rw [← List.append_nil rest, List.dropWhile_append_of_pos]
      · rfl
      · exact fun d hd => isDigit_of_allDigits h.digits (List.mem_cons_of_mem _ hd)
    have hnumber : isNumber (c :: rest) = isUnsigned (c :: rest) := by
      rw [isNumber]
      intros
      simp_all
    by_cases hzero : c = 48
    · have hn : n = 0 := Classical.byContradiction fun hn =>
        h.leading hn (by rw [hzero]; rfl)
      rw [h.zero hn]
      rfl
    · have hunsigned : isUnsigned (c :: rest) =
          (isDigit c && isFraction (rest.dropWhile isDigit)) := by
        rw [isUnsigned]
        intros
        simp_all
      rw [hnumber, hunsigned, hrest, isDigit_of_allDigits h.digits List.mem_cons_self]
      rfl

theorem number?_numeral {n : Nat} {bytes tail : Bytes} (h : Bytes.Numeral n bytes)
    (hend : EndsNumber tail) : number? (bytes ++ tail) = some (.number bytes, tail) := by
  obtain ⟨htake, hdrop⟩ := takeWhile_digits h.digits hend
  rw [number?]
  simp only [htake, hdrop, isNumber_numeral h, if_true]

theorem digit_starts_number : ∀ n < 10, isBlank (Bytes.digit n) = false ∧
    Char.ofUInt8 (Bytes.digit n) ∉ ['n', 't', 'f', '"', '[', '{'] := by
  decide +kernel

/-- What starts with a digit is read as a number. -/
theorem value?_digit (shape : Shape) (fuel : Nat) {n : Nat} (hn : n < 10) (rest : Bytes) :
    value? shape (fuel + 1) (Bytes.digit n :: rest) = number? (Bytes.digit n :: rest) := by
  obtain ⟨hblank, hnot⟩ := digit_starts_number n hn
  have hchars : ∀ c ∈ ['n', 't', 'f', '"', '[', '{'], Char.ofUInt8 (Bytes.digit n) ≠ c :=
    fun c hmem heq => hnot (heq ▸ hmem)
  have hskip : skipBlanks (Bytes.digit n :: rest) = Bytes.digit n :: rest := by
    rw [skipBlanks, List.dropWhile_cons, hblank]
    rfl
  rw [value?, hskip]
  dsimp only
  split <;> first | rfl | exact absurd ‹_› (hchars _ (by decide))

/-! ## Values -/

mutual

theorem length_le_before (value : Json) (tail : Bytes) :
    tail.length ≤ (before value tail).length := by
  match value with
  | .null | .bool true | .bool false | .number _ | .string _ | .array [] | .object [] =>
    simp only [before, List.length_append, List.length_cons]; omega
  | .array (item :: rest) =>
    have hitem := length_le_before item (itemsBefore rest tail)
    have hrest := length_le_itemsBefore rest tail
    simp only [before, List.length_cons]
    omega
  | .object ((key, value) :: rest) =>
    have hvalue := length_le_before value (membersBefore rest tail)
    have hrest := length_le_membersBefore rest tail
    simp only [before, List.length_cons, List.length_append]
    omega

theorem length_le_itemsBefore (items : List Json) (tail : Bytes) :
    tail.length ≤ (itemsBefore items tail).length := by
  match items with
  | [] => simp only [itemsBefore, List.length_cons]; omega
  | item :: rest =>
    have hitem := length_le_before item (itemsBefore rest tail)
    have hrest := length_le_itemsBefore rest tail
    simp only [itemsBefore, List.length_cons]
    omega

theorem length_le_membersBefore (members : List (Bytes × Json)) (tail : Bytes) :
    tail.length ≤ (membersBefore members tail).length := by
  match members with
  | [] => simp only [membersBefore, List.length_cons]; omega
  | (key, value) :: rest =>
    have hvalue := length_le_before value (membersBefore rest tail)
    have hrest := length_le_membersBefore rest tail
    simp only [membersBefore, List.length_cons, List.length_append]
    omega

end

/-- Whether a value is read back for every shape, with any fuel that its length needs. -/
def ReadBack (value : Json) : Prop := ∀ shape fuel tail, EndsNumber tail →
  (before value tail).length ≤ fuel + tail.length →
    value? shape fuel (before value tail) = some (value, tail)

theorem endsNumber_membersBefore (members : List (Bytes × Json)) (tail : Bytes) :
    EndsNumber (membersBefore members tail) := by
  intro c hc
  cases members with
  | nil => cases hc; rfl
  | cons => cases hc; rfl

theorem skipBlanks_of {c : UInt8} (h : isBlank c = false) (rest : Bytes) :
    skipBlanks (c :: rest) = c :: rest := by
  rw [skipBlanks, List.dropWhile_cons, h]
  rfl

/-- Members that are read back one by one are read back together. -/
theorem members?_before {members : List (Bytes × Json)}
    (hkeys : ∀ member ∈ members, Unescaped member.1)
    (hvalues : ∀ member ∈ members, ReadBack member.2) :
    ∀ shape fuel tail key value, Unescaped key → ReadBack value →
      (34 :: (key ++ 34 :: 58 :: before value (membersBefore members tail))).length ≤
        fuel + tail.length →
      members? shape fuel (34 :: (key ++ 34 :: 58 :: before value (membersBefore members tail))) =
        some ((key, value) :: members, tail) := by
  induction members with
  | nil =>
    intro shape fuel tail key value hkey hvalue hfuel
    have hlength := length_le_before value (membersBefore [] tail)
    have hrest := length_le_membersBefore [] tail
    simp only [List.length_cons, List.length_append] at hfuel
    obtain ⟨fuel, rfl⟩ : ∃ n, fuel = n + 1 := ⟨fuel - 1, by omega⟩
    rw [members?, skipBlanks_of rfl]
    simp only [stringAfter_unescaped hkey, Option.bind_eq_bind, Option.bind_some]
    rw [skipBlanks_of rfl]
    simp only
    rw [hvalue _ _ _ (endsNumber_membersBefore [] tail) (by omega)]
    simp only [Option.bind_some, membersBefore]
    rw [skipBlanks_of rfl]
    rfl
  | cons member members ih =>
    intro shape fuel tail key value hkey hvalue hfuel
    obtain ⟨nextKey, nextValue⟩ := member
    have hlength := length_le_before value (membersBefore ((nextKey, nextValue) :: members) tail)
    have hrest := length_le_membersBefore ((nextKey, nextValue) :: members) tail
    have hmembers : (membersBefore ((nextKey, nextValue) :: members) tail).length =
        nextKey.length + (before nextValue (membersBefore members tail)).length + 4 := by
      simp only [membersBefore, List.length_cons, List.length_append]
      omega
    simp only [List.length_cons, List.length_append] at hfuel
    obtain ⟨fuel, rfl⟩ : ∃ n, fuel = n + 1 := ⟨fuel - 1, by omega⟩
    rw [members?, skipBlanks_of rfl]
    simp only [stringAfter_unescaped hkey, Option.bind_eq_bind, Option.bind_some]
    rw [skipBlanks_of rfl]
    simp only
    rw [hvalue _ _ _ (endsNumber_membersBefore _ tail) (by omega)]
    simp only [Option.bind_some, membersBefore]
    rw [skipBlanks_of rfl]
    simp only
    rw [ih (fun m hm => hkeys m (List.mem_cons_of_mem _ hm))
      (fun m hm => hvalues m (List.mem_cons_of_mem _ hm)) shape fuel tail nextKey nextValue
      (hkeys _ List.mem_cons_self) (hvalues _ List.mem_cons_self) ?_]
    · rfl
    · simp only [List.length_cons, List.length_append]
      omega

theorem readBack_null : ReadBack .null := by
  intro shape fuel tail _ hfuel
  have hlength : (before .null tail).length = 4 + tail.length := by
    rw [before, List.length_append]
    rfl
  obtain ⟨fuel, rfl⟩ : ∃ n, fuel = n + 1 := ⟨fuel - 1, by omega⟩
  rfl

theorem readBack_natural (n : Nat) : ReadBack (.natural n) := by
  intro shape fuel tail hend hfuel
  have hnumeral := Bytes.numeral_decimal n
  have hnumber := number?_numeral hnumeral hend
  rw [Json.natural, before] at hfuel ⊢
  cases hbytes : Bytes.decimal n with
  | nil => exact absurd hbytes hnumeral.nonempty
  | cons c rest =>
    obtain ⟨hlow, hhigh⟩ := hnumeral.digits c (hbytes ▸ List.mem_cons_self)
    have hc : c = Bytes.digit (c.toNat - 48) := by
      apply UInt8.toNat_inj.mp
      rw [Bytes.toNat_digit (by omega)]
      omega
    rw [hbytes] at hnumber hfuel
    rw [List.cons_append] at hnumber hfuel ⊢
    simp only [List.length_cons, List.length_append] at hfuel
    obtain ⟨fuel, rfl⟩ : ∃ n, fuel = n + 1 := ⟨fuel - 1, by omega⟩
    rw [hc] at hnumber ⊢
    rw [value?_digit shape fuel (by omega), hnumber]

theorem readBack_string {spelling : Bytes} (h : Unescaped spelling) :
    ReadBack (.string spelling) := by
  intro shape fuel tail _ hfuel
  simp only [before, List.length_cons, List.length_append] at hfuel
  obtain ⟨fuel, rfl⟩ : ∃ n, fuel = n + 1 := ⟨fuel - 1, by omega⟩
  have hstep : ∀ rest, value? shape (fuel + 1) (34 :: rest) =
      (stringAfter [] rest).map fun read => (.string read.1, read.2) := fun _ => rfl
  rw [before, hstep, stringAfter_unescaped h]
  rfl

theorem readBack_object {members : List (Bytes × Json)}
    (hkeys : ∀ member ∈ members, Unescaped member.1)
    (hvalues : ∀ member ∈ members, ReadBack member.2) : ReadBack (.object members) := by
  intro shape fuel tail _ hfuel
  cases members with
  | nil =>
    simp only [before, List.length_cons] at hfuel
    obtain ⟨fuel, rfl⟩ : ∃ n, fuel = n + 1 := ⟨fuel - 1, by omega⟩
    rfl
  | cons member members =>
    obtain ⟨key, value⟩ := member
    rw [before, List.length_cons] at hfuel
    obtain ⟨fuel, rfl⟩ : ∃ n, fuel = n + 1 := ⟨fuel - 1, by
      have hvalue := length_le_before value (membersBefore members tail)
      have hrest := length_le_membersBefore members tail
      simp only [List.length_cons, List.length_append] at hfuel
      omega⟩
    have hstep : ∀ rest, value? shape (fuel + 1) (123 :: 34 :: rest) =
        (members? shape fuel (34 :: rest)).map fun read => (.object read.1, read.2) :=
      fun _ => rfl
    rw [before, hstep, members?_before (fun m hm => hkeys m (List.mem_cons_of_mem _ hm))
      (fun m hm => hvalues m (List.mem_cons_of_mem _ hm)) shape fuel tail key value
      (hkeys _ List.mem_cons_self) (hvalues _ List.mem_cons_self) (by omega)]
    rfl

theorem Plain.readBack {value : Json} (h : Plain value) : ReadBack value := by
  induction h with
  | null => exact readBack_null
  | natural n => exact readBack_natural n
  | string h => exact readBack_string h
  | object hkeys _ ih => exact readBack_object hkeys ih

/-- A plain value is what its text is read as. -/
theorem parseAs?_render {value : Json} (h : Plain value) (shape : Shape) :
    parseAs? shape value.render = some value := by
  have hread := h.readBack shape (2 * value.render.length + 2) [] (by simp [EndsNumber])
    (by simp only [render, List.length_nil]; omega)
  rw [← render] at hread
  rw [parseAs?, hread]
  rfl

theorem decode?_render {α : Type} {value : Json} (h : Plain value) (shape : Shape)
    (read : Json → Option α) : decode? shape read value.render = read value := by
  rw [decode?, parseAs?_render h]
  rfl

/-! ## Lines -/

theorem newline_not_mem_unescaped {bytes : Bytes} (h : Unescaped bytes) : 10 ∉ bytes :=
  fun hmem => absurd (h 10 hmem).2.2 (by decide)

theorem Plain.newline_not_mem {value : Json} (h : Plain value) :
    ∀ tail, 10 ∉ tail → 10 ∉ before value tail := by
  induction h with
  | null =>
    intro tail htail
    rw [before, List.mem_append]
    exact fun hmem => hmem.elim (by decide) htail
  | natural n =>
    intro tail htail
    rw [Json.natural, before, List.mem_append]
    refine fun hmem => hmem.elim (fun hmem => ?_) htail
    exact absurd ((Bytes.numeral_decimal n).digits 10 hmem).1 (by decide)
  | string h =>
    intro tail htail
    have hspelling := newline_not_mem_unescaped h
    simp [before, hspelling, htail]
  | @object members hkeys hvalues ih =>
    intro tail htail
    have hmembers : 10 ∉ membersBefore members tail := by
      induction members with
      | nil => simp [membersBefore, htail]
      | cons member rest ihrest =>
        have hkey := newline_not_mem_unescaped (hkeys member List.mem_cons_self)
        have hrest := ihrest (fun m hm => hkeys m (List.mem_cons_of_mem _ hm))
          (fun m hm => hvalues m (List.mem_cons_of_mem _ hm))
          fun m hm => ih m (List.mem_cons_of_mem _ hm)
        have hvalue := ih member List.mem_cons_self _ hrest
        simp [membersBefore, hkey, hvalue]
    cases members with
    | nil => simp [before, htail]
    | cons member rest => simpa [before, membersBefore] using hmembers

end CrossSafety.Json
