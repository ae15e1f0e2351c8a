import CrossSafety.Bytes.Decimal
import CrossSafety.Hash

/-!
# Numerals and hashes read back

A decimal numeral consists of digits, has no zero in front of another digit and is read as the
number that it was written for. Two hexadecimal digits are read as the byte that they were written
for, so a hash survives being spelled.
-/
namespace CrossSafety.Bytes

/-! ## Decimal numerals -/

def AllDigits (bytes : Bytes) : Prop := ∀ c ∈ bytes, 48 ≤ c.toNat ∧ c.toNat ≤ 57

def withDigit (value : Nat) (c : UInt8) : Nat := 10 * value + (c.toNat - 48)

def digitsValue (value : Nat) (bytes : Bytes) : Nat := bytes.foldl withDigit value

theorem toNat_digit {n : Nat} (h : n < 10) : (digit n).toNat = 48 + n := by
  have hbyte : (digit n).toNat = (48 + n) % 256 := UInt8.toNat_ofNat'
  omega

theorem allDigits_snoc {bytes : Bytes} {n : Nat} (h : AllDigits bytes) (hn : n < 10) :
    AllDigits (bytes ++ [digit n]) := by
  intro c hc
  rcases List.mem_append.mp hc with hc | hc
  · exact h c hc
  · rw [List.mem_singleton.mp hc, toNat_digit hn]
    omega

theorem withDigit_digit {value n : Nat} (h : n < 10) : withDigit value (digit n) = 10 * value + n := by
  rw [withDigit, toNat_digit h, Nat.add_sub_cancel_left]

theorem le_digitsValue (value : Nat) (bytes : Bytes) : value ≤ digitsValue value bytes := by
  induction bytes generalizing value with
  | nil => exact Nat.le_refl _
  | cons c rest ih =>
    have hle : withDigit value c ≤ digitsValue value (c :: rest) := ih _
    have hdigit : value ≤ withDigit value c := by rw [withDigit]; omega
    exact Nat.le_trans hdigit hle

/-- Digits are read as their value, if it is below the bound. -/
theorem readDigits_eq {bound : Nat} (bytes : Bytes) :
    ∀ value, AllDigits bytes → digitsValue value bytes < bound →
      readDigits bound value bytes = some (digitsValue value bytes) := by
  induction bytes with
  | nil => exact fun value _ _ => rfl
  | cons c rest ih =>
    intro value hdigits hbound
    have hvalue : digitValue? c = some (c.toNat - 48) := by
      rw [digitValue?, if_pos (hdigits c List.mem_cons_self)]
    have hnext : withDigit value c < bound :=
      Nat.lt_of_le_of_lt (le_digitsValue _ rest) hbound
    have hstep : readDigits bound value (c :: rest) = readDigits bound (withDigit value c) rest := by
      rw [readDigits, hvalue, Option.bind_eq_bind, Option.bind_some]
      exact if_pos hnext
    rw [hstep]
    exact ih _ (fun d hd => hdigits d (List.mem_cons_of_mem _ hd)) hbound

/-- What a numeral is: the digits of its number, without zeroes in front. -/
structure Numeral (n : Nat) (bytes : Bytes) : Prop where
  digits : AllDigits bytes
  value : digitsValue 0 bytes = n
  nonempty : bytes ≠ []
  zero : n = 0 → bytes = [digit 0]
  leading : n ≠ 0 → bytes.head? ≠ some (digit 0)

theorem numeral_digit {n : Nat} (h : n < 10) : Numeral n [digit n] where
  digits := by
    intro c hc
    rw [List.mem_singleton.mp hc, toNat_digit h]
    omega
  value := by
    have hvalue := @withDigit_digit 0 n h
    rwa [Nat.mul_zero, Nat.zero_add] at hvalue
  nonempty := by simp
  zero := fun hn => by rw [hn]
  leading := by
    intro hn he
    have hbyte := congrArg UInt8.toNat (Option.some.inj he)
    rw [toNat_digit h, toNat_digit (by omega)] at hbyte
    omega

theorem Numeral.snoc {n : Nat} {bytes : Bytes} (h : Numeral (n / 10) bytes) (hn : ¬n < 10) :
    Numeral n (bytes ++ [digit (n % 10)]) where
  digits := allDigits_snoc h.digits (by omega)
  value := by
    have hvalue : digitsValue 0 (bytes ++ [digit (n % 10)]) =
        withDigit (digitsValue 0 bytes) (digit (n % 10)) := by
      rw [digitsValue, List.foldl_append]
      rfl
    rw [hvalue, h.value, withDigit_digit (Nat.mod_lt n (by omega)), Nat.div_add_mod]
  nonempty := by simp
  zero := by omega
  leading := by
    intro _ he
    cases hb : bytes with
    | nil => exact h.nonempty hb
    | cons c rest =>
      rw [hb, List.cons_append, List.head?_cons] at he
      exact h.leading (by omega) (by rw [hb, List.head?_cons, he])

theorem decimalBefore_eq (fuel : Nat) :
    ∀ n tail, n < fuel → ∃ bytes, decimalBefore fuel n tail = bytes ++ tail ∧ Numeral n bytes := by
  induction fuel with
  | zero => exact fun n tail h => absurd h (Nat.not_lt_zero n)
  | succ fuel ih =>
    intro n tail hfuel
    by_cases hn : n < 10
    · exact ⟨[digit n], by rw [decimalBefore, if_pos hn]; rfl, numeral_digit hn⟩
    · obtain ⟨bytes, heq, hnumeral⟩ := ih (n / 10) (digit (n % 10) :: tail) (by omega)
      exact ⟨bytes ++ [digit (n % 10)], by rw [decimalBefore, if_neg hn, heq]; simp,
        hnumeral.snoc hn⟩

theorem numeral_decimal (n : Nat) : Numeral n (decimal n) := by
  obtain ⟨bytes, heq, hnumeral⟩ := decimalBefore_eq (n + 1) n [] (Nat.lt_succ_self n)
  rw [decimal, heq, List.append_nil]
  exact hnumeral

/-- The numeral of a number below the bound is read as the number. -/
theorem naturalBelow?_decimal {bound n : Nat} (h : n < bound) :
    naturalBelow? bound (decimal n) = some n := by
  have hnumeral := numeral_decimal n
  have hread : readDigits bound 0 (decimal n) = some n := by
    rw [readDigits_eq _ 0 hnumeral.digits (by rw [hnumeral.value]; exact h), hnumeral.value]
  unfold naturalBelow?
  split
  · rename_i heq
    exact absurd heq hnumeral.nonempty
  · rename_i c d rest heq
    rw [heq] at hread
    have hc : c ≠ digit 0 := by
      intro hc
      by_cases hn : n = 0
      · exact absurd (hnumeral.zero hn) (by rw [heq]; simp)
      · exact hnumeral.leading hn (by rw [heq, hc]; rfl)
    rw [if_neg hc, hread]
  · rename_i c heq
    rw [← heq, hread]

/-! ## Hexadecimal digits -/

theorem hexValue?_hexDigit : ∀ n < 16, hexValue? (hexDigit n) = some n := by decide

theorem unhex?_hex (bytes : Bytes) : unhex? (hex bytes) = some bytes := by
  induction bytes with
  | nil => rfl
  | cons b rest ih =>
    have hb := b.toNat_lt
    have hbyte : UInt8.ofNat (16 * (b.toNat / 16) + b.toNat % 16) = b := by
      rw [Nat.div_add_mod, UInt8.ofNat_toNat]
    rw [hex, unhex?, hexValue?_hexDigit _ (by omega), hexValue?_hexDigit _ (by omega), ih]
    simp only [Option.bind_eq_bind, Option.bind_some, hbyte]
    rfl

theorem ofHex?_hexText (hash : Hash) : Hash.ofHex? hash.bytes.hexText = some hash := by
  have hdrop : dropHexMark hash.bytes.hexText = hex hash.bytes := rfl
  rw [Hash.ofHex?, hdrop, unhex?_hex, Option.bind_eq_bind, Option.bind_some, Hash.exactly?,
    dif_pos hash.length_eq]

end CrossSafety.Bytes
