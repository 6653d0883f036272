import Mathlib
import PatternTree.Proofs.Version.Numeral

/-!
# Writing versions and reading them back

The fraction is written with six digits and loses zeros at its end only
(`eq_trimFraction_append`), so its digits still denote the same number of millionths, and the text
of a version is a numeral as long as the whole part is at most 999. A greater version is written
too, but its text is not read. In either case the digits before and after the point give the
version back (`text_injective`).
-/

namespace PatternTree.Version

theorem toNat_whole (v : Version) : v.whole.toNat = v.value.toNat / 10 ^ 6 :=
  UInt64.toNat_div v.value scale

theorem toNat_fraction (v : Version) : v.fraction.toNat = v.value.toNat % 10 ^ 6 :=
  UInt64.toNat_mod v.value scale

/-! ## The digits of the fraction -/

theorem isDigit_fractionDigits (v : Version) : ∀ c ∈ v.fractionDigits, c.isDigit = true := by
  intro c hc
  rw [fractionDigits, List.leftpad, List.mem_append] at hc
  rcases hc with hc | hc
  · rw [List.eq_of_mem_replicate hc]
    rfl
  · exact Nat.isDigit_of_mem_toDigits (by decide) (by decide) hc

theorem length_fractionDigits (v : Version) : v.fractionDigits.length = 6 := by
  have hlt : v.fraction.toNat < 10 ^ 6 := by
    rw [toNat_fraction]
    exact Nat.mod_lt _ (by decide)
  rw [fractionDigits, List.length_leftpad]
  exact max_eq_left ((Nat.length_toDigits_le_iff (by decide) (by decide)).2 hlt)

theorem ofDigitChars_fractionDigits (v : Version) :
    Nat.ofDigitChars 10 v.fractionDigits 0 = v.fraction.toNat := by
  rw [fractionDigits, List.leftpad, Nat.ofDigitChars_append, Nat.ofDigitChars_replicate_zero]
  simp

/-! ## Zeros at the end -/

/-- Only zeros are dropped. -/
theorem eq_trimFraction_append (ds : List Char) :
    ∃ k, ds = trimFraction ds ++ List.replicate k '0' := by
  have hzeros : (ds.drop 3).reverse.takeWhile (· == '0') =
      List.replicate ((ds.drop 3).reverse.takeWhile (· == '0')).length '0' :=
    List.eq_replicate_length.2 fun c hc => by simpa using List.mem_takeWhile_imp hc
  refine ⟨((ds.drop 3).reverse.takeWhile (· == '0')).length, ?_⟩
  calc ds = ds.take 3 ++ ds.drop 3 := (List.take_append_drop 3 ds).symm
    _ = ds.take 3 ++ ((ds.drop 3).reverse.takeWhile (· == '0') ++
          (ds.drop 3).reverse.dropWhile (· == '0')).reverse := by
        rw [List.takeWhile_append_dropWhile, List.reverse_reverse]
    _ = trimFraction ds ++ List.replicate _ '0' := by
        rw [List.reverse_append, hzeros, List.reverse_replicate, trimFraction, List.append_assoc,
          List.length_replicate]

/-- The digits that are written after the point. -/
theorem trimFraction_fractionDigits (v : Version) :
    (∀ c ∈ trimFraction v.fractionDigits, c.isDigit = true) ∧
    trimFraction v.fractionDigits ≠ [] ∧
    (trimFraction v.fractionDigits).length ≤ 6 ∧
    Nat.ofDigitChars 10 (trimFraction v.fractionDigits) 0 *
        10 ^ (6 - (trimFraction v.fractionDigits).length) = v.fraction.toNat := by
  obtain ⟨k, hk⟩ := eq_trimFraction_append v.fractionDigits
  have hlen : (trimFraction v.fractionDigits).length + k = 6 := by
    rw [← v.length_fractionDigits, congrArg List.length hk, List.length_append,
      List.length_replicate]
  refine ⟨fun c hc => v.isDigit_fractionDigits c ?_, ?_, by omega, ?_⟩
  · rw [hk]
    exact List.mem_append_left _ hc
  · have hthree : (v.fractionDigits.take 3).length = 3 := by
      rw [List.length_take, v.length_fractionDigits]
      rfl
    intro hnil
    rw [trimFraction, List.append_eq_nil_iff] at hnil
    rw [hnil.1] at hthree
    cases hthree
  · have hshift : 6 - (trimFraction v.fractionDigits).length = k := by omega
    have hvalue := congrArg (Nat.ofDigitChars 10 · 0) hk
    simp only [Nat.ofDigitChars_append, Nat.ofDigitChars_replicate_zero] at hvalue
    rw [← v.ofDigitChars_fractionDigits, hshift, hvalue, Nat.mul_comm]

/-! ## The text -/

theorem toList_text (v : Version) :
    v.text.toList = Nat.toDigits 10 v.whole.toNat ++ '.' :: trimFraction v.fractionDigits := by
  simp [text, Nat.repr_eq_ofList_toDigits]

theorem isDigit_toDigits (n : Nat) : ∀ c ∈ Nat.toDigits 10 n, c.isDigit = true := fun _ hc =>
  Nat.isDigit_of_mem_toDigits (by decide) (by decide) hc

/-- The digits before the point stand for the whole part. -/
theorem takeWhile_text (v : Version) :
    v.text.toList.takeWhile Char.isDigit = Nat.toDigits 10 v.whole.toNat := by
  rw [toList_text, List.takeWhile_append_of_pos (isDigit_toDigits _)]
  simp

theorem dropWhile_text (v : Version) :
    v.text.toList.dropWhile Char.isDigit = '.' :: trimFraction v.fractionDigits := by
  rw [toList_text, List.dropWhile_append_of_pos (isDigit_toDigits _)]
  simp

/-- The text of a version as a numeral. -/
def numeral (v : Version) (h : v.whole.toNat ≤ 999) : Numeral where
  whole := Nat.toDigits 10 v.whole.toNat
  fraction := trimFraction v.fractionDigits
  whole_isDigit := isDigit_toDigits _
  whole_ne_nil := Nat.toDigits_ne_nil
  whole_le := by rwa [Nat.ofDigitChars_ten_toDigits]
  fraction_isDigit := v.trimFraction_fractionDigits.1
  fraction_length := v.trimFraction_fractionDigits.2.2.1

theorem text_numeral {v : Version} (h : v.whole.toNat ≤ 999) : (v.numeral h).text = v.text := by
  rw [← String.toList_inj, toList_text, Numeral.text, String.toList_ofList, Numeral.chars, numeral]
  simp only [if_neg v.trimFraction_fractionDigits.2.1]

theorem millionths_numeral {v : Version} (h : v.whole.toNat ≤ 999) :
    (v.numeral h).millionths = v.value.toNat := by
  rw [Numeral.millionths, numeral, Nat.ofDigitChars_ten_toDigits,
    v.trimFraction_fractionDigits.2.2.2, toNat_whole, toNat_fraction]
  omega

theorem parse_text {v : Version} (h : v.whole.toNat ≤ 999) : parse v.text = .ok v := by
  obtain ⟨w, hparse, hw⟩ := parse_numeral (v.numeral h)
  rw [millionths_numeral, ← eq_iff_toNat] at hw
  rw [← text_numeral h, hparse, hw]

/-- Only a whole part of at most 999 is read back. -/
theorem whole_le_of_parse_text {v w : Version} (h : parse v.text = .ok w) : v.whole.toNat ≤ 999 := by
  obtain ⟨n, hn⟩ := exists_numeral_text h
  have hwhole : n.whole = Nat.toDigits 10 v.whole.toNat := by
    rw [← n.takeWhile_chars, ← takeWhile_text, hn, Numeral.text, String.toList_ofList]
  have hle := n.whole_le
  rwa [hwhole, Nat.ofDigitChars_ten_toDigits] at hle

theorem whole_le_of_parse {s : String} {v : Version} (h : parse s = .ok v) : v.whole.toNat ≤ 999 := by
  obtain ⟨n, rfl⟩ := exists_numeral_text h
  have hlt := fraction_lt n.fraction_isDigit n.fraction_length
  have hle := n.whole_le
  rw [toNat_whole, toNat_value_of_parse h, Numeral.millionths]
  omega

theorem text_injective : Function.Injective text := by
  intro v w h
  have hdigits : Nat.toDigits 10 v.whole.toNat = Nat.toDigits 10 w.whole.toNat := by
    rw [← takeWhile_text, h, takeWhile_text]
  have htrim : trimFraction v.fractionDigits = trimFraction w.fractionDigits := by
    have hdrop := v.dropWhile_text
    rw [h, dropWhile_text] at hdrop
    exact (List.cons.inj hdrop).2.symm
  have hwhole : v.whole.toNat = w.whole.toNat := by
    rw [← Nat.ofDigitChars_ten_toDigits (n := v.whole.toNat), hdigits, Nat.ofDigitChars_ten_toDigits]
  have hfraction : v.fraction.toNat = w.fraction.toNat := by
    rw [← v.trimFraction_fractionDigits.2.2.2, htrim, w.trimFraction_fractionDigits.2.2.2]
  rw [toNat_whole, toNat_whole] at hwhole
  rw [toNat_fraction, toNat_fraction] at hfraction
  rw [eq_iff_toNat]
  omega

/-- **Reading undoes writing** up to the greatest whole part, beyond which no text is read; no two
versions are written alike; and to write what was read and to read it again changes nothing. -/
theorem parse_text_exact :
    (∀ v : Version, v.value.toNat < 1000 * 10 ^ 6 → parse v.text = .ok v) ∧
    (∀ v : Version, 1000 * 10 ^ 6 ≤ v.value.toNat → parse v.text = .error (.malformed v.text)) ∧
    Function.Injective text ∧
    (∀ (s : String) (v : Version), parse s = .ok v → parse v.text = .ok v) := by
  refine ⟨fun v hv => parse_text ?_, fun v hv => ?_, text_injective, fun s v h =>
    parse_text (whole_le_of_parse h)⟩
  · rw [toNat_whole]
    omega
  · apply parse_eq_malformed
    intro w hparse
    have hle := whole_le_of_parse_text hparse
    rw [toNat_whole] at hle
    omega

/-- The last version that is read back, and the one after it. -/
theorem parse_text_at_limit :
    parse (text ⟨999999999⟩) = .ok ⟨999999999⟩ ∧
      parse (text ⟨1000000000⟩) = .error (.malformed (text ⟨1000000000⟩)) :=
  ⟨parse_text_exact.1 ⟨999999999⟩ (by decide), parse_text_exact.2.1 ⟨1000000000⟩ (by decide)⟩

end PatternTree.Version
