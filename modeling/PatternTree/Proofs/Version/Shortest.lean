import Mathlib
import PatternTree.Proofs.Version.RoundTrip

/-!
# The shortest spelling of a version

A version has many spellings, with zeros before the whole part and at the end of the fraction. Digits
of the same length that denote the same number are the same (`eq_of_ofDigitChars_eq`), so nothing but zeros
can make one spelling longer than another. The text of a version has no zero before the whole part that
could be left out, and keeps one at the end of the fraction only among the first three digits. Among
the spellings with three fraction digits or more it is therefore the shortest, and the only one of its
length (`text_shortest`).
-/

namespace PatternTree.Version

/-! ## Digits -/

theorem eq_of_digit_eq {c d : Char} (hc : c.isDigit = true) (hd : d.isDigit = true)
    (h : c.toNat - '0'.toNat = d.toNat - '0'.toNat) : c = d := by
  have hz : '0'.toNat = 48 := rfl
  have hle : ∀ x : Char, x.isDigit = true → 48 ≤ x.toNat := by
    intro x hx
    simp only [Char.isDigit, Bool.and_eq_true, decide_eq_true_eq] at hx
    exact UInt32.le_iff_toNat_le.1 hx.1
  have hcle := hle c hc
  have hdle := hle d hd
  exact Char.toNat_inj.1 (by omega)

/-- Digits of the same length that denote the same number are the same. -/
theorem eq_of_ofDigitChars_eq {ds es : List Char} (hds : ∀ c ∈ ds, c.isDigit = true)
    (hes : ∀ c ∈ es, c.isDigit = true) (hlen : ds.length = es.length)
    (h : Nat.ofDigitChars 10 ds 0 = Nat.ofDigitChars 10 es 0) : ds = es := by
  -- the last digit is the remainder by ten, the digits before it denote the quotient
  induction ds using List.reverseRecOn generalizing es with
  | nil => exact (List.length_eq_zero_iff.1 hlen.symm).symm
  | append_singleton ds c ih =>
    rcases List.eq_nil_or_concat' es with rfl | ⟨es, d, rfl⟩
    · simp at hlen
    · have hc := (toNat_digitValue (hds c (by simp))).2
      have hd := (toNat_digitValue (hes d (by simp))).2
      simp only [Nat.ofDigitChars_append, Nat.ofDigitChars_cons, Nat.ofDigitChars_nil] at h
      have hlast := eq_of_digit_eq (hds c (by simp)) (hes d (by simp)) (by omega)
      have hfront := ih (fun x hx => hds x (List.mem_append_left _ hx))
        (fun x hx => hes x (List.mem_append_left _ hx)) (by simpa using hlen) (by omega)
      rw [hlast, hfront]

/-- Of all digits that denote a number its own are the fewest. -/
theorem length_toDigits_le {ds : List Char} (hds : ∀ c ∈ ds, c.isDigit = true) (hne : ds ≠ []) :
    (Nat.toDigits 10 (Nat.ofDigitChars 10 ds 0)).length ≤ ds.length :=
  (Nat.length_toDigits_le_iff (by decide) (List.length_pos_of_ne_nil hne)).2 (ofDigitChars_lt hds)

theorem eq_toDigits_of_length_le {ds : List Char} (hds : ∀ c ∈ ds, c.isDigit = true) (hne : ds ≠ [])
    (h : ds.length ≤ (Nat.toDigits 10 (Nat.ofDigitChars 10 ds 0)).length) :
    ds = Nat.toDigits 10 (Nat.ofDigitChars 10 ds 0) :=
  eq_of_ofDigitChars_eq hds (isDigit_toDigits _) (Nat.le_antisymm h (length_toDigits_le hds hne))
    Nat.ofDigitChars_ten_toDigits.symm

/-! ## Zeros at the end -/

theorem trimFraction_append_replicate {ds : List Char} (h : 3 ≤ ds.length) (k : Nat) :
    trimFraction (ds ++ List.replicate k '0') = trimFraction ds := by
  rw [trimFraction, List.take_append_of_le_length h, List.drop_append_of_le_length h, List.reverse_append,
    List.reverse_replicate, List.dropWhile_append_of_pos (by simp)]
  rfl

theorem length_trimFraction_le (ds : List Char) : (trimFraction ds).length ≤ ds.length := by
  obtain ⟨k, hk⟩ := eq_trimFraction_append ds
  have hlen := congrArg List.length hk
  rw [List.length_append] at hlen
  omega

theorem trimFraction_eq_of_length_le {ds : List Char} (h : ds.length ≤ (trimFraction ds).length) :
    trimFraction ds = ds := by
  obtain ⟨k, hk⟩ := eq_trimFraction_append ds
  have hlen := congrArg List.length hk
  rw [List.length_append, List.length_replicate] at hlen
  obtain rfl : k = 0 := by omega
  simpa using hk.symm

/-! ## Spellings -/

/-- A point with at least three digits after it. -/
def ThreePlaces (s : String) : Prop :=
  ∃ before digits after, s.toList = before ++ '.' :: (digits ++ after) ∧ digits.length = 3 ∧
    ∀ c ∈ digits, c.isDigit = true

namespace Numeral

theorem point_notMem (n : Numeral) : '.' ∉ n.whole ∧ '.' ∉ n.fraction := by
  constructor
  · intro h
    cases n.whole_isDigit '.' h
  · intro h
    cases n.fraction_isDigit '.' h

/-- Three digits after a point are the first three of the fraction. -/
theorem three_le_length {n : Numeral} (h : ThreePlaces n.text) :
    3 ≤ n.fraction.length ∧ n.text.toList = n.whole ++ '.' :: n.fraction := by
  obtain ⟨before, digits, after, htext, hthree, -⟩ := h
  have hchars : n.text.toList = n.chars := String.toList_ofList
  rw [hchars, chars] at htext ⊢
  by_cases hnil : n.fraction = []
  · have hpoint : '.' ∈ n.whole := by
      rw [if_pos hnil, List.append_nil] at htext
      simp [htext]
    exact absurd hpoint n.point_notMem.1
  · rw [if_neg hnil] at htext ⊢
    obtain ⟨-, -, hfraction⟩ := (List.append_cons_inj_of_notMem n.point_notMem.1 n.point_notMem.2).1 htext
    have hlen := congrArg List.length hfraction
    rw [List.length_append] at hlen
    exact ⟨by omega, rfl⟩

/-- The two parts of a numeral denote the two parts of the version that is read. -/
theorem toNat_parts {n : Numeral} {v : Version} (h : parse n.text = .ok v) :
    Nat.ofDigitChars 10 n.whole 0 = v.whole.toNat ∧
      Nat.ofDigitChars 10 n.fraction 0 * 10 ^ (6 - n.fraction.length) = v.fraction.toNat := by
  have hlt := fraction_lt n.fraction_isDigit n.fraction_length
  have hvalue := toNat_value_of_parse h
  rw [millionths] at hvalue
  rw [toNat_whole, toNat_fraction, hvalue]
  omega

/-- Filled up with zeros the fraction has the six digits of the version. -/
theorem fraction_append_zeros {n : Numeral} {v : Version} (h : parse n.text = .ok v) :
    n.fraction ++ List.replicate (6 - n.fraction.length) '0' = v.fractionDigits := by
  have hlen := n.fraction_length
  refine eq_of_ofDigitChars_eq (fun c hc => ?_) v.isDigit_fractionDigits ?_ ?_
  · rcases List.mem_append.1 hc with hc | hc
    · exact n.fraction_isDigit c hc
    · rw [List.eq_of_mem_replicate hc]
      rfl
  · rw [List.length_append, List.length_replicate, v.length_fractionDigits]
    omega
  · rw [Nat.ofDigitChars_append, Nat.ofDigitChars_replicate_zero, v.ofDigitChars_fractionDigits,
      Nat.mul_comm, (toNat_parts h).2]

end Numeral

theorem threePlaces_text (v : Version) : ThreePlaces v.text := by
  refine ⟨Nat.toDigits 10 v.whole.toNat, v.fractionDigits.take 3, _, v.toList_text, ?_, fun c hc => ?_⟩
  · rw [List.length_take, v.length_fractionDigits]
    rfl
  · exact v.isDigit_fractionDigits c (List.mem_of_mem_take hc)

/-- **The shortest spelling.** The text of a version below 1000 is read as that version and has three
fraction digits at least. Every other text of which both is true is longer. -/
theorem text_shortest (v : Version) (hv : v.value.toNat < 1000 * 10 ^ 6) :
    parse v.text = .ok v ∧ ThreePlaces v.text ∧
    ∀ s, parse s = .ok v → ThreePlaces s →
      v.text.length ≤ s.length ∧ (s.length = v.text.length → s = v.text) := by
  refine ⟨parse_text (by rw [toNat_whole]; omega), v.threePlaces_text, fun s hparse hplaces => ?_⟩
  obtain ⟨n, rfl⟩ := exists_numeral_text hparse
  obtain ⟨hthree, hspelling⟩ := Numeral.three_le_length hplaces
  obtain ⟨hwhole, -⟩ := Numeral.toNat_parts hparse
  have htext : v.text.toList =
      Nat.toDigits 10 (Nat.ofDigitChars 10 n.whole 0) ++ '.' :: trimFraction n.fraction := by
    rw [toList_text, ← Numeral.fraction_append_zeros hparse, trimFraction_append_replicate hthree, hwhole]
  have hwholeLength := length_toDigits_le n.whole_isDigit n.whole_ne_nil
  have hfractionLength := length_trimFraction_le n.fraction
  simp only [← String.length_toList, htext, hspelling, List.length_append, List.length_cons]
  refine ⟨by omega, fun hlen => String.toList_inj.1 ?_⟩
  rw [hspelling, htext, ← eq_toDigits_of_length_le n.whole_isDigit n.whole_ne_nil (by omega),
    trimFraction_eq_of_length_le (by omega)]

/-- Two zeros in front and one at the end can be left out, the two others at the end have to stay. -/
theorem text_padded_shortest :
    (7100000 : UInt64).toNat < 1000 * 10 ^ 6 ∧ text ⟨7100000⟩ = "7.100" ∧
    parse "007.1000" = .ok ⟨7100000⟩ ∧ ThreePlaces "007.1000" ∧
    (text ⟨7100000⟩).length ≤ "007.1000".length ∧
    ("007.1000".length = (text ⟨7100000⟩).length → "007.1000" = text ⟨7100000⟩) := by
  have hv : (7100000 : UInt64).toNat < 1000 * 10 ^ 6 := by decide
  have hparse : parse "007.1000" = .ok ⟨7100000⟩ := by decide
  have hplaces : ThreePlaces "007.1000" :=
    ⟨['0', '0', '7'], ['1', '0', '0'], ['0'], by decide, rfl, by simp⟩
  exact ⟨hv, by decide +kernel, hparse, hplaces, (text_shortest ⟨7100000⟩ hv).2.2 _ hparse hplaces⟩

end PatternTree.Version
