import Mathlib
import PatternTree.Version.Read

/-!
# The written form of versions

A `Numeral` is a text that can be read as a version, with the proofs of all that is asked of it: digits
for a whole part of at most 999, and up to six digits after a point. It denotes a rational number.

Reading goes through 64-bit words. The loop over the whole part never holds more than 999 when it goes
on, and the loop over the fraction adds a digit at a place worth ten times less each time, so every
word holds the number that exact arithmetic gives (`readWhole_eq`, `readFraction_eq`), and
not one sum or product wraps around (`Checked.readChars_eq`). What is read is then exactly the number
denoted, in millionths (`parse_exact`).
-/

namespace PatternTree.Version

/-- A whole part of at most 999, leading zeros allowed, and at most six digits of a fraction. -/
structure Numeral where
  whole : List Char
  /-- The digits after the point. Without any, there is no point either. -/
  fraction : List Char
  whole_isDigit : ∀ c ∈ whole, c.isDigit = true
  whole_ne_nil : whole ≠ []
  whole_le : Nat.ofDigitChars 10 whole 0 ≤ 999
  fraction_isDigit : ∀ c ∈ fraction, c.isDigit = true
  fraction_length : fraction.length ≤ 6

namespace Numeral

def chars (n : Numeral) : List Char :=
  n.whole ++ if n.fraction = [] then [] else '.' :: n.fraction

def text (n : Numeral) : String := String.ofList n.chars

/-- The number that is denoted. -/
def value (n : Numeral) : ℚ :=
  Nat.ofDigitChars 10 n.whole 0 + Nat.ofDigitChars 10 n.fraction 0 / 10 ^ n.fraction.length

/-- The same in millionths. -/
def millionths (n : Numeral) : Nat :=
  Nat.ofDigitChars 10 n.whole 0 * 10 ^ 6 +
    Nat.ofDigitChars 10 n.fraction 0 * 10 ^ (6 - n.fraction.length)

theorem value_mul (n : Numeral) : n.value * 10 ^ 6 = n.millionths := by
  have hsplit : (10 : ℚ) ^ 6 = 10 ^ n.fraction.length * 10 ^ (6 - n.fraction.length) := by
    rw [← pow_add, Nat.add_sub_cancel' n.fraction_length]
  have hne : (10 : ℚ) ^ n.fraction.length ≠ 0 := by positivity
  have hfraction : (Nat.ofDigitChars 10 n.fraction 0 : ℚ) / 10 ^ n.fraction.length * 10 ^ 6 =
      Nat.ofDigitChars 10 n.fraction 0 * 10 ^ (6 - n.fraction.length) := by
    rw [hsplit]
    field_simp
  rw [value, add_mul, hfraction, millionths]
  push_cast
  ring

end Numeral

/-! ## Digits -/

theorem toNat_digitValue {c : Char} (h : c.isDigit = true) :
    (digitValue c).toNat = c.toNat - '0'.toNat ∧ c.toNat - '0'.toNat ≤ 9 := by
  have hle : c.toNat ≤ 57 := by
    simp only [Char.isDigit, Bool.and_eq_true, decide_eq_true_eq] at h
    exact UInt32.le_iff_toNat_le.1 h.2
  have hz : '0'.toNat = 48 := rfl
  refine ⟨?_, by omega⟩
  rw [digitValue, UInt64.toNat_ofNat_of_lt']
  rw [hz]
  have : UInt64.size = 2 ^ 64 := rfl
  omega

theorem le_ofDigitChars (ds : List Char) (n : Nat) : n ≤ Nat.ofDigitChars 10 ds n := by
  rw [Nat.ofDigitChars_eq_ofDigitChars_zero]
  exact Nat.le_add_right_of_le (Nat.le_mul_of_pos_left n (Nat.pow_pos (by decide)))

theorem ofDigitChars_lt {ds : List Char} (h : ∀ c ∈ ds, c.isDigit = true) :
    Nat.ofDigitChars 10 ds 0 < 10 ^ ds.length := by
  induction ds with
  | nil => simp
  | cons c ds ih =>
    have hc := (toNat_digitValue (h c List.mem_cons_self)).2
    have ih := ih fun x hx => h x (List.mem_cons_of_mem _ hx)
    rw [Nat.ofDigitChars_cons, Nat.ofDigitChars_eq_ofDigitChars_zero, List.length_cons, pow_succ]
    nlinarith

/-! ## The whole part -/

theorem toNat_maxWhole : maxWhole.toNat = 999 := rfl

/-- One digit more: the word holds the exact number, which is not more than 9999. -/
theorem whole_step {whole : UInt64} (h : whole.toNat ≤ 999) {c : Char} (hc : c.isDigit = true) :
    (whole * 10).toNat = whole.toNat * 10 ∧
      (whole * 10 + digitValue c).toNat = 10 * whole.toNat + (c.toNat - '0'.toNat) := by
  obtain ⟨hd, hle⟩ := toNat_digitValue hc
  have htens : (whole * 10).toNat = whole.toNat * 10 := by
    rw [UInt64.toNat_mul, Nat.mod_eq_of_lt]
    · rfl
    · change whole.toNat * 10 < _
      omega
  refine ⟨htens, ?_⟩
  rw [UInt64.toNat_add, htens, hd, Nat.mod_eq_of_lt] <;> omega

/-- The digits at the front are read as the number they denote, unless that is more than 999. -/
theorem readWhole_eq (cs : List Char) {whole : UInt64} (h : whole.toNat ≤ 999) :
    readWhole whole cs =
      if Nat.ofDigitChars 10 (cs.takeWhile Char.isDigit) whole.toNat ≤ 999 then
        some (UInt64.ofNat (Nat.ofDigitChars 10 (cs.takeWhile Char.isDigit) whole.toNat),
          cs.dropWhile Char.isDigit)
      else none := by
  induction cs generalizing whole with
  | nil => simp [readWhole, h]
  | cons c cs ih =>
    by_cases hc : c.isDigit = true
    · have hnext := (whole_step h hc).2
      rw [readWhole, if_pos hc, List.takeWhile_cons_of_pos hc, List.dropWhile_cons_of_pos hc,
        Nat.ofDigitChars_cons, ← hnext]
      by_cases hbig : maxWhole < whole * 10 + digitValue c
      · have hlt := UInt64.lt_iff_toNat_lt.1 hbig
        have hle := le_ofDigitChars (cs.takeWhile Char.isDigit) (whole * 10 + digitValue c).toNat
        rw [toNat_maxWhole] at hlt
        simp only [hbig, if_true]
        rw [if_neg (by omega)]
      · have hle := UInt64.not_lt.1 hbig
        simp only [hbig, if_false]
        exact ih (UInt64.le_iff_toNat_le.1 hle)
    · rw [readWhole, if_neg hc, List.takeWhile_cons_of_neg hc, List.dropWhile_cons_of_neg hc]
      simp [h]

/-! ## The fraction -/

/-- One digit more, at a tenth of the place before. -/
theorem fraction_step {place fraction : UInt64} {p : Nat} (hplace : place.toNat = 10 ^ (p + 1))
    (hfit : fraction.toNat + 10 ^ (p + 1) ≤ 10 ^ 6) {c : Char} (hc : c.isDigit = true) :
    (place / 10).toNat = 10 ^ p ∧
    (digitValue c * (place / 10)).toNat = (c.toNat - '0'.toNat) * 10 ^ p ∧
    (fraction + digitValue c * (place / 10)).toNat =
      fraction.toNat + (c.toNat - '0'.toNat) * 10 ^ p ∧
    (fraction + digitValue c * (place / 10)).toNat + 10 ^ p ≤ 10 ^ 6 := by
  obtain ⟨hd, hle⟩ := toNat_digitValue hc
  rw [pow_succ] at hplace hfit
  have htenth : (place / 10).toNat = 10 ^ p := by
    rw [UInt64.toNat_div, hplace]
    exact Nat.mul_div_cancel _ (by decide)
  have hsmall : (c.toNat - '0'.toNat) * 10 ^ p ≤ 9 * 10 ^ p := Nat.mul_le_mul_right _ hle
  have hdigit : (digitValue c * (place / 10)).toNat = (c.toNat - '0'.toNat) * 10 ^ p := by
    rw [UInt64.toNat_mul, htenth, hd, Nat.mod_eq_of_lt]
    omega
  have hsum : (fraction + digitValue c * (place / 10)).toNat =
      fraction.toNat + (c.toNat - '0'.toNat) * 10 ^ p := by
    rw [UInt64.toNat_add, hdigit, Nat.mod_eq_of_lt]
    omega
  refine ⟨htenth, hdigit, hsum, ?_⟩
  rw [hsum]
  omega

theorem place_ne_one {place : UInt64} {p : Nat} (hplace : place.toNat = 10 ^ p) :
    (place != 1) = true ↔ p ≠ 0 := by
  have hone : (1 : UInt64).toNat = 1 := rfl
  rw [bne_iff_ne, ne_eq, ← UInt64.toNat_inj, hplace, hone]
  simp

/-- At most `p` digits are read, and as the number they denote at the places after `place`. -/
theorem readFraction_eq (cs : List Char) {place fraction : UInt64} {p : Nat}
    (hplace : place.toNat = 10 ^ p) (hfit : fraction.toNat + 10 ^ p ≤ 10 ^ 6) :
    readFraction place fraction cs =
      if (∀ c ∈ cs, c.isDigit = true) ∧ cs.length ≤ p then
        some (UInt64.ofNat (fraction.toNat + Nat.ofDigitChars 10 cs 0 * 10 ^ (p - cs.length)))
      else none := by
  induction cs generalizing place fraction p with
  | nil => simp [readFraction]
  | cons c cs ih =>
    by_cases hc : c.isDigit = true
    · cases p with
      | zero =>
        have hone := (place_ne_one hplace).not.2 (not_not.2 rfl)
        simp [readFraction, hone]
      | succ p =>
        have hone := (place_ne_one hplace).2 p.succ_ne_zero
        obtain ⟨htenth, -, hsum, hfit'⟩ := fraction_step hplace hfit hc
        have hcond : (∀ x ∈ c :: cs, x.isDigit = true) ∧ (c :: cs).length ≤ p + 1 ↔
            (∀ x ∈ cs, x.isDigit = true) ∧ cs.length ≤ p := by
          simp [hc]
        rw [readFraction, hc, hone, Bool.and_true, if_pos rfl, ih htenth hfit', hsum]
        simp only [hcond]
        split
        case isTrue h =>
          have hpow : 10 ^ cs.length * 10 ^ (p - cs.length) = 10 ^ p := by
            rw [← pow_add, Nat.add_sub_cancel' h.2]
          have hdigits : Nat.ofDigitChars 10 (c :: cs) 0 =
              10 ^ cs.length * (c.toNat - '0'.toNat) + Nat.ofDigitChars 10 cs 0 := by
            rw [Nat.ofDigitChars_cons, Nat.mul_zero, Nat.zero_add]
            exact Nat.ofDigitChars_eq_ofDigitChars_zero
          rw [hdigits, List.length_cons, Nat.add_sub_add_right, ← hpow]
          congr 2
          ring
        case isFalse => rfl
    · have : ¬((∀ x ∈ c :: cs, x.isDigit = true) ∧ (c :: cs).length ≤ p) := fun h =>
        hc (h.1 c List.mem_cons_self)
      rw [if_neg this]
      simp [readFraction, hc]

/-! ## The whole text -/

theorem toNat_ofNat_of_le {n : Nat} (h : n ≤ 10 ^ 6) : (UInt64.ofNat n).toNat = n :=
  UInt64.toNat_ofNat_of_lt' (Nat.lt_of_le_of_lt h (by decide))

/-- What is known of a whole part that was read. -/
theorem readWhole_eq_some {cs rest : List Char} {whole : UInt64}
    (h : readWhole 0 cs = some (whole, rest)) :
    whole.toNat = Nat.ofDigitChars 10 (cs.takeWhile Char.isDigit) 0 ∧ whole.toNat ≤ 999 ∧
      rest = cs.dropWhile Char.isDigit := by
  rw [readWhole_eq cs (by decide), UInt64.toNat_zero] at h
  split at h
  case isTrue hle =>
    obtain ⟨rfl, rfl⟩ := Prod.mk.inj (Option.some.inj h)
    have hword := toNat_ofNat_of_le (hle.trans (by decide))
    exact ⟨hword, hword.trans_le hle, rfl⟩
  case isFalse => cases h

theorem fraction_lt {cs : List Char} (hdigit : ∀ c ∈ cs, c.isDigit = true) (hlen : cs.length ≤ 6) :
    Nat.ofDigitChars 10 cs 0 * 10 ^ (6 - cs.length) < 10 ^ 6 := by
  calc Nat.ofDigitChars 10 cs 0 * 10 ^ (6 - cs.length)
      < 10 ^ cs.length * 10 ^ (6 - cs.length) :=
        Nat.mul_lt_mul_of_pos_right (ofDigitChars_lt hdigit) (Nat.pow_pos (by decide))
    _ = 10 ^ 6 := by rw [← pow_add, Nat.add_sub_cancel' hlen]

/-- A fraction is read exactly when it has at most six characters, all of them digits. -/
theorem readFraction_eq_some {cs : List Char} {fraction : UInt64} :
    readFraction scale 0 cs = some fraction ↔
      (∀ c ∈ cs, c.isDigit = true) ∧ cs.length ≤ 6 ∧
        fraction.toNat = Nat.ofDigitChars 10 cs 0 * 10 ^ (6 - cs.length) := by
  rw [readFraction_eq (p := 6) cs rfl (by decide), UInt64.toNat_zero, Nat.zero_add]
  constructor
  · intro h
    split at h
    case isTrue hcs =>
      obtain rfl := Option.some.inj h
      exact ⟨hcs.1, hcs.2, toNat_ofNat_of_le (fraction_lt hcs.1 hcs.2).le⟩
    case isFalse => cases h
  · rintro ⟨hdigit, hlen, hfraction⟩
    rw [if_pos ⟨hdigit, hlen⟩, ← hfraction, UInt64.ofNat_toNat]

theorem readFraction_lt {cs : List Char} {fraction : UInt64}
    (h : readFraction scale 0 cs = some fraction) : fraction.toNat < 10 ^ 6 := by
  obtain ⟨hdigit, hlen, hfraction⟩ := readFraction_eq_some.1 h
  exact hfraction.trans_lt (fraction_lt hdigit hlen)

theorem make_step {whole fraction : UInt64} (hw : whole.toNat ≤ 999) (hf : fraction.toNat < 10 ^ 6) :
    (whole * scale).toNat = whole.toNat * 10 ^ 6 ∧
      (make whole fraction).value.toNat = whole.toNat * 10 ^ 6 + fraction.toNat := by
  have hscale : scale.toNat = 10 ^ 6 := rfl
  have hmul : (whole * scale).toNat = whole.toNat * 10 ^ 6 := by
    rw [UInt64.toNat_mul, hscale, Nat.mod_eq_of_lt]
    omega
  refine ⟨hmul, ?_⟩
  rw [make, UInt64.toNat_add, hmul, Nat.mod_eq_of_lt]
  omega

namespace Numeral

theorem head?_chars (n : Numeral) : n.chars.head?.any Char.isDigit = true := by
  obtain ⟨c, ds, hds⟩ := List.exists_cons_of_ne_nil n.whole_ne_nil
  have hc := n.whole_isDigit c (by rw [hds]; exact List.mem_cons_self)
  simp [chars, hds, hc]

theorem takeWhile_chars (n : Numeral) : n.chars.takeWhile Char.isDigit = n.whole := by
  rw [chars, List.takeWhile_append_of_pos n.whole_isDigit]
  split <;> simp

theorem dropWhile_chars (n : Numeral) :
    n.chars.dropWhile Char.isDigit = if n.fraction = [] then [] else '.' :: n.fraction := by
  rw [chars, List.dropWhile_append_of_pos n.whole_isDigit]
  split <;> simp

theorem readWhole_chars (n : Numeral) : ∃ whole, whole.toNat = Nat.ofDigitChars 10 n.whole 0 ∧
    readWhole 0 n.chars = some (whole, if n.fraction = [] then [] else '.' :: n.fraction) := by
  refine ⟨_, toNat_ofNat_of_le (n.whole_le.trans (by decide)), ?_⟩
  rw [readWhole_eq _ (by decide), n.takeWhile_chars, n.dropWhile_chars]
  exact if_pos n.whole_le

end Numeral

/-- Every numeral is read, as the number it denotes. -/
theorem readChars_numeral (n : Numeral) :
    ∃ v, readChars n.chars = some v ∧ v.value.toNat = n.millionths := by
  obtain ⟨whole, hwhole, hread⟩ := n.readWhole_chars
  have hle : whole.toNat ≤ 999 := hwhole.trans_le n.whole_le
  rw [readChars, if_pos n.head?_chars, hread]
  cases hf : n.fraction with
  | nil =>
    refine ⟨_, rfl, ?_⟩
    rw [(make_step hle (by decide)).2, hwhole, Numeral.millionths, hf]
    rfl
  | cons c cs =>
    have hlt := fraction_lt n.fraction_isDigit n.fraction_length
    have hfraction := toNat_ofNat_of_le hlt.le
    have hsome := readFraction_eq_some.2 ⟨n.fraction_isDigit, n.fraction_length, hfraction⟩
    rw [hf] at hsome hlt hfraction
    refine ⟨_, by simp only [if_neg (List.cons_ne_nil c cs), hsome]; rfl, ?_⟩
    rw [(make_step hle (hfraction.trans_lt hlt)).2, hwhole, hfraction, Numeral.millionths, hf]

/-- Nothing but a numeral is read. -/
theorem exists_numeral {cs : List Char} {v : Version} (h : readChars cs = some v) :
    ∃ n : Numeral, cs = n.chars := by
  rw [readChars] at h
  split at h
  case isFalse => cases h
  case isTrue hhead =>
    have hdigit : ∀ c ∈ cs.takeWhile Char.isDigit, c.isDigit = true := fun c hc =>
      List.mem_takeWhile_imp hc
    have hne : cs.takeWhile Char.isDigit ≠ [] := by
      cases cs <;> simp_all
    -- The numeral of these characters, once its fraction is known.
    have build : ∀ {whole rest} fraction, readWhole 0 cs = some (whole, rest) →
        (∀ c ∈ fraction, c.isDigit = true) → fraction.length ≤ 6 →
        (rest = if fraction = [] then [] else '.' :: fraction) → ∃ n : Numeral, cs = n.chars := by
      intro whole rest fraction hread hfdigit hflen hrest
      obtain ⟨hwhole, hle, hdrop⟩ := readWhole_eq_some hread
      refine ⟨⟨_, fraction, hdigit, hne, hwhole ▸ hle, hfdigit, hflen⟩, ?_⟩
      rw [Numeral.chars, ← hrest, hdrop, List.takeWhile_append_dropWhile]
    split at h
    case h_1 whole hread => exact build [] hread (by simp) (by simp) rfl
    case h_2 whole c rest hread =>
      obtain ⟨fraction, hsome, -⟩ := Option.map_eq_some_iff.1 h
      obtain ⟨hfdigit, hflen, -⟩ := readFraction_eq_some.1 hsome
      exact build _ hread hfdigit hflen (by simp)
    case h_3 => cases h

/-! ## Checked arithmetic -/

namespace Checked

/-- The sum, unless it does not fit into a word. -/
def add (a b : UInt64) : Option UInt64 := if a.toNat + b.toNat < 2 ^ 64 then some (a + b) else none

/-- The product, unless it does not fit into a word. -/
def mul (a b : UInt64) : Option UInt64 := if a.toNat * b.toNat < 2 ^ 64 then some (a * b) else none

/-- Reads the whole part; stops with `none` at a step that does not fit. -/
def readWhole (whole : UInt64) : List Char → Option (Option (UInt64 × List Char))
  | [] => some (some (whole, []))
  | c :: cs =>
    if c.isDigit then do
      let tens ← mul whole 10
      let next ← add tens (digitValue c)
      if maxWhole < next then some none else readWhole next cs
    else some (some (whole, c :: cs))

/-- Reads the fraction; stops with `none` at a step that does not fit. -/
def readFraction (place fraction : UInt64) : List Char → Option (Option UInt64)
  | [] => some (some fraction)
  | c :: cs =>
    if c.isDigit && place != 1 then do
      let worth ← mul (digitValue c) (place / 10)
      let next ← add fraction worth
      readFraction (place / 10) next cs
    else some none

def make (whole fraction : UInt64) : Option Version := do
  let millionths ← mul whole scale
  let value ← add millionths fraction
  return ⟨value⟩

/-- Reads a version like `Version.readChars`, with every sum and product checked. -/
def readChars (cs : List Char) : Option (Option Version) :=
  if cs.head?.any Char.isDigit then do
    match ← readWhole 0 cs with
    | some (whole, []) => some <$> make whole 0
    | some (whole, '.' :: c :: rest) =>
      match ← readFraction scale 0 (c :: rest) with
      | some fraction => some <$> make whole fraction
      | none => some none
    | _ => some none
  else some none

theorem add_eq_some {a b : UInt64} (h : (a + b).toNat = a.toNat + b.toNat) :
    add a b = some (a + b) :=
  if_pos (h ▸ (a + b).toNat_lt)

theorem mul_eq_some {a b : UInt64} (h : (a * b).toNat = a.toNat * b.toNat) :
    mul a b = some (a * b) :=
  if_pos (h ▸ (a * b).toNat_lt)

theorem readWhole_eq (cs : List Char) {whole : UInt64} (h : whole.toNat ≤ 999) :
    readWhole whole cs = some (Version.readWhole whole cs) := by
  induction cs generalizing whole with
  | nil => rfl
  | cons c cs ih =>
    rw [readWhole, Version.readWhole]
    split
    case isFalse => rfl
    case isTrue hc =>
      obtain ⟨htens, hnext⟩ := whole_step h hc
      rw [mul_eq_some htens, Option.bind_eq_bind, Option.bind_some, add_eq_some (by
        rw [hnext, htens, (toNat_digitValue hc).1, Nat.mul_comm])]
      by_cases hbig : maxWhole < whole * 10 + digitValue c
      · simp only [hbig, Option.bind_some, if_true]
      · simp only [hbig, Option.bind_some, if_false]
        exact ih (UInt64.le_iff_toNat_le.1 (UInt64.not_lt.1 hbig))

theorem readFraction_eq (cs : List Char) {place fraction : UInt64} {p : Nat}
    (hplace : place.toNat = 10 ^ p) (hfit : fraction.toNat + 10 ^ p ≤ 10 ^ 6) :
    readFraction place fraction cs = some (Version.readFraction place fraction cs) := by
  induction cs generalizing place fraction p with
  | nil => rfl
  | cons c cs ih =>
    rw [readFraction, Version.readFraction]
    split
    case isFalse => rfl
    case isTrue hgo =>
      obtain ⟨hc, hplace1⟩ := Bool.and_eq_true_iff.1 hgo
      obtain ⟨p, rfl⟩ := Nat.exists_eq_succ_of_ne_zero ((place_ne_one hplace).1 hplace1)
      obtain ⟨htenth, hworth, hsum, hfit'⟩ := fraction_step hplace hfit hc
      rw [mul_eq_some (by rw [hworth, htenth, (toNat_digitValue hc).1]), Option.bind_eq_bind,
        Option.bind_some, add_eq_some (by rw [hsum, hworth]), Option.bind_some]
      exact ih htenth hfit'

theorem make_eq {whole fraction : UInt64} (hw : whole.toNat ≤ 999) (hf : fraction.toNat < 10 ^ 6) :
    make whole fraction = some (Version.make whole fraction) := by
  obtain ⟨hmul, hadd⟩ := make_step hw hf
  have hmul' := mul_eq_some (a := whole) (b := scale) hmul
  have hadd' := add_eq_some (a := whole * scale) (b := fraction) (hadd.trans (by rw [hmul]))
  rw [make, hmul', Option.bind_eq_bind, Option.bind_some, hadd']
  rfl

/-- No sum and no product wraps around, whatever is read. -/
theorem readChars_eq (cs : List Char) : readChars cs = some (Version.readChars cs) := by
  rw [readChars, Version.readChars]
  by_cases hhead : cs.head?.any Char.isDigit = true
  · rw [if_pos hhead, if_pos hhead, readWhole_eq cs (by decide), Option.bind_eq_bind,
      Option.bind_some]
    have hbound : ∀ whole rest, Version.readWhole 0 cs = some (whole, rest) → whole.toNat ≤ 999 :=
      fun _ _ hread => (readWhole_eq_some hread).2.1
    generalize Version.readWhole 0 cs = result at hbound
    match result, hbound with
    | none, _ => rfl
    | some (whole, []), hbound =>
      have hmake : make whole 0 = some (Version.make whole 0) :=
        make_eq (hbound _ _ rfl) (by decide)
      simp [hmake]
    | some (whole, [point]), _ => simp
    | some (whole, point :: c :: rest), hbound =>
      by_cases hpoint : point = '.'
      · subst hpoint
        have hread : readFraction scale 0 (c :: rest) =
            some (Version.readFraction scale 0 (c :: rest)) :=
          readFraction_eq (p := 6) _ rfl (by decide)
        cases hfraction : Version.readFraction scale 0 (c :: rest) with
        | none => simp [hread, hfraction]
        | some fraction =>
          have hmake := make_eq (hbound _ _ rfl) (readFraction_lt hfraction)
          -- `simp` would leave it to the kernel to compare products with a million
          change (readFraction scale 0 (c :: rest)).bind _ =
            some ((Version.readFraction scale 0 (c :: rest)).map _)
          rw [hread, hfraction, Option.bind_some, Option.map_some]
          change some <$> make whole fraction = _
          rw [hmake]
          rfl
      · simp [hpoint]
  · rw [if_neg hhead, if_neg hhead]

end Checked

/-! ## Texts -/

theorem parse_eq_ok {s : String} {v : Version} : parse s = .ok v ↔ readChars s.toList = some v := by
  rw [parse]
  split <;> simp_all

theorem parse_eq_malformed {s : String} (h : ∀ v, parse s ≠ .ok v) :
    parse s = .error (.malformed s) := by
  cases hread : readChars s.toList with
  | some v => exact absurd (parse_eq_ok.2 hread) (h v)
  | none => rw [parse, hread]

theorem exists_numeral_text {s : String} {v : Version} (h : parse s = .ok v) :
    ∃ n : Numeral, s = n.text := by
  obtain ⟨n, hn⟩ := exists_numeral (parse_eq_ok.1 h)
  exact ⟨n, by rw [Numeral.text, ← hn, String.ofList_toList]⟩

theorem parse_numeral (n : Numeral) :
    ∃ v, parse n.text = .ok v ∧ v.value.toNat = n.millionths := by
  obtain ⟨v, hread, hv⟩ := readChars_numeral n
  exact ⟨v, parse_eq_ok.2 (by rwa [Numeral.text, String.toList_ofList]), hv⟩

theorem toNat_value_of_parse {n : Numeral} {v : Version} (h : parse n.text = .ok v) :
    v.value.toNat = n.millionths := by
  obtain ⟨w, hw, hvalue⟩ := parse_numeral n
  cases h.symm.trans hw
  exact hvalue

namespace Numeral

theorem value_lt_iff (m n : Numeral) : m.value < n.value ↔ m.millionths < n.millionths := by
  rw [← Nat.cast_lt (α := ℚ), ← value_mul, ← value_mul]
  exact (mul_lt_mul_iff_left₀ (by positivity)).symm

theorem value_eq_iff (m n : Numeral) : m.value = n.value ↔ m.millionths = n.millionths := by
  rw [← Nat.cast_inj (R := ℚ), ← value_mul, ← value_mul]
  exact (mul_left_inj' (by positivity)).symm

end Numeral

theorem compare_eq (a b : Version) :
    compare a b = if a < b then .lt else if a = b then .eq else .gt := by
  change compareOfLessAndEq a.value b.value = _
  simp only [compareOfLessAndEq, lt_def, eq_iff_toNat, UInt64.toNat_inj]

/-- **Reading is exact.** A text is read exactly when it is a numeral, as the number that it
denotes, without a sum or product on the way that leaves the range of a word; so versions compare
as the numbers denoted. Any other text is refused. -/
theorem parse_exact :
    (∀ s, (∃ v, parse s = .ok v) ↔ ∃ n : Numeral, s = n.text) ∧
    (∀ n : Numeral, ∃ v, parse n.text = .ok v ∧ (v.value.toNat : ℚ) = n.value * 10 ^ 6) ∧
    (∀ s : String, Checked.readChars s.toList = some (readChars s.toList)) ∧
    (∀ (m n : Numeral) (a b : Version), parse m.text = .ok a → parse n.text = .ok b →
      (a < b ↔ m.value < n.value) ∧ (a = b ↔ m.value = n.value) ∧ (b < a ↔ n.value < m.value) ∧
        compare a b = compare m.value n.value) ∧
    (∀ s, (¬ ∃ n : Numeral, s = n.text) → parse s = .error (.malformed s)) := by
  refine ⟨fun s => ⟨?_, ?_⟩, fun n => ?_, fun s => Checked.readChars_eq s.toList, ?_, fun s hs => ?_⟩
  · rintro ⟨v, hv⟩
    exact exists_numeral_text hv
  · rintro ⟨n, rfl⟩
    obtain ⟨v, hv, -⟩ := parse_numeral n
    exact ⟨v, hv⟩
  · obtain ⟨v, hv, hvalue⟩ := parse_numeral n
    exact ⟨v, hv, by rw [n.value_mul, hvalue]⟩
  · intro m n a b ha hb
    have hlt : a < b ↔ m.value < n.value := by
      rw [lt_iff_toNat, toNat_value_of_parse ha, toNat_value_of_parse hb, m.value_lt_iff]
    have heq : a = b ↔ m.value = n.value := by
      rw [eq_iff_toNat, toNat_value_of_parse ha, toNat_value_of_parse hb, m.value_eq_iff]
    have hgt : b < a ↔ n.value < m.value := by
      rw [lt_iff_toNat, toNat_value_of_parse ha, toNat_value_of_parse hb, n.value_lt_iff]
    refine ⟨hlt, heq, hgt, ?_⟩
    rw [compare_eq, LinearOrder.compare_eq_compareOfLessAndEq,
      compareOfLessAndEq]
    simp only [hlt, heq]
  · exact parse_eq_malformed fun v hv => hs (exists_numeral_text hv)

/-- Leading zeros and zeros at the end change the text, but neither the number nor the version. -/
theorem parse_padded : ∃ m n : Numeral, m.text = "007.10" ∧ n.text = "7.1" ∧
    parse m.text = .ok ⟨7100000⟩ ∧ parse n.text = .ok ⟨7100000⟩ ∧ m.value = n.value := by
  let m : Numeral :=
    ⟨['0', '0', '7'], ['1', '0'], by simp, by simp, by decide, by simp, by simp⟩
  let n : Numeral := ⟨['7'], ['1'], by simp, by simp, by decide, by simp, by simp⟩
  have hm : parse m.text = .ok ⟨7100000⟩ := by decide
  have hn : parse n.text = .ok ⟨7100000⟩ := by decide
  exact ⟨m, n, by decide, by decide, hm, hn, (parse_exact.2.2.2.1 m n _ _ hm hn).2.1.1 rfl⟩

end PatternTree.Version
