/-!
# Language versions

A version is a decimal number with six places, held as a count of millionths in a 64-bit word. It
is written with at least three fraction digits, so that 5.6 reads 5.600 and the oldest supported
version, five and six thousandths, reads 5.006.
-/

namespace PatternTree

/-- A version of the language, in millionths. -/
structure Version where
  value : UInt64
deriving DecidableEq, Repr

namespace Version

/-- Millionths in one whole. -/
def scale : UInt64 := 1000000

/-- The version of the given whole part and millionths; the sum wraps around at 64 bits. -/
def make (whole fraction : UInt64) : Version := ⟨whole * scale + fraction⟩

def whole (v : Version) : UInt64 := v.value / scale

/-- The millionths beyond the whole part. -/
def fraction (v : Version) : UInt64 := v.value % scale

/-- The oldest version that is supported. -/
def minimum : Version := make 5 6000

instance : LE Version := ⟨fun a b => a.value ≤ b.value⟩
instance : LT Version := ⟨fun a b => a.value < b.value⟩
instance : DecidableLE Version := fun a b => inferInstanceAs (Decidable (a.value ≤ b.value))
instance : DecidableLT Version := fun a b => inferInstanceAs (Decidable (a.value < b.value))
instance : Ord Version := ⟨fun a b => compare a.value b.value⟩
instance : Max Version := maxOfLe

theorem le_def {a b : Version} : a ≤ b ↔ a.value ≤ b.value := Iff.rfl

theorem lt_def {a b : Version} : a < b ↔ a.value < b.value := Iff.rfl

theorem le_iff_toNat {a b : Version} : a ≤ b ↔ a.value.toNat ≤ b.value.toNat :=
  UInt64.le_iff_toNat_le

theorem lt_iff_toNat {a b : Version} : a < b ↔ a.value.toNat < b.value.toNat :=
  UInt64.lt_iff_toNat_lt

theorem eq_iff_toNat {a b : Version} : a = b ↔ a.value.toNat = b.value.toNat := by
  cases a
  cases b
  rw [UInt64.toNat_inj, Version.mk.injEq]

/-! ## Text -/

/-- The fraction as exactly six digits. -/
def fractionDigits (v : Version) : List Char :=
  (Nat.toDigits 10 v.fraction.toNat).leftpad 6 '0'

/-- Drops the zeros at the end of a fraction, but keeps its first three digits. -/
def trimFraction (ds : List Char) : List Char :=
  ds.take 3 ++ ((ds.drop 3).reverse.dropWhile (· == '0')).reverse

/-- The whole part, a point, and three to six fraction digits. -/
def text (v : Version) : String :=
  v.whole.toNat.repr ++ "." ++ String.ofList (trimFraction v.fractionDigits)

/-- A version that may be missing; a missing one reads `undef`. -/
def optionText : Option Version → String
  | some v => v.text
  | none => "undef"

end Version

end PatternTree
