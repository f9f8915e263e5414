/-
  RowStore/Decimal/Fixed.lean
  ===========================
  **Numbers with a fixed number of places.**  A float is a dyadic fraction, so its
  exact value is a quotient of two naturals and can be rounded without error.  The
  value is rounded once, from that exact quotient, to the nearest multiple of the
  last place; of two equally near ones the even one is taken.
-/
namespace RowStore.Decimal

/-- The natural nearest to `num / den`; of two equally near ones the even one. -/
def roundHalfEven (num den : Nat) : Nat :=
  let q := num / den
  let r := num % den
  if 2 * r < den then q
  else if den < 2 * r then q + 1
  else if q % 2 = 0 then q
  else q + 1

/-- A natural and an exponent of two that give the size of a finite float.  The lower 52
    bits of a float hold its fraction, the next 11 its exponent. -/
def dyadic (x : Float) : Nat × Int :=
  let one : Nat := 1 <<< 52
  let bits := x.toBits.toNat
  let fraction : Nat := bits % one
  let exponent : Nat := bits / one % 2048
  if exponent = 0 then (fraction, -1074) else (one + fraction, (exponent : Int) - 1075)

/-- The digits of `n` hundredths. -/
def hundredthsText (n : Nat) : String :=
  let places := n % 100
  s!"{n / 100}.{places / 10}{places % 10}"

/-- A finite float that is not negative, with two places. -/
def twoPlaces (x : Float) : String :=
  let (m, e) := dyadic x
  hundredthsText <|
    if 0 ≤ e then (m <<< e.toNat) * 100 else roundHalfEven (m * 100) (1 <<< (-e).toNat)

end RowStore.Decimal
