import ActiveSet.Double

/-! Decimal text of a double, rounded from its exact value with ties to the even digit.

`scientific 5` writes `-1.23457e+02` and `fixed 6` writes `-123.457000`. An exponent has a sign and at least
two digits, and the sign of a zero is kept.
-/

namespace ActiveSet

namespace Decimal

/-- A double as what it stands for: a sign and a quotient, or a value past the finite ones. -/
inductive Reading where
  | undefined
  | infinite (negative : Bool)
  | finite (negative : Bool) (num den : Nat)

def read (x : Float) : Reading :=
  let bits := x.toBits.toNat
  let negative := bits >>> 63 = 1
  let exponent := (bits >>> 52) % 0x800
  let fraction := bits % (1 <<< 52)
  if exponent = 0x7ff then
    if fraction = 0 then .infinite negative else .undefined
  else
    let mantissa := if exponent = 0 then fraction else fraction + (1 <<< 52)
    let exponent := max exponent 1
    if 1075 ≤ exponent then .finite negative (mantissa <<< (exponent - 1075)) 1
    else .finite negative mantissa (1 <<< (1075 - exponent))

/-- The integer nearest to `num / den`, the even one of two. -/
def roundDiv (num den : Nat) : Nat :=
  let q := num / den
  let twice := 2 * (num % den)
  if den < twice ∨ (twice = den ∧ q % 2 = 1) then q + 1 else q

def digits (width k : Nat) : String :=
  let text := toString k
  "".pushn '0' (width - text.length) ++ text

def point (places units : Nat) : String :=
  let whole := toString (units / Nat.pow 10 places)
  if places = 0 then whole else whole ++ "." ++ digits places (units % Nat.pow 10 places)

def magnitude (num den : Nat) : Int :=
  let guess : Int := (toString num).length - (toString den).length
  let atLeast := if 0 ≤ guess then den * Nat.pow 10 guess.toNat ≤ num else den ≤ num * Nat.pow 10 (-guess).toNat
  if atLeast then guess else guess - 1

def inUnits (num den : Nat) (e : Int) : Nat :=
  if 0 ≤ e then roundDiv num (den * Nat.pow 10 e.toNat) else roundDiv (num * Nat.pow 10 (-e).toNat) den

/-- The digits and the exponent of `num / den` with `places` digits after the first. -/
def leading (places num den : Nat) : Nat × Int :=
  if num = 0 then (0, 0)
  else
    let e := magnitude num den
    let units := inUnits num den (e - places)
    if units = Nat.pow 10 (places + 1) then (Nat.pow 10 places, e + 1) else (units, e)

def exponentText (e : Int) : String :=
  (if e < 0 then "e-" else "e+") ++ digits 2 e.natAbs

def signed (negative : Bool) (text : String) : String := if negative then "-" ++ text else text

def scientific (places : Nat) (x : Float) : String :=
  match read x with
  | .undefined => "nan"
  | .infinite negative => signed negative "inf"
  | .finite negative num den =>
    let (units, e) := leading places num den
    signed negative (point places units ++ exponentText e)

def fixed (places : Nat) (x : Float) : String :=
  match read x with
  | .undefined => "nan"
  | .infinite negative => signed negative "inf"
  | .finite negative num den => signed negative (point places (inUnits num den (-places)))

end Decimal

end ActiveSet
