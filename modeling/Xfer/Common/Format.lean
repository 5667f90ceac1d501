import Xfer.Data.Bytes

/-! # Formatted output

`common/format`, and what it uses of `printf`. A `double` is a `Float`, and
`%f` prints its exact value, rounded half to even.
-/

namespace Xfer.Common

def ascii (s : String) : Bytes := s.toList.map fun c => UInt8.ofNat c.toNat

def roundHalfEven (n d : ℕ) : ℕ :=
  if 2 * (n % d) < d ∨ (2 * (n % d) = d ∧ n / d % 2 = 0) then n / d else n / d + 1

/-- The absolute value of a finite double in units of `10 ^ -prec`. -/
def scaled (prec : ℕ) (x : Float) : ℕ :=
  let bits := x.toBits.toNat
  let fraction := bits % 2 ^ 52
  let exponent := bits / 2 ^ 52 % 2 ^ 11
  let mantissa := if exponent = 0 then fraction else fraction + 2 ^ 52
  -- the value of the double is the mantissa times 2 ^ (max exponent 1 - 1075)
  roundHalfEven (mantissa * 2 ^ max exponent 1 * 10 ^ prec) (2 ^ 1075)

/-- `%.{prec}f` of an absolute value. -/
def magnitude (prec : ℕ) (x : Float) : Bytes :=
  let digits := (Nat.toDigits 10 (scaled prec x)).map fun c => UInt8.ofNat c.toNat
  let padded := List.replicate (prec + 1 - digits.length) 0x30 ++ digits
  let (whole, fraction) := padded.splitAt (padded.length - prec)
  if prec = 0 then whole else whole ++ ascii "." ++ fraction

/-- `%.{prec}f`. -/
def fixed (prec : ℕ) (x : Float) : Bytes :=
  if x.isNaN then ascii "nan"
  else (if 2 ^ 63 ≤ x.toBits.toNat then ascii "-" else []) ++
    if x.isInf then ascii "inf" else magnitude prec x

/-- The minimal width in `%5.1f`. -/
def padTo (width : ℕ) (text : Bytes) : Bytes :=
  List.replicate (width - text.length) 0x20 ++ text

/-- The result of `snprintf` and the characters that it stores, for the text that the format stands
for. It fails for a text whose length is not an `int`. -/
def snprintf (size : ℕ) (text : Bytes) : ℤ × Bytes :=
  (if text.length < 2 ^ 31 then text.length else -1, text.take (size - 1))

def kUnits : List Bytes := ["B", "KiB", "MiB", "GiB", "TiB", "PiB"].map ascii

/-- The loop of `FormatBytes`, with the number of units that are left. -/
def scaleUnit : ℕ → Float → ℕ → Float × ℕ
  | 0, value, unit => (value, unit)
  | n + 1, value, unit =>
    if value ≥ 1024.0 then scaleUnit n (value / 1024.0) (unit + 1) else (value, unit)

def formatBytes (bytes : UInt64) : Bytes :=
  let (value, unit) := scaleUnit (kUnits.length - 1) bytes.toFloat 0
  (snprintf 32 (fixed (if unit = 0 then 0 else 2) value ++ ascii " " ++ kUnits.getD unit [])).2

example : formatBytes 1023 = ascii "1023 B" := by decide +kernel

def formatDuration (seconds : Float) : Bytes :=
  (snprintf 32 (
    if seconds < 1.0 then fixed 0 (seconds * 1000.0) ++ ascii " ms"
    else if seconds < 60.0 then fixed 2 seconds ++ ascii " s"
    else if seconds < 3600.0 then fixed 1 (seconds / 60.0) ++ ascii " min"
    else fixed 2 (seconds / 3600.0) ++ ascii " h")).2

end Xfer.Common
