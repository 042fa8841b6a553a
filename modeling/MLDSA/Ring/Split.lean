import MLDSA.Ring.Coeff

/-! # Splitting a coefficient into a high and a low part

A split is either by a power of two, for the public key, or by the sixteen buckets of width
`2 * gamma2`, for the commitment. Only `makeHint` takes any word, the rest take words in
`[0, q)`. -/

namespace MLDSA

/-- A coefficient in two parts. -/
structure Split where
  high : Coeff
  low : Coeff
deriving DecidableEq

namespace Coeff

/-- Splits `r` as `high * 2^13 + low`, where `low` is above `-2^12` and at most `2^12`. -/
def powerSplit (r : Coeff) : Split :=
  let high := (r + 4095) >>> 13
  { high, low := r - (high <<< 13) }

/-- The width of a bucket, `2 * gamma2`. -/
def bucketWidth : Coeff := 523776

/-- The bucket of `r` and the distance from its middle. The bucket is `r` by the width to the
nearest integer, found from `⌈r / 2^7⌉ * 1025 / 2^22`, because the width is `2^7 * 4092` and
`4092 * 1025` is `2^22 - 4`. A seventeenth bucket, from `q - gamma2` on, is the first one again with
`low` one less, which is what centring modulo `q` gives. -/
def bucketSplit (r : Coeff) : Split :=
  let high := ((((r + 127) >>> 7) * 1025 + 2097152) >>> 22) &&& 15
  let low := r - high * bucketWidth
  { high, low := low - (((halfQ - low) >>> 31) &&& q) }

def highBits (r : Coeff) : Coeff := (bucketSplit r).high

def lowBits (r : Coeff) : Coeff := (bucketSplit r).low

/-! ## Hints -/

/-- Adding `z` to `r` moves it to another bucket. -/
def makeHint (z r : Coeff) : Bool := highBits (canonical r) != highBits (canonical (r + z))

/-- The bucket of `r`, or with a hint the neighbour on the side of `r`. -/
def useHint (hint : Bool) (r : Coeff) : Coeff :=
  let s := bucketSplit r
  if !hint then s.high
  else if 0 < s.low then (s.high + 1) &&& 15
  else (s.high - 1) &&& 15

end Coeff

end MLDSA
