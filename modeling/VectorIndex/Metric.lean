import VectorIndex.Number.Single

/-!
# `VectorIndex.Metric` — distances between embeddings

A metric says how far apart two embeddings are. The graph ranks by `Metric.rank`, which is never a NaN; a
caller is told `Metric.report` of it. Sums run in component order and every step rounds to binary32, so a
distance is one definite bit pattern.

## Contents
- **Sums.** `sumOver`, started from `-0.0`, the neutral element of binary32 addition.
- **The four measures.** `squaredEuclidean`, `cosineDistance`, `manhattanDistance`, `dotProduct`, with
  `euclideanDistance` and `norm`. Unequal lengths are cut to the shorter one.
- **Metrics.** `Metric`, `Metric.rank`, `Metric.report`, `Metric.name`.
-/

namespace VectorIndex

/-- The components of a vector. -/
abbrev Embedding := List Single

/-! ## Sums over components -/

/-- `-0.0`: adding it leaves every number, `-0.0` included, as it is. -/
def negativeZero : Float32 := Float32.ofBits 0x80000000

/-- `acc`, then `f` of each pair of components added from left to right. -/
@[specialize]
def sumOver (f : Float32 → Float32 → Float32) : Float32 → Embedding → Embedding → Float32
  | acc, x :: xs, y :: ys => sumOver f (acc + f x.value y.value) xs ys
  | acc, _, _ => acc

/-! ## Measures -/

/-- The sum of the squared differences. -/
def squaredEuclidean (a b : Embedding) : Float32 :=
  sumOver (fun x y => (x - y) * (x - y)) negativeZero a b

/-- The length of the difference. -/
def euclideanDistance (a b : Embedding) : Float32 := (squaredEuclidean a b).sqrt

/-- The sum of the absolute differences. -/
def manhattanDistance (a b : Embedding) : Float32 :=
  sumOver (fun x y => (x - y).abs) negativeZero a b

/-- The sum of the products. -/
def dotProduct (a b : Embedding) : Float32 := sumOver (· * ·) negativeZero a b

/-- The length of a vector. -/
def norm (v : Embedding) : Float32 := (dotProduct v v).sqrt

/-- `x` moved into `[low, high]`; a NaN stays a NaN. -/
def clamp (x low high : Float32) : Float32 :=
  let raised := if x < low then low else x
  if high < raised then high else raised

/-- One minus the cosine of the angle. Two vectors without length are at distance 0; one with and one
without length are at the largest distance, 2. -/
def cosineDistance (a b : Embedding) : Float32 :=
  let lengthA := norm a
  let lengthB := norm b
  match lengthA == 0, lengthB == 0 with
  | true, true => 0
  | true, false | false, true => 2
  | false, false => 1 - clamp (dotProduct a b / (lengthA * lengthB)) (-1) 1

/-! ## Metrics -/

/-- How an index measures distance. -/
inductive Metric where
  | euclidean
  | cosine
  | manhattan
  | dotProduct
deriving DecidableEq, Inhabited

namespace Metric

/-- The measure that a metric ranks by: Euclidean leaves out the square root, and a larger dot product is
nearer. -/
def measure : Metric → Embedding → Embedding → Float32
  | .euclidean, a, b => squaredEuclidean a b
  | .cosine, a, b => cosineDistance a b
  | .manhattan, a, b => manhattanDistance a b
  | .dotProduct, a, b => -(VectorIndex.dotProduct a b)

/-- The distance the graph ranks by. A measure that is a NaN counts as infinitely far. -/
def rank (metric : Metric) (a b : Embedding) : Single :=
  let d := metric.measure a b
  if d.isNaN then Single.infinity else Single.ofValue d

/-- The distance a caller is told for a ranking distance. -/
def report : Metric → Single → Single
  | .euclidean, d => Single.ofValue d.value.sqrt
  | _, d => d

/-- Lowercase name. -/
def name : Metric → String
  | .euclidean => "euclidean"
  | .cosine => "cosine"
  | .manhattan => "manhattan"
  | .dotProduct => "dot_product"

/-- The name in messages. -/
def title : Metric → String
  | .euclidean => "Euclidean"
  | .cosine => "Cosine"
  | .manhattan => "Manhattan"
  | .dotProduct => "DotProduct"

end Metric

end VectorIndex
