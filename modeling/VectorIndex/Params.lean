import VectorIndex.Error

/-!
# `VectorIndex.Params` — how an index is built

The parameters are fixed when an index is first committed and stored with it. They are the words that are
stored, so a parameter is a 64-bit number whether or not it makes sense; `Params.check` says which do.

## Contents
- **Parameters.** `Params`, `Params.ofDegree`, `Params.default`.
- **Caps.** `Params.cap`: how many links a node may have on a layer.
- **Validity.** `Params.check` and, as a proposition, `Params.Valid` (`check_eq_ok`).
-/

namespace VectorIndex

/-- Build parameters of an index. -/
structure Params where
  /-- Most links of a node on a layer above the base layer. -/
  degree : UInt64
  /-- Most links of a node on the base layer. -/
  baseDegree : UInt64
  /-- Beam width while linking a node. -/
  buildBeam : UInt64
  /-- How fast the chance of a level falls: the mean level of a node. -/
  levelScale : Double
  /-- Number of layers a node can be on. -/
  layerLimit : UInt64
deriving DecidableEq, Inhabited

namespace Params

/-- Parameters for a degree: twice the degree on the base layer, and a level scale that leaves on each
layer one node in `degree` of the layer below. -/
def ofDegree (degree buildBeam : UInt64) : Params where
  degree := degree
  baseDegree := 2 * degree
  buildBeam := buildBeam
  levelScale := .ofValue (1 / degree.toFloat.log)
  layerLimit := 16

/-- Degree 16 and a beam of 200. -/
def default : Params := ofDegree 16 200

/-- Most links of a node on `layer`. -/
def cap (params : Params) (layer : Nat) : Nat :=
  if layer = 0 then params.baseDegree.toNat else params.degree.toNat

/-- The first fault of the parameters, in the order in which they are listed. The caps have no upper bound: parameters
pass for which no list of that many links could be allocated (see `Selection.choose`). -/
def check (params : Params) : Except Error Unit :=
  if params.degree < 2 then .error (.invalidParameter (.degree params.degree))
  else if params.baseDegree < params.degree then
    .error (.invalidParameter (.baseDegree params.baseDegree params.degree))
  else if params.buildBeam = 0 then .error (.invalidParameter .buildBeam)
  else if !params.levelScale.isPositiveFinite then
    .error (.invalidParameter (.levelScale params.levelScale))
  else if params.layerLimit = 0 ∨ 255 < params.layerLimit then
    .error (.invalidParameter (.layerLimit params.layerLimit))
  else .ok ()

/-- The parameters that an index can be created with. -/
structure Valid (params : Params) : Prop where
  two_le_degree : 2 ≤ params.degree.toNat
  degree_le_baseDegree : params.degree.toNat ≤ params.baseDegree.toNat
  buildBeam_pos : 0 < params.buildBeam.toNat
  levelScale_pos : params.levelScale.isPositiveFinite
  layerLimit_pos : 0 < params.layerLimit.toNat
  layerLimit_le : params.layerLimit.toNat ≤ 255

/-- There is room for a link on every layer. -/
theorem Valid.cap_pos {params : Params} (h : params.Valid) (layer : Nat) : 0 < params.cap layer := by
  have hdegree := h.two_le_degree
  have hbase := h.degree_le_baseDegree
  unfold cap
  split
  · omega
  · omega

/-- The check accepts exactly the valid parameters. -/
theorem check_eq_ok {params : Params} : params.check = .ok () ↔ params.Valid := by
  unfold check
  simp only [UInt64.lt_iff_toNat_lt, ← UInt64.toNat_inj, UInt64.reduceToNat]
  constructor
  · intro h
    by_cases h1 : params.degree.toNat < 2
    · simp [h1] at h
    by_cases h2 : params.baseDegree.toNat < params.degree.toNat
    · simp [h1, h2] at h
    by_cases h3 : params.buildBeam.toNat = 0
    · simp [h1, h2, h3] at h
    by_cases h4 : params.levelScale.isPositiveFinite = true
    · by_cases h5 : params.layerLimit.toNat = 0 ∨ 255 < params.layerLimit.toNat
      · simp [h1, h2, h3, h4, h5] at h
      · exact ⟨by omega, by omega, by omega, h4, by omega, by omega⟩
    · simp [h1, h2, h3, h4] at h
  · rintro ⟨h1, h2, h3, h4, h5, h6⟩
    rw [if_neg (by omega), if_neg (by omega), if_neg (by omega), if_neg (by simp [h4]), if_neg (by omega)]

end Params

end VectorIndex
