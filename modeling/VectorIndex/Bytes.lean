import VectorIndex.Basic

/-!
# `VectorIndex.Bytes` — little-endian words

Stored records are sequences of unsigned words, least significant byte first.

## Contents
- **Writing.** `wordBytes width n` writes `n` in `width` bytes, which hold `wordCount width` words.
- **Reading.** `readWord` and `readWords` take words off the front and return the rest; `none` means that
  the bytes ran out.
- **Inverses.** A word is read back from its bytes (`readWord_wordBytes`), and what was read is what is
  written (`eq_wordBytes_of_readWord`).
-/

namespace VectorIndex

/-- The `width` bytes of `n`, least significant first. -/
def wordBytes : Nat → Nat → Bytes
  | 0, _ => []
  | width + 1, n => UInt8.ofNat n :: wordBytes width (n / 256)

/-- How many words of `width` bytes there are. -/
def wordCount : Nat → Nat
  | 0 => 1
  | width + 1 => 256 * wordCount width

/-- Takes a word of `width` bytes off the front. -/
def readWord : Nat → Bytes → Option (Nat × Bytes)
  | 0, bytes => some (0, bytes)
  | _ + 1, [] => none
  | width + 1, b :: bytes => (readWord width bytes).map fun (high, rest) => (b.toNat + 256 * high, rest)

/-- Takes `count` words of four bytes off the front. -/
def readWords : Nat → Bytes → Option (List UInt32 × Bytes)
  | 0, bytes => some ([], bytes)
  | count + 1, bytes => do
      let (word, bytes) ← readWord 4 bytes
      let (words, bytes) ← readWords count bytes
      return (UInt32.ofNat word :: words, bytes)

/-! ## Inverses -/

theorem length_wordBytes (width n : Nat) : (wordBytes width n).length = width := by
  induction width generalizing n with
  | zero => rfl
  | succ width ih => simp [wordBytes, ih]

/-- A word that fits is read back from its bytes. -/
theorem readWord_wordBytes {width n : Nat} (hn : n < wordCount width) (rest : Bytes) :
    readWord width (wordBytes width n ++ rest) = some (n, rest) := by
  induction width generalizing n with
  | zero =>
      have h0 : n = 0 := Nat.lt_one_iff.mp hn
      simp [wordBytes, readWord, h0]
  | succ width ih =>
      have hdiv : n / 256 < wordCount width := Nat.div_lt_of_lt_mul hn
      simp only [wordBytes, List.cons_append, readWord, ih hdiv, Option.map_some,
        UInt8.toNat_ofNat']
      congr 2
      omega

/-- What was read is written by the same bytes. -/
theorem eq_wordBytes_of_readWord {width n : Nat} {bytes rest : Bytes}
    (h : readWord width bytes = some (n, rest)) :
    bytes = wordBytes width n ++ rest ∧ n < wordCount width := by
  induction width generalizing n bytes with
  | zero =>
      simp only [readWord, Option.some.injEq, Prod.mk.injEq] at h
      obtain ⟨rfl, rfl⟩ := h
      exact ⟨rfl, Nat.one_pos⟩
  | succ width ih =>
      cases bytes with
      | nil => simp [readWord] at h
      | cons b bytes =>
          simp only [readWord, Option.map_eq_some_iff, Prod.exists, Prod.mk.injEq] at h
          obtain ⟨high, rest', hread, rfl, rfl⟩ := h
          obtain ⟨rfl, hhigh⟩ := ih hread
          have hb := b.toNat_lt
          have hlow : UInt8.ofNat (b.toNat + 256 * high) = b := by
            apply UInt8.toNat_inj.mp
            rw [UInt8.toNat_ofNat']
            omega
          have hdiv : (b.toNat + 256 * high) / 256 = high := by omega
          refine ⟨by simp [wordBytes, hlow, hdiv], ?_⟩
          unfold wordCount
          omega

end VectorIndex
