import VectorIndex.Proofs.Records
import VectorIndex.Rows

/-!
# `VectorIndex.Proofs.Damage` — a changed byte is noticed

One step of the division can be undone: the bit that was shifted out is the highest bit of the result, since
only the polynomial sets that bit. Different registers therefore stay different through any number of bytes,
and two byte strings that differ in one place have different checksums. A record with one changed byte does
not have the checksum of its payload, whether the byte belongs to the one or to the other.

## Contents
- **The checksum.** `crcShift_injective`, `foldl_crcByte_inj`, `crc32_set_ne`.
- **Records.** `Node.headerFault_set`, `changed_byte_refused`.
-/

namespace VectorIndex

/-! ## The checksum -/

theorem and_one_eq_one_iff {register : UInt32} : register &&& 1 = 1 ↔ register.toBitVec.getLsbD 0 = true := by
  have hand : (register &&& 1).toBitVec = BitVec.setWidth 32 (BitVec.ofBool (register.toBitVec.getLsbD 0)) := by
    rw [UInt32.toBitVec_and]
    exact BitVec.and_one_eq_setWidth_ofBool_getLsbD
  rw [← UInt32.toBitVec_inj, hand]
  cases register.toBitVec.getLsbD 0 <;> decide

/-- The bits after a step: one place lower, and the polynomial where the lowest bit was set. -/
theorem getLsbD_crcShift (register : UInt32) (i : Nat) :
    (crcShift register).toBitVec.getLsbD i = (register.toBitVec.getLsbD (i + 1) ^^
      (register.toBitVec.getLsbD 0 && (0xedb88320 : UInt32).toBitVec.getLsbD i)) := by
  have hshift : (register >>> 1).toBitVec.getLsbD i = register.toBitVec.getLsbD (i + 1) := by
    rw [UInt32.toBitVec_shiftRight, Nat.add_comm]
    exact BitVec.getLsbD_ushiftRight register.toBitVec 1 i
  unfold crcShift
  split
  · rename_i hlow
    rw [UInt32.toBitVec_xor, BitVec.getLsbD_xor, hshift, and_one_eq_one_iff.mp hlow, Bool.true_and]
  · rename_i hlow
    rw [hshift, Bool.eq_false_iff.mpr (mt and_one_eq_one_iff.mpr hlow), Bool.false_and, Bool.xor_false]

/-- The bit that is shifted out comes back as the highest bit. -/
theorem getLsbD_crcShift_last (register : UInt32) :
    (crcShift register).toBitVec.getLsbD 31 = register.toBitVec.getLsbD 0 := by
  have hpoly : (0xedb88320 : UInt32).toBitVec.getLsbD 31 = true := by decide
  rw [getLsbD_crcShift, BitVec.getLsbD_of_ge register.toBitVec 32 (Nat.le_refl 32), hpoly, Bool.and_true,
    Bool.false_xor]

theorem crcShift_injective : Function.Injective crcShift := by
  intro register register' h
  have hlow : register.toBitVec.getLsbD 0 = register'.toBitVec.getLsbD 0 := by
    rw [← getLsbD_crcShift_last, h, getLsbD_crcShift_last]
  apply UInt32.toBitVec_inj.mp
  apply BitVec.eq_of_getLsbD_eq
  intro i _
  cases i with
  | zero => exact hlow
  | succ i =>
      -- the polynomial was added to both or to neither
      have hbit := getLsbD_crcShift register i
      rw [h, getLsbD_crcShift, hlow] at hbit
      exact (Bool.xor_left_inj.mp hbit).symm

theorem repeat_crcShift_inj {register register' : UInt32} (count : Nat) :
    Nat.repeat crcShift count register = Nat.repeat crcShift count register' ↔ register = register' := by
  induction count with
  | zero => exact Iff.rfl
  | succ count ih => exact crcShift_injective.eq_iff.trans ih

/-- Different registers stay different. -/
theorem crcByte_register_inj {register register' : UInt32} {byte : UInt8} :
    crcByte register byte = crcByte register' byte ↔ register = register' :=
  (repeat_crcShift_inj 8).trans (UInt32.xor_left_inj byte.toUInt32)

/-- Different bytes make different registers. -/
theorem crcByte_byte_inj {register : UInt32} {byte byte' : UInt8} :
    crcByte register byte = crcByte register byte' ↔ byte = byte' :=
  (repeat_crcShift_inj 8).trans ((UInt32.xor_right_inj register).trans UInt8.toUInt32_inj)

theorem foldl_crcByte_inj {register register' : UInt32} (bytes : Bytes) :
    bytes.foldl crcByte register = bytes.foldl crcByte register' ↔ register = register' := by
  induction bytes generalizing register register' with
  | nil => exact Iff.rfl
  | cons byte bytes ih => exact ih.trans crcByte_register_inj

/-- Byte strings that differ in one byte have different checksums. -/
theorem crc32_set_inj {bytes : Bytes} {i : Nat} (hi : i < bytes.length) {byte byte' : UInt8} :
    crc32 (bytes.set i byte) = crc32 (bytes.set i byte') ↔ byte = byte' := by
  unfold crc32
  rw [UInt32.xor_left_inj, List.set_eq_take_append_cons_drop, List.set_eq_take_append_cons_drop, if_pos hi,
    if_pos hi, List.foldl_append, List.foldl_append, List.foldl_cons, List.foldl_cons, foldl_crcByte_inj,
    crcByte_byte_inj]

/-! ## Records -/

/-- Any four bytes are a word. -/
theorem exists_wordBytes {bytes : Bytes} (hlength : bytes.length = 4) :
    ∃ word : UInt32, bytes = wordBytes 4 word.toNat := by
  obtain ⟨word, rest, rfl⟩ := Metadata.exists_version (Nat.le_of_eq hlength.symm)
  rw [List.length_append, length_wordBytes] at hlength
  obtain rfl : rest = [] := List.length_eq_zero_iff.mp (by omega)
  exact ⟨word, List.append_nil _⟩

/-- A record with one changed byte does not have the checksum of its payload. -/
theorem Node.headerFault_set {node : Node} {i : Nat} (hi : i < node.encode.length) {byte : UInt8}
    (hne : byte ≠ node.encode[i]) : HeaderFault (node.encode.set i byte) .nodeChecksum := by
  have hset : node.encode.set i byte ≠ node.encode := by
    intro h
    apply hne
    rw [← List.getElem_set_self (a := byte) (by rwa [List.length_set])]
    exact List.getElem_of_eq h _
  have hlength : (wordBytes 4 (crc32 node.payload).toNat).length = 4 := length_wordBytes 4 _
  unfold encode at hset hi ⊢
  by_cases hword : i < 4
  · -- another word in front of the same payload
    rw [List.set_append_left i byte (hlength ▸ hword)] at hset ⊢
    obtain ⟨stored, hstored⟩ := exists_wordBytes ((List.length_set (a := byte) (i := i)).trans hlength)
    rw [hstored] at hset ⊢
    refine .checksum fun h => hset ?_
    rw [h]
  · -- the same word in front of a payload that differs in one place
    rw [List.length_append, hlength] at hi
    rw [List.set_append_right i byte (hlength ▸ Nat.le_of_not_lt hword), hlength] at hset ⊢
    have hpayload : i - 4 < node.payload.length := by omega
    refine .checksum fun h => hset ?_
    rw [← List.set_getElem_self hpayload, List.set_set, crc32_set_inj hpayload] at h
    rw [← h, List.set_getElem_self]

/-- **A changed byte is noticed.** A node whose counts fit is read back from its record; but if any one byte of
    the record, of the checksum, the header, the vector or the links, is replaced by another, then both the node
    and its level are refused as damaged, since the checksum does not hold. -/
theorem changed_byte_refused {node : Node} (hnode : node.Encodable) {i : Nat} (hi : i < node.encode.length)
    {byte : UInt8} (hne : byte ≠ node.encode[i]) :
    decodeNode node.encode = .ok node ∧ decodeNodeLevel node.encode = .ok node.level ∧
    decodeNode (node.encode.set i byte) = .error (.corrupted .nodeChecksum) ∧
    decodeNodeLevel (node.encode.set i byte) = .error (.corrupted .nodeChecksum) := by
  have hfault := Node.headerFault_set hi hne
  have hread := decodeNode_encode hnode
  refine ⟨hread, decodeNodeLevel_of_decodeNode hread, ?_, ?_⟩
  · unfold decodeNode
    rw [hfault.decode_eq]
    rfl
  · unfold decodeNodeLevel
    rw [Node.decodeLevel_eq_error_iff.mpr hfault]
    rfl

/-- A node on one layer with one link, whose highest byte is lost. -/
theorem changed_byte_refused_link : ∃ node : Node, node.links = [[0x07000000]] ∧ node.Encodable ∧
    decodeNode node.encode = .ok node ∧
    decodeNode (node.encode.set 20 0) = .error (.corrupted .nodeChecksum) ∧
    decodeNodeLevel (node.encode.set 20 0) = .error (.corrupted .nodeChecksum) := by
  let node : Node := ⟨[⟨0x3f800000⟩], [[0x07000000]]⟩
  have hnode : node.Encodable := ⟨by decide, by decide, by decide, by decide⟩
  have h := @changed_byte_refused node hnode 20 (by decide) 0 (by decide)
  exact ⟨node, rfl, hnode, h.1, h.2.2⟩

end VectorIndex
