import Mc68000.Layout.Logic
import Mc68000.Proofs.Reassembly.Basic

namespace Mc68000.Layout

open Operand

variable {w : Opcode} {l : Layout} {op : Operation}

theorem faithful_eor (hw : w &&& 0xF100 = 0xB100) (h : eor w = .ok l) : Faithful w l := by
  have h12 : w.field 12 4 = 0xB := Opcode.field_of_and hw rfl rfl
  have h8 : w.field 8 1 = 1 := Opcode.field_of_and hw rfl rfl
  obtain ⟨s, hs, rfl⟩ := exists_of_bind_eq_ok h
  have hsize := Size.bits_of_ofBits hs
  have hn := w.toNat_eq
  have h6 := w.field_lt 6 2
  apply faithful_two
  intro pc pc' o p ho hp
  cases ho
  obtain ⟨hpm, hpr⟩ := Opcode.fields_of_yields hp
  refine ⟨meant_dataDirect rfl, meant_of_yields_address ⟨rfl, rfl, rfl⟩ rfl hp, ?_⟩
  change 0xB100 + (w.upperReg <<< 9 + s.bits <<< 6 + (p.mode <<< 3 + p.reg)) = w.toNat
  omega

theorem statusOperation_spec (h : statusOperation? w = some op) :
    op ∈ Operation.immediates ∧ op.code = w.upperReg <<< 9 := by
  unfold statusOperation? at h
  split at h <;> cases h <;> simp [Operation.immediates, Operation.code, *]

theorem faithful_status {s : Size} {p : Operand} (ho : statusOperation? w = some op)
    (hw : w &&& 0xF13F = 0x003C) (h6 : w.field 6 2 = s.bits) (hp : p.addressBits = 0x3C)
    (hmeant : ∀ {m texts}, p.Meant m texts) :
    Faithful w (sized op s [.immediate s, .fixed p]) := by
  obtain ⟨hop, hc⟩ := statusOperation_spec ho
  have h12 : w.field 12 4 = 0 := Opcode.field_of_and hw rfl rfl
  have h8 : w.field 8 1 = 0 := Opcode.field_of_and hw rfl rfl
  have hm : w.mode = 7 := Opcode.field_of_and hw rfl rfl
  have hr : w.reg = 4 := Opcode.field_of_and hw rfl rfl
  have hn := w.toNat_eq
  apply faithful_two
  intro pc pc' o q ho hq
  cases hq
  refine ⟨meant_of_yields_immediate (Operation.ordinary_immediates hop) rfl ho, hmeant, ?_⟩
  rw [Operation.binaryBits_immediates hop, hp]
  change op.code + (s.bits <<< 6 + 0x3C) = w.toNat
  omega

theorem and_status {value : UInt16} (hw : w &&& 0xF1FF = value) :
    w &&& 0xF13F = value &&& 0xF13F := by
  rw [← hw, UInt16.and_assoc]
  rfl

theorem faithful_toCcr (hw : w &&& 0xF1FF = 0x003C) : Faithful w (toCcr w) := by
  unfold toCcr
  split
  · next op ho =>
    exact faithful_status ho (and_status hw) (Opcode.field_of_and hw rfl rfl) rfl meant_ccr
  · exact faithful_dataWord w

theorem faithful_toSr (hw : w &&& 0xF1FF = 0x007C) : Faithful w (toSr w) := by
  unfold toSr
  split
  · next op ho =>
    exact faithful_status ho (and_status hw) (Opcode.field_of_and hw rfl rfl) rfl meant_sr
  · exact faithful_dataWord w

theorem meant_bitTarget {pc : UInt32} {p : Operand} {b : BitAction} {texts : List String}
    (hp : (bitTarget w).Yields pc p) : p.Meant ⟨.bit b, .plain⟩ texts := by
  have hord : Operation.Ordinary (.bit b) texts.length := ⟨rfl, rfl, rfl⟩
  unfold bitTarget at hp
  split at hp
  · next hm =>
    obtain ⟨hpm, -⟩ := Opcode.fields_of_yields hp
    obtain ⟨a, rfl, -⟩ := hp
    refine meant_of_mode_lt ?_ (.inl rfl)
    change Operand.mode (.address a) < 7
    omega
  · exact meant_of_yields_address hord rfl hp

theorem faithful_bitDynamic (hw : w &&& 0xF100 = 0x0100) (h : bitDynamic w = .ok l) :
    Faithful w l := by
  cases (bitDynamic_eq w).symm.trans h
  have h12 : w.field 12 4 = 0 := Opcode.field_of_and hw rfl rfl
  have h8 : w.field 8 1 = 1 := Opcode.field_of_and hw rfl rfl
  have hn := w.toNat_eq
  have h6 := w.field_lt 6 2
  apply faithful_two
  intro pc pc' o p ho hp
  cases ho
  obtain ⟨hpm, hpr⟩ := Opcode.fields_of_yields hp
  refine ⟨meant_dataDirect rfl, meant_bitTarget hp, ?_⟩
  change (BitAction.ofBits (w.field 6 2)).bits <<< 6 +
    (0x0100 + w.upperReg <<< 9 + (p.mode <<< 3 + p.reg)) = w.toNat
  rw [BitAction.bits_ofBits]
  omega

theorem faithful_bitStatic (hw : w &&& 0xFF00 = 0x0800) (h : bitStatic w = .ok l) :
    Faithful w l := by
  cases (bitStatic_eq w).symm.trans h
  have h8 : w.field 8 8 = 8 := Opcode.field_of_and hw rfl rfl
  have hn := w.toNat_eq_byte
  have h6 := w.field_lt 6 2
  apply faithful_two
  intro pc pc' o p ho hp
  obtain ⟨hpm, hpr⟩ := Opcode.fields_of_yields hp
  refine ⟨meant_of_yields_immediate ⟨rfl, rfl, rfl⟩ rfl ho, meant_bitTarget hp, ?_⟩
  obtain ⟨v, rfl, -⟩ := ho
  change (BitAction.ofBits (w.field 6 2)).bits <<< 6 +
    (0x0800 + (p.mode <<< 3 + p.reg)) = w.toNat
  rw [BitAction.bits_ofBits]
  omega

theorem bits_direction (w : Opcode) : (direction w).bits = w.field 8 1 := by
  have h8 := w.field_lt 8 1
  unfold direction
  simp only [Opcode.bit_eq, decide_eq_true_eq]
  split <;> simp only [Direction.bits] <;> omega

theorem faithful_shift (hw : w &&& 0xF000 = 0xE000) (h : shift w = .ok l) : Faithful w l := by
  have h12 : w.field 12 4 = 0xE := Opcode.field_of_and hw rfl rfl
  have hn := w.toNat_eq
  have hd := bits_direction w
  rw [shift_eq] at h
  split at h
  · next h6 =>
    cases h
    have hu : w.upperReg = w.field 11 1 <<< 2 + w.field 9 2 := by
      simp only [Opcode.upperReg, Opcode.field, Nat.one_shiftLeft]
      omega
    have h11 := w.field_lt 11 1
    have h9 := w.field_lt 9 2
    simp only [Opcode.bit_eq, decide_eq_true_eq]
    split
    · exact faithful_dataWord w
    · apply faithful_one
      intro pc o ho
      obtain ⟨hom, hor⟩ := Opcode.fields_of_yields ho
      refine ⟨meant_of_yields_address ⟨rfl, rfl, rfl⟩ rfl ho, ?_⟩
      change 0xE000 + (direction w).bits <<< 8 + ((ShiftKind.ofBits (w.field 9 2)).bits <<< 9 +
        3 <<< 6 + (o.mode <<< 3 + o.reg)) = w.toNat
      rw [ShiftKind.bits_ofBits]
      omega
  · obtain ⟨s, hs, rfl⟩ := exists_of_bind_eq_ok h
    have hsize := Size.bits_of_ofBits hs
    have h6 := w.field_lt 6 2
    have h3 := w.field_lt 3 2
    have h5 := w.field_lt 5 1
    have hq : w.quick % 8 = w.upperReg := w.quick_mod
    have hm : w.mode = w.field 5 1 <<< 2 + w.field 3 2 := by
      simp only [Opcode.mode, Opcode.field, Nat.one_shiftLeft]
      omega
    simp only [Opcode.bit_eq, decide_eq_true_eq]
    split
    · apply faithful_two
      intro pc pc' o p ho hp
      cases ho
      cases hp
      refine ⟨meant_dataDirect rfl, meant_dataDirect rfl, ?_⟩
      change 0xE000 + (direction w).bits <<< 8 + (w.upperReg <<< 9 + s.bits <<< 6 + 1 <<< 5 +
        (ShiftKind.ofBits (w.field 3 2)).bits <<< 3 + w.reg) = w.toNat
      rw [ShiftKind.bits_ofBits]
      omega
    · apply faithful_two
      intro pc pc' o p ho hp
      cases ho
      cases hp
      refine ⟨meant_count rfl, meant_dataDirect rfl, ?_⟩
      change 0xE000 + (direction w).bits <<< 8 + ((w.quick % 8) <<< 9 + s.bits <<< 6 +
        (ShiftKind.ofBits (w.field 3 2)).bits <<< 3 + w.reg) = w.toNat
      rw [ShiftKind.bits_ofBits]
      omega

end Mc68000.Layout
