import Mc68000.Layout.Control
import Mc68000.Proofs.Reassembly.Basic

namespace Mc68000.Layout

open Operand

variable {w : Opcode} {l : Layout} {op : Operation}

theorem faithful_implied (w : Opcode) : Faithful w (implied w) := by
  unfold implied
  cases ho : impliedOperation? w with
  | none => exact faithful_dataWord w
  | some op =>
    apply faithful_zero
    unfold impliedOperation? at ho
    split at ho <;> cases ho <;> simp [Operation.code, *]

theorem faithful_stop (hw : w &&& 0xFFFF = 0x4E72) : Faithful w stop := by
  have h0 : w.field 0 16 = 0x4E72 := Opcode.field_of_and hw rfl rfl
  rw [Opcode.field, Nat.shiftRight_zero, Nat.one_shiftLeft, Nat.mod_eq_of_lt w.toNat_lt] at h0
  apply faithful_one
  intro pc o ho
  refine ⟨meant_of_yields_immediate ⟨rfl, rfl, rfl⟩ rfl ho, ?_⟩
  rw [h0]
  rfl

theorem faithful_trap (hw : w &&& 0xFFF0 = 0x4E40) : Faithful w (trap w) := by
  have h4 : w.field 4 12 = 0x4E4 := Opcode.field_of_and hw rfl rfl
  have hn : w.toNat = w.field 4 12 <<< 4 + w.field 0 4 := by
    have hlt := w.toNat_lt
    simp only [Opcode.field, Nat.one_shiftLeft]
    omega
  apply faithful_one
  intro pc o ho
  cases ho
  refine ⟨meant_count rfl, ?_⟩
  change 0x4E40 + w.field 0 4 = w.toNat
  omega

theorem faithful_control (hop : op ∈ Operation.controls)
    (hw : w &&& 0xFFC0 = UInt16.ofNat op.code) : Faithful w (control op w) := by
  have hcode : ∀ op ∈ Operation.controls,
      op.code = Opcode.field (UInt16.ofNat op.code) 6 10 <<< 6 ∧
        Mnemonic.immediateSize ⟨op, .plain⟩ = .long := by
    decide
  obtain ⟨hc, hi⟩ := hcode op hop
  have h6 : w.field 6 10 = Opcode.field (UInt16.ofNat op.code) 6 10 :=
    Opcode.field_of_and hw rfl rfl
  exact faithful_addressed (List.mem_append_right _ hop) (h6 ▸ hc) hi.symm

def branchOperation : Condition → Operation
  | .t => .bra
  | .f => .bsr
  | c => .bcc c

theorem branch_eq (w : Opcode) :
    branch w =
      match w.field 0 8 with
      | 0x00 => sized (branchOperation w.condition) .word [.wordTarget]
      | 0xFF => sized (branchOperation w.condition) .long [.longTarget]
      | _ => ⟨⟨branchOperation w.condition, .short⟩, [.nearTarget w.toUInt8.toInt8], false, false⟩ :=
  rfl

theorem branchOperation_spec {c : Condition} (h : branchOperation c = op) :
    op.pointerKind = .target ∧ op.code = 0x6000 + c.bits <<< 8 ∧
      ∀ pc x o, (Mnemonic.mk op x).unaryBits pc o = (Mnemonic.mk op x).reachBits pc o := by
  subst h
  cases c <;> exact ⟨rfl, rfl, fun _ _ _ ↦ rfl⟩

theorem signExtend_mod (d : UInt8) : d.toInt8.toInt32.toUInt32.toNat % 0x100 = d.toNat := by
  have h : (BitVec.signExtend 32 d.toBitVec).setWidth 8 = d.toBitVec := by
    ext i hi
    rw [BitVec.getElem_setWidth, BitVec.getLsbD_eq_getElem (by omega), BitVec.getElem_signExtend]
    simp [hi]
  exact congrArg BitVec.toNat h

theorem faithful_branch (hw : w &&& 0xF000 = 0x6000) : Faithful w (branch w) := by
  have h12 : w.field 12 4 = 6 := Opcode.field_of_and hw rfl rfl
  have hn : w.toNat = w.field 12 4 <<< 12 + w.field 8 4 <<< 8 + w.field 0 8 := by
    have hlt := w.toNat_lt
    simp only [Opcode.field, Nat.one_shiftLeft]
    omega
  have h8 := w.field_lt 8 4
  have hc : w.condition.bits = w.field 8 4 % 16 := Condition.bits_ofBits _
  rw [branch_eq]
  generalize hop : branchOperation w.condition = op
  obtain ⟨hk, hcode, hbits⟩ := branchOperation_spec hop
  split
  · next h0 =>
    apply faithful_one
    intro pc o ho
    obtain ⟨t, rfl⟩ := ho
    refine ⟨meant_target hk rfl, ?_⟩
    rw [hbits]
    change op.code + 0 = w.toNat
    omega
  · next h0 =>
    apply faithful_one
    intro pc o ho
    obtain ⟨t, rfl⟩ := ho
    refine ⟨meant_target hk rfl, ?_⟩
    rw [hbits]
    change op.code + 0xFF = w.toNat
    omega
  · apply faithful_one
    intro pc o ho
    cases ho
    refine ⟨meant_target hk rfl, ?_⟩
    rw [hbits]
    change op.code + (pc + w.toUInt8.toInt8.toInt32.toUInt32 - pc).toNat % 0x100 = w.toNat
    have hlow : w.toUInt8.toNat = w.field 0 8 := by
      rw [UInt16.toNat_toUInt8, Opcode.field, Nat.shiftRight_zero]
      rfl
    rw [UInt32.add_comm, UInt32.add_sub_cancel, signExtend_mod, hlow]
    omega

theorem faithful_dbcc (hw : w &&& 0xF0F8 = 0x50C8) : Faithful w (dbcc w) := by
  have h12 : w.field 12 4 = 5 := Opcode.field_of_and hw rfl rfl
  have h3 : w.field 3 5 = 0x19 := Opcode.field_of_and hw rfl rfl
  have hn : w.toNat = w.field 12 4 <<< 12 + w.field 8 4 <<< 8 + w.field 3 5 <<< 3 + w.reg := by
    have hlt := w.toNat_lt
    simp only [Opcode.reg, Opcode.field, Nat.one_shiftLeft]
    omega
  have h8 := w.field_lt 8 4
  have hc : w.condition.bits = w.field 8 4 % 16 := Condition.bits_ofBits _
  apply faithful_two
  intro pc pc' o p ho hp
  cases ho
  obtain ⟨t, rfl⟩ := hp
  refine ⟨meant_dataDirect rfl, meant_target rfl rfl, ?_⟩
  change 0x50C8 + w.condition.bits <<< 8 + w.reg = w.toNat
  omega

theorem faithful_scc (hw : w &&& 0xF0C0 = 0x50C0) : Faithful w (scc w) := by
  have h12 : w.field 12 4 = 5 := Opcode.field_of_and hw rfl rfl
  have h6 : w.field 6 2 = 3 := Opcode.field_of_and hw rfl rfl
  have hn : w.toNat = w.field 12 4 <<< 12 + w.field 8 4 <<< 8 + w.field 6 2 <<< 6 +
      w.mode <<< 3 + w.reg := by
    have hlt := w.toNat_lt
    simp only [Opcode.mode, Opcode.reg, Opcode.field, Nat.one_shiftLeft]
    omega
  have h8 := w.field_lt 8 4
  have hc : w.condition.bits = w.field 8 4 % 16 := Condition.bits_ofBits _
  unfold scc
  split
  · apply faithful_one
    intro pc o ho
    obtain ⟨hom, hor⟩ := Opcode.fields_of_yields ho
    refine ⟨meant_of_yields_address ⟨rfl, rfl, rfl⟩ rfl ho, ?_⟩
    change 0x50C0 + w.condition.bits <<< 8 + (0 <<< 6 + (o.mode <<< 3 + o.reg)) = w.toNat
    omega
  · exact faithful_dataWord w

end Mc68000.Layout
