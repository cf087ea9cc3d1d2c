import Mc68000.Layout.Movement
import Mc68000.Proofs.Reassembly.Basic

namespace Mc68000.Layout

open Operand

variable {w : Opcode} {l : Layout}

theorem toNat_eq_move (w : Opcode) :
    w.toNat = w.field 12 4 <<< 12 + w.upperReg <<< 9 + w.field 6 3 <<< 6 + w.mode <<< 3 +
      w.reg := by
  have hlt := w.toNat_lt
  simp only [Opcode.upperReg, Opcode.mode, Opcode.reg, Opcode.field, Nat.one_shiftLeft]
  omega

theorem faithful_move (hw : w &&& 0xC000 = 0x0000) (h : move w = .ok l) : Faithful w l := by
  have h14 : w.field 14 2 = 0 := Opcode.field_of_and hw rfl rfl
  obtain ⟨s, hs, rfl⟩ := exists_of_bind_eq_ok h
  have hsize := Size.moveBits_of_ofMoveBits hs
  have hn := toNat_eq_move w
  have h12 : w.field 12 4 < 4 := by
    simp only [Opcode.field, Nat.one_shiftLeft] at *
    omega
  split
  · next h6 =>
    split
    · exact faithful_dataWord w
    · apply faithful_two
      intro pc pc' o p ho hp
      cases hp
      obtain ⟨hom, hor⟩ := Opcode.fields_of_yields ho
      refine ⟨meant_of_yields_address ⟨rfl, rfl, rfl⟩ rfl ho, meant_addressDirect rfl, ?_⟩
      obtain ⟨a, rfl, -⟩ := ho
      change 0 + (s.moveBits <<< 12 + w.upperReg <<< 9 + 1 <<< 6 +
        ((address a).mode <<< 3 + (address a).reg)) = w.toNat
      omega
  · apply faithful_two
    intro pc pc' o p ho hp
    obtain ⟨hom, hor⟩ := Opcode.fields_of_yields ho
    refine ⟨meant_of_yields_address ⟨rfl, rfl, rfl⟩ rfl ho,
      meant_of_yields_address ⟨rfl, rfl, rfl⟩ rfl hp, ?_⟩
    obtain ⟨a, rfl, -⟩ := ho
    obtain ⟨b, rfl, hbm, hbr, -⟩ := hp
    have h6 := w.field_lt 6 3
    have h9 : w.upperReg < 1 <<< 3 := w.field_lt 9 3
    change 0 + (s.moveBits <<< 12 + b.reg <<< 9 + b.mode <<< 6 +
      ((address a).mode <<< 3 + (address a).reg)) = w.toNat
    omega

theorem signed_mod (d : UInt8) : (d.toInt8.toInt % 0x100).toNat = d.toNat := by
  have hlt := d.toNat_lt
  have hi : d.toInt8.toInt = d.toBitVec.toInt := rfl
  rw [hi, BitVec.toInt_eq_toNat_cond, UInt8.toNat_toBitVec]
  split <;> omega

theorem faithful_moveq (hw : w &&& 0xF100 = 0x7000) : Faithful w (moveq w) := by
  have h12 : w.field 12 4 = 7 := Opcode.field_of_and hw rfl rfl
  have h8 : w.field 8 1 = 0 := Opcode.field_of_and hw rfl rfl
  have hn : w.toNat = w.field 12 4 <<< 12 + w.upperReg <<< 9 + w.field 8 1 <<< 8 +
      w.toUInt8.toNat := by
    have hlt := w.toNat_lt
    rw [UInt16.toNat_toUInt8]
    simp only [Opcode.upperReg, Opcode.field, Nat.one_shiftLeft]
    omega
  apply faithful_two
  intro pc pc' o p ho hp
  cases ho
  cases hp
  refine ⟨meant_signed rfl, meant_dataDirect rfl, ?_⟩
  change 0x7000 + (w.upperReg <<< 9 + (w.toUInt8.toInt8.toInt % 0x100).toNat) = w.toNat
  rw [signed_mod]
  omega

theorem faithful_movep (hw : w &&& 0xF138 = 0x0108) : Faithful w (movep w) := by
  have h12 : w.field 12 4 = 0 := Opcode.field_of_and hw rfl rfl
  have h8 : w.field 8 1 = 1 := Opcode.field_of_and hw rfl rfl
  have hm : w.mode = 1 := Opcode.field_of_and hw rfl rfl
  have hn := w.toNat_eq
  have h6 : w.field 6 2 = w.field 7 1 * 2 + w.field 6 1 := by
    simp only [Opcode.field, Nat.one_shiftLeft]
    omega
  have h7 := w.field_lt 7 1
  unfold movep
  simp only [Opcode.bit_eq, decide_eq_true_eq]
  split
  · apply faithful_two
    intro pc pc' o p ho hp
    cases ho
    obtain ⟨d, rfl⟩ := hp
    refine ⟨meant_dataDirect rfl, meant_of_mode_lt (show 5 < 7 by decide) (.inl rfl), ?_⟩
    simp only [Mnemonic.binaryBits, Mnemonic.movepBits]
    rw [Opcode.longBit_wordOrLong]
    change 0x0108 + (w.upperReg <<< 9 + 1 <<< 7 + w.field 6 1 <<< 6 + w.reg) = w.toNat
    omega
  · apply faithful_two
    intro pc pc' o p ho hp
    obtain ⟨d, rfl⟩ := ho
    cases hp
    refine ⟨meant_of_mode_lt (show 5 < 7 by decide) (.inl rfl), meant_dataDirect rfl, ?_⟩
    simp only [Mnemonic.binaryBits, Mnemonic.movepBits]
    rw [Opcode.longBit_wordOrLong]
    change 0x0108 + (w.upperReg <<< 9 + w.field 6 1 <<< 6 + w.reg) = w.toNat
    omega

theorem faithful_moveFromSr (hw : w &&& 0xFFC0 = 0x40C0) : Faithful w (moveFromSr w) := by
  have h6 : w.field 6 10 = 0x103 := Opcode.field_of_and hw rfl rfl
  have hn := w.toNat_eq_line
  apply faithful_two
  intro pc pc' o p ho hp
  cases ho
  obtain ⟨hpm, hpr⟩ := Opcode.fields_of_yields hp
  refine ⟨meant_sr, meant_of_yields_address ⟨rfl, rfl, rfl⟩ rfl hp, ?_⟩
  change 0 + (0x40C0 + (p.mode <<< 3 + p.reg)) = w.toNat
  omega

theorem faithful_moveToStatus {p : Operand} {c : Nat} (hw : w.field 6 10 <<< 6 = c)
    (hp : ∀ m a, Mnemonic.moveWord m (address a) p = c + (address a).addressBits)
    (hmeant : ∀ {m texts}, p.Meant m texts) :
    Faithful w (sized .move .word [w.address .word, .fixed p]) := by
  have hn := w.toNat_eq_line
  apply faithful_two
  intro pc pc' o q ho hq
  cases hq
  obtain ⟨hom, hor⟩ := Opcode.fields_of_yields ho
  refine ⟨meant_of_yields_address ⟨rfl, rfl, rfl⟩ rfl ho, hmeant, ?_⟩
  obtain ⟨a, rfl, -⟩ := ho
  change 0 + Mnemonic.moveWord _ (address a) p = w.toNat
  rw [hp, addressBits]
  omega

theorem faithful_moveToCcr (hw : w &&& 0xFFC0 = 0x44C0) : Faithful w (moveToCcr w) := by
  have h6 : w.field 6 10 = 0x113 := Opcode.field_of_and hw rfl rfl
  refine faithful_moveToStatus ?_ (fun _ _ ↦ rfl) meant_ccr
  omega

theorem faithful_moveToSr (hw : w &&& 0xFFC0 = 0x46C0) : Faithful w (moveToSr w) := by
  have h6 : w.field 6 10 = 0x11B := Opcode.field_of_and hw rfl rfl
  refine faithful_moveToStatus ?_ (fun _ _ ↦ rfl) meant_sr
  omega

theorem faithful_moveUsp (hw : w &&& 0xFFF0 = 0x4E60) : Faithful w (moveUsp w) := by
  have h4 : w.field 4 12 = 0x4E6 := Opcode.field_of_and hw rfl rfl
  have hn : w.toNat = w.field 4 12 <<< 4 + w.field 3 1 <<< 3 + w.reg := by
    have hlt := w.toNat_lt
    simp only [Opcode.reg, Opcode.field, Nat.one_shiftLeft]
    omega
  have h3 := w.field_lt 3 1
  unfold moveUsp
  simp only [Opcode.bit_eq, decide_eq_true_eq]
  split
  · apply faithful_two
    intro pc pc' o p ho hp
    cases ho
    cases hp
    refine ⟨meant_usp, meant_addressDirect rfl, ?_⟩
    change 0 + (0x4E68 + w.reg) = w.toNat
    omega
  · apply faithful_two
    intro pc pc' o p ho hp
    cases ho
    cases hp
    refine ⟨meant_addressDirect rfl, meant_usp, ?_⟩
    change 0 + (0x4E60 + w.reg) = w.toNat
    omega

theorem faithful_exchange {d e : EffectiveAddress} (hw : w.field 12 4 = 0xC) (h8 : w.field 8 1 = 1)
    (hd : d.mode < 7 ∧ d.reg = w.upperReg) (he : e.mode < 7 ∧ e.reg = w.reg)
    (h3 : w.field 3 5 = if d.mode = 1 then 9 else if e.mode = 1 then 17 else 8) :
    Faithful w (plain .exg [.fixed (.address d), .fixed (.address e)]) := by
  have hn : w.toNat = w.field 12 4 <<< 12 + w.upperReg <<< 9 + w.field 8 1 <<< 8 +
      w.field 3 5 <<< 3 + w.reg := by
    have hlt := w.toNat_lt
    simp only [Opcode.upperReg, Opcode.reg, Opcode.field, Nat.one_shiftLeft]
    omega
  apply faithful_two
  intro pc pc' o p ho hp
  cases ho
  cases hp
  refine ⟨meant_of_mode_lt hd.1 (.inl rfl), meant_of_mode_lt he.1 (.inl rfl), ?_⟩
  change 0xC100 + (d.reg <<< 9 + (if d.mode = 1 then 9 else if e.mode = 1 then 17 else 8) <<< 3 +
    e.reg) = w.toNat
  rw [← h3]
  omega

theorem faithful_exg (hw : w &&& 0xF100 = 0xC100) : Faithful w (exg w) := by
  have h12 : w.field 12 4 = 0xC := Opcode.field_of_and hw rfl rfl
  have h8 : w.field 8 1 = 1 := Opcode.field_of_and hw rfl rfl
  unfold exg
  split
  · next h3 =>
    exact faithful_exchange h12 h8 ⟨show 0 < 7 by decide, rfl⟩ ⟨show 0 < 7 by decide, rfl⟩ h3
  · next h3 =>
    exact faithful_exchange h12 h8 ⟨show 1 < 7 by decide, rfl⟩ ⟨show 1 < 7 by decide, rfl⟩ h3
  · next h3 =>
    exact faithful_exchange h12 h8 ⟨show 0 < 7 by decide, rfl⟩ ⟨show 1 < 7 by decide, rfl⟩ h3
  · exact faithful_dataWord w

theorem faithful_swap (hw : w &&& 0xFFF8 = 0x4840) : Faithful w (swap w) := by
  have h6 : w.field 6 10 = 0x121 := Opcode.field_of_and hw rfl rfl
  have hm : w.mode = 0 := Opcode.field_of_and hw rfl rfl
  have hn := w.toNat_eq_line
  apply faithful_one
  intro pc o ho
  cases ho
  refine ⟨meant_dataDirect rfl, ?_⟩
  change 0x4840 + (0 <<< 6 + (0 <<< 3 + w.reg)) = w.toNat
  omega

theorem faithful_lea (hw : w &&& 0xF1C0 = 0x41C0) : Faithful w (lea w) := by
  have h12 : w.field 12 4 = 4 := Opcode.field_of_and hw rfl rfl
  have h8 : w.field 8 1 = 1 := Opcode.field_of_and hw rfl rfl
  have h6 : w.field 6 2 = 3 := Opcode.field_of_and hw rfl rfl
  have hn := w.toNat_eq
  apply faithful_two
  intro pc pc' o p ho hp
  cases hp
  obtain ⟨hom, hor⟩ := Opcode.fields_of_yields ho
  refine ⟨meant_of_yields_address ⟨rfl, rfl, rfl⟩ rfl ho, meant_addressDirect rfl, ?_⟩
  change 0x41C0 + (w.upperReg <<< 9 + 0 <<< 8 + (o.mode <<< 3 + o.reg)) = w.toNat
  omega

theorem faithful_link (hw : w &&& 0xFFF8 = 0x4E50) : Faithful w (link w) := by
  have h6 : w.field 6 10 = 0x139 := Opcode.field_of_and hw rfl rfl
  have hm : w.mode = 2 := Opcode.field_of_and hw rfl rfl
  have hn := w.toNat_eq_line
  apply faithful_two
  intro pc pc' o p ho hp
  cases ho
  obtain ⟨v, rfl⟩ := hp
  refine ⟨meant_addressDirect rfl, meant_signed rfl, ?_⟩
  change 0x4E50 + w.reg = w.toNat
  omega

theorem faithful_unlk (hw : w &&& 0xFFF8 = 0x4E58) : Faithful w (unlk w) := by
  have h6 : w.field 6 10 = 0x139 := Opcode.field_of_and hw rfl rfl
  have hm : w.mode = 3 := Opcode.field_of_and hw rfl rfl
  have hn := w.toNat_eq_line
  apply faithful_one
  intro pc o ho
  cases ho
  refine ⟨meant_addressDirect rfl, ?_⟩
  change 0x4E58 + w.reg = w.toNat
  omega

theorem movemAllowed_spec {load : Bool} {m r : Nat} (h : movemAllowed load m r = true) :
    2 ≤ m ∧ ¬ (m = 7 ∧ r = 4) := by
  unfold movemAllowed at h
  split at h <;> simp_all

theorem faithful_movem (hw : w &&& 0xFB80 = 0x4880) : Faithful w (movem w) := by
  have h11 : w.field 11 5 = 9 := Opcode.field_of_and hw rfl rfl
  have h7 : w.field 7 3 = 1 := Opcode.field_of_and hw rfl rfl
  have hn : w.toNat = w.field 11 5 <<< 11 + w.field 10 1 <<< 10 + w.field 7 3 <<< 7 +
      w.field 6 1 <<< 6 + w.mode <<< 3 + w.reg := by
    have hlt := w.toNat_lt
    simp only [Opcode.mode, Opcode.reg, Opcode.field, Nat.one_shiftLeft]
    omega
  have h10 := w.field_lt 10 1
  unfold movem
  dsimp only
  split
  · next ha =>
    obtain ⟨h2, h74⟩ := movemAllowed_spec ha
    have hmeant {pc texts a} (hp : (w.address (w.wordOrLong 6)).Yields pc (address a)) :
        (address a).Meant ⟨.movem, .sized (w.wordOrLong 6)⟩ texts := by
      obtain ⟨hm, hr⟩ := Opcode.fields_of_yields hp
      change a.mode = w.mode at hm
      refine meant_address (.inr (by omega)) (.inl rfl) ?_
      intro v t hv
      subst hv
      exact absurd ⟨hm.symm, hr.symm⟩ h74
    have hlong : Mnemonic.longBit ⟨.movem, .sized (w.wordOrLong 6)⟩ = w.field 6 1 :=
      w.longBit_wordOrLong 6 .movem
    simp only [Opcode.bit_eq]
    by_cases hb : w.field 10 1 = 1
    · rw [decide_eq_true hb]
      apply faithful_swapped
      intro pc pc' o p ho hp
      obtain ⟨hm, hr⟩ := Opcode.fields_of_yields hp
      obtain ⟨r, rfl⟩ := ho
      obtain ⟨a, rfl, -⟩ := id hp
      refine ⟨hmeant hp, meant_registers rfl ?_ rfl, ?_⟩
      · exact (reversedOrder_pair.2.trans (by rw [← hm]; rfl)).symm
      · change 0x4880 + (1 <<< 10 + Mnemonic.longBit ⟨.movem, .sized (w.wordOrLong 6)⟩ <<< 6 +
          ((address a).mode <<< 3 + (address a).reg)) = w.toNat
        omega
    · rw [decide_eq_false hb]
      apply faithful_two
      intro pc pc' o p ho hp
      obtain ⟨hm, hr⟩ := Opcode.fields_of_yields hp
      obtain ⟨r, rfl⟩ := ho
      obtain ⟨a, rfl, -⟩ := id hp
      refine ⟨meant_registers rfl ?_ rfl, hmeant hp, ?_⟩
      · exact (reversedOrder_pair.1.trans (by rw [← hm]; rfl)).symm
      · change 0x4880 + (Mnemonic.longBit ⟨.movem, .sized (w.wordOrLong 6)⟩ <<< 6 +
          ((address a).mode <<< 3 + (address a).reg)) = w.toNat
        omega
  · exact faithful_dataWord w

end Mc68000.Layout
