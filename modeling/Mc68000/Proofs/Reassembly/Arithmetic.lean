import Mc68000.Layout.Arithmetic
import Mc68000.Proofs.Reassembly.Basic

namespace Mc68000.Layout

open Operand Operation

variable {w : Opcode} {l : Layout} {op : Operation}

theorem faithful_dyadic {fromAddress : Bool} (hop : op ∈ dyadics)
    (hw : w &&& 0xF000 = UInt16.ofNat op.code) (h : dyadic op fromAddress w = .ok l) :
    Faithful w l := by
  have hcode : ∀ op ∈ dyadics, Opcode.field (UInt16.ofNat op.code) 12 4 <<< 12 = op.code := by
    decide
  have hord : ∀ op ∈ dyadics, op.Ordinary 2 := by decide
  have hbits : ∀ op ∈ dyadics, ∀ x o p,
      (Mnemonic.mk op x).binaryBits o p = (Mnemonic.mk op x).dyadicBits o p := by
    simp [dyadics, Mnemonic.binaryBits]
  have h12 : w.field 12 4 = Opcode.field (UInt16.ofNat op.code) 12 4 :=
    Opcode.field_of_and hw rfl rfl
  have hc := hcode op hop
  obtain ⟨s, hs, rfl⟩ := exists_of_bind_eq_ok h
  have hsize := Size.bits_of_ofBits hs
  have hn := w.toNat_eq
  have h8 := w.field_lt 8 1
  have h6 := w.field_lt 6 2
  simp only [Opcode.bit_eq, decide_eq_true_eq]
  split
  · split
    · next hm =>
      apply faithful_two
      intro pc pc' o p ho hp
      cases ho
      obtain ⟨hpm, hpr⟩ := Opcode.fields_of_yields hp
      have hp0 : ¬ p.mode = 0 := by
        simp only [Opcode.memoryAlterable, Bool.and_eq_true, bne_iff_ne] at hm
        exact hpm ▸ hm.1
      refine ⟨meant_dataDirect (hord op hop).1, meant_of_yields_address (hord op hop) rfl hp, ?_⟩
      rw [hbits op hop, Mnemonic.dyadicBits, if_neg hp0]
      change op.code + (w.upperReg <<< 9 + 1 <<< 8 + s.bits <<< 6 +
        (p.mode <<< 3 + p.reg)) = w.toNat
      omega
    · exact faithful_dataWord w
  · split
    · exact faithful_dataWord w
    · apply faithful_two
      intro pc pc' o p ho hp
      cases hp
      obtain ⟨hom, hor⟩ := Opcode.fields_of_yields ho
      refine ⟨meant_of_yields_address (hord op hop) rfl ho, meant_dataDirect (hord op hop).1, ?_⟩
      rw [hbits op hop]
      change op.code + (w.upperReg <<< 9 + s.bits <<< 6 + (o.mode <<< 3 + o.reg)) = w.toNat
      omega

theorem faithful_toAddress (hop : op ∈ toAddresses)
    (hw : w &&& 0xF0C0 = UInt16.ofNat op.code) : Faithful w (toAddress op w) := by
  have hcode : ∀ op ∈ toAddresses,
      Opcode.field (UInt16.ofNat op.code) 12 4 <<< 12 + 0xC0 = op.code ∧
        Opcode.field (UInt16.ofNat op.code) 6 2 = 3 := by
    decide
  have hord : ∀ op ∈ toAddresses, op.Ordinary 2 := by decide
  have hbits : ∀ op ∈ toAddresses, ∀ x o p,
      (Mnemonic.mk op x).binaryBits o p =
        p.reg <<< 9 + (Mnemonic.mk op x).longBit <<< 8 + o.addressBits := by
    simp [toAddresses, Mnemonic.binaryBits]
  obtain ⟨hc, hc6⟩ := hcode op hop
  have h12 : w.field 12 4 = Opcode.field (UInt16.ofNat op.code) 12 4 :=
    Opcode.field_of_and hw rfl rfl
  have h6 : w.field 6 2 = 3 := Opcode.field_of_and hw rfl hc6
  have hn := w.toNat_eq
  apply faithful_two
  intro pc pc' o p ho hp
  cases hp
  obtain ⟨hom, hor⟩ := Opcode.fields_of_yields ho
  refine ⟨meant_of_yields_address (hord op hop) rfl ho, meant_addressDirect (hord op hop).1, ?_⟩
  rw [hbits op hop, Opcode.longBit_wordOrLong]
  change op.code + (w.upperReg <<< 9 + w.field 8 1 <<< 8 + (o.mode <<< 3 + o.reg)) = w.toNat
  omega

theorem faithful_immediate (hop : op ∈ immediates)
    (hw : w &&& 0xFF00 = UInt16.ofNat op.code) (h : immediate op w = .ok l) : Faithful w l := by
  have hcode : ∀ op ∈ immediates, Opcode.field (UInt16.ofNat op.code) 8 8 <<< 8 = op.code := by
    decide
  have h8 : w.field 8 8 = Opcode.field (UInt16.ofNat op.code) 8 8 := Opcode.field_of_and hw rfl rfl
  have hc := hcode op hop
  obtain ⟨s, hs, rfl⟩ := exists_of_bind_eq_ok h
  have hsize := Size.bits_of_ofBits hs
  have hn := w.toNat_eq_byte
  have h6 := w.field_lt 6 2
  apply faithful_two
  intro pc pc' o p ho hp
  obtain ⟨hpm, hpr⟩ := Opcode.fields_of_yields hp
  refine ⟨meant_of_yields_immediate (ordinary_immediates hop) rfl ho,
    meant_of_yields_address (ordinary_immediates hop) rfl hp, ?_⟩
  rw [binaryBits_immediates hop]
  change op.code + (s.bits <<< 6 + (p.mode <<< 3 + p.reg)) = w.toNat
  omega

theorem faithful_registerPair {x : Suffix} (hop : op ∈ extendeds ++ decimals)
    (hw : w &&& 0xF130 = UInt16.ofNat op.code) (hx : (Mnemonic.mk op x).sizeBits = w.field 6 2) :
    Faithful w ⟨⟨op, x⟩, registerPair w, false, false⟩ := by
  have hcode : ∀ op ∈ extendeds ++ decimals,
      Opcode.field (UInt16.ofNat op.code) 12 4 <<< 12 + 0x100 = op.code ∧
        Opcode.field (UInt16.ofNat op.code) 8 1 = 1 ∧
        Opcode.field (UInt16.ofNat op.code) 4 2 = 0 := by
    decide
  have hord : ∀ op ∈ extendeds ++ decimals, op.Ordinary 2 := by decide
  have hbits : ∀ op ∈ extendeds ++ decimals, ∀ x o p,
      (Mnemonic.mk op x).binaryBits o p = (Mnemonic.mk op x).pairBits o p := by
    simp [extendeds, decimals, Mnemonic.binaryBits]
  obtain ⟨hc, hc8, hc4⟩ := hcode op hop
  have h12 : w.field 12 4 = Opcode.field (UInt16.ofNat op.code) 12 4 :=
    Opcode.field_of_and hw rfl rfl
  have h8 : w.field 8 1 = 1 := Opcode.field_of_and hw rfl hc8
  have h4 : w.field 4 2 = 0 := Opcode.field_of_and hw rfl hc4
  have hn := w.toNat_eq
  have hm := w.mode_eq
  have h3 := w.field_lt 3 1
  have hr := (hord op hop).1
  unfold registerPair
  simp only [Opcode.bit_eq, decide_eq_true_eq]
  split
  · apply faithful_two
    intro pc pc' o p ho hp
    cases ho
    cases hp
    refine ⟨meant_of_mode_lt (show 4 < 7 by decide) (.inl hr),
      meant_of_mode_lt (show 4 < 7 by decide) (.inl hr), ?_⟩
    rw [hbits op hop, Mnemonic.pairBits, hx]
    change op.code + (w.upperReg <<< 9 + w.field 6 2 <<< 6 + 1 <<< 3 + w.reg) = w.toNat
    omega
  · apply faithful_two
    intro pc pc' o p ho hp
    cases ho
    cases hp
    refine ⟨meant_dataDirect hr, meant_dataDirect hr, ?_⟩
    rw [hbits op hop, Mnemonic.pairBits, hx]
    change op.code + (w.upperReg <<< 9 + w.field 6 2 <<< 6 + 0 + w.reg) = w.toNat
    omega

theorem faithful_extended (hop : op ∈ extendeds) (hw : w &&& 0xF130 = UInt16.ofNat op.code)
    (h : extended op w = .ok l) : Faithful w l := by
  obtain ⟨s, hs, rfl⟩ := exists_of_bind_eq_ok h
  refine faithful_registerPair (List.mem_append_left decimals hop) hw ?_
  exact (Size.bits_of_ofBits hs).trans (Nat.mod_eq_of_lt (w.field_lt 6 2))

theorem faithful_decimal (hop : op ∈ decimals) (hw : w &&& 0xF1F0 = UInt16.ofNat op.code) :
    Faithful w (decimal op w) := by
  have hcode : ∀ op ∈ decimals, UInt16.ofNat op.code &&& 0xF130 = UInt16.ofNat op.code ∧
      Opcode.field (UInt16.ofNat op.code) 6 2 = 0 := by
    decide
  obtain ⟨hc, hc6⟩ := hcode op hop
  have hmask : w &&& 0xF130 = UInt16.ofNat op.code := by
    have h := congrArg (· &&& 0xF130) hw
    rw [UInt16.and_assoc, hc] at h
    exact h
  exact faithful_registerPair (List.mem_append_right extendeds hop) hmask
    (Opcode.field_of_and hw rfl hc6).symm

theorem faithful_cmpm (hw : w &&& 0xF138 = 0xB108) (h : cmpm w = .ok l) : Faithful w l := by
  have h12 : w.field 12 4 = 0xB := Opcode.field_of_and hw rfl rfl
  have h8 : w.field 8 1 = 1 := Opcode.field_of_and hw rfl rfl
  have hm : w.mode = 1 := Opcode.field_of_and hw rfl rfl
  obtain ⟨s, hs, rfl⟩ := exists_of_bind_eq_ok h
  have hsize := Size.bits_of_ofBits hs
  have hn := w.toNat_eq
  have h6 := w.field_lt 6 2
  apply faithful_two
  intro pc pc' o p ho hp
  cases ho
  cases hp
  refine ⟨meant_of_mode_lt (show 3 < 7 by decide) (.inl rfl),
    meant_of_mode_lt (show 3 < 7 by decide) (.inl rfl), ?_⟩
  change 0xB108 + (w.upperReg <<< 9 + s.bits <<< 6 + 0 + w.reg) = w.toNat
  omega

theorem quick_operation (w : Opcode) :
    ∃ op, (if w.bit 8 then subq else addq) = op ∧ op ∈ [addq, subq] ∧
      op.code = 0x5000 + w.field 8 1 <<< 8 := by
  have h8 := w.field_lt 8 1
  refine ⟨_, rfl, ?_⟩
  simp only [Opcode.bit_eq, decide_eq_true_eq]
  split <;> refine ⟨by decide, ?_⟩ <;> simp only [Operation.code] <;> omega

theorem faithful_quick (hw : w &&& 0xF000 = 0x5000) (h : quick w = .ok l) : Faithful w l := by
  have h12 : w.field 12 4 = 5 := Opcode.field_of_and hw rfl rfl
  have hkind : ∀ op ∈ [addq, subq], op.registerKind = .address ∧ op.pointerKind = .address ∧
      op.literalKind 2 = .count := by
    decide
  have hbits : ∀ op ∈ [addq, subq], ∀ x o p, (Mnemonic.mk op x).binaryBits o p =
      o.reg <<< 9 + (Mnemonic.mk op x).sizeBits <<< 6 + p.addressBits := by
    simp [Mnemonic.binaryBits]
  obtain ⟨s, hs, rfl⟩ := exists_of_bind_eq_ok h
  obtain ⟨op, hif, hop, hcode⟩ := quick_operation w
  obtain ⟨hr, hp, hl⟩ := hkind op hop
  have hsize := Size.bits_of_ofBits hs
  have hn := w.toNat_eq
  have h6 := w.field_lt 6 2
  have hq := w.quick_mod
  rw [hif]
  split
  · next ha =>
    apply faithful_two
    intro pc pc' o p ho hy
    cases ho
    obtain ⟨hpm, hpr⟩ := Opcode.fields_of_yields hy
    refine ⟨meant_count hl, ?_, ?_⟩
    · obtain ⟨a, rfl, -⟩ := hy
      refine meant_address (.inl hr) (.inl hp) ?_
      intro v t hv
      simp only [Operand.mode, Operand.reg, hv, EffectiveAddress.mode, EffectiveAddress.reg]
        at hpm hpr
      simp [alterable, Opcode.dataAlterable, ← hpm, ← hpr] at ha
    · rw [hbits op hop]
      change op.code + ((w.quick % 8) <<< 9 + s.bits <<< 6 + (p.mode <<< 3 + p.reg)) = w.toNat
      omega
  · exact faithful_dataWord w

theorem faithful_intoUpper (hop : op ∈ intoUpper)
    (hw : w.field 12 4 <<< 12 + w.field 8 1 <<< 8 + w.field 6 2 <<< 6 = op.code) :
    Faithful w (plain op [w.address .word, .dataReg w.upperReg]) := by
  have hord : ∀ op ∈ intoUpper, op.Ordinary 2 ∧
      Mnemonic.immediateSize ⟨op, .plain⟩ = .word := by
    decide
  have hbits : ∀ op ∈ intoUpper, ∀ o p,
      (Mnemonic.mk op .plain).binaryBits o p = p.reg <<< 9 + o.addressBits := by
    simp [intoUpper, Mnemonic.binaryBits, Mnemonic.longBit]
  have hn := w.toNat_eq
  obtain ⟨hord, hi⟩ := hord op hop
  apply faithful_two
  intro pc pc' o p ho hp
  cases hp
  obtain ⟨hom, hor⟩ := Opcode.fields_of_yields ho
  refine ⟨meant_of_yields_address hord hi.symm ho, meant_dataDirect hord.1, ?_⟩
  rw [hbits op hop]
  change op.code + (w.upperReg <<< 9 + (o.mode <<< 3 + o.reg)) = w.toNat
  omega

theorem faithful_mulDiv (hw : w &&& 0xB0C0 = 0x80C0) : Faithful w (mulDiv w) := by
  have h15 : w.field 15 1 = 1 := Opcode.field_of_and hw rfl rfl
  have h12 : w.field 12 2 = 0 := Opcode.field_of_and hw rfl rfl
  have h6 : w.field 6 2 = 3 := Opcode.field_of_and hw rfl rfl
  have hline : w.field 12 4 = 8 + w.field 14 1 * 4 := by
    simp only [Opcode.field, Nat.one_shiftLeft] at *
    omega
  have h14 := w.field_lt 14 1
  have h8 := w.field_lt 8 1
  unfold mulDiv
  simp only [Opcode.bit_eq, decide_eq_true_eq]
  split <;> split <;> refine faithful_intoUpper (by decide) ?_ <;> simp only [Operation.code] <;>
    omega

theorem faithful_chk (hw : w &&& 0xF1C0 = 0x4180) : Faithful w (chk w) := by
  have h12 : w.field 12 4 = 4 := Opcode.field_of_and hw rfl rfl
  have h8 : w.field 8 1 = 1 := Opcode.field_of_and hw rfl rfl
  have h6 : w.field 6 2 = 2 := Opcode.field_of_and hw rfl rfl
  refine faithful_intoUpper (by decide) ?_
  rw [h12, h8, h6]
  rfl

theorem faithful_ext (hw : w &&& 0xFFB8 = 0x4880) : Faithful w (ext w) := by
  have h7 : w.field 7 9 = 0x91 := Opcode.field_of_and hw rfl rfl
  have hm : w.mode = 0 := Opcode.field_of_and hw rfl rfl
  have hn : w.toNat = w.field 7 9 <<< 7 + w.field 6 1 <<< 6 + w.mode <<< 3 + w.reg := by
    have hlt := w.toNat_lt
    simp only [Opcode.mode, Opcode.reg, Opcode.field, Nat.one_shiftLeft]
    omega
  apply faithful_one
  intro pc o ho
  cases ho
  refine ⟨meant_dataDirect rfl, ?_⟩
  simp only [Mnemonic.unaryBits]
  rw [Opcode.longBit_wordOrLong]
  change 0x4880 + (w.field 6 1 <<< 6 + w.reg) = w.toNat
  omega

theorem faithful_unary (hw : w &&& 0xF000 = 0x4000) (h : unary w = .ok l) : Faithful w l := by
  have h12 : w.field 12 4 = 4 := Opcode.field_of_and hw rfl rfl
  have hn : w.field 6 10 = w.field 12 4 <<< 6 + w.field 8 4 <<< 2 + w.field 6 2 := by
    simp only [Opcode.field, Nat.one_shiftLeft]
    omega
  have h6 := w.field_lt 6 2
  unfold unary at h
  cases ho : unaryOperation? w with
  | none =>
    simp only [ho] at h
    cases h
    exact faithful_dataWord w
  | some op =>
    simp only [ho] at h
    obtain ⟨s, hs, rfl⟩ := exists_of_bind_eq_ok h
    have hsize := Size.bits_of_ofBits hs
    have hop : op ∈ unaries ∧
        op.code = 0x4000 + w.field 8 4 <<< 8 := by
      unfold unaryOperation? at ho
      split at ho <;> cases ho <;> simp [unaries, Operation.code, *]
    split
    · refine faithful_addressed (List.mem_append_left _ (List.mem_append_left _ hop.1)) ?_ rfl
      change op.code + s.bits <<< 6 = _
      omega
    · exact faithful_dataWord w

theorem faithful_alterableByte (hop : op ∈ alterableBytes)
    (hw : w &&& 0xFFC0 = UInt16.ofNat op.code) : Faithful w (alterableByte op w) := by
  have hcode : ∀ op ∈ alterableBytes, op.code = Opcode.field (UInt16.ofNat op.code) 6 10 <<< 6 ∧
      Mnemonic.immediateSize ⟨op, .plain⟩ = .byte := by
    decide
  obtain ⟨hc, hi⟩ := hcode op hop
  have h6 : w.field 6 10 = Opcode.field (UInt16.ofNat op.code) 6 10 :=
    Opcode.field_of_and hw rfl rfl
  unfold alterableByte
  split
  · refine faithful_addressed ?_ (h6 ▸ hc) hi.symm
    exact List.mem_append_left controls (List.mem_append_right unaries hop)
  · exact faithful_dataWord w

end Mc68000.Layout
