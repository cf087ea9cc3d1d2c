import Mc68000.Proofs.AddressEncoding
import Mc68000.Proofs.Reassembly.Movement
import Mc68000.Proofs.TableLookup

namespace Mc68000

open Layout

variable {w : Opcode} {l : Layout} {σ τ : Slot} {o p : Operand} {ws us : List UInt16}
  {s : Size} {a src dst : EffectiveAddress}

namespace Slot

def Writes (σ : Slot) (o : Operand) (ws : List UInt16) : Prop :=
  ∀ pc, ∃ x, σ.form pc = .ok x ∧ x.Writes o ws

theorem writes_fixed (o : Operand) : (fixed o).Writes o [] :=
  fun _ ↦ ⟨_, rfl, Extension.writes_absent o⟩

theorem writes_address (h : a.WellFormed s) :
    (address a.mode a.reg s).Writes (.address a) a.extensionWords := by
  intro pc
  obtain ⟨x, hx, hw⟩ := h.writes_form
  refine ⟨x.map .address, ?_, hw.map _⟩
  simp only [form, hx]

theorem writes_immediate {v : UInt32} (h : v.toNat < 1 <<< (8 * s.bytes)) :
    (immediate s).Writes (.address (.immediate v s))
      (EffectiveAddress.immediate v s).extensionWords :=
  fun _ ↦ ⟨_, rfl, (Size.writes_immediate h).map _⟩

theorem writes_registers (b : Bool) (mask : UInt16) :
    (registers b).Writes (.registers ⟨mask, b⟩) [mask] :=
  fun _ ↦ ⟨_, rfl, Extension.writes_word rfl⟩

theorem Writes.words_eq (h : σ.Writes o ws) : σ.fault? = none ∧ σ.words = ws.length := by
  obtain ⟨x, hx, hw⟩ := h 0
  rcases σ.form_cases 0 with ⟨y, hy, hf, hl⟩ | ⟨f, hy, -⟩
  · rw [hx] at hy
    cases hy
    exact ⟨hf, by rw [← hl, hw.length]⟩
  · rw [hx] at hy
    cases hy

theorem Writes.operandAt (h : σ.Writes o ws) (pc : UInt32) (t : List UInt8) :
    σ.operandAt pc (bytesOfWords ws ++ t) = some o := by
  obtain ⟨x, hx, hw⟩ := h pc
  simp only [Slot.operandAt, hx]
  exact hw.read t

end Slot

namespace Layout

theorem operandsAt_of_writes (hσ : σ.Writes o ws) (hτ : τ.Writes p us) (pc : UInt32)
    (t : List UInt8) : operandsAt [σ, τ] pc (bytesOfWords (ws ++ us) ++ t) = some [o, p] := by
  rw [bytesOfWords_append, List.append_assoc]
  have hdrop : (bytesOfWords ws ++ (bytesOfWords us ++ t)).drop (2 * σ.words) =
      bytesOfWords us ++ t := by
    rw [hσ.words_eq.2, ← length_bytesOfWords, List.drop_left]
  refine operandsAt_cons.mpr ⟨o, [p], hσ.operandAt pc _, ?_, rfl⟩
  rw [hdrop]
  exact operandsAt_cons.mpr ⟨p, [], hτ.operandAt _ t, rfl, rfl⟩

theorem extent_of_writes (hσ : σ.Writes o ws) (hτ : τ.Writes p us) :
    extent [σ, τ] = (ws ++ us).length := by
  obtain ⟨hf, hw⟩ := hσ.words_eq
  obtain ⟨hf', hw'⟩ := hτ.words_eq
  simp [extent, hf, hf', hw, hw']

end Layout

/-- The word and those behind it are an instruction with this text, at whatever address it stands
and whatever follows it. -/
def Encodes (w : Opcode) (ws : List UInt16) (mnemonic operands : String) : Prop :=
  ∀ tail address, decodeInstruction (bytesOfWords (w :: ws) ++ tail) address =
    .ok ⟨address, w, mnemonic, operands, 2 + 2 * ws.length, bytesOfWords (w :: ws)⟩

theorem encodes_of_layout (hl : w.layout = .ok l) (hs : l.slots = [σ, τ]) (hσ : σ.Writes o ws)
    (hτ : τ.Writes p us) :
    Encodes w (ws ++ us) l.mnemonic.text (l.statement [o, p]).operandText := by
  intro tail address
  have hw : joinBytes (UInt8.ofNat (w.toNat >>> 8)) (UInt8.ofNat w.toNat) = w := joinBytes_split w
  refine decodeInstruction_eq_ok_iff.mpr ⟨_, _, bytesOfWords (ws ++ us) ++ tail, l, [o, p], rfl,
    ?_, ?_, ?_⟩
  · rw [hw]
    exact hl
  · rw [hs]
    exact operandsAt_of_writes hσ hτ _ _
  · have he : 2 + 2 * extent l.slots = (bytesOfWords (w :: (ws ++ us))).length := by
      rw [hs, extent_of_writes hσ hτ, length_bytesOfWords, List.length_cons]
      omega
    rw [Layout.instruction, he, List.take_left, hw, length_bytesOfWords, List.length_cons]
    congr 1
    omega

namespace Opcode

def ofMove (s : Size) (src dst : EffectiveAddress) : Opcode :=
  UInt16.ofNat (s.moveBits <<< 12 + dst.reg <<< 9 + dst.mode <<< 6 + src.mode <<< 3 + src.reg)

def ofImmediate (op : Operation) (s : Size) (a : EffectiveAddress) : Opcode :=
  UInt16.ofNat (op.code + s.bits <<< 6 + a.mode <<< 3 + a.reg)

def ofStaticBit (b : BitAction) (a : EffectiveAddress) : Opcode :=
  UInt16.ofNat (0x0800 + b.bits <<< 6 + a.mode <<< 3 + a.reg)

def ofTransfer (load : Bool) (s : Size) (a : EffectiveAddress) : Opcode :=
  UInt16.ofNat (0x4880 + load.toNat <<< 10 + (if s = .long then 1 else 0) <<< 6 + a.mode <<< 3 +
    a.reg)

theorem fields_of_toNat {c : Nat} (ha : a.reg < 8)
    (h : w.toNat = c <<< 6 + a.mode <<< 3 + a.reg) :
    w.field 6 10 = c ∧ w.mode = a.mode ∧ w.reg = a.reg := by
  have hm := a.mode_lt
  have hw := w.toNat_lt
  simp only [mode, reg, field, Nat.one_shiftLeft]
  omega

theorem fields_ofMove (hsrc : src.reg < 8) (hdst : dst.reg < 8) :
    (ofMove s src dst).field 12 4 = s.moveBits ∧ (ofMove s src dst).upperReg = dst.reg ∧
      (ofMove s src dst).field 6 3 = dst.mode ∧ (ofMove s src dst).mode = src.mode ∧
      (ofMove s src dst).reg = src.reg := by
  have hs : s.moveBits < 4 := by cases s <;> decide
  have hm := src.mode_lt
  have hm' := dst.mode_lt
  simp only [ofMove, upperReg, mode, reg, field, Nat.one_shiftLeft, UInt16.toNat_ofNat']
  omega

theorem layout_eq_move (h : w.field 12 4 = s.moveBits) : w.layout = Layout.move w := by
  have hknown : w &&& (0xF000 : UInt16) = UInt16.ofNat (s.moveBits <<< 12) := by
    apply and_of_field (i := 12) (n := 4) rfl
    rw [h]
    cases s <;> rfl
  have hfirst : table.find? (fun e ↦ e.pattern.agrees 0xF000 (UInt16.ofNat (s.moveBits <<< 12))) =
      some ⟨⟨0xF000, UInt16.ofNat (s.moveBits <<< 12), "MOVE"⟩, .move⟩ := by
    cases s <;> decide +kernel
  exact layout_of_first hknown hfirst

theorem layout_ofMove (hsrc : src.reg < 8) (hdst : dst.reg < 8) (hs : dst.mode = 1 → s ≠ .byte) :
    (ofMove s src dst).layout = .ok
      (if dst.mode = 1 then sized .movea s [.address src.mode src.reg s, .addressReg dst.reg]
        else sized .move s [.address src.mode src.reg s, .address dst.mode dst.reg s]) := by
  obtain ⟨h12, h9, h6, h3, h0⟩ := fields_ofMove (s := s) hsrc hdst
  have hsize : Size.ofMoveBits s.moveBits = .ok s := by cases s <;> rfl
  rw [layout_eq_move h12, Layout.move, h12, hsize, h6, h9]
  refine congrArg Except.ok ?_
  simp only [Opcode.address, h3, h0]
  by_cases hd : dst.mode = 1
  · rw [if_pos hd, if_pos hd, if_neg (hs hd)]
  · rw [if_neg hd, if_neg hd]

theorem layout_eq_immediate {op : Operation} (hop : op ∈ Operation.immediates)
    (h : w.field 8 8 <<< 8 = op.code) (hne : ¬ (w.mode = 7 ∧ w.reg = 4)) :
    w.layout = Layout.immediate op w := by
  have hknown : w &&& (0xFF00 : UInt16) = UInt16.ofNat op.code := by
    apply and_of_field (i := 8) (n := 8) rfl
    have hlt := w.field_lt 8 8
    rw [UInt16.toNat_ofNat', ← h]
    omega
  have hlow : w &&& (0x003F : UInt16) ≠ 0x003C :=
    fun hw ↦ hne ⟨field_of_and hw rfl rfl, field_of_and hw rfl rfl⟩
  have hfirst : ∀ op ∈ Operation.immediates, table.find? (fun e ↦
      e.pattern.agrees 0xFF00 (UInt16.ofNat op.code) && !e.pattern.demands 0x003F 0x003C) =
        some ⟨⟨0xFF00, UInt16.ofNat op.code, op.name⟩, .immediate op⟩ := by
    decide +kernel
  exact layout_of_resolve
    (resolve_of_known hknown hlow (Pattern.accepts_iff.mpr hknown) (hfirst op hop))

theorem layout_ofImmediate {op : Operation} (hop : op ∈ Operation.immediates) (ha : a.reg < 8)
    (hne : ∀ u t, a ≠ .immediate u t) :
    (ofImmediate op s a).layout =
      .ok (sized op s [.immediate s, .address a.mode a.reg s]) := by
  have hcode : ∀ op ∈ Operation.immediates, op.code % 0x100 = 0 ∧ op.code < 0x1000 := by decide
  obtain ⟨hc, hlt⟩ := hcode op hop
  have hb : s.bits < 3 := by cases s <;> decide
  have hm := a.mode_lt
  have hn : (ofImmediate op s a).toNat = (op.code / 64 + s.bits) <<< 6 + a.mode <<< 3 + a.reg := by
    rw [ofImmediate, UInt16.toNat_ofNat']
    omega
  generalize ofImmediate op s a = w at hn ⊢
  obtain ⟨h6, h3, h0⟩ := fields_of_toNat ha hn
  have h8 : w.field 8 8 <<< 8 = op.code := by
    simp only [field, Nat.one_shiftLeft] at h6 ⊢
    omega
  have hsize : w.field 6 2 = s.bits := by
    simp only [field, Nat.one_shiftLeft] at h6 ⊢
    omega
  have hplain : ¬ (w.mode = 7 ∧ w.reg = 4) := by
    rw [h3, h0]
    cases a with
    | immediate u t => exact absurd rfl (hne u t)
    | _ => simp [EffectiveAddress.mode, EffectiveAddress.reg]
  have hof : Size.ofBits s.bits = .ok s := by cases s <;> rfl
  rw [layout_eq_immediate hop h8 hplain, Layout.immediate, size, hsize, hof]
  simp only [Opcode.address, h3, h0]
  rfl

theorem layout_eq_bitStatic {b : BitAction} (h : w.field 6 10 = 0x20 + b.bits) :
    w.layout = Layout.bitStatic w := by
  have hknown : w &&& (0xFFC0 : UInt16) = UInt16.ofNat (0x0800 + b.bits <<< 6) := by
    apply and_of_field (i := 6) (n := 10) rfl
    rw [h]
    cases b <;> rfl
  have hfirst : table.find? (fun e ↦
      e.pattern.agrees 0xFFC0 (UInt16.ofNat (0x0800 + b.bits <<< 6))) =
        some ⟨⟨0xFFC0, UInt16.ofNat (0x0800 + b.bits <<< 6), b.name⟩, .bitStatic⟩ := by
    cases b <;> decide +kernel
  exact layout_of_first hknown hfirst

theorem layout_ofStaticBit {b : BitAction} (ha : a.reg < 8) :
    (ofStaticBit b a).layout = .ok (plain (.bit b)
      [.immediate .byte, .address a.mode a.reg (if a.mode = 0 then .long else .byte)]) := by
  have hb : b.bits < 4 := by cases b <;> decide
  have hm := a.mode_lt
  have hn : (ofStaticBit b a).toNat = (0x20 + b.bits) <<< 6 + a.mode <<< 3 + a.reg := by
    rw [ofStaticBit, UInt16.toNat_ofNat']
    omega
  generalize ofStaticBit b a = w at hn ⊢
  obtain ⟨h6, h3, h0⟩ := fields_of_toNat ha hn
  have haction : BitAction.ofBits (w.field 6 2) = b := by
    have h2 : w.field 6 2 = b.bits := by
      simp only [field, Nat.one_shiftLeft] at h6 ⊢
      omega
    rw [h2]
    cases b <;> rfl
  rw [layout_eq_bitStatic h6, bitStatic_eq, haction, bitTarget, Opcode.address, h3, h0]

theorem layout_eq_movem {load : Bool} (h : w.field 7 9 = 0x91 + load.toNat <<< 3)
    (hne : w.mode ≠ 0) : w.layout = .ok (Layout.movem w) := by
  have hknown : w &&& (0xFF80 : UInt16) = UInt16.ofNat (0x4880 + load.toNat <<< 10) := by
    apply and_of_field (i := 7) (n := 9) rfl
    rw [h]
    cases load <;> rfl
  have hlow : w &&& (0x0038 : UInt16) ≠ 0 := fun hw ↦ hne (field_of_and hw rfl rfl)
  have hfirst : table.find? (fun e ↦
      e.pattern.agrees 0xFF80 (UInt16.ofNat (0x4880 + load.toNat <<< 10)) &&
        !e.pattern.demands 0x0038 0) = some ⟨⟨0xFB80, 0x4880, "MOVEM"⟩, .movem⟩ := by
    cases load <;> decide +kernel
  have haccept : w &&& (0xFB80 : UInt16) = 0x4880 := by
    have hmask : (0xFB80 : UInt16) = 0xFF80 &&& 0xFB80 := rfl
    rw [hmask, ← UInt16.and_assoc, hknown]
    cases load <;> rfl
  exact layout_of_resolve (resolve_of_known hknown hlow (Pattern.accepts_iff.mpr haccept) hfirst)

theorem layout_ofTransfer {load : Bool} (hs : s ≠ .byte) (ha : a.reg < 8)
    (hmove : movemAllowed load a.mode a.reg = true) :
    (ofTransfer load s a).layout = .ok ⟨⟨.movem, .sized s⟩,
      [.registers (a.mode = 4), .address a.mode a.reg s], load, false⟩ := by
  have hm := a.mode_lt
  have hl : load.toNat < 2 := by cases load <;> decide
  generalize hk : (if s = .long then 1 else 0) = k
  have hk' : k < 2 := by
    rw [← hk]
    split <;> decide
  have hn : (ofTransfer load s a).toNat =
      (0x122 + load.toNat <<< 4 + k) <<< 6 + a.mode <<< 3 + a.reg := by
    rw [ofTransfer, hk, UInt16.toNat_ofNat']
    omega
  generalize ofTransfer load s a = w at hn ⊢
  obtain ⟨h6, h3, h0⟩ := fields_of_toNat ha hn
  have h7 : w.field 7 9 = 0x91 + load.toNat <<< 3 := by
    simp only [field, Nat.one_shiftLeft] at h6 ⊢
    omega
  have hload : w.bit 10 = load := by
    have h10 : w.field 10 1 = load.toNat := by
      simp only [field, Nat.one_shiftLeft] at h6 ⊢
      omega
    rw [bit_eq, h10]
    cases load <;> rfl
  have hsize : w.wordOrLong 6 = s := by
    have h1 : w.field 6 1 = k := by
      simp only [field, Nat.one_shiftLeft] at h6 ⊢
      omega
    rw [wordOrLong, bit_eq, h1, ← hk]
    cases s with
    | byte => exact absurd rfl hs
    | word => rfl
    | long => rfl
  obtain ⟨h2, -⟩ := movemAllowed_spec hmove
  rw [layout_eq_movem h7 (by omega), Layout.movem]
  simp only [hload, hsize, Opcode.address, h3, h0, hmove, if_true]

end Opcode

theorem joinOperands_pair (t u : String) : joinOperands [t, u] = t ++ ", " ++ u := by
  simp [joinOperands]

theorem encodes_in_order {m : Mnemonic} (hl : w.layout = .ok ⟨m, [σ, τ], false, false⟩)
    (hσ : σ.Writes o ws) (hτ : τ.Writes p us) :
    Encodes w (ws ++ us) m.text (o.text ++ ", " ++ p.text) := by
  rw [← joinOperands_pair]
  exact encodes_of_layout hl rfl hσ hτ

theorem encodes_swapped {m : Mnemonic} (hl : w.layout = .ok ⟨m, [σ, τ], true, false⟩)
    (hσ : σ.Writes o ws) (hτ : τ.Writes p us) :
    Encodes w (ws ++ us) m.text (p.text ++ ", " ++ o.text) := by
  rw [← joinOperands_pair]
  exact encodes_of_layout hl rfl hσ hτ

theorem encodes_move (hsrc : src.WellFormed s) (hdst : dst.WellFormed s)
    (hs : dst.mode = 1 → s ≠ .byte) :
    Encodes (.ofMove s src dst) (src.extensionWords ++ dst.extensionWords)
      ((if dst.mode = 1 then "MOVEA" else "MOVE") ++ s.suffix) (src.text ++ ", " ++ dst.text) := by
  have hl := Opcode.layout_ofMove hsrc.reg_lt hdst.reg_lt hs
  have hσ := Slot.writes_address hsrc
  by_cases hd : dst.mode = 1
  · rw [if_pos hd] at hl ⊢
    cases dst with
    | addressDirect n =>
      exact encodes_in_order (m := ⟨.movea, .sized s⟩) (o := .address src)
        (p := .address (.addressDirect n)) hl hσ (Slot.writes_fixed _)
    | _ => cases hd
  · rw [if_neg hd] at hl ⊢
    exact encodes_in_order (m := ⟨.move, .sized s⟩) (o := .address src) (p := .address dst) hl hσ
      (Slot.writes_address hdst)

theorem encodes_immediate {op : Operation} {v : UInt32} (hop : op ∈ Operation.immediates)
    (hv : v.toNat < 1 <<< (8 * s.bytes)) (ha : a.WellFormed s) (hne : ∀ u t, a ≠ .immediate u t) :
    Encodes (.ofImmediate op s a)
      ((EffectiveAddress.immediate v s).extensionWords ++ a.extensionWords)
      (op.name ++ s.suffix) ("#" ++ Literal.unsigned v s.bytes ++ ", " ++ a.text) :=
  encodes_in_order (m := ⟨op, .sized s⟩) (o := .address (.immediate v s)) (p := .address a)
    (Opcode.layout_ofImmediate hop ha.reg_lt hne) (Slot.writes_immediate hv)
    (Slot.writes_address ha)

theorem encodes_staticBit {b : BitAction} {v : UInt32} (hv : v.toNat < 256)
    (ha : a.WellFormed .byte) :
    Encodes (.ofStaticBit b a) (v.toUInt16 :: a.extensionWords) b.name
      ("#" ++ Literal.unsigned v 1 ++ ", " ++ a.text) := by
  have hlong : a.WellFormed (if a.mode = 0 then .long else .byte) := by
    cases a with
    | dataDirect n => exact ha
    | _ => exact ha
  have hm : (Mnemonic.mk (.bit b) .plain).text = b.name := String.append_empty
  rw [← hm, ← List.singleton_append]
  exact encodes_in_order (m := ⟨.bit b, .plain⟩) (o := .address (.immediate v .byte))
    (p := .address a) (Opcode.layout_ofStaticBit ha.reg_lt) (Slot.writes_immediate hv)
    (Slot.writes_address hlong)

/-- The addresses that several registers can be loaded from, or stored to. -/
def EffectiveAddress.transfers (load : Bool) : EffectiveAddress → Bool
  | indirect _ => true
  | displacement _ _ => true
  | indexed _ _ => true
  | absoluteShort _ => true
  | absoluteLong _ => true
  | postIncrement _ => load
  | pcDisplacement _ => load
  | pcIndexed _ => load
  | preDecrement _ => !load
  | _ => false

theorem movemAllowed_eq (load : Bool) (a : EffectiveAddress) :
    movemAllowed load a.mode a.reg = a.transfers load := by
  cases a <;> rfl

theorem encodes_transfer {load : Bool} (mask : UInt16) (hs : s ≠ .byte) (ha : a.WellFormed s)
    (hmove : a.transfers load = true) :
    Encodes (.ofTransfer load s a) (mask :: a.extensionWords) ("MOVEM" ++ s.suffix)
      (if load then a.text ++ ", " ++ RegisterList.text ⟨mask, a.mode = 4⟩
        else RegisterList.text ⟨mask, a.mode = 4⟩ ++ ", " ++ a.text) := by
  rw [← movemAllowed_eq] at hmove
  rw [← List.singleton_append]
  have hl := Opcode.layout_ofTransfer hs ha.reg_lt hmove
  have hσ := Slot.writes_registers (a.mode = 4) mask
  have hτ := Slot.writes_address ha
  cases load with
  | false =>
    rw [if_neg Bool.false_ne_true]
    exact encodes_in_order (m := ⟨.movem, .sized s⟩) (o := .registers ⟨mask, a.mode = 4⟩)
      (p := .address a) hl hσ hτ
  | true =>
    rw [if_pos rfl]
    exact encodes_swapped (m := ⟨.movem, .sized s⟩) (o := .registers ⟨mask, a.mode = 4⟩)
      (p := .address a) hl hσ hτ

/-- Decoding undoes the encoding of the instructions whose extension words have more than one
source: a move, an immediate operation, an operation on a numbered bit and a transfer of several
registers. The words of the operands follow each other in the order of memory. -/
theorem encoding_decodes :
    (∀ s src dst, src.WellFormed s → dst.WellFormed s → (dst.mode = 1 → s ≠ .byte) →
      Encodes (.ofMove s src dst) (src.extensionWords ++ dst.extensionWords)
        ((if dst.mode = 1 then "MOVEA" else "MOVE") ++ s.suffix)
        (src.text ++ ", " ++ dst.text)) ∧
    (∀ op ∈ [Operation.addi, .subi, .andi, .ori, .eori, .cmpi], ∀ s v a,
      v.toNat < 1 <<< (8 * s.bytes) → a.WellFormed s → (∀ u t, a ≠ .immediate u t) →
      Encodes (.ofImmediate op s a)
        ((EffectiveAddress.immediate v s).extensionWords ++ a.extensionWords)
        (op.name ++ s.suffix) ("#" ++ Literal.unsigned v s.bytes ++ ", " ++ a.text)) ∧
    (∀ b v a, v.toNat < 256 → a.WellFormed .byte →
      Encodes (.ofStaticBit b a) (v.toUInt16 :: a.extensionWords) b.name
        ("#" ++ Literal.unsigned v 1 ++ ", " ++ a.text)) ∧
    ∀ load mask s a, s ≠ .byte → a.WellFormed s → a.transfers load = true →
      Encodes (.ofTransfer load s a) (mask :: a.extensionWords) ("MOVEM" ++ s.suffix)
        (if load then a.text ++ ", " ++ RegisterList.text ⟨mask, a.mode = 4⟩
          else RegisterList.text ⟨mask, a.mode = 4⟩ ++ ", " ++ a.text) := by
  refine ⟨?_, ?_, ?_, ?_⟩
  · intro s src dst hsrc hdst hs
    exact encodes_move hsrc hdst hs
  · intro op hop s v a hv ha hne
    exact encodes_immediate hop hv ha hne
  · intro b v a hv ha
    exact encodes_staticBit hv ha
  · intro load mask s a hs ha hmove
    exact encodes_transfer mask hs ha hmove

theorem encoding_decodes_move :
    EffectiveAddress.WellFormed .word (.displacement 0 (-2)) ∧
      EffectiveAddress.WellFormed .word (.absoluteLong 0x12345) ∧
      decodeInstruction [0x33, 0xE8, 0xFF, 0xFE, 0x00, 0x01, 0x23, 0x45, 0x4E, 0x71] 0x1000 =
        .ok ⟨0x1000, 0x33E8, "MOVE.W", "(-2,A0), $00012345", 8,
          [0x33, 0xE8, 0xFF, 0xFE, 0x00, 0x01, 0x23, 0x45]⟩ := by
  have hsrc : EffectiveAddress.WellFormed .word (.displacement 0 (-2)) := show 0 < 8 by decide
  have hdst : EffectiveAddress.WellFormed .word (.absoluteLong 0x12345) := show 1 < 8 by decide
  exact ⟨hsrc, hdst, encoding_decodes.1 .word _ _ hsrc hdst nofun [0x4E, 0x71] 0x1000⟩

end Mc68000
