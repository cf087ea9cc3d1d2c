import Mc68000.Decode
import Mc68000.Proofs.LayoutRule

namespace Mc68000

variable {α β : Type}

namespace Cursor

theorem advance_advance (c : Cursor) (n m : Nat) : (c.advance n).advance m = c.advance (n + m) := by
  simp only [advance, Nat.add_assoc]

theorem pc_advance (c : Cursor) (n : Nat) : (c.advance n).pc = c.pc + UInt32.ofNat (2 * n) := by
  rw [pc, position_advance, UInt32.ofNat_add, ← UInt32.add_assoc]
  rfl

theorem rest_advance (c : Cursor) (n : Nat) : (c.advance n).rest = c.rest.drop (2 * n) := by
  rw [rest, position_advance, rest, List.drop_drop]
  rfl

theorem length_rest (c : Cursor) : c.rest.length = c.bytes.length - c.position := List.length_drop

end Cursor

theorem Decoder.map_take (g : α → β) (x : Extension α) :
    g <$> Decoder.take x = Decoder.take (x.map g) := by
  funext c
  simp only [Functor.map, EStateM.map, Decoder.take, Extension.read_map, Extension.words_map]
  cases x.read c.rest <;> rfl

namespace Slot

/-- What a slot asks of the extension words, if its own begin at the address `pc`. -/
def form (pc : UInt32) : Slot → Except Fault (Extension Operand)
  | fixed o => .ok (.absent o)
  | address m r s =>
    match EffectiveAddress.form? m r s with
    | some x => .ok (x.map .address)
    | none => .error (.invalidMode 7 (r % 8))
  | immediate s => .ok (s.immediate.map (fun v ↦ .address (.immediate v s)))
  | signedWord => .ok (.word (fun w ↦ .signed w.toInt16.toInt))
  | displaced r => .ok (.word (fun w ↦ .address (.displacement r w.toInt16)))
  | registers b => .ok (.word (fun w ↦ .registers ⟨w, b⟩))
  | nearTarget d => .ok (.absent (.target (pc + d.toInt32.toUInt32) 4))
  | wordTarget => .ok (.word (fun w ↦ .target (pc + w.toInt16.toInt32.toUInt32) 4))
  | longTarget => .ok (.long (fun l ↦ .target (pc + l) 8))

/-- An address out of range of the words read is short of the same bytes as any other slot. -/
theorem decode_address {m r : Nat} {s : Size} {c : Cursor} (hc : c.position ≤ c.bytes.length) :
    Decoder.effectiveAddress m r s c =
      match EffectiveAddress.form? m r s with
      | some x => Decoder.take x c
      | none => .error (.invalidMode 7 (r % 8)) c := by
  rw [Decoder.effectiveAddress_eq]
  unfold EffectiveAddress.decode
  cases hf : EffectiveAddress.form? m r s with
  | none => rfl
  | some x =>
    unfold Decoder.take
    cases hx : x.read c.rest with
    | some a => simp only [hx]
    | none =>
      have hl : c.rest.length + c.position = c.bytes.length := by
        rw [c.length_rest]
        omega
      simp only [hx, Fault.rebase, hl, Nat.add_comm]

theorem decode_eq (σ : Slot) {c : Cursor} (hc : c.position ≤ c.bytes.length) :
    σ.decode c =
      match σ.form c.pc with
      | .ok x => Decoder.take x c
      | .error f => .error f c := by
  cases σ with
  | fixed o => rfl
  | address m r s =>
    simp only [decode, form, bind_pure_comp, Functor.map, EStateM.map, decode_address hc]
    cases EffectiveAddress.form? m r s with
    | none => rfl
    | some x => exact congrFun (Decoder.map_take Operand.address x) c
  | nearTarget d => rfl
  | _ =>
    simp only [decode, form, bind_pure_comp]
    exact congrFun (Decoder.map_take _ _) c

/-- The words of a slot and its fault are fixed before anything is read. -/
def words (σ : Slot) : Nat :=
  match σ.form 0 with
  | .ok x => x.words
  | .error _ => 0

def fault? (σ : Slot) : Option Fault :=
  match σ.form 0 with
  | .ok _ => none
  | .error f => some f

theorem form_cases (σ : Slot) (pc : UInt32) :
    (∃ x, σ.form pc = .ok x ∧ σ.fault? = none ∧ x.words = σ.words) ∨
      ∃ f, σ.form pc = .error f ∧ σ.fault? = some f := by
  cases σ with
  | address m r s =>
    cases hf : EffectiveAddress.form? m r s with
    | none => exact .inr ⟨.invalidMode 7 (r % 8), by simp [form, hf], by simp [fault?, form, hf]⟩
    | some x =>
      exact .inl ⟨x.map .address, by simp [form, hf], by simp [fault?, form, hf],
        by simp [words, form, hf]⟩
  | _ => exact .inl ⟨_, rfl, rfl, rfl⟩

def operandAt (σ : Slot) (pc : UInt32) (bs : List UInt8) : Option Operand :=
  match σ.form pc with
  | .ok x => x.read bs
  | .error _ => none

theorem exists_operandAt_iff (σ : Slot) (pc : UInt32) (bs : List UInt8) :
    (∃ o, σ.operandAt pc bs = some o) ↔ σ.fault? = none ∧ 2 * σ.words ≤ bs.length := by
  unfold operandAt
  rcases σ.form_cases pc with ⟨x, hx, hf, hw⟩ | ⟨f, hx, hf⟩
  · have hl := x.read_eq_none_iff bs
    rw [hw] at hl
    simp only [hx, hf, true_and, ← Option.ne_none_iff_exists', ne_eq, hl, Nat.not_lt]
  · simp [hx, hf]

theorem decode_cases (σ : Slot) {c : Cursor} (hc : c.position ≤ c.bytes.length) :
    (∃ o, σ.decode c = .ok o (c.advance σ.words) ∧ σ.fault? = none ∧
      σ.operandAt c.pc c.rest = some o ∧ c.position + 2 * σ.words ≤ c.bytes.length) ∨
    (∃ f, σ.decode c = .error f c ∧ σ.fault? = some f) ∨
    σ.decode c = .error (.insufficientData (c.position + 2 * σ.words) c.bytes.length) c ∧
      σ.fault? = none ∧ c.bytes.length < c.position + 2 * σ.words := by
  rcases σ.form_cases c.pc with ⟨x, hx, hf, hw⟩ | ⟨f, hx, hf⟩
  · have hl := x.read_eq_none_iff c.rest
    rw [c.length_rest, hw] at hl
    cases hr : x.read c.rest with
    | none =>
      have hs := hl.mp hr
      refine .inr (.inr ⟨?_, hf, by omega⟩)
      simp only [σ.decode_eq hc, hx, Decoder.take, hr, hw]
    | some o =>
      have hs : ¬ c.bytes.length - c.position < 2 * σ.words := by
        rw [← hl, hr]
        exact nofun
      refine .inl ⟨o, ?_, hf, by simp only [operandAt, hx, hr], by omega⟩
      simp only [σ.decode_eq hc, hx, Decoder.take, hr, hw]
  · refine .inr (.inl ⟨f, ?_, hf⟩)
    simp only [σ.decode_eq hc, hx]

end Slot

namespace Layout

/-- The words of the slots up to the first that cannot be read at all. -/
def extent : List Slot → Nat
  | [] => 0
  | σ :: σs => if σ.fault?.isSome then 0 else σ.words + extent σs

def firstFault? : List Slot → Option Fault
  | [] => none
  | σ :: σs => if σ.fault?.isSome then σ.fault? else firstFault? σs

def operandsAt : List Slot → UInt32 → List UInt8 → Option (List Operand)
  | [], _, _ => some []
  | σ :: σs, pc, bs =>
    match σ.operandAt pc bs with
    | none => none
    | some o =>
      (operandsAt σs (pc + UInt32.ofNat (2 * σ.words)) (bs.drop (2 * σ.words))).map (o :: ·)

/-- A run over slots reads them all, or stops at one that is faulty, or runs out of bytes. -/
theorem mapM_decode (σs : List Slot) {c : Cursor} (hc : c.position ≤ c.bytes.length) :
    (∃ os, σs.mapM Slot.decode c = .ok os (c.advance (extent σs)) ∧ firstFault? σs = none ∧
      operandsAt σs c.pc c.rest = some os ∧ c.position + 2 * extent σs ≤ c.bytes.length) ∨
    (∃ f c', σs.mapM Slot.decode c = .error f c' ∧ firstFault? σs = some f ∧
      c.position + 2 * extent σs ≤ c.bytes.length) ∨
    ∃ n c', σs.mapM Slot.decode c = .error (.insufficientData (2 * n) c.bytes.length) c' ∧
      c.bytes.length < 2 * n ∧ 2 * n ≤ c.position + 2 * extent σs := by
  induction σs generalizing c with
  | nil => exact .inl ⟨[], rfl, rfl, rfl, by simpa [extent] using hc⟩
  | cons σ σs ih =>
    rcases σ.decode_cases hc with ⟨o, hd, hf, ho, hl⟩ | ⟨f, hd, hf⟩ | ⟨hd, hf, hl⟩
    · have he : extent (σ :: σs) = σ.words + extent σs := by simp [extent, hf]
      have hff : firstFault? (σ :: σs) = firstFault? σs := by simp [firstFault?, hf]
      have hp := c.position_advance σ.words
      have hc' : (c.advance σ.words).position ≤ (c.advance σ.words).bytes.length := hp ▸ hl
      rw [he, hff]
      rcases ih hc' with ⟨os, hm, hn, hos, hlen⟩ | ⟨f, c', hm, hs, hlen⟩ | ⟨n, c', hm, hlt, hle⟩
      · rw [Cursor.pc_advance, Cursor.rest_advance] at hos
        rw [Cursor.advance_advance] at hm
        refine .inl ⟨o :: os, ?_, hn, by simp only [operandsAt, ho, hos, Option.map_some], ?_⟩
        · simp only [List.mapM_cons, bind, EStateM.bind, hd, hm]
          rfl
        · exact Nat.le_trans (by omega) hlen
      · refine .inr (.inl ⟨f, c', ?_, hs, Nat.le_trans (by omega) hlen⟩)
        simp only [List.mapM_cons, bind, EStateM.bind, hd, hm]
      · refine .inr (.inr ⟨n, c', ?_, hlt, by omega⟩)
        simp only [List.mapM_cons, bind, EStateM.bind, hd, hm]
        rfl
    · have he : extent (σ :: σs) = 0 := by simp [extent, hf]
      refine .inr (.inl ⟨f, c, ?_, by simp [firstFault?, hf], by omega⟩)
      simp only [List.mapM_cons, bind, EStateM.bind, hd]
    · have he : extent (σ :: σs) = σ.words + extent σs := by simp [extent, hf]
      have hp : c.position + 2 * σ.words = 2 * (1 + c.words + σ.words) := by
        rw [Cursor.position]
        omega
      rw [hp] at hd
      refine .inr (.inr ⟨1 + c.words + σ.words, c, ?_, by omega, by omega⟩)
      simp only [List.mapM_cons, bind, EStateM.bind, hd]

theorem operandsAt_cons {σ : Slot} {σs : List Slot} {pc : UInt32} {bs : List UInt8}
    {os : List Operand} :
    operandsAt (σ :: σs) pc bs = some os ↔
      ∃ o os', σ.operandAt pc bs = some o ∧
        operandsAt σs (pc + UInt32.ofNat (2 * σ.words)) (bs.drop (2 * σ.words)) = some os' ∧
        o :: os' = os := by
  rw [operandsAt]
  cases σ.operandAt pc bs with
  | none => simp
  | some o => simp

theorem exists_operandsAt_iff (σs : List Slot) (pc : UInt32) (bs : List UInt8) :
    (∃ os, operandsAt σs pc bs = some os) ↔
      firstFault? σs = none ∧ 2 * extent σs ≤ bs.length := by
  induction σs generalizing pc bs with
  | nil => simp [operandsAt, firstFault?, extent]
  | cons σ σs ih =>
    have ih := ih (pc + UInt32.ofNat (2 * σ.words)) (bs.drop (2 * σ.words))
    have ho := σ.exists_operandAt_iff pc bs
    simp only [operandsAt_cons]
    constructor
    · rintro ⟨os, o, os', h, h', -⟩
      obtain ⟨hf, hl⟩ := ho.mp ⟨o, h⟩
      obtain ⟨hfs, hls⟩ := ih.mp ⟨os', h'⟩
      rw [List.length_drop] at hls
      simp only [firstFault?, extent, hf, Option.isSome_none, Bool.false_eq_true, if_false]
      exact ⟨hfs, by omega⟩
    · rintro ⟨hfs, hls⟩
      cases hf : σ.fault? with
      | some f => simp [firstFault?, hf] at hfs
      | none =>
        simp only [firstFault?, extent, hf, Option.isSome_none, Bool.false_eq_true, if_false]
          at hfs hls
        obtain ⟨o, h⟩ := ho.mpr ⟨hf, by omega⟩
        obtain ⟨os, h'⟩ := ih.mpr ⟨hfs, by rw [List.length_drop]; omega⟩
        exact ⟨o :: os, o, os, h, h', rfl⟩

theorem operandsAt_append {σs : List Slot} {pc : UInt32} {bs : List UInt8} {os : List Operand}
    (h : operandsAt σs pc bs = some os) (t : List UInt8) :
    operandsAt σs pc (bs ++ t) = some os := by
  induction σs generalizing pc bs os with
  | nil => exact h
  | cons σ σs ih =>
    obtain ⟨o, os', ho, hos, rfl⟩ := operandsAt_cons.mp h
    obtain ⟨-, hl⟩ := (σ.exists_operandAt_iff pc bs).mp ⟨o, ho⟩
    refine operandsAt_cons.mpr ⟨o, os', ?_, ?_, rfl⟩
    · unfold Slot.operandAt at ho ⊢
      cases hx : σ.form pc with
      | error f => simp [hx] at ho
      | ok x =>
        simp only [hx] at ho ⊢
        exact Extension.read_append ho t
    · rw [List.drop_append_of_le_length hl]
      exact ih hos

def statement (l : Layout) (os : List Operand) : Statement :=
  ⟨l.mnemonic, if l.swapped then os.reverse else os⟩

theorem decode_of_ok {l : Layout} {c c' : Cursor} {os : List Operand}
    (h : l.slots.mapM Slot.decode c = .ok os c') :
    l.decode c = .ok ⟨l.statement os, if l.isData then 2 else c'.position⟩ c' := by
  simp only [decode, bind, EStateM.bind, h, statement]
  split <;> rfl

theorem decode_of_error {l : Layout} {c c' : Cursor} {f : Fault}
    (h : l.slots.mapM Slot.decode c = .error f c') : l.decode c = .error f c' := by
  simp only [decode, bind, EStateM.bind, h]

theorem length_of_dataOnly {w : Opcode} {l : Layout} (h : DataOnly w l) :
    (if l.isData then 2 else 2 + 2 * extent l.slots) = 2 + 2 * extent l.slots := by
  split
  · next hd =>
    rw [h hd]
    rfl
  · rfl

end Layout

open Layout

variable {hi lo : UInt8} {rest bytes : List UInt8} {address : UInt32} {l : Layout}
  {os : List Operand} {f : Fault} {i : Instruction}

/-- The instruction that a layout and its operands make of the bytes. -/
def Layout.instruction (l : Layout) (os : List Operand) (w : Opcode) (address : UInt32)
    (bytes : List UInt8) : Instruction where
  address := address
  opcode := w
  mnemonic := l.mnemonic.text
  operands := (l.statement os).operandText
  size := 2 + 2 * extent l.slots
  bytes := bytes.take (2 + 2 * extent l.slots)

def opcode? : List UInt8 → Option Opcode
  | hi :: lo :: _ => some (joinBytes hi lo)
  | _ => none

theorem eq_of_error {e : DecodeError} (h : decodeInstruction bytes address = .error e) :
    e = ⟨address, opcode? bytes, e.fault⟩ := by
  rcases bytes with _ | ⟨hi, _ | ⟨lo, rest⟩⟩
  · cases h
    rfl
  · cases h
    rfl
  · simp only [decodeInstruction] at h
    split at h
    · split at h
      · cases h
      · cases h
        rfl
    · cases h
      rfl

theorem decodeInstruction_of_fault (h : Opcode.layout (joinBytes hi lo) = .error f) :
    decodeInstruction (hi :: lo :: rest) address = .error ⟨address, some (joinBytes hi lo), f⟩ := by
  simp only [decodeInstruction, Opcode.decode, h, decodeWith]
  rfl

theorem decodeInstruction_of_read (h : Opcode.layout (joinBytes hi lo) = .ok l)
    (hm : l.slots.mapM Slot.decode (Cursor.start (hi :: lo :: rest) address) =
      .ok os ((Cursor.start (hi :: lo :: rest) address).advance (extent l.slots)))
    (hl : 2 + 2 * extent l.slots ≤ (hi :: lo :: rest).length) :
    decodeInstruction (hi :: lo :: rest) address =
      .ok (l.instruction os (joinBytes hi lo) address (hi :: lo :: rest)) := by
  have hp : ((Cursor.start (hi :: lo :: rest) address).advance (extent l.slots)).position =
      2 + 2 * extent l.slots := Cursor.position_advance _ _
  have hlen := length_of_dataOnly (Opcode.dataOnly_of_layout h)
  simp only [decodeInstruction, Opcode.decode, h, decodeWith, EStateM.run, decode_of_ok hm, hp,
    hlen, bytesUpTo_of_le hl]
  rfl

theorem decodeInstruction_of_stop (h : Opcode.layout (joinBytes hi lo) = .ok l) {c : Cursor}
    (hm : l.slots.mapM Slot.decode (Cursor.start (hi :: lo :: rest) address) = .error f c) :
    decodeInstruction (hi :: lo :: rest) address = .error ⟨address, some (joinBytes hi lo), f⟩ := by
  simp only [decodeInstruction, Opcode.decode, h, decodeWith, EStateM.run, decode_of_error hm]

theorem decodeInstruction_of_layout (h : Opcode.layout (joinBytes hi lo) = .ok l)
    (rest : List UInt8) (address : UInt32) :
    (∃ os, decodeInstruction (hi :: lo :: rest) address =
        .ok (l.instruction os (joinBytes hi lo) address (hi :: lo :: rest)) ∧
      firstFault? l.slots = none ∧ operandsAt l.slots (address + 2) rest = some os ∧
      2 + 2 * extent l.slots ≤ (hi :: lo :: rest).length) ∨
    (∃ f, decodeInstruction (hi :: lo :: rest) address =
        .error ⟨address, some (joinBytes hi lo), f⟩ ∧
      firstFault? l.slots = some f ∧ 2 + 2 * extent l.slots ≤ (hi :: lo :: rest).length) ∨
    ∃ n, decodeInstruction (hi :: lo :: rest) address = .error ⟨address, some (joinBytes hi lo),
        .insufficientData (2 * n) (hi :: lo :: rest).length⟩ ∧
      (hi :: lo :: rest).length < 2 * n ∧ 2 * n ≤ 2 + 2 * extent l.slots := by
  have hc : (Cursor.start (hi :: lo :: rest) address).position ≤
      (Cursor.start (hi :: lo :: rest) address).bytes.length := by
    simp [Cursor.start, Cursor.position]
  rcases mapM_decode l.slots hc with
    ⟨os, hm, hn, hos, hl⟩ | ⟨f, c', hm, hs, hl⟩ | ⟨n, c', hm, hlt, hle⟩
  · exact .inl ⟨os, decodeInstruction_of_read h hm hl, hn, hos, hl⟩
  · exact .inr (.inl ⟨f, decodeInstruction_of_stop h hm, hs, hl⟩)
  · exact .inr (.inr ⟨n, decodeInstruction_of_stop h hm, hlt, hle⟩)

theorem decodeInstruction_eq_ok_iff :
    decodeInstruction bytes address = .ok i ↔
      ∃ hi lo rest l os, bytes = hi :: lo :: rest ∧ Opcode.layout (joinBytes hi lo) = .ok l ∧
        operandsAt l.slots (address + 2) rest = some os ∧
        i = l.instruction os (joinBytes hi lo) address bytes := by
  constructor
  · intro h
    rcases bytes with _ | ⟨hi, _ | ⟨lo, rest⟩⟩
    · cases h
    · cases h
    · cases hw : Opcode.layout (joinBytes hi lo) with
      | error f =>
        rw [decodeInstruction_of_fault hw] at h
        cases h
      | ok l =>
        rcases decodeInstruction_of_layout hw rest address with
          ⟨os, hd, -, hos, -⟩ | ⟨f, hd, -⟩ | ⟨n, hd, -⟩
        · rw [hd] at h
          exact ⟨hi, lo, rest, l, os, rfl, hw, hos, (Except.ok.inj h).symm⟩
        · rw [hd] at h
          cases h
        · rw [hd] at h
          cases h
  · rintro ⟨hi, lo, rest, l, os, rfl, hw, hos, rfl⟩
    obtain ⟨hn, hl⟩ := (exists_operandsAt_iff _ _ _).mp ⟨os, hos⟩
    rcases decodeInstruction_of_layout hw rest address with
      ⟨os', hd, -, hos', -⟩ | ⟨f, -, hs, -⟩ | ⟨n, -, hlt, hle⟩
    · rw [hos] at hos'
      rw [hd, Option.some.inj hos']
    · rw [hn] at hs
      cases hs
    · simp only [List.length_cons] at hlt
      omega

theorem size_le_length (h : decodeInstruction bytes address = .ok i) : i.size ≤ bytes.length := by
  obtain ⟨hi, lo, rest, l, os, rfl, -, ho, rfl⟩ := decodeInstruction_eq_ok_iff.mp h
  obtain ⟨-, hl⟩ := (exists_operandsAt_iff _ _ _).mp ⟨os, ho⟩
  change 2 + 2 * extent l.slots ≤ rest.length + 1 + 1
  omega

theorem size_even (h : decodeInstruction bytes address = .ok i) : i.size % 2 = 0 := by
  obtain ⟨hi, lo, rest, l, os, -, -, -, rfl⟩ := decodeInstruction_eq_ok_iff.mp h
  change (2 + 2 * extent l.slots) % 2 = 0
  omega

theorem bytes_eq_take (h : decodeInstruction bytes address = .ok i) :
    i.bytes = bytes.take i.size := by
  obtain ⟨hi, lo, rest, l, os, -, -, -, rfl⟩ := decodeInstruction_eq_ok_iff.mp h
  rfl

theorem address_eq (h : decodeInstruction bytes address = .ok i) : i.address = address := by
  obtain ⟨hi, lo, rest, l, os, -, -, -, rfl⟩ := decodeInstruction_eq_ok_iff.mp h
  rfl

/-- An instruction stays what it is whatever follows it. -/
theorem decodeInstruction_append (h : decodeInstruction bytes address = .ok i) (t : List UInt8) :
    decodeInstruction (bytes ++ t) address = .ok i := by
  have hs := size_le_length h
  obtain ⟨hi, lo, rest, l, os, rfl, hl, ho, rfl⟩ := decodeInstruction_eq_ok_iff.mp h
  refine decodeInstruction_eq_ok_iff.mpr
    ⟨hi, lo, rest ++ t, l, os, rfl, hl, operandsAt_append ho t, ?_⟩
  change 2 + 2 * extent l.slots ≤ (hi :: lo :: rest).length at hs
  simp only [Layout.instruction, List.take_append_of_le_length hs]

end Mc68000
