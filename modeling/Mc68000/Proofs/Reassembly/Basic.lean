import Mc68000.Proofs.SlotOperand

namespace Mc68000

def Size.bits : Size → Nat
  | byte => 0
  | word => 1
  | long => 2

def Size.moveBits : Size → Nat
  | byte => 1
  | word => 3
  | long => 2

def Condition.bits : Condition → Nat
  | t => 0
  | f => 1
  | hi => 2
  | ls => 3
  | cc => 4
  | cs => 5
  | ne => 6
  | eq => 7
  | vc => 8
  | vs => 9
  | pl => 10
  | mi => 11
  | ge => 12
  | lt => 13
  | gt => 14
  | le => 15

def ShiftKind.bits : ShiftKind → Nat
  | arithmetic => 0
  | logical => 1
  | rotateExtended => 2
  | rotate => 3

def BitAction.bits : BitAction → Nat
  | test => 0
  | change => 1
  | clear => 2
  | set => 3

def Direction.bits : Direction → Nat
  | left => 1
  | right => 0

/-- The word of an operation with everything clear that its operands and its size fill in. -/
def Operation.code : Operation → Nat
  | move => 0
  | movea => 0
  | moveq => 0x7000
  | movem => 0x4880
  | movep => 0x0108
  | exg => 0xC100
  | lea => 0x41C0
  | pea => 0x4840
  | link => 0x4E50
  | unlk => 0x4E58
  | swap => 0x4840
  | add => 0xD000
  | adda => 0xD0C0
  | addi => 0x0600
  | addq => 0x5000
  | addx => 0xD100
  | sub => 0x9000
  | suba => 0x90C0
  | subi => 0x0400
  | subq => 0x5100
  | subx => 0x9100
  | mulu => 0xC0C0
  | muls => 0xC1C0
  | divu => 0x80C0
  | divs => 0x81C0
  | neg => 0x4400
  | negx => 0x4000
  | clr => 0x4200
  | tst => 0x4A00
  | ext => 0x4880
  | chk => 0x4180
  | cmp => 0xB000
  | cmpa => 0xB0C0
  | cmpi => 0x0C00
  | cmpm => 0xB108
  | abcd => 0xC100
  | sbcd => 0x8100
  | nbcd => 0x4800
  | and => 0xC000
  | andi => 0x0200
  | or => 0x8000
  | ori => 0x0000
  | eor => 0xB100
  | eori => 0x0A00
  | not => 0x4600
  | tas => 0x4AC0
  | shift _ d => 0xE000 + d.bits <<< 8
  | bit a => a.bits <<< 6
  | bra => 0x6000
  | bsr => 0x6100
  | jsr => 0x4E80
  | jmp => 0x4EC0
  | bcc c => 0x6000 + c.bits <<< 8
  | dbcc c => 0x50C8 + c.bits <<< 8
  | scc c => 0x50C0 + c.bits <<< 8
  | nop => 0x4E71
  | rts => 0x4E75
  | rte => 0x4E73
  | rtr => 0x4E77
  | reset => 0x4E70
  | trapv => 0x4E76
  | trap => 0x4E40
  | illegal => 0x4AFC
  | stop => 0x4E72
  | dc => 0

namespace Operation

def dyadics : List Operation := [or, sub, cmp, and, add]

def toAddresses : List Operation := [adda, suba, cmpa]

def immediates : List Operation := [addi, subi, andi, ori, eori, cmpi]

def extendeds : List Operation := [addx, subx]

def decimals : List Operation := [abcd, sbcd]

def intoUpper : List Operation := [mulu, muls, divu, divs, chk]

def unaries : List Operation := [negx, clr, neg, not, tst]

def alterableBytes : List Operation := [tas, nbcd]

def controls : List Operation := [pea, jsr, jmp]

end Operation

namespace Operand

/-- The status registers are named by the mode and the register of an immediate. -/
def mode : Operand → Nat
  | address a => a.mode
  | ccr => 7
  | sr => 7
  | _ => 0

def reg : Operand → Nat
  | address a => a.reg
  | count n => n % 8
  | ccr => 4
  | sr => 4
  | _ => 0

def addressBits (o : Operand) : Nat := o.mode <<< 3 + o.reg

end Operand

namespace Mnemonic

def sizeBits (m : Mnemonic) : Nat :=
  match m.suffix with
  | .sized s => s.bits
  | _ => 0

def moveBits (m : Mnemonic) : Nat :=
  match m.suffix with
  | .sized s => s.moveBits
  | _ => 0

def longBit (m : Mnemonic) : Nat := if m.suffix = .sized .long then 1 else 0

/-- A branch carries a short distance itself and announces the longer ones. -/
def reachBits (pc : UInt32) (m : Mnemonic) : Operand → Nat
  | .target t _ =>
    match m.suffix with
    | .short => (t - pc).toNat % 0x100
    | .sized .long => 0xFF
    | _ => 0
  | _ => 0

def unaryBits (pc : UInt32) (m : Mnemonic) (o : Operand) : Nat :=
  match m.operation, o with
  | .stop, _ => 0
  | .trap, .count n => n
  | .dc, .datum w => w.toNat
  | .bra, o => m.reachBits pc o
  | .bsr, o => m.reachBits pc o
  | .bcc _, o => m.reachBits pc o
  | .unlk, o => o.reg
  | .ext, o => m.longBit <<< 6 + o.reg
  | .shift k _, o => k.bits <<< 9 + 3 <<< 6 + o.addressBits
  | _, o => m.sizeBits <<< 6 + o.addressBits

def moveWord (m : Mnemonic) : Operand → Operand → Nat
  | .sr, p => 0x40C0 + p.addressBits
  | .usp, p => 0x4E68 + p.reg
  | o, .ccr => 0x44C0 + o.addressBits
  | o, .sr => 0x46C0 + o.addressBits
  | o, .usp => 0x4E60 + o.reg
  | o, p => m.moveBits <<< 12 + p.reg <<< 9 + p.mode <<< 6 + o.addressBits

def movemBits (m : Mnemonic) : Operand → Operand → Nat
  | .registers _, p => m.longBit <<< 6 + p.addressBits
  | o, _ => 1 <<< 10 + m.longBit <<< 6 + o.addressBits

def shiftBits (m : Mnemonic) (k : ShiftKind) : Operand → Operand → Nat
  | .count n, p => (n % 8) <<< 9 + m.sizeBits <<< 6 + k.bits <<< 3 + p.reg
  | o, p => o.reg <<< 9 + m.sizeBits <<< 6 + 1 <<< 5 + k.bits <<< 3 + p.reg

/-- An operation with one data register has it last if the other operand is a register as well. -/
def dyadicBits (m : Mnemonic) (o p : Operand) : Nat :=
  if p.mode = 0 then p.reg <<< 9 + m.sizeBits <<< 6 + o.addressBits
  else o.reg <<< 9 + 1 <<< 8 + m.sizeBits <<< 6 + p.addressBits

def movepBits (m : Mnemonic) (o p : Operand) : Nat :=
  if p.mode = 0 then p.reg <<< 9 + m.longBit <<< 6 + o.reg
  else o.reg <<< 9 + 1 <<< 7 + m.longBit <<< 6 + p.reg

def exchangeBits (o p : Operand) : Nat :=
  o.reg <<< 9 + (if o.mode = 1 then 9 else if p.mode = 1 then 17 else 8) <<< 3 + p.reg

def pairBits (m : Mnemonic) (o p : Operand) : Nat :=
  p.reg <<< 9 + m.sizeBits <<< 6 + (if o.mode = 4 then 1 <<< 3 else 0) + o.reg

def bitBits (o p : Operand) : Nat :=
  (if o.mode = 0 then 0x0100 + o.reg <<< 9 else 0x0800) + p.addressBits

def binaryBits (m : Mnemonic) (o p : Operand) : Nat :=
  match m.operation, o with
  | .move, o => m.moveWord o p
  | .movea, o => m.moveWord o p
  | .moveq, .signed v => p.reg <<< 9 + (v % 0x100).toNat
  | .movem, o => m.movemBits o p
  | .movep, o => m.movepBits o p
  | .exg, o => exchangeBits o p
  | .link, o => o.reg
  | .dbcc _, o => o.reg
  | .bit _, o => bitBits o p
  | .shift k _, o => m.shiftBits k o p
  | .add, o => m.dyadicBits o p
  | .sub, o => m.dyadicBits o p
  | .and, o => m.dyadicBits o p
  | .or, o => m.dyadicBits o p
  | .cmp, o => m.dyadicBits o p
  | .eor, o => o.reg <<< 9 + m.sizeBits <<< 6 + p.addressBits
  | .addq, o => o.reg <<< 9 + m.sizeBits <<< 6 + p.addressBits
  | .subq, o => o.reg <<< 9 + m.sizeBits <<< 6 + p.addressBits
  | .addi, _ => m.sizeBits <<< 6 + p.addressBits
  | .subi, _ => m.sizeBits <<< 6 + p.addressBits
  | .andi, _ => m.sizeBits <<< 6 + p.addressBits
  | .ori, _ => m.sizeBits <<< 6 + p.addressBits
  | .eori, _ => m.sizeBits <<< 6 + p.addressBits
  | .cmpi, _ => m.sizeBits <<< 6 + p.addressBits
  | .addx, o => m.pairBits o p
  | .subx, o => m.pairBits o p
  | .abcd, o => m.pairBits o p
  | .sbcd, o => m.pairBits o p
  | .cmpm, o => m.pairBits o p
  | _, o => p.reg <<< 9 + m.longBit <<< 8 + o.addressBits

end Mnemonic

theorem Operation.ordinary_immediates {op : Operation} (h : op ∈ immediates) : op.Ordinary 2 := by
  have hord : ∀ op ∈ immediates, op.Ordinary 2 := by decide
  exact hord op h

theorem Operation.binaryBits_immediates {op : Operation} (h : op ∈ immediates) (x : Suffix)
    (o p : Operand) : (Mnemonic.mk op x).binaryBits o p =
      (Mnemonic.mk op x).sizeBits <<< 6 + p.addressBits := by
  have hbits : ∀ op ∈ immediates, (Mnemonic.mk op x).binaryBits o p =
      (Mnemonic.mk op x).sizeBits <<< 6 + p.addressBits := by
    simp [immediates, Mnemonic.binaryBits]
  exact hbits op h

/-- The first word of the statement's encoding, if the second word of it is at the address `pc`. -/
def Statement.opcode (pc : UInt32) (s : Statement) : Nat :=
  s.mnemonic.operation.code +
    match s.operands with
    | [o] => s.mnemonic.unaryBits pc o
    | [o, p] => s.mnemonic.binaryBits o p
    | _ => 0

@[simp]
theorem Condition.bits_ofBits (n : Nat) : (ofBits n).bits = n % 16 := by
  have hmod : ofBits n = ofBits (n % 16) := by simp [ofBits]
  have hbits : ∀ k < 16, (ofBits k).bits = k := by decide
  rw [hmod, hbits _ (Nat.mod_lt n (by decide))]

@[simp]
theorem ShiftKind.bits_ofBits (n : Nat) : (ofBits n).bits = n % 4 := by
  have hmod : ofBits n = ofBits (n % 4) := by simp [ofBits]
  have hbits : ∀ k < 4, (ofBits k).bits = k := by decide
  rw [hmod, hbits _ (Nat.mod_lt n (by decide))]

@[simp]
theorem BitAction.bits_ofBits (n : Nat) : (ofBits n).bits = n % 4 := by
  have hmod : ofBits n = ofBits (n % 4) := by simp [ofBits]
  have hbits : ∀ k < 4, (ofBits k).bits = k := by decide
  rw [hmod, hbits _ (Nat.mod_lt n (by decide))]

theorem Size.bits_of_ofBits {n : Nat} {s : Size} (h : ofBits n = .ok s) : s.bits = n % 4 := by
  unfold ofBits at h
  generalize n % 4 = k at h ⊢
  split at h <;> cases h <;> rfl

theorem Size.moveBits_of_ofMoveBits {n : Nat} {s : Size} (h : ofMoveBits n = .ok s) :
    s.moveBits = n % 4 := by
  unfold ofMoveBits at h
  generalize n % 4 = k at h ⊢
  split at h <;> cases h <;> rfl

namespace Opcode

theorem bit_eq (w : Opcode) (i : Nat) : w.bit i = decide (w.field i 1 = 1) := by
  rw [bit, field, Nat.testBit_eq_decide_div_mod_eq, Nat.shiftRight_eq_div_pow]
  rfl

theorem longBit_wordOrLong (w : Opcode) (i : Nat) (op : Operation) :
    Mnemonic.longBit ⟨op, .sized (w.wordOrLong i)⟩ = w.field i 1 := by
  have hf : w.field i 1 < 2 := Nat.mod_lt _ (by decide)
  unfold Mnemonic.longBit wordOrLong
  by_cases h : w.bit i
  · simp only [bit_eq, decide_eq_true_eq] at h
    simp [bit_eq, h]
  · simp only [bit_eq, decide_eq_true_eq] at h
    simp only [bit_eq, h, decide_false, Bool.false_eq_true, if_false]
    simp
    omega

theorem field_of_and {w : Opcode} {mask value : UInt16} {i n v : Nat} (h : w &&& mask = value)
    (hm : Opcode.field mask i n = 1 <<< n - 1) (hv : Opcode.field value i n = v) :
    w.field i n = v := by
  rw [← hv, ← h]
  unfold field at hm ⊢
  rw [Nat.one_shiftLeft] at hm ⊢
  rw [UInt16.toNat_and, Nat.shiftRight_and_distrib, Nat.and_mod_two_pow, hm,
    Nat.and_two_pow_sub_one_eq_mod, Nat.mod_mod]

theorem and_of_field {w : Opcode} {mask value : UInt16} {i n : Nat}
    (hm : mask.toNat = (1 <<< n - 1) <<< i) (hv : value.toNat = w.field i n <<< i) :
    w &&& mask = value := by
  apply UInt16.toNat_inj.mp
  rw [UInt16.toNat_and, hm, hv, field, Nat.one_shiftLeft]
  apply Nat.eq_of_testBit_eq
  intro j
  simp only [Nat.testBit_and, Nat.testBit_shiftLeft, Nat.testBit_two_pow_sub_one,
    Nat.testBit_mod_two_pow, Nat.testBit_shiftRight]
  by_cases hj : i ≤ j
  · simp [hj, Bool.and_comm]
  · simp [hj]

theorem toNat_eq (w : Opcode) :
    w.toNat = w.field 12 4 <<< 12 + w.upperReg <<< 9 + w.field 8 1 <<< 8 +
      w.field 6 2 <<< 6 + w.mode <<< 3 + w.reg := by
  have hw := w.toNat_lt
  simp only [upperReg, mode, reg, field, Nat.one_shiftLeft]
  omega

theorem toNat_eq_byte (w : Opcode) :
    w.toNat = w.field 8 8 <<< 8 + w.field 6 2 <<< 6 + w.mode <<< 3 + w.reg := by
  have hw := w.toNat_lt
  simp only [mode, reg, field, Nat.one_shiftLeft]
  omega

theorem toNat_eq_line (w : Opcode) : w.toNat = w.field 6 10 <<< 6 + w.mode <<< 3 + w.reg := by
  have hw := w.toNat_lt
  simp only [mode, reg, field, Nat.one_shiftLeft]
  omega

theorem mode_eq (w : Opcode) : w.mode = w.field 4 2 * 2 + w.field 3 1 := by
  simp only [mode, field, Nat.one_shiftLeft]
  omega

theorem quick_mod (w : Opcode) : w.quick % 8 = w.upperReg := by
  have hlt := w.field_lt 9 3
  unfold quick upperReg
  split <;> omega

theorem fields_of_yields {w : Opcode} {s : Size} {pc : UInt32} {o : Operand}
    (h : (w.address s).Yields pc o) : o.mode = w.mode ∧ o.reg = w.reg := by
  obtain ⟨a, rfl, hm, hr, -⟩ := h
  exact ⟨hm.trans (Nat.mod_eq_of_lt (w.field_lt 3 3)), hr.trans (Nat.mod_eq_of_lt (w.field_lt 0 3))⟩

end Opcode

namespace Layout

variable {w : Opcode} {m : Mnemonic} {σ τ : Slot} {d : Bool}

/-- Whatever operands are read, the statement can be assembled to the opcode it came from. -/
structure Faithful (w : Opcode) (l : Layout) : Prop where
  arity : l.slots.length ≤ 2
  regular : ∀ {pc bs os}, operandsAt l.slots pc bs = some os → (l.statement os).Regular
  opcode : ∀ {pc bs os}, operandsAt l.slots pc bs = some os →
    (l.statement os).opcode pc = w.toNat

theorem faithful_zero (h : m.operation.code = w.toNat) : Faithful w ⟨m, [], false, d⟩ where
  arity := Nat.zero_le 2
  regular ho := by
    cases ho
    exact nofun
  opcode ho := by
    cases ho
    exact h

theorem faithful_one
    (h : ∀ {pc o}, σ.Yields pc o →
      o.Meant m [o.text] ∧ m.operation.code + m.unaryBits pc o = w.toNat) :
    Faithful w ⟨m, [σ], false, d⟩ where
  arity := Nat.le_succ 1
  regular ho := by
    obtain ⟨o, rfl, hy⟩ := yields_of_one ho
    simpa [statement, Statement.Regular] using (h hy).1
  opcode ho := by
    obtain ⟨o, rfl, hy⟩ := yields_of_one ho
    exact (h hy).2

theorem faithful_two
    (h : ∀ {pc pc' o p}, σ.Yields pc o → τ.Yields pc' p →
      o.Meant m [o.text, p.text] ∧ p.Meant m [o.text, p.text] ∧
        m.operation.code + m.binaryBits o p = w.toNat) : Faithful w ⟨m, [σ, τ], false, d⟩ where
  arity := Nat.le_refl 2
  regular ho := by
    obtain ⟨o, p, pc', rfl, hy, hz⟩ := yields_of_two ho
    obtain ⟨hm, hm', -⟩ := h hy hz
    simpa [statement, Statement.Regular] using And.intro hm hm'
  opcode ho := by
    obtain ⟨o, p, pc', rfl, hy, hz⟩ := yields_of_two ho
    exact (h hy hz).2.2

theorem faithful_swapped
    (h : ∀ {pc pc' o p}, σ.Yields pc o → τ.Yields pc' p →
      p.Meant m [p.text, o.text] ∧ o.Meant m [p.text, o.text] ∧
        m.operation.code + m.binaryBits p o = w.toNat) : Faithful w ⟨m, [σ, τ], true, d⟩ where
  arity := Nat.le_refl 2
  regular ho := by
    obtain ⟨o, p, pc', rfl, hy, hz⟩ := yields_of_two ho
    obtain ⟨hm, hm', -⟩ := h hy hz
    simpa [statement, Statement.Regular] using And.intro hm hm'
  opcode ho := by
    obtain ⟨o, p, pc', rfl, hy, hz⟩ := yields_of_two ho
    exact (h hy hz).2.2

theorem faithful_dataWord (w : Opcode) : Faithful w (dataWord w) := by
  apply faithful_one
  intro pc o ho
  cases ho
  exact ⟨Operand.meant_datum rfl, Nat.zero_add _⟩

theorem faithful_addressed {op : Operation} {x : Suffix} {s : Size}
    (hop : op ∈ Operation.unaries ++ Operation.alterableBytes ++ Operation.controls)
    (hw : op.code + (Mnemonic.mk op x).sizeBits <<< 6 = w.field 6 10 <<< 6)
    (hs : s = Mnemonic.immediateSize ⟨op, x⟩) :
    Faithful w ⟨⟨op, x⟩, [w.address s], false, d⟩ := by
  have hord : ∀ op ∈ Operation.unaries ++ Operation.alterableBytes ++ Operation.controls,
      op.Ordinary 1 := by
    decide
  have hbits : ∀ op ∈ Operation.unaries ++ Operation.alterableBytes ++ Operation.controls,
      ∀ pc x o, (Mnemonic.mk op x).unaryBits pc o =
        (Mnemonic.mk op x).sizeBits <<< 6 + o.addressBits := by
    simp [Operation.unaries, Operation.alterableBytes, Operation.controls, Mnemonic.unaryBits]
  have hn := w.toNat_eq_line
  apply faithful_one
  intro pc o ho
  obtain ⟨hom, hor⟩ := Opcode.fields_of_yields ho
  refine ⟨Operand.meant_of_yields_address (hord op hop) hs ho, ?_⟩
  rw [hbits op hop, Operand.addressBits]
  change op.code + _ = w.toNat
  omega

end Layout

end Mc68000
