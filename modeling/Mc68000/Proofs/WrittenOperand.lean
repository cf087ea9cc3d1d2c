import Mc68000.Proofs.DataWord

namespace Mc68000

open Layout EffectiveAddress

/-- The mode and the register of the operand that is written under a label, which is the last. -/
def writtenUnder (label : String) (w : Opcode) : Option (Nat × Nat) :=
  match label with
  | "MOVE" => some (w.field 6 3, w.upperReg)
  | "ADDI" | "SUBI" | "ANDI" | "ORI" | "EORI" | "EOR" | "BCHG" | "BCLR" | "BSET"
  | "MOVE from SR" => some (w.mode, w.reg)
  | "SHIFT" => if w.field 6 2 = 3 ∧ w.bit 11 = false then some (w.mode, w.reg) else none
  | "ADD" | "SUB" | "AND" | "OR" => if w.bit 8 then some (w.mode, w.reg) else none
  | "ADDQ" | "SUBQ" | "CLR" | "NEG" | "NEGX" | "NOT" | "TAS" | "NBCD" | "Scc" =>
    some (w.mode, w.reg)
  | "MOVEM" => if w.bit 10 then none else some (w.mode, w.reg)
  | _ => none

def guardedLabels : List String :=
  ["ADD", "SUB", "AND", "OR", "ADDQ", "SUBQ", "CLR", "NEG", "NEGX", "NOT", "TAS", "NBCD", "Scc",
    "MOVEM"]

namespace Opcode

/-- A word without a size is no instruction and writes nothing. -/
def written? (w : Opcode) : Option (Nat × Nat) :=
  if w &&& 0xFFC0 ∈ unsized then none
  else (resolve w).bind (fun e ↦ writtenUnder e.pattern.name w)

def guarded (w : Opcode) : Bool := (resolve w).any (fun e ↦ e.pattern.name ∈ guardedLabels)

end Opcode

def EffectiveAddress.readOnly : EffectiveAddress → Bool
  | pcDisplacement _ => true
  | pcIndexed _ => true
  | immediate _ _ => true
  | _ => false

/-- The instruction is written with this address as its last operand. -/
def Instruction.EndsIn (i : Instruction) (a : EffectiveAddress) : Prop :=
  ∃ s : Statement, i.mnemonic = s.mnemonic.text ∧ i.operands = s.operandText ∧
    s.operands.getLast? = some (.address a)

variable {F : Family} {w : Opcode} {l l' : Layout} {e : Entry} {p : Nat × Nat} {hi lo : UInt8}
  {rest : List UInt8} {address : UInt32}

theorem writtenUnder_shift (h : writtenUnder "SHIFT" w = some p) :
    w.field 6 2 = 3 ∧ w.bit 11 = false ∧ (w.mode, w.reg) = p := by
  change (if w.field 6 2 = 3 ∧ w.bit 11 = false then some (w.mode, w.reg) else none) = some p at h
  split at h
  · next hw => exact ⟨hw.1, hw.2, Option.some.inj h⟩
  · cases h

theorem EffectiveAddress.readOnly_eq (a : EffectiveAddress) :
    a.readOnly = namesReadOnly a.mode a.reg := by
  cases a <;> rfl

def Slot.Names (p : Nat × Nat) (σ : Slot) : Prop :=
  ∀ {pc o}, σ.Yields pc o → ∃ a : EffectiveAddress, o = .address a ∧ (a.mode, a.reg) = p

theorem Slot.names_address {m r : Nat} (hm : m < 8) (hr : r < 8) (s : Size) :
    (Slot.address m r s).Names (m, r) := by
  rintro pc o ⟨a, rfl, hmode, hreg, -⟩
  exact ⟨a, rfl, by rw [hmode, hreg, Nat.mod_eq_of_lt hm, Nat.mod_eq_of_lt hr]⟩

theorem Slot.names_addressReg (n : Nat) : (Slot.addressReg n).Names (1, n) := by
  rintro pc o rfl
  exact ⟨_, rfl, rfl⟩

theorem Opcode.names_address (w : Opcode) (s : Size) : (w.address s).Names (w.mode, w.reg) :=
  Slot.names_address (w.field_lt 3 3) (w.field_lt 0 3) s

namespace Layout

variable {m : Mnemonic} {σ τ : Slot}

def Targets (w : Opcode) (p : Nat × Nat) (l : Layout) : Prop :=
  l = dataWord w ∨ ∀ {pc bs os}, operandsAt l.slots pc bs = some os →
    ∃ a : EffectiveAddress, (l.statement os).operands.getLast? = some (.address a) ∧
      (a.mode, a.reg) = p

theorem targets_dataWord : Targets w p (dataWord w) := .inl rfl

theorem targets_one (hσ : σ.Names p) : Targets w p ⟨m, [σ], false, false⟩ := by
  refine .inr fun ho ↦ ?_
  obtain ⟨o, rfl, hy⟩ := yields_of_one ho
  obtain ⟨a, rfl, ha⟩ := hσ hy
  exact ⟨a, rfl, ha⟩

theorem targets_two (hτ : τ.Names p) : Targets w p ⟨m, [σ, τ], false, false⟩ := by
  refine .inr fun ho ↦ ?_
  obtain ⟨o, q, pc', rfl, -, hy⟩ := yields_of_two ho
  obtain ⟨a, rfl, ha⟩ := hτ hy
  exact ⟨a, rfl, ha⟩

theorem targets_ite {c : Prop} [Decidable c] (h : Targets w p l) (h' : Targets w p l') :
    Targets w p (if c then l else l') := by
  split
  · exact h
  · exact h'

end Layout

namespace Family

/-- The mode and the register of the last operand, if it has any in the word. -/
def target? : Family → Opcode → Option (Nat × Nat)
  | move, w => some (w.field 6 3, w.upperReg)
  | moveFromSr, w => some (w.mode, w.reg)
  | immediate _, w => some (w.mode, w.reg)
  | eor, w => some (w.mode, w.reg)
  | bitDynamic, w => some (w.mode, w.reg)
  | bitStatic, w => some (w.mode, w.reg)
  | quick, w => some (w.mode, w.reg)
  | unary, w => some (w.mode, w.reg)
  | alterableByte _, w => some (w.mode, w.reg)
  | scc, w => some (w.mode, w.reg)
  | shift, w => if w.field 6 2 = 3 then some (w.mode, w.reg) else none
  | dyadic _ _, w => if w.bit 8 then some (w.mode, w.reg) else none
  | movem, w => if w.bit 10 then none else some (w.mode, w.reg)
  | _, _ => none

theorem targets_of_layout (hl : F.layout w = .ok l) (h : F.target? w = some p) :
    Targets w p l := by
  have hdata {q : Nat × Nat} : Targets w q (dataWord w) := targets_dataWord
  have haddr := w.names_address
  cases F with
  | moveFromSr =>
    cases hl
    cases h
    exact targets_two (haddr _)
  | immediate _ | eor | bitDynamic | bitStatic =>
    obtain ⟨a, -, rfl⟩ := exists_of_bind_eq_ok hl
    cases h
    exact targets_two (haddr _)
  | quick =>
    obtain ⟨s, -, rfl⟩ := exists_of_bind_eq_ok hl
    cases h
    exact targets_ite (targets_two (haddr s)) hdata
  | alterableByte _ | scc =>
    cases hl
    cases h
    exact targets_ite (targets_one (haddr _)) hdata
  | unary =>
    cases h
    simp only [layout, Layout.unary] at hl
    split at hl
    · cases hl
      exact hdata
    · obtain ⟨s, -, rfl⟩ := exists_of_bind_eq_ok hl
      exact targets_ite (targets_one (haddr s)) hdata
  | shift =>
    simp only [target?] at h
    split at h
    · next h3 =>
      cases h
      simp only [layout, shift_eq, h3, if_true] at hl
      cases hl
      exact targets_ite hdata (targets_one (haddr _))
    · cases h
  | dyadic _ _ =>
    simp only [target?] at h
    split at h
    · next h8 =>
      cases h
      obtain ⟨s, -, rfl⟩ := exists_of_bind_eq_ok hl
      rw [if_pos h8]
      exact targets_ite (targets_two (haddr s)) hdata
    · cases h
  | movem =>
    simp only [target?] at h
    split at h
    · cases h
    · next h10 =>
      cases h
      cases hl
      simp only [Layout.movem, h10]
      exact targets_ite (targets_two (haddr _)) hdata
  | move =>
    obtain ⟨s, -, rfl⟩ := exists_of_bind_eq_ok hl
    cases h
    have hr : w.upperReg < 8 := w.field_lt 9 3
    split
    · next h1 =>
      rw [h1]
      exact targets_ite hdata (targets_two (Slot.names_addressReg _))
    · exact targets_two (Slot.names_address (w.field_lt 6 3) hr s)
  | _ => cases h

/-- The families that look at the operand before they write it. -/
def guarded : Family → Bool
  | dyadic _ _ | quick | unary | alterableByte _ | scc | movem => true
  | _ => false

def writers : Family → List String
  | move => ["MOVE"]
  | moveFromSr => ["MOVE from SR"]
  | immediate _ => ["ADDI", "SUBI", "ANDI", "ORI", "EORI"]
  | eor => ["EOR"]
  | bitDynamic | bitStatic => ["BCHG", "BCLR", "BSET"]
  | shift => ["SHIFT"]
  | dyadic _ _ => ["ADD", "SUB", "AND", "OR"]
  | quick => ["ADDQ", "SUBQ"]
  | unary => ["CLR", "NEG", "NEGX", "NOT"]
  | alterableByte _ => ["TAS", "NBCD"]
  | scc => ["Scc"]
  | movem => ["MOVEM"]
  | _ => []

theorem target?_of_writtenUnder {label : String} (hF : label ∈ F.writers)
    (h : writtenUnder label w = some p) : F.target? w = some p := by
  cases F with
  | move | moveFromSr | eor | scc | movem =>
    obtain rfl := List.mem_singleton.mp hF
    exact h
  | quick | alterableByte _ =>
    obtain rfl | rfl := by simpa [writers] using hF
    all_goals exact h
  | bitDynamic | bitStatic =>
    obtain rfl | rfl | rfl := by simpa [writers] using hF
    all_goals exact h
  | dyadic _ _ | unary =>
    obtain rfl | rfl | rfl | rfl := by simpa [writers] using hF
    all_goals exact h
  | immediate _ =>
    obtain rfl | rfl | rfl | rfl | rfl := by simpa [writers] using hF
    all_goals exact h
  | shift =>
    obtain rfl := List.mem_singleton.mp hF
    obtain ⟨h3, -, hp⟩ := writtenUnder_shift h
    rw [target?, if_pos h3, hp]
  | _ => cases hF

theorem refuses_eq_guarded {m r : Nat} (h : F.target? w = some (m, r))
    (hro : namesReadOnly m r = true) (hunary : F = .unary → w.field 6 2 ≠ 3)
    (hshift : F = .shift → w.bit 11 = false) : F.refuses w = F.guarded := by
  have hseven : m = 7 := by
    simp only [namesReadOnly, namesRelative, namesImmediate] at hro
    grind
  cases F with
  | moveFromSr | immediate _ | eor | bitDynamic | bitStatic => rfl
  | move =>
    cases h
    simp [refuses, guarded, hseven]
  | shift => simp [refuses, guarded, hshift rfl]
  | alterableByte _ | scc =>
    cases h
    simp [refuses, guarded, Opcode.dataAlterable_eq, hro]
  | quick =>
    cases h
    have hone : w.mode ≠ 1 := by omega
    simp [refuses, guarded, Opcode.dataAlterable_eq, hro, hone]
  | unary =>
    cases h
    simp [refuses, guarded, Opcode.dataAlterable_eq, hro, hunary]
  | dyadic _ _ =>
    simp only [target?] at h
    split at h
    · next h8 =>
      cases h
      simp [refuses, guarded, h8, Opcode.memoryAlterable_eq, hro]
    · cases h
  | movem =>
    simp only [target?] at h
    split at h
    · cases h
    · next h10 =>
      cases h
      have hm : w.mode < 8 := w.field_lt 3 3
      have hr : w.reg < 8 := w.field_lt 0 3
      have hone : namesRelative w.mode w.reg = true ∨ namesImmediate w.mode w.reg = true := by
        simpa [namesReadOnly] using hro
      rw [refuses, guarded, movemAllowed_eq_not _ hm hr]
      rcases hone with hone | hone
      · simp [h10, hone]
      · simp [hone]
  | _ => cases h

end Family

def writerLabels : List String :=
  guardedLabels ++ ["MOVE", "ADDI", "SUBI", "ANDI", "ORI", "EORI", "EOR", "BCHG", "BCLR", "BSET",
    "MOVE from SR", "SHIFT"]

theorem writtenUnder_of_notMem {label : String} (h : label ∉ writerLabels) (w : Opcode) :
    writtenUnder label w = none := by
  simp only [writerLabels, guardedLabels, List.cons_append, List.nil_append, List.mem_cons,
    not_or] at h
  simp [writtenUnder, h]

theorem table_writers : ∀ e ∈ table, e.pattern.name ∈ e.family.writers ∧
    decide (e.pattern.name ∈ guardedLabels) = e.family.guarded ∨
      e.pattern.name ∉ writerLabels := by
  decide

theorem Opcode.writer_of_written (h : w.written? = some p) :
    w &&& 0xFFC0 ∉ unsized ∧ ∃ e, resolve w = some e ∧ e.pattern.name ∈ e.family.writers ∧
      w.guarded = e.family.guarded ∧ writtenUnder e.pattern.name w = some p := by
  unfold written? at h
  split at h
  · cases h
  · next hs =>
    obtain ⟨e, he, hw⟩ := Option.bind_eq_some_iff.mp h
    refine ⟨hs, e, he, ?_⟩
    rcases table_writers e (List.mem_of_find?_eq_some he) with ⟨hF, hg⟩ | hn
    · rw [guarded, he, Option.any_some]
      exact ⟨hF, hg, hw⟩
    · rw [writtenUnder_of_notMem hn] at hw
      cases hw

theorem Opcode.undefined_eq_guarded {m r : Nat} (h : w.written? = some (m, r))
    (hro : namesReadOnly m r = true) : w.undefined = w.guarded := by
  obtain ⟨hs, e, he, hF, hg, hw⟩ := writer_of_written h
  have hunary (hu : e.family = .unary) : w.field 6 2 ≠ 3 := by
    intro h3
    exact hs (unsized_of_field_three he (by rw [hu]; rfl) h3).2
  have hshift (hsh : e.family = .shift) : w.bit 11 = false := by
    rw [hsh] at hF
    rw [List.mem_singleton.mp hF] at hw
    exact (writtenUnder_shift hw).2.1
  have hr := Family.refuses_eq_guarded (Family.target?_of_writtenUnder hF hw) hro hunary hshift
  rw [undefined, he, hg, ← hr]
  exact (Family.refuses_eq he).symm

theorem endsIn_of_written {m r : Nat} {i : Instruction}
    (h : Opcode.written? (joinBytes hi lo) = some (m, r))
    (hd : decodeInstruction (hi :: lo :: rest) address = .ok i) (hi' : i.isData = false) :
    ∃ a, i.EndsIn a ∧ a.readOnly = namesReadOnly m r := by
  obtain ⟨-, e, he, hF, -, hw⟩ := Opcode.writer_of_written h
  obtain ⟨_, _, _, l, os, hbytes, hl, ho, rfl⟩ := decodeInstruction_eq_ok_iff.mp hd
  cases hbytes
  have htarget := Family.targets_of_layout (layout_of_resolve he ▸ hl)
    (Family.target?_of_writtenUnder hF hw)
  rcases htarget with rfl | htarget
  · rw [Instruction.isData_dataWord] at hi'
    cases hi'
  · obtain ⟨a, hlast, ha⟩ := htarget ho
    cases ha
    exact ⟨a, ⟨_, rfl, rfl, hlast⟩, a.readOnly_eq⟩

/-- What is written can be written exactly under the labels that look at the operand. Under the
others a word with an operand that can only be read is decoded like any other. -/
theorem written_operand_alterable_iff (hi lo : UInt8) (rest : List UInt8) (address : UInt32)
    {mode reg : Nat} (h : Opcode.written? (joinBytes hi lo) = some (mode, reg)) :
    (((∀ i, decodeInstruction (hi :: lo :: rest) address = .ok i → i.isData = false →
          ∃ a, i.EndsIn a ∧ a.readOnly = false) ∧
        (namesReadOnly mode reg = true → decodeInstruction (hi :: lo :: rest) address =
          .ok ⟨address, joinBytes hi lo, "DC.W", "$" ++ Numeral.hex 4 (joinBytes hi lo).toNat, 2,
            [hi, lo]⟩)) ↔
      (namesReadOnly mode reg = true → Opcode.guarded (joinBytes hi lo) = true)) ∧
    (namesReadOnly mode reg = true → Opcode.guarded (joinBytes hi lo) = false →
      ∀ i, decodeInstruction (hi :: lo :: rest) address = .ok i →
        i.isData = false ∧ ∃ a, i.EndsIn a ∧ a.readOnly = true) := by
  have hdata := Opcode.undefined_eq_guarded h
  refine ⟨⟨?_, ?_⟩, ?_⟩
  · rintro ⟨-, hdc⟩ hro
    rw [← hdata hro]
    exact exists_isData_iff.mp ⟨_, hdc hro, rfl⟩
  · intro hguard
    refine ⟨fun i hd hi' ↦ ?_, fun hro ↦ ?_⟩
    · obtain ⟨a, ha, hread⟩ := endsIn_of_written h hd hi'
      refine ⟨a, ha, hread.trans ?_⟩
      by_contra hro
      rw [Bool.not_eq_false] at hro
      have hdc := (Instruction.isData_iff hd).mpr ((hdata hro).trans (hguard hro))
      rw [hdc] at hi'
      cases hi'
    · exact decodeInstruction_of_undefined ((hdata hro).trans (hguard hro)) rest address
  · intro hro hguard i hd
    have hi' : i.isData = false := by
      rw [← Bool.not_eq_true, Instruction.isData_iff hd, hdata hro, hguard]
      exact Bool.false_ne_true
    obtain ⟨a, ha, hread⟩ := endsIn_of_written h hd hi'
    exact ⟨hi', a, ha, hread.trans hro⟩

theorem written_operand_alterable_add :
    Opcode.written? 0xD17A = some (7, 2) ∧ Opcode.guarded 0xD17A = true ∧
      decodeInstruction [0xD1, 0x7A, 0x00, 0x10] 0 =
        .ok ⟨0, 0xD17A, "DC.W", "$D17A", 2, [0xD1, 0x7A]⟩ := by
  have hw : Opcode.written? 0xD17A = some (7, 2) := by decide
  have hg : Opcode.guarded 0xD17A = true := by decide
  have hadd := written_operand_alterable_iff 0xD1 0x7A [0x00, 0x10] 0 hw
  exact ⟨hw, hg, (hadd.1.mpr fun _ ↦ hg).2 rfl⟩

/-- A move to such a place is not, and takes a word behind it along. -/
theorem written_operand_relative_move :
    let i : Instruction := ⟨0, 0x35C0, "MOVE.W", "D0, (16,PC)", 4, [0x35, 0xC0, 0x00, 0x10]⟩
    Opcode.written? 0x35C0 = some (7, 2) ∧ namesReadOnly 7 2 = true ∧
      decodeInstruction [0x35, 0xC0, 0x00, 0x10] 0 = .ok i ∧ i.isData = false ∧
      i.EndsIn (.pcDisplacement 16) ∧ (pcDisplacement 16).readOnly = true := by
  intro i
  have hends : i.EndsIn (.pcDisplacement 16) := by
    refine ⟨⟨⟨.move, .sized .word⟩, [.address (.dataDirect 0), .address (.pcDisplacement 16)]⟩, ?_⟩
    decide
  exact ⟨by decide, rfl, by decide, by decide, hends, rfl⟩

end Mc68000
