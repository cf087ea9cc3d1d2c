import Mc68000.Proofs.IgnoredBits
import Mc68000.Proofs.Reassembly.Dispatch

namespace Mc68000

open Layout

variable {hi lo hi' lo' : UInt8} {rest mask bs bs' raw : List UInt8} {address : UInt32}
  {l : Layout} {os os' : List Operand} {i i' : Instruction}

/-- The bits of an instruction with this opcode that its text does not tell: the high byte of a
word that holds a byte, and bits 10 to 8 of a brief extension word. -/
def Opcode.ignored (w : Opcode) : List UInt8 :=
  match w.layout with
  | .ok l => 0 :: 0 :: Layout.ignored l.slots
  | .error _ => [0, 0]

theorem equalExcept_opcode :
    EqualExcept (0 :: 0 :: mask) (hi :: lo :: bs) (hi' :: lo' :: bs') ↔
      joinBytes hi lo = joinBytes hi' lo' ∧ EqualExcept mask bs bs' := by
  have hsplit : EqualExcept ([0, 0] ++ mask) ([hi, lo] ++ bs) ([hi', lo'] ++ bs') ↔ _ :=
    equalExcept_append rfl rfl
  refine hsplit.trans ?_
  rw [equalExcept_word, joinBytes_inj]
  simp only [UInt8.or_zero]

theorem Layout.bytes_instruction (w : Opcode) :
    (l.instruction os w address (hi :: lo :: rest)).bytes =
      hi :: lo :: rest.take (2 * extent l.slots) := by
  simp only [instruction, Nat.add_comm 2, List.take_succ_cons]

theorem Layout.size_instruction (w : Opcode) :
    (l.instruction os w address bs).size = 2 + 2 * extent l.slots := rfl

theorem Layout.statement_inj (h : l.statement os = l.statement os') : os = os' := by
  have ho := congrArg Statement.operands h
  unfold statement at ho
  by_cases hs : l.swapped
  · simpa [hs] using ho
  · simpa [hs] using ho

theorem eq_of_statement_text {w w' : Opcode} {l' : Layout} {pc : UInt32} (hl : w.layout = .ok l)
    (hl' : w'.layout = .ok l') (ho : operandsAt l.slots pc bs = some os)
    (ho' : operandsAt l'.slots pc bs' = some os') (hm : l.mnemonic.text = l'.mnemonic.text)
    (ht : (l.statement os).operandText = (l'.statement os').operandText) :
    w = w' ∧ l = l' ∧ os = os' := by
  have hf := Opcode.faithful hl
  have hf' := Opcode.faithful hl'
  have hs := (hf.regular ho).eq_of_text_eq (hf'.regular ho') (Mnemonic.text_inj hm) ht
  have hw : w = w' := by
    apply UInt16.toNat_inj.mp
    rw [← hf.opcode ho, ← hf'.opcode ho', hs]
  subst hw
  rw [hl] at hl'
  cases hl'
  exact ⟨rfl, rfl, statement_inj hs⟩

theorem not_mem_mnemonic (h : decodeInstruction bs address = .ok i) :
    ' ' ∉ i.mnemonic.toList := by
  obtain ⟨hi, lo, rest, l, os, -, -, -, rfl⟩ := decodeInstruction_eq_ok_iff.mp h
  exact l.mnemonic.not_mem_text (by decide)

theorem encoding_of_assembly_eq (h : decodeInstruction bs address = .ok i)
    (h' : decodeInstruction bs' address = .ok i') (ht : i.assembly = i'.assembly) :
    i.opcode = i'.opcode ∧ i.size = i'.size ∧
      EqualExcept (Opcode.ignored i.opcode) i.bytes i'.bytes := by
  obtain ⟨hm, hops⟩ := Instruction.assembly_inj (not_mem_mnemonic h) (not_mem_mnemonic h') ht
  obtain ⟨hi, lo, rest, l, os, rfl, hl, ho, rfl⟩ := decodeInstruction_eq_ok_iff.mp h
  obtain ⟨hi', lo', rest', l', os', rfl, hl', ho', rfl⟩ := decodeInstruction_eq_ok_iff.mp h'
  obtain ⟨hw, rfl, rfl⟩ := eq_of_statement_text hl hl' ho ho' hm hops
  refine ⟨hw, ?_, ?_⟩
  · rw [size_instruction, size_instruction]
  rw [bytes_instruction, bytes_instruction]
  change EqualExcept (Opcode.ignored (joinBytes hi lo)) _ _
  rw [Opcode.ignored, hl]
  exact equalExcept_opcode.mpr ⟨hw, (operandsAt_eq_iff ho ho').mp rfl⟩

end Mc68000
