import Mc68000.Instruction
import Mc68000.Table

namespace Mc68000

def Opcode.decode (w : Opcode) : Decoder Fields := Layout.decodeWith w.layout

def decodeInstruction (bytes : List UInt8) (address : UInt32) : Except DecodeError Instruction :=
  match bytes with
  | hi :: lo :: _ =>
    let w : Opcode := joinBytes hi lo
    match w.decode.run (Cursor.start bytes address) with
    | .ok fields _ =>
      match bytesUpTo bytes fields.length with
      | .ok own => .ok
        { address := address
          opcode := w
          mnemonic := fields.statement.mnemonic.text
          operands := fields.statement.operandText
          size := fields.length
          bytes := own }
      | .error f => .error ⟨address, some w, f⟩
    | .error f _ => .error ⟨address, some w, f⟩
  | _ => .error ⟨address, none, .insufficientData 2 bytes.length⟩

theorem Layout.two_le_length {l : Layout} {c c' : Cursor} {fields : Fields}
    (h : l.decode c = .ok fields c') : 2 ≤ fields.length := by
  simp only [decode, bind, EStateM.bind] at h
  split at h
  · split at h
    · cases h
      exact Nat.le_refl 2
    · cases h
      exact Cursor.two_le_position _
  · cases h

theorem two_le_size {bytes : List UInt8} {address : UInt32} {i : Instruction}
    (h : decodeInstruction bytes address = .ok i) : 2 ≤ i.size := by
  unfold decodeInstruction at h
  split at h
  · dsimp only at h
    split at h
    · next fields c hd =>
      have hlength : 2 ≤ fields.length := by
        unfold Opcode.decode Layout.decodeWith at hd
        split at hd
        · exact Layout.two_le_length hd
        · cases hd
      split at h
      · cases h
        exact hlength
      · cases h
    · cases h
  · cases h

end Mc68000
