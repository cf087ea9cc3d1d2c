import Mc68000.Cursor
import Mc68000.Opcode
import Mc68000.Statement

namespace Mc68000

/-- Where an operand comes from: the opcode alone, or extension words. Targets are relative to the
place where their slot begins. -/
inductive Slot
  | fixed (o : Operand)
  | address (mode reg : Nat) (size : Size)
  | immediate (size : Size)
  | signedWord
  | displaced (reg : Nat)
  | registers (reversed : Bool)
  | nearTarget (d : Int8)
  | wordTarget
  | longTarget
  deriving DecidableEq

namespace Slot

def dataReg (n : Nat) : Slot := fixed (.address (.dataDirect n))

def addressReg (n : Nat) : Slot := fixed (.address (.addressDirect n))

def decode : Slot → Decoder Operand
  | fixed o => pure o
  | address m r s => return .address (← Decoder.effectiveAddress m r s)
  | immediate s => return .address (.immediate (← Decoder.immediate s) s)
  | signedWord => return .signed (← Decoder.word).toInt16.toInt
  | displaced r => return .address (.displacement r (← Decoder.word).toInt16)
  | registers b => return .registers ⟨← Decoder.word, b⟩
  | nearTarget d => return .target ((← get).pc + d.toInt32.toUInt32) 4
  | wordTarget => do
    let base := (← get).pc
    return .target (base + (← Decoder.word).toInt16.toInt32.toUInt32) 4
  | longTarget => do
    let base := (← get).pc
    return .target (base + (← Decoder.long)) 8

end Slot

/-- What comes of an opcode: a statement, and the bytes that it takes up with the opcode. -/
structure Fields where
  statement : Statement
  length : Nat
  deriving DecidableEq

def Decoder.finish (s : Statement) : Decoder Fields := return ⟨s, (← get).position⟩

/-- What an opcode fixes of its instruction. The slots stand in the order of their extension words
in memory, and `swapped` tells that the statement names them the other way round. `isData` marks
a word that is no instruction. -/
structure Layout where
  mnemonic : Mnemonic
  slots : List Slot
  swapped : Bool
  isData : Bool
  deriving DecidableEq

namespace Layout

def plain (op : Operation) (slots : List Slot) : Layout := ⟨⟨op, .plain⟩, slots, false, false⟩

def sized (op : Operation) (size : Size) (slots : List Slot) : Layout :=
  ⟨⟨op, .sized size⟩, slots, false, false⟩

def dataWord (w : Opcode) : Layout := ⟨⟨.dc, .sized .word⟩, [.fixed (.datum w)], false, true⟩

/-- Data takes up its one word, whatever has been read; a statement takes up all of that. -/
def decode (l : Layout) : Decoder Fields := do
  let operands ← l.slots.mapM Slot.decode
  let s : Statement := ⟨l.mnemonic, if l.swapped then operands.reverse else operands⟩
  if l.isData then return ⟨s, 2⟩ else Decoder.finish s

def decodeWith : Except Fault Layout → Decoder Fields
  | .ok l => l.decode
  | .error f => throw f

end Layout

def Opcode.address (w : Opcode) (size : Size) : Slot := .address w.mode w.reg size

end Mc68000
