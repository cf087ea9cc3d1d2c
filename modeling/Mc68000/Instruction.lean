import Mc68000.Statement

namespace Mc68000

open Numeral

structure Instruction where
  address : UInt32
  opcode : UInt16
  mnemonic : String
  operands : String
  size : Nat
  bytes : List UInt8
  deriving DecidableEq

namespace Instruction

def assembly (i : Instruction) : String :=
  if i.operands.isEmpty then i.mnemonic else i.mnemonic ++ " " ++ i.operands

def nextAddress (i : Instruction) : UInt32 := i.address + UInt32.ofNat i.size

def isData (i : Instruction) : Bool := i.mnemonic == "DC.W"

def text (i : Instruction) : String := hex 8 i.address.toNat ++ ": " ++ i.assembly

end Instruction

end Mc68000
