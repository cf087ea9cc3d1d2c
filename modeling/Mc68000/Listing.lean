import Mc68000.Walk

namespace Mc68000

open Numeral

def hexColumnWidth : Nat := 10 * 3

def hexBytes (bytes : List UInt8) : String :=
  " ".intercalate (bytes.map (fun b ↦ hex 2 b.toNat))

def leftAligned (width : Nat) (s : String) : String :=
  String.ofList (s.toList.rightpad width ' ')

namespace Instruction

def line (i : Instruction) (showHex : Bool) : String :=
  hex 8 i.address.toNat ++ "  " ++
    (if showHex then leftAligned hexColumnWidth (hexBytes i.bytes) else "") ++ i.assembly

def family? (i : Instruction) : Option String :=
  if i.isData then none else (resolve i.opcode).map (fun e ↦ e.pattern.name)

def familyLine (i : Instruction) : String :=
  "  $" ++ hex 8 i.address.toNat ++ "  " ++ hex 4 i.opcode.toNat ++ "  " ++
    i.family?.getD "(data)"

end Instruction

def unlines (lines : List String) : String := String.join (lines.map (fun l ↦ l ++ "\n"))

def listing (instructions : List Instruction) (showHex : Bool) : String :=
  unlines (instructions.map (fun i ↦ i.line showHex))

/-- One line for each instruction, and how many of them are data. -/
def familyReport (instructions : List Instruction) : String :=
  let named := instructions.countP (fun i ↦ i.family?.isSome)
  unlines (instructions.map Instruction.familyLine ++
    [decimal named ++ " instructions, " ++ decimal (instructions.length - named) ++ " data words"])

end Mc68000
