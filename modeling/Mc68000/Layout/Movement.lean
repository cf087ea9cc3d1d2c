import Mc68000.Layout.Basic

namespace Mc68000.Layout

/-- The destination has its register in front of its mode. An address register as destination is
MOVEA, of which there is no byte form. -/
def move (w : Opcode) : Except Fault Layout := do
  let s ← Size.ofMoveBits (w.field 12 4)
  return if w.field 6 3 = 1 then
      if s = .byte then dataWord w else sized .movea s [w.address s, .addressReg w.upperReg]
    else sized .move s [w.address s, .address (w.field 6 3) w.upperReg s]

def moveq (w : Opcode) : Layout :=
  plain .moveq [.fixed (.signed w.toUInt8.toInt8.toInt), .dataReg w.upperReg]

/-- Loads take (An)+ and the relative modes, stores take -(An). The undefined registers of mode 7
pass. -/
def movemAllowed (load : Bool) (mode reg : Nat) : Bool :=
  match mode, reg with
  | 2, _ => true
  | 3, _ => load
  | 4, _ => !load
  | 5, _ => true
  | 6, _ => true
  | 7, 2 => load
  | 7, 3 => load
  | 7, 4 => false
  | 7, _ => true
  | _, _ => false

/-- The register list comes first in memory, also where it is named last. -/
def movem (w : Opcode) : Layout :=
  let s := w.wordOrLong 6
  if movemAllowed (w.bit 10) w.mode w.reg then
    ⟨⟨.movem, .sized s⟩, [.registers (w.mode = 4), w.address s], w.bit 10, false⟩
  else dataWord w

def movep (w : Opcode) : Layout :=
  sized .movep (w.wordOrLong 6)
    (if w.bit 7 then [.dataReg w.upperReg, .displaced w.reg]
      else [.displaced w.reg, .dataReg w.upperReg])

def moveFromSr (w : Opcode) : Layout := sized .move .word [.fixed .sr, w.address .word]

def moveToCcr (w : Opcode) : Layout := sized .move .word [w.address .word, .fixed .ccr]

def moveToSr (w : Opcode) : Layout := sized .move .word [w.address .word, .fixed .sr]

def moveUsp (w : Opcode) : Layout :=
  sized .move .long
    (if w.bit 3 then [.fixed .usp, .addressReg w.reg] else [.addressReg w.reg, .fixed .usp])

def exg (w : Opcode) : Layout :=
  match w.field 3 5 with
  | 0x08 => plain .exg [.dataReg w.upperReg, .dataReg w.reg]
  | 0x09 => plain .exg [.addressReg w.upperReg, .addressReg w.reg]
  | 0x11 => plain .exg [.dataReg w.upperReg, .addressReg w.reg]
  | _ => dataWord w

def swap (w : Opcode) : Layout := plain .swap [.dataReg w.reg]

def lea (w : Opcode) : Layout := plain .lea [w.address .long, .addressReg w.upperReg]

def link (w : Opcode) : Layout := plain .link [.addressReg w.reg, .signedWord]

def unlk (w : Opcode) : Layout := plain .unlk [.addressReg w.reg]

end Mc68000.Layout
