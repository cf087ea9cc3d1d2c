import Mc68000.Family

namespace Mc68000

/-- Accepts the words that have the bits of `value` in the places of `mask`. -/
structure Pattern where
  mask : UInt16
  value : UInt16
  name : String
  deriving DecidableEq

namespace Pattern

def accepts (p : Pattern) (w : Opcode) : Bool := w &&& p.mask == p.value

/-- The name is one of the table, so nothing in it needs an escape. -/
def describe (p : Pattern) : String :=
  "OpcodePattern \x7b mask: " ++ Numeral.hex 4 p.mask.toNat ++ ", value: " ++
    Numeral.hex 4 p.value.toNat ++ ", name: \"" ++ p.name ++ "\" \x7d"

end Pattern

structure Entry where
  pattern : Pattern
  family : Family
  deriving DecidableEq

/-- The instruction set. Narrow patterns stand before the wider ones that overlap them. -/
def table : List Entry :=
  [ ⟨⟨0xFFFF, 0x4E71, "NOP"⟩, .implied⟩,
    ⟨⟨0xFFFF, 0x4E75, "RTS"⟩, .implied⟩,
    ⟨⟨0xFFFF, 0x4E73, "RTE"⟩, .implied⟩,
    ⟨⟨0xFFFF, 0x4E77, "RTR"⟩, .implied⟩,
    ⟨⟨0xFFFF, 0x4E70, "RESET"⟩, .implied⟩,
    ⟨⟨0xFFFF, 0x4E76, "TRAPV"⟩, .implied⟩,
    ⟨⟨0xFFFF, 0x4AFC, "ILLEGAL"⟩, .implied⟩,
    ⟨⟨0xFFFF, 0x4E72, "STOP"⟩, .stop⟩,
    ⟨⟨0xFFFF, 0x003C, "ORI to CCR"⟩, .toCcr⟩,
    ⟨⟨0xFFFF, 0x023C, "ANDI to CCR"⟩, .toCcr⟩,
    ⟨⟨0xFFFF, 0x0A3C, "EORI to CCR"⟩, .toCcr⟩,
    ⟨⟨0xFFFF, 0x007C, "ORI to SR"⟩, .toSr⟩,
    ⟨⟨0xFFFF, 0x027C, "ANDI to SR"⟩, .toSr⟩,
    ⟨⟨0xFFFF, 0x0A7C, "EORI to SR"⟩, .toSr⟩,
    ⟨⟨0xFFF0, 0x4E40, "TRAP"⟩, .trap⟩,
    ⟨⟨0xFFF8, 0x4E50, "LINK"⟩, .link⟩,
    ⟨⟨0xFFF8, 0x4E58, "UNLK"⟩, .unlk⟩,
    ⟨⟨0xFFF0, 0x4E60, "MOVE USP"⟩, .moveUsp⟩,
    ⟨⟨0xFFF8, 0x4840, "SWAP"⟩, .swap⟩,
    ⟨⟨0xFFB8, 0x4880, "EXT"⟩, .ext⟩,
    ⟨⟨0xFB80, 0x4880, "MOVEM"⟩, .movem⟩,
    ⟨⟨0xFFC0, 0x40C0, "MOVE from SR"⟩, .moveFromSr⟩,
    ⟨⟨0xFFC0, 0x44C0, "MOVE to CCR"⟩, .moveToCcr⟩,
    ⟨⟨0xFFC0, 0x46C0, "MOVE to SR"⟩, .moveToSr⟩,
    ⟨⟨0xFFC0, 0x4AC0, "TAS"⟩, .alterableByte .tas⟩,
    ⟨⟨0xFF00, 0x4200, "CLR"⟩, .unary⟩,
    ⟨⟨0xFF00, 0x4400, "NEG"⟩, .unary⟩,
    ⟨⟨0xFF00, 0x4000, "NEGX"⟩, .unary⟩,
    ⟨⟨0xFF00, 0x4600, "NOT"⟩, .unary⟩,
    ⟨⟨0xFF00, 0x4A00, "TST"⟩, .unary⟩,
    ⟨⟨0xFFC0, 0x4800, "NBCD"⟩, .alterableByte .nbcd⟩,
    ⟨⟨0xFFC0, 0x4840, "PEA"⟩, .control .pea⟩,
    ⟨⟨0xFFC0, 0x4E80, "JSR"⟩, .control .jsr⟩,
    ⟨⟨0xFFC0, 0x4EC0, "JMP"⟩, .control .jmp⟩,
    ⟨⟨0xF1C0, 0x41C0, "LEA"⟩, .lea⟩,
    ⟨⟨0xF1C0, 0x4180, "CHK"⟩, .chk⟩,
    ⟨⟨0xF000, 0x6000, "Bcc"⟩, .branch⟩,
    ⟨⟨0xF0F8, 0x50C8, "DBcc"⟩, .dbcc⟩,
    ⟨⟨0xF0C0, 0x50C0, "Scc"⟩, .scc⟩,
    ⟨⟨0xF100, 0x5000, "ADDQ"⟩, .quick⟩,
    ⟨⟨0xF100, 0x5100, "SUBQ"⟩, .quick⟩,
    ⟨⟨0xF1C0, 0xC0C0, "MULU"⟩, .mulDiv⟩,
    ⟨⟨0xF1C0, 0xC1C0, "MULS"⟩, .mulDiv⟩,
    ⟨⟨0xF1C0, 0x80C0, "DIVU"⟩, .mulDiv⟩,
    ⟨⟨0xF1C0, 0x81C0, "DIVS"⟩, .mulDiv⟩,
    ⟨⟨0xF138, 0x0108, "MOVEP"⟩, .movep⟩,
    ⟨⟨0xF1C0, 0x0100, "BTST"⟩, .bitDynamic⟩,
    ⟨⟨0xF1C0, 0x0140, "BCHG"⟩, .bitDynamic⟩,
    ⟨⟨0xF1C0, 0x0180, "BCLR"⟩, .bitDynamic⟩,
    ⟨⟨0xF1C0, 0x01C0, "BSET"⟩, .bitDynamic⟩,
    ⟨⟨0xFFC0, 0x0800, "BTST"⟩, .bitStatic⟩,
    ⟨⟨0xFFC0, 0x0840, "BCHG"⟩, .bitStatic⟩,
    ⟨⟨0xFFC0, 0x0880, "BCLR"⟩, .bitStatic⟩,
    ⟨⟨0xFFC0, 0x08C0, "BSET"⟩, .bitStatic⟩,
    ⟨⟨0xF1F0, 0xC100, "ABCD"⟩, .decimal .abcd⟩,
    ⟨⟨0xF1F0, 0x8100, "SBCD"⟩, .decimal .sbcd⟩,
    ⟨⟨0xF1F8, 0xC140, "EXG"⟩, .exg⟩,
    ⟨⟨0xF1F8, 0xC148, "EXG"⟩, .exg⟩,
    ⟨⟨0xF1F8, 0xC188, "EXG"⟩, .exg⟩,
    ⟨⟨0xF0C0, 0xD0C0, "ADDA"⟩, .toAddress .adda⟩,
    ⟨⟨0xF0C0, 0x90C0, "SUBA"⟩, .toAddress .suba⟩,
    ⟨⟨0xF0C0, 0xB0C0, "CMPA"⟩, .toAddress .cmpa⟩,
    ⟨⟨0xF130, 0xD100, "ADDX"⟩, .extended .addx⟩,
    ⟨⟨0xF130, 0x9100, "SUBX"⟩, .extended .subx⟩,
    ⟨⟨0xF138, 0xB108, "CMPM"⟩, .cmpm⟩,
    ⟨⟨0xF100, 0xB100, "EOR"⟩, .eor⟩,
    ⟨⟨0xFF00, 0x0600, "ADDI"⟩, .immediate .addi⟩,
    ⟨⟨0xFF00, 0x0400, "SUBI"⟩, .immediate .subi⟩,
    ⟨⟨0xFF00, 0x0200, "ANDI"⟩, .immediate .andi⟩,
    ⟨⟨0xFF00, 0x0000, "ORI"⟩, .immediate .ori⟩,
    ⟨⟨0xFF00, 0x0A00, "EORI"⟩, .immediate .eori⟩,
    ⟨⟨0xFF00, 0x0C00, "CMPI"⟩, .immediate .cmpi⟩,
    ⟨⟨0xF100, 0x7000, "MOVEQ"⟩, .moveq⟩,
    ⟨⟨0xF000, 0x1000, "MOVE"⟩, .move⟩,
    ⟨⟨0xF000, 0x2000, "MOVE"⟩, .move⟩,
    ⟨⟨0xF000, 0x3000, "MOVE"⟩, .move⟩,
    ⟨⟨0xF000, 0x8000, "OR"⟩, .dyadic .or false⟩,
    ⟨⟨0xF000, 0x9000, "SUB"⟩, .dyadic .sub true⟩,
    ⟨⟨0xF000, 0xB000, "CMP"⟩, .dyadic .cmp true⟩,
    ⟨⟨0xF000, 0xC000, "AND"⟩, .dyadic .and false⟩,
    ⟨⟨0xF000, 0xD000, "ADD"⟩, .dyadic .add true⟩,
    ⟨⟨0xF000, 0xE000, "SHIFT"⟩, .shift⟩ ]

def resolve (w : Opcode) : Option Entry := table.find? (fun e ↦ e.pattern.accepts w)

/-- Words that no entry accepts are data. -/
def Opcode.layout (w : Opcode) : Except Fault Layout :=
  match resolve w with
  | some e => e.family.layout w
  | none => .ok (.dataWord w)

end Mc68000
