import Mc68000.Condition
import Mc68000.Size

namespace Mc68000

inductive ShiftKind
  | arithmetic
  | logical
  | rotateExtended
  | rotate
  deriving DecidableEq

inductive Direction
  | left
  | right
  deriving DecidableEq

inductive BitAction
  | test
  | change
  | clear
  | set
  deriving DecidableEq

/-- What an instruction does. `dc` stands for a word that is no instruction. -/
inductive Operation
  | move | movea | moveq | movem | movep | exg | lea | pea | link | unlk | swap
  | add | adda | addi | addq | addx | sub | suba | subi | subq | subx
  | mulu | muls | divu | divs | neg | negx | clr | tst | ext | chk
  | cmp | cmpa | cmpi | cmpm | abcd | sbcd | nbcd
  | and | andi | or | ori | eor | eori | not | tas
  | shift (kind : ShiftKind) (direction : Direction)
  | bit (action : BitAction)
  | bra | bsr | jsr | jmp
  | bcc (condition : Condition)
  | dbcc (condition : Condition)
  | scc (condition : Condition)
  | nop | rts | rte | rtr | reset | trapv | trap | illegal | stop
  | dc
  deriving DecidableEq

def ShiftKind.name : ShiftKind → String
  | arithmetic => "AS"
  | logical => "LS"
  | rotateExtended => "ROX"
  | rotate => "RO"

/-- In the order of the field that selects one. -/
def ShiftKind.all : List ShiftKind := [arithmetic, logical, rotateExtended, rotate]

def Direction.name : Direction → String
  | left => "L"
  | right => "R"

def BitAction.name : BitAction → String
  | test => "BTST"
  | change => "BCHG"
  | clear => "BCLR"
  | set => "BSET"

/-- In the order of the field that selects one. -/
def BitAction.all : List BitAction := [test, change, clear, set]

def Operation.name : Operation → String
  | move => "MOVE"
  | movea => "MOVEA"
  | moveq => "MOVEQ"
  | movem => "MOVEM"
  | movep => "MOVEP"
  | exg => "EXG"
  | lea => "LEA"
  | pea => "PEA"
  | link => "LINK"
  | unlk => "UNLK"
  | swap => "SWAP"
  | add => "ADD"
  | adda => "ADDA"
  | addi => "ADDI"
  | addq => "ADDQ"
  | addx => "ADDX"
  | sub => "SUB"
  | suba => "SUBA"
  | subi => "SUBI"
  | subq => "SUBQ"
  | subx => "SUBX"
  | mulu => "MULU"
  | muls => "MULS"
  | divu => "DIVU"
  | divs => "DIVS"
  | neg => "NEG"
  | negx => "NEGX"
  | clr => "CLR"
  | tst => "TST"
  | ext => "EXT"
  | chk => "CHK"
  | cmp => "CMP"
  | cmpa => "CMPA"
  | cmpi => "CMPI"
  | cmpm => "CMPM"
  | abcd => "ABCD"
  | sbcd => "SBCD"
  | nbcd => "NBCD"
  | and => "AND"
  | andi => "ANDI"
  | or => "OR"
  | ori => "ORI"
  | eor => "EOR"
  | eori => "EORI"
  | not => "NOT"
  | tas => "TAS"
  | shift k d => k.name ++ d.name
  | bit a => a.name
  | bra => "BRA"
  | bsr => "BSR"
  | jsr => "JSR"
  | jmp => "JMP"
  | bcc c => "B" ++ c.suffix
  | dbcc c => "DB" ++ c.suffix
  | scc c => "S" ++ c.suffix
  | nop => "NOP"
  | rts => "RTS"
  | rte => "RTE"
  | rtr => "RTR"
  | reset => "RESET"
  | trapv => "TRAPV"
  | trap => "TRAP"
  | illegal => "ILLEGAL"
  | stop => "STOP"
  | dc => "DC"

/-- The mark behind an operation's name; branches write their reach the way others write a size. -/
inductive Suffix
  | plain
  | sized (size : Size)
  | short
  deriving DecidableEq

def Suffix.text : Suffix → String
  | plain => ""
  | sized s => s.suffix
  | short => ".S"

def Suffix.mark (s : Suffix) (name : String) : String := name ++ s.text

structure Mnemonic where
  operation : Operation
  suffix : Suffix
  deriving DecidableEq

def Mnemonic.text (m : Mnemonic) : String := m.suffix.mark m.operation.name

end Mc68000
