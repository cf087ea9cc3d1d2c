import Mc68000.Literal
import Mc68000.Size

namespace Mc68000

inductive Register
  | data (n : Nat)
  | address (n : Nat)
  deriving DecidableEq

def Register.text : Register → String
  | data n => "D" ++ Numeral.decimal n
  | address n => "A" ++ Numeral.decimal n

structure Index where
  register : Register
  size : Size
  displacement : Int8
  deriving DecidableEq

inductive EffectiveAddress
  | dataDirect (n : Nat)
  | addressDirect (n : Nat)
  | indirect (n : Nat)
  | postIncrement (n : Nat)
  | preDecrement (n : Nat)
  | displacement (n : Nat) (d : Int16)
  | indexed (n : Nat) (x : Index)
  | absoluteShort (a : UInt16)
  | absoluteLong (a : UInt32)
  | pcDisplacement (d : Int16)
  | pcIndexed (x : Index)
  | immediate (value : UInt32) (size : Size)
  deriving DecidableEq

open Numeral

def Index.text (x : Index) (base : String) : String :=
  "(" ++ signedDecimal x.displacement.toInt ++ "," ++ base ++ "," ++ x.register.text ++
    x.size.suffix ++ ")"

namespace EffectiveAddress

/-- The two absolute forms differ in their number of digits alone. -/
def text : EffectiveAddress → String
  | dataDirect n => (Register.data n).text
  | addressDirect n => (Register.address n).text
  | indirect n => "(" ++ (Register.address n).text ++ ")"
  | postIncrement n => "(" ++ (Register.address n).text ++ ")+"
  | preDecrement n => "-(" ++ (Register.address n).text ++ ")"
  | displacement n d => "(" ++ signedDecimal d.toInt ++ "," ++ (Register.address n).text ++ ")"
  | indexed n x => x.text (Register.address n).text
  | absoluteShort a => Literal.address a.toUInt32 4
  | absoluteLong a => Literal.address a 8
  | pcDisplacement d => "(" ++ signedDecimal d.toInt ++ ",PC)"
  | pcIndexed x => x.text "PC"
  | immediate v s => "#" ++ Literal.unsigned v s.bytes

end EffectiveAddress

end Mc68000
