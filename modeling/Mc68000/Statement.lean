import Mc68000.EffectiveAddress.Basic
import Mc68000.Operation
import Mc68000.RegisterList

namespace Mc68000

open Numeral

inductive Operand
  | address (a : EffectiveAddress)
  | signed (value : Int)
  | count (n : Nat)
  | registers (l : RegisterList)
  | target (a : UInt32) (width : Nat)
  | datum (w : UInt16)
  | ccr
  | sr
  | usp
  deriving DecidableEq

def Operand.text : Operand → String
  | address a => a.text
  | signed v => "#" ++ Literal.signed v
  | count n => "#" ++ decimal n
  | registers l => l.text
  | target a k => Literal.address a k
  | datum w => "$" ++ hex 4 w.toNat
  | ccr => "CCR"
  | sr => "SR"
  | usp => "USP"

def joinOperands (operands : List String) : String := ", ".intercalate operands

structure Statement where
  mnemonic : Mnemonic
  operands : List Operand
  deriving DecidableEq

def Statement.operandText (s : Statement) : String := joinOperands (s.operands.map Operand.text)

end Mc68000
