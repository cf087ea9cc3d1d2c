import Mc68000.Numeral

namespace Mc68000.Literal

open Numeral

/-- An unsigned value stored in `width` bytes: decimal below 100, else hexadecimal with two digits
a byte. Only the low bytes are written for the widths 1 and 2, and any other width than 1, 2
and 4 is written without padding. -/
def unsigned (value : UInt32) (width : Nat) : String :=
  if value.toNat < 100 then decimal value.toNat
  else match width with
    | 1 => "$" ++ hex 2 (value.toNat % 0x100)
    | 2 => "$" ++ hex 4 (value.toNat % 0x10000)
    | 4 => "$" ++ hex 8 value.toNat
    | _ => "$" ++ hex 0 value.toNat

def signed : Int → String
  | .ofNat n => if n < 100 then decimal n else "$" ++ hex 0 n
  | .negSucc n => "-$" ++ hex 0 (n + 1)

def address (value : UInt32) (width : Nat) : String := "$" ++ hex width value.toNat

end Mc68000.Literal
