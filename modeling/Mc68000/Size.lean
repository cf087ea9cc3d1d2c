import Mc68000.Fault

namespace Mc68000

inductive Size
  | byte
  | word
  | long
  deriving DecidableEq

namespace Size

def suffix : Size → String
  | byte => ".B"
  | word => ".W"
  | long => ".L"

def bytes : Size → Nat
  | byte => 1
  | word => 2
  | long => 4

/-- A byte among the extension words still takes a whole word. -/
def words : Size → Nat
  | byte => 1
  | word => 1
  | long => 2

def ofBits (bits : Nat) : Except Fault Size :=
  match bits % 4 with
  | 0 => .ok byte
  | 1 => .ok word
  | 2 => .ok long
  | b => .error (.invalidSize b)

/-- MOVE has a size field of its own. -/
def ofMoveBits (bits : Nat) : Except Fault Size :=
  match bits % 4 with
  | 1 => .ok byte
  | 3 => .ok word
  | 2 => .ok long
  | b => .error (.invalidSize b)

end Size

end Mc68000
