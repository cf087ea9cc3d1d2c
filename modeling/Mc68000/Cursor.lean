import Mc68000.EffectiveAddress.Decode

namespace Mc68000

variable {α : Type}

/-- A place in the bytes of one instruction, counted in the extension words read so far. The first
two bytes hold the opcode, and the cursor never stands before their end. -/
structure Cursor where
  bytes : List UInt8
  address : UInt32
  words : Nat

namespace Cursor

def start (bytes : List UInt8) (address : UInt32) : Cursor := ⟨bytes, address, 0⟩

def position (c : Cursor) : Nat := 2 + 2 * c.words

def pc (c : Cursor) : UInt32 := c.address + UInt32.ofNat c.position

def rest (c : Cursor) : List UInt8 := c.bytes.drop c.position

def advance (c : Cursor) (n : Nat) : Cursor := { c with words := c.words + n }

theorem two_le_position (c : Cursor) : 2 ≤ c.position := Nat.le_add_right 2 _

theorem position_advance (c : Cursor) (n : Nat) :
    (c.advance n).position = c.position + 2 * n := by
  simp only [position, advance]
  omega

end Cursor

/-- Reads on from a cursor; a fault leaves the cursor where the failing step began. -/
abbrev Decoder := EStateM Fault Cursor

namespace Decoder

def take (x : Extension α) : Decoder α := fun c ↦
  match x.read c.rest with
  | some a => .ok a (c.advance x.words)
  | none => .error (.insufficientData (c.position + 2 * x.words) c.bytes.length) c

def word : Decoder UInt16 := take (.word id)

def long : Decoder UInt32 := take (.long id)

def immediate (size : Size) : Decoder UInt32 := take size.immediate

/-- A shortage is counted from the start of the instruction. -/
def effectiveAddress (mode reg : Nat) (size : Size) : Decoder EffectiveAddress := fun c ↦
  match bytesFrom c.bytes (min c.position c.bytes.length) with
  | .ok rest =>
    match EffectiveAddress.decode rest mode reg size with
    | .ok (a, n) => .ok a (c.advance n)
    | .error f => .error (f.rebase c.position) c
  | .error f => .error f c

theorem effectiveAddress_eq (mode reg : Nat) (size : Size) (c : Cursor) :
    effectiveAddress mode reg size c =
      match EffectiveAddress.decode c.rest mode reg size with
      | .ok (a, n) => .ok a (c.advance n)
      | .error f => .error (f.rebase c.position) c := by
  rw [effectiveAddress, bytesFrom_min]
  rfl

end Decoder

end Mc68000
