import Mc68000.Numeral

namespace Mc68000

open Numeral

variable {α : Type}

/-- Why an instruction cannot be decoded. Bytes that end too early and fields without a meaning are
faults of the input; `outOfRange` is a failed access to a table or to the bytes. -/
inductive Fault
  | insufficientData (needed available : Nat)
  | invalidMode (mode reg : Nat)
  | invalidSize (bits : Nat)
  | outOfRange (index length : Nat)
  deriving DecidableEq

def Fault.message : Fault → String
  | insufficientData n a => "need " ++ decimal n ++ " bytes, only " ++ decimal a ++ " available"
  | invalidMode m r => "invalid addressing mode " ++ decimal m ++ "." ++ decimal r
  | invalidSize b => "invalid size field %" ++ padded 2 2 b
  | outOfRange i n => "index " ++ decimal i ++ " out of range for length " ++ decimal n

/-- Counts a shortage from a point `n` bytes earlier. -/
def Fault.rebase (n : Nat) : Fault → Fault
  | insufficientData needed available => insufficientData (needed + n) (available + n)
  | f => f

def entryAt (table : List α) (i : Nat) : Except Fault α :=
  match table[i]? with
  | some a => .ok a
  | none => .error (.outOfRange i table.length)

def bytesFrom (bytes : List UInt8) (n : Nat) : Except Fault (List UInt8) :=
  if n ≤ bytes.length then .ok (bytes.drop n) else .error (.outOfRange n bytes.length)

def bytesUpTo (bytes : List UInt8) (n : Nat) : Except Fault (List UInt8) :=
  if n ≤ bytes.length then .ok (bytes.take n) else .error (.outOfRange n bytes.length)

theorem bytesFrom_min (bytes : List UInt8) (n : Nat) :
    bytesFrom bytes (min n bytes.length) = .ok (bytes.drop n) := by
  rw [bytesFrom, if_pos (Nat.min_le_right n bytes.length)]
  rcases Nat.le_total n bytes.length with h | h
  · rw [Nat.min_eq_left h]
  · rw [Nat.min_eq_right h, List.drop_length, List.drop_of_length_le h]

theorem bytesUpTo_of_le {bytes : List UInt8} {n : Nat} (h : n ≤ bytes.length) :
    bytesUpTo bytes n = .ok (bytes.take n) := if_pos h

/-- A fault and the instruction it belongs to; the opcode is missing where not even its word could
be read. -/
structure DecodeError where
  address : UInt32
  opcode : Option UInt16
  fault : Fault
  deriving DecidableEq

def DecodeError.message (e : DecodeError) : String :=
  "at $" ++ hex 8 e.address.toNat ++
    (match e.opcode with
      | some w => " (opcode $" ++ hex 4 w.toNat ++ ")"
      | none => "") ++
    ": " ++ e.fault.message

end Mc68000
