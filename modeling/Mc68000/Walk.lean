import Mc68000.Decode

namespace Mc68000

def totalSize (is : List Instruction) : Nat := is.foldr (fun i n ↦ i.size + n) 0

/-- A walk that stopped early, with what it had decoded by then. -/
structure RangeError where
  decoded : List Instruction
  error : DecodeError
  deriving DecidableEq

namespace RangeError

def consumed (e : RangeError) : Nat := totalSize e.decoded

def message (e : RangeError) : String :=
  "decoding stopped after " ++ Numeral.decimal e.decoded.length ++ " instructions: " ++
    e.error.message

end RangeError

def consDecoded (i : Instruction) :
    Except RangeError (List Instruction) → Except RangeError (List Instruction)
  | .ok is => .ok (i :: is)
  | .error e => .error { e with decoded := i :: e.decoded }

theorem length_sub_size_lt {bytes : List UInt8} {address : UInt32} {i : Instruction}
    (h : decodeInstruction bytes address = .ok i) (hb : bytes ≠ []) :
    bytes.length - i.size < bytes.length := by
  have := two_le_size h
  have := List.length_pos_iff.mpr hb
  omega

def decodeRange (bytes : List UInt8) (address : UInt32) :
    Except RangeError (List Instruction) :=
  if hb : bytes = [] then .ok []
  else
    match h : decodeInstruction bytes address with
    | .ok i =>
      have := length_sub_size_lt h hb
      consDecoded i (decodeRange (bytes.drop i.size) i.nextAddress)
    | .error e => .error ⟨[], e⟩
termination_by bytes.length

/-- A walk in single steps. It ends with the bytes or with the first error. -/
structure Walker where
  rest : List UInt8
  start : UInt32
  offset : Nat
  failed : Bool

namespace Walker

def ofBytes (bytes : List UInt8) (start : UInt32) : Walker := ⟨bytes, start, 0, false⟩

def next (k : Walker) : Option (Except DecodeError Instruction) × Walker :=
  if k.failed ∨ k.rest = [] then (none, k)
  else
    match decodeInstruction k.rest (k.start + UInt32.ofNat k.offset) with
    | .ok i => (some (.ok i), { k with rest := k.rest.drop i.size, offset := k.offset + i.size })
    | .error e => (some (.error e), { k with failed := true })

def steps : Nat → Walker → List (Except DecodeError Instruction) × Walker
  | 0, k => ([], k)
  | n + 1, k =>
    match k.next with
    | (none, k') => ([], k')
    | (some r, k') => (r :: (steps n k').1, (steps n k').2)

/-- No walk has more steps than one for each byte and one for an error. -/
def drain (k : Walker) : List (Except DecodeError Instruction) × Walker :=
  steps (k.rest.length + 1) k

end Walker

end Mc68000
