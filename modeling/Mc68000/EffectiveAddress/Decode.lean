import Mc68000.EffectiveAddress.Basic
import Mc68000.Extension

namespace Mc68000

/-- Bits 10 to 8 of the word carry no meaning. -/
def Index.ofWord (w : UInt16) : Index where
  register :=
    if w.toNat.testBit 15 then .address ((w.toNat >>> 12) % 8) else .data ((w.toNat >>> 12) % 8)
  size := if w.toNat.testBit 11 then .long else .word
  displacement := w.toUInt8.toInt8

namespace EffectiveAddress

/-- The address that a mode and a register field stand for, given the extension words it still
needs. Both fields have three bits; the last three registers of mode 7 are undefined. -/
def form? (mode reg : Nat) (size : Size) : Option (Extension EffectiveAddress) :=
  match mode % 8, reg % 8 with
  | 0, r => some (.absent (dataDirect r))
  | 1, r => some (.absent (addressDirect r))
  | 2, r => some (.absent (indirect r))
  | 3, r => some (.absent (postIncrement r))
  | 4, r => some (.absent (preDecrement r))
  | 5, r => some (.word (fun w ↦ displacement r w.toInt16))
  | 6, r => some (.word (fun w ↦ indexed r (Index.ofWord w)))
  | 7, 0 => some (.word absoluteShort)
  | 7, 1 => some (.long absoluteLong)
  | 7, 2 => some (.word (fun w ↦ pcDisplacement w.toInt16))
  | 7, 3 => some (.word (fun w ↦ pcIndexed (Index.ofWord w)))
  | 7, 4 => some (size.immediate.map (fun v ↦ immediate v size))
  | _, _ => none

def decode (bytes : List UInt8) (mode reg : Nat) (size : Size) :
    Except Fault (EffectiveAddress × Nat) :=
  match form? mode reg size with
  | none => .error (.invalidMode 7 (reg % 8))
  | some x =>
    match x.read bytes with
    | some a => .ok (a, x.words)
    | none => .error (.insufficientData (2 * x.words) bytes.length)

end EffectiveAddress

end Mc68000
