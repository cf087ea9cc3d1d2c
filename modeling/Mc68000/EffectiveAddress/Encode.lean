import Mc68000.EffectiveAddress.Decode

namespace Mc68000

def splitWord (w : UInt16) : List UInt8 := [UInt8.ofNat (w.toNat >>> 8), UInt8.ofNat w.toNat]

def splitLong (l : UInt32) : List UInt16 := [UInt16.ofNat (l.toNat >>> 16), UInt16.ofNat l.toNat]

/-- The word of an index with its three bits without meaning left clear. -/
def Index.toWord (x : Index) : UInt16 :=
  let (kind, n) :=
    match x.register with
    | .data n => (0, n)
    | .address n => (1, n)
  UInt16.ofNat (kind <<< 15 + n <<< 12 + (if x.size = .long then 0x800 else 0) +
    x.displacement.toUInt8.toNat)

/-- Registers are numbered below 8, and an index is at least a word wide. -/
def Index.WellFormed (x : Index) : Prop :=
  (match x.register with
    | .data n => n < 8
    | .address n => n < 8) ∧ x.size ≠ .byte

namespace EffectiveAddress

def mode : EffectiveAddress → Nat
  | dataDirect _ => 0
  | addressDirect _ => 1
  | indirect _ => 2
  | postIncrement _ => 3
  | preDecrement _ => 4
  | displacement _ _ => 5
  | indexed _ _ => 6
  | _ => 7

def reg : EffectiveAddress → Nat
  | dataDirect n => n
  | addressDirect n => n
  | indirect n => n
  | postIncrement n => n
  | preDecrement n => n
  | displacement n _ => n
  | indexed n _ => n
  | absoluteShort _ => 0
  | absoluteLong _ => 1
  | pcDisplacement _ => 2
  | pcIndexed _ => 3
  | immediate _ _ => 4

def extensionWords : EffectiveAddress → List UInt16
  | displacement _ d => [d.toUInt16]
  | indexed _ x => [x.toWord]
  | absoluteShort a => [a]
  | absoluteLong a => splitLong a
  | pcDisplacement d => [d.toUInt16]
  | pcIndexed x => [x.toWord]
  | immediate v .long => splitLong v
  | immediate v _ => [v.toUInt16]
  | _ => []

def extensionBytes (a : EffectiveAddress) : List UInt8 := a.extensionWords.flatMap splitWord

def WellFormed (size : Size) : EffectiveAddress → Prop
  | indexed n x => n < 8 ∧ x.WellFormed
  | pcIndexed x => x.WellFormed
  | immediate v s => s = size ∧ v.toNat < 1 <<< (8 * s.bytes)
  | a => a.reg < 8

end EffectiveAddress

end Mc68000
