import Mc68000.EffectiveAddress.Basic

namespace Mc68000

/-- The registers that one instruction saves or restores, as the word that selects them. Bit `i`
of the word stands for register `i` of D0 to D7, A0 to A7, or for register `15 - i` when the order
is reversed. -/
structure RegisterList where
  mask : UInt16
  reversed : Bool
  deriving DecidableEq

namespace RegisterList

def selects (l : RegisterList) (i : Nat) : Bool :=
  l.mask.toNat.testBit (if l.reversed then 15 - i else i)

def dataNumbers (l : RegisterList) : List Nat := (List.range 8).filter l.selects

def addressNumbers (l : RegisterList) : List Nat :=
  (List.range 8).filter (fun i ↦ l.selects (8 + i))

def registers (l : RegisterList) : List Register :=
  l.dataNumbers.map .data ++ l.addressNumbers.map .address

def consRun (n : Nat) : List (Nat × Nat) → List (Nat × Nat)
  | (a, b) :: rs => if n + 1 = a then (n, b) :: rs else (n, n) :: (a, b) :: rs
  | [] => [(n, n)]

/-- The maximal runs of neighbours in an ascending list, each as its first and last member. -/
def runs (ns : List Nat) : List (Nat × Nat) := ns.foldr consRun []

def runText (r : Nat → Register) (run : Nat × Nat) : String :=
  if run.1 = run.2 then (r run.1).text else (r run.1).text ++ "-" ++ (r run.2).text

def text (l : RegisterList) : String :=
  "/".intercalate ((runs l.dataNumbers).map (runText .data) ++
    (runs l.addressNumbers).map (runText .address))

end RegisterList

end Mc68000
