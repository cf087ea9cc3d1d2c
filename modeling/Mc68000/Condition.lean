namespace Mc68000

inductive Condition
  | t
  | f
  | hi
  | ls
  | cc
  | cs
  | ne
  | eq
  | vc
  | vs
  | pl
  | mi
  | ge
  | lt
  | gt
  | le
  deriving DecidableEq

namespace Condition

def ofBits (bits : Nat) : Condition :=
  match bits % 16 with
  | 0 => t
  | 1 => f
  | 2 => hi
  | 3 => ls
  | 4 => cc
  | 5 => cs
  | 6 => ne
  | 7 => eq
  | 8 => vc
  | 9 => vs
  | 10 => pl
  | 11 => mi
  | 12 => ge
  | 13 => lt
  | 14 => gt
  | _ => le

def suffix : Condition → String
  | t => "T"
  | f => "F"
  | hi => "HI"
  | ls => "LS"
  | cc => "CC"
  | cs => "CS"
  | ne => "NE"
  | eq => "EQ"
  | vc => "VC"
  | vs => "VS"
  | pl => "PL"
  | mi => "MI"
  | ge => "GE"
  | lt => "LT"
  | gt => "GT"
  | le => "LE"

end Condition

end Mc68000
