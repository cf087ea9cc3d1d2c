namespace Mc68000.Numeral

def digits (base n : Nat) : List Char := (Nat.toDigits base n).map Char.toUpper

def padded (base width n : Nat) : String :=
  String.ofList ((digits base n).leftpad width '0')

def decimal (n : Nat) : String := padded 10 0 n

def hex (width n : Nat) : String := padded 16 width n

def signedDecimal : Int → String
  | .ofNat n => decimal n
  | .negSucc n => "-" ++ decimal (n + 1)

/-- The characters with the Unicode property `White_Space`. -/
def isBlank (c : Char) : Bool :=
  (0x09 ≤ c.toNat && c.toNat ≤ 0x0D) || (0x2000 ≤ c.toNat && c.toNat ≤ 0x200A) ||
    [0x20, 0x85, 0xA0, 0x1680, 0x2028, 0x2029, 0x202F, 0x205F, 0x3000].contains c.toNat

def trimEnd (cs : List Char) : List Char := (cs.reverse.dropWhile isBlank).reverse

def trim (cs : List Char) : List Char := trimEnd (cs.dropWhile isBlank)

inductive Flaw
  | empty
  | badDigit
  | tooLarge
  deriving DecidableEq

def Flaw.reason : Flaw → String
  | empty => "cannot parse integer from empty string"
  | badDigit => "invalid digit found in string"
  | tooLarge => "number too large to fit in target type"

structure Refusal where
  text : String
  flaw : Flaw
  deriving DecidableEq

def Refusal.message (r : Refusal) : String :=
  "invalid number '" ++ r.text ++ "': " ++ r.flaw.reason

/-- Letters stand for ten and above in either case. -/
def letterValue? (c : Char) : Option Nat :=
  if '0' ≤ c ∧ c ≤ '9' then some (c.toNat - '0'.toNat)
  else if 'a' ≤ c ∧ c ≤ 'z' then some (c.toNat - 'a'.toNat + 10)
  else if 'A' ≤ c ∧ c ≤ 'Z' then some (c.toNat - 'A'.toNat + 10)
  else none

def digitValue? (radix : Nat) (c : Char) : Option Nat :=
  (letterValue? c).filter (· < radix)

/-- Extends the value `n` digit by digit; at each place a bad digit is noticed before the
overflow that place would cause. -/
def extend (radix n : Nat) : List Char → Except Flaw Nat
  | [] => .ok n
  | c :: cs =>
    match digitValue? radix c with
    | none => .error .badDigit
    | some d =>
      if n * radix + d < 0x100000000 then extend radix (n * radix + d) cs else .error .tooLarge

def magnitude (radix : Nat) : List Char → Except Flaw Nat
  | [] => .error .empty
  | '+' :: c :: cs => extend radix 0 (c :: cs)
  | cs => extend radix 0 cs

/-- The radix a text announces, and what follows the announcement. -/
def radixSplit : List Char → Nat × List Char
  | '$' :: cs => (16, cs)
  | '0' :: 'x' :: cs => (16, cs)
  | '0' :: 'X' :: cs => (16, cs)
  | cs => (10, cs)

def read (s : String) : Except Refusal UInt32 :=
  let t := trim s.toList
  match magnitude (radixSplit t).1 (radixSplit t).2 with
  | .ok n => .ok (UInt32.ofNat n)
  | .error f => .error ⟨String.ofList t, f⟩

end Mc68000.Numeral
