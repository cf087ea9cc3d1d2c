import Mc68000.Instruction

namespace Mc68000.Json

open Numeral

/-- A character as it stands between the quotes of a JSON string. -/
def escape (c : Char) : String :=
  if c = '"' then "\\\""
  else if c = '\\' then "\\\\"
  else if c.toNat = 0x08 then "\\b"
  else if c.toNat = 0x0C then "\\f"
  else if c = '\n' then "\\n"
  else if c = '\r' then "\\r"
  else if c = '\t' then "\\t"
  else if c.toNat < 0x20 then "\\u00" ++ String.ofList ((Nat.toDigits 16 c.toNat).leftpad 2 '0')
  else c.toString

def string (s : String) : String := "\"" ++ String.join (s.toList.map escape) ++ "\""

def newline (depth : Nat) : String := "\n" ++ String.ofList (List.replicate (2 * depth) ' ')

/-- Items between brackets, one on a line and one step further in; no items leave no lines. -/
def block (left right : String) (depth : Nat) (items : List String) : String :=
  if items.isEmpty then left ++ right
  else left ++ newline (depth + 1) ++ ("," ++ newline (depth + 1)).intercalate items ++
    newline depth ++ right

def array (depth : Nat) (items : List String) : String := block "[" "]" depth items

def object (depth : Nat) (fields : List (String × String)) : String :=
  block "\x7b" "\x7d" depth (fields.map (fun f ↦ string f.1 ++ ": " ++ f.2))

def instruction (depth : Nat) (i : Instruction) : String :=
  object depth
    [("address", decimal i.address.toNat),
      ("opcode", decimal i.opcode.toNat),
      ("mnemonic", string i.mnemonic),
      ("operands", string i.operands),
      ("size", decimal i.size),
      ("raw_bytes", array (depth + 1) (i.bytes.map (fun b ↦ decimal b.toNat)))]

def instructions (is : List Instruction) : String := array 0 (is.map (instruction 1))

end Mc68000.Json
