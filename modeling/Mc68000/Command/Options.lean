import Mc68000.Numeral

namespace Mc68000.Command

structure Options where
  input : String
  base : UInt32
  offset : UInt32
  length : Option UInt32
  output : Option String
  showHex : Bool
  json : Bool
  verbose : Bool

inductive Flag
  | noHex
  | json
  | verbose
  deriving DecidableEq

inductive Setting
  | base
  | offset
  | length
  | output
  deriving DecidableEq

inductive Key
  | flag (f : Flag)
  | setting (s : Setting)

def Key.ofLong? : String → Option Key
  | "no-hex" => some (.flag .noHex)
  | "json" => some (.flag .json)
  | "verbose" => some (.flag .verbose)
  | "base" => some (.setting .base)
  | "offset" => some (.setting .offset)
  | "length" => some (.setting .length)
  | "output" => some (.setting .output)
  | _ => none

def Key.ofShort? : Char → Option Key
  | 'v' => some (.flag .verbose)
  | 'b' => some (.setting .base)
  | 'l' => some (.setting .length)
  | 'o' => some (.setting .output)
  | _ => none

structure Draft where
  inputs : List String
  flags : List Flag
  settings : List (Setting × String)

namespace Draft

def empty : Draft := ⟨[], [], []⟩

def addInput (d : Draft) (s : String) : Draft := { d with inputs := d.inputs ++ [s] }

/-- A flag can be given once. -/
def addFlag? (d : Draft) (f : Flag) : Option Draft :=
  if f ∈ d.flags then none else some { d with flags := f :: d.flags }

def addSetting? (d : Draft) (s : Setting) (value : String) : Option Draft :=
  if (d.settings.lookup s).isSome then none
  else some { d with settings := (s, value) :: d.settings }

def number? (d : Draft) (s : Setting) : Option (Option UInt32) :=
  match d.settings.lookup s with
  | none => some none
  | some v => (Numeral.read v).toOption.map some

def options? (d : Draft) : Option Options := do
  let [input] := d.inputs | none
  return {
    input := input
    base := (← d.number? .base).getD 0
    offset := (← d.number? .offset).getD 0
    length := ← d.number? .length
    output := d.settings.lookup .output
    showHex := .noHex ∉ d.flags
    json := .json ∈ d.flags
    verbose := .verbose ∈ d.flags }

end Draft

inductive Pending
  | done (d : Draft)
  | value (d : Draft) (s : Setting)

/-- Flags may stand together behind one dash, the last place may be a setting's, and what follows
that is its value, with or without an equals sign between. -/
def cluster? (d : Draft) : List Char → Option Pending
  | [] => some (.done d)
  | c :: cs =>
    match Key.ofShort? c with
    | none => none
    | some (.flag f) => (d.addFlag? f).bind (fun d ↦ cluster? d cs)
    | some (.setting s) =>
      match cs with
      | [] => some (.value d s)
      | '=' :: v => (d.addSetting? s (String.ofList v)).map .done
      | v => (d.addSetting? s (String.ofList v)).map .done

def long? (d : Draft) (cs : List Char) : Option Pending :=
  let name := cs.takeWhile (· ≠ '=')
  match Key.ofLong? (String.ofList name), cs.drop name.length with
  | some (.flag f), [] => (d.addFlag? f).map .done
  | some (.setting s), [] => some (.value d s)
  | some (.setting s), _ :: v => (d.addSetting? s (String.ofList v)).map .done
  | _, _ => none

def looksLikeOption (s : String) : Bool :=
  match s.toList with
  | '-' :: _ :: _ => true
  | _ => false

def argument? (d : Draft) (a : String) : Option Pending :=
  match a.toList with
  | '-' :: '-' :: cs => long? d cs
  | '-' :: c :: cs => cluster? d (c :: cs)
  | _ => some (.done (d.addInput a))

def arguments? (d : Draft) : List String → Option Draft
  | [] => some d
  | a :: as =>
    if a = "--" then some (as.foldl Draft.addInput d)
    else
      match argument? d a, as with
      | none, _ => none
      | some (.done d), as => arguments? d as
      | some (.value _ _), [] => none
      | some (.value d s), v :: as =>
        if looksLikeOption v then none
        else (d.addSetting? s v).bind (fun d ↦ arguments? d as)

/-- Reads a command line; `none` when it is not well formed. -/
def Options.parse? (args : List String) : Option Options :=
  (arguments? Draft.empty args).bind Draft.options?

end Mc68000.Command
