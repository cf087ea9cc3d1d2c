import Mc68000.Command.Options
import Mc68000.Json
import Mc68000.Listing

namespace Mc68000.Command

open Numeral

structure Outcome where
  status : Nat
  stdout : String
  stderr : String
  written : Option (String × String)
  deriving DecidableEq

/-- Files as the program sees them: the content under a path, and the reason why a path cannot be
written if there is one. -/
structure Volume where
  read : String → Except String (List UInt8)
  obstacle : String → Option String

def missing : String := "No such file or directory (os error 2)"

def Volume.ofFile (name : String) (content : List UInt8) : Volume where
  read path := if path = name then .ok content else .error missing
  obstacle path := if path.isEmpty ∨ '/' ∈ path.toList then some missing else none

structure Report where
  log : String
  text : String
  failure : Option DecodeError

namespace Options

def fail (message : String) : Outcome := ⟨1, "", message ++ "\n", none⟩

def stop (o : Options) (available : Nat) : Nat :=
  match o.length with
  | some n => min (o.offset.toNat + n.toNat) available
  | none => available

def window (o : Options) (data : List UInt8) : List UInt8 :=
  (data.take (o.stop data.length)).drop o.offset.toNat

def heading (o : Options) (available : Nat) : String :=
  o.input ++ ": " ++ decimal available ++ " bytes, decoding file offsets $" ++
    hex 0 o.offset.toNat ++ "-$" ++ hex 0 (o.stop available) ++ " at base $" ++
    hex 8 o.base.toNat ++ "\n"

def render (o : Options) (instructions : List Instruction) : String :=
  if o.json then Json.instructions instructions ++ "\n" else listing instructions o.showHex

def report (o : Options) (data : List UInt8) : Report :=
  let (decoded, failure) :=
    match decodeRange (o.window data) o.base with
    | .ok is => (is, none)
    | .error e => (e.decoded, some e.error)
  { log := if o.verbose then o.heading data.length ++ familyReport decoded else ""
    text := o.render decoded
    failure := failure }

def prepare (o : Options) : Except String (List UInt8) → Except Outcome Report
  | .error reason => .error (fail ("Error reading '" ++ o.input ++ "': " ++ reason))
  | .ok data =>
    if data.length < o.offset.toNat then
      .error (fail ("Offset " ++ decimal o.offset.toNat ++ " is past the end of '" ++ o.input ++
        "' (" ++ decimal data.length ++ " bytes)"))
    else .ok (o.report data)

def deliver (o : Options) (r : Report) : Outcome :=
  { status := if r.failure.isSome then 1 else 0
    stdout := if o.output.isSome then "" else r.text
    stderr := r.log ++
      (match r.failure with
        | some e => "Error decoding '" ++ o.input ++ "': " ++ e.message ++ "\n"
        | none => "")
    written := o.output.map (fun path ↦ (path, r.text)) }

def abandon (r : Report) (path reason : String) : Outcome :=
  ⟨1, "", r.log ++ "Error writing '" ++ path ++ "': " ++ reason ++ "\n", none⟩

def run (o : Options) (v : Volume) : Outcome :=
  match o.prepare (v.read o.input) with
  | .error outcome => outcome
  | .ok r =>
    match o.output.bind (fun path ↦ (v.obstacle path).map (fun reason ↦ (path, reason))) with
    | some (path, reason) => abandon r path reason
    | none => o.deliver r

end Options

end Mc68000.Command
