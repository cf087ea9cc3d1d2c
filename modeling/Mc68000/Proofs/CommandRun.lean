import Mc68000.Command.Run
import Mc68000.Proofs.CommandLine
import Mc68000.Proofs.RangeWalk

namespace Mc68000.Command

def failureOf : Except RangeError (List Instruction) → Option DecodeError
  | .ok _ => none
  | .error e => some e.error

namespace Options

variable {o : Options} {v v' : Volume} {data : List UInt8} {path reason : String}

theorem report_eq (o : Options) (data : List UInt8) :
    o.report data =
      { log := if o.verbose then o.heading data.length ++
          familyReport (decodedBy (decodeRange (o.window data) o.base)) else ""
        text := o.render (decodedBy (decodeRange (o.window data) o.base))
        failure := failureOf (decodeRange (o.window data) o.base) } := by
  unfold report
  cases decodeRange (o.window data) o.base <;> rfl

/-- Nothing keeps the text from the place where it belongs. -/
def Writable (o : Options) (v : Volume) : Prop :=
  ∀ path, o.output = some path → v.obstacle path = none

def settle (o : Options) (v : Volume) (r : Report) : Outcome :=
  match o.output.bind (fun path ↦ (v.obstacle path).map (fun reason ↦ (path, reason))) with
  | some (path, reason) => abandon r path reason
  | none => o.deliver r

theorem run_of_read (hr : v.read o.input = .ok data) (hk : o.offset.toNat ≤ data.length) :
    o.run v = o.settle v (o.report data) := by
  simp only [run, hr, prepare, if_neg (Nat.not_lt.mpr hk)]
  rfl

theorem run_past_end (hr : v.read o.input = .ok data) (hk : data.length < o.offset.toNat) :
    ∃ message, o.run v = fail message := by
  simp only [run, hr, prepare, if_pos hk]
  exact ⟨_, rfl⟩

theorem settle_of_obstacle (ho : o.output = some path) (hp : v.obstacle path = some reason)
    (r : Report) : o.settle v r = abandon r path reason := by
  simp only [settle, ho, hp, Option.bind_some, Option.map_some]

theorem settle_of_writable (h : o.Writable v) (r : Report) : o.settle v r = o.deliver r := by
  have hn : o.output.bind (fun path ↦ (v.obstacle path).map (fun reason ↦ (path, reason))) =
      none := by
    rw [Option.bind_eq_none_iff]
    intro path ho
    rw [h path ho, Option.map_none]
  simp only [settle, hn]

theorem writable_or (o : Options) (v : Volume) :
    o.Writable v ∨ ∃ path reason, o.output = some path ∧ v.obstacle path = some reason := by
  by_cases h : o.Writable v
  · exact .inl h
  · simp only [Writable, not_forall] at h
    obtain ⟨path, ho, hp⟩ := h
    obtain ⟨reason, hp⟩ := Option.ne_none_iff_exists'.mp hp
    exact .inr ⟨path, reason, ho, hp⟩

section Window

end Window

section Output

theorem run_of_obstacle (hr : v.read o.input = .ok data) (hk : o.offset.toNat ≤ data.length)
    (ho : o.output = some path) (hp : v.obstacle path = some reason) :
    o.run v = abandon (o.report data) path reason := by
  rw [run_of_read hr hk, settle_of_obstacle ho hp]

theorem run_of_writable (hr : v.read o.input = .ok data) (hk : o.offset.toNat ≤ data.length)
    (hw : o.Writable v) : o.run v = o.deliver (o.report data) := by
  rw [run_of_read hr hk, settle_of_writable hw]

end Output

end Options

end Mc68000.Command
