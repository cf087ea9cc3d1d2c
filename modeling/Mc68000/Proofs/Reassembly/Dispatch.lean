import Mc68000.Table
import Mc68000.Proofs.Reassembly.Arithmetic
import Mc68000.Proofs.Reassembly.Control
import Mc68000.Proofs.Reassembly.Logic
import Mc68000.Proofs.Reassembly.Movement

namespace Mc68000

variable {w : Opcode} {l : Layout}

namespace Family

/-- The bits that all words of a family share. -/
def mask : Family → UInt16
  | move => 0xC000
  | moveq => 0xF100
  | movem => 0xFB80
  | movep => 0xF138
  | moveFromSr => 0xFFC0
  | moveToCcr => 0xFFC0
  | moveToSr => 0xFFC0
  | moveUsp => 0xFFF0
  | exg => 0xF100
  | swap => 0xFFF8
  | lea => 0xF1C0
  | link => 0xFFF8
  | unlk => 0xFFF8
  | dyadic _ _ => 0xF000
  | toAddress _ => 0xF0C0
  | immediate _ => 0xFF00
  | extended _ => 0xF130
  | decimal _ => 0xF1F0
  | alterableByte _ => 0xFFC0
  | quick => 0xF000
  | cmpm => 0xF138
  | mulDiv => 0xB0C0
  | chk => 0xF1C0
  | ext => 0xFFB8
  | unary => 0xF000
  | eor => 0xF100
  | toCcr => 0xF1FF
  | toSr => 0xF1FF
  | bitDynamic => 0xF100
  | bitStatic => 0xFF00
  | shift => 0xF000
  | implied => 0x0000
  | stop => 0xFFFF
  | trap => 0xFFF0
  | control _ => 0xFFC0
  | branch => 0xF000
  | dbcc => 0xF0F8
  | scc => 0xF0C0

def code : Family → UInt16
  | move => 0x0000
  | moveq => 0x7000
  | movem => 0x4880
  | movep => 0x0108
  | moveFromSr => 0x40C0
  | moveToCcr => 0x44C0
  | moveToSr => 0x46C0
  | moveUsp => 0x4E60
  | exg => 0xC100
  | swap => 0x4840
  | lea => 0x41C0
  | link => 0x4E50
  | unlk => 0x4E58
  | dyadic op _ => UInt16.ofNat op.code
  | toAddress op => UInt16.ofNat op.code
  | immediate op => UInt16.ofNat op.code
  | extended op => UInt16.ofNat op.code
  | decimal op => UInt16.ofNat op.code
  | alterableByte op => UInt16.ofNat op.code
  | quick => 0x5000
  | cmpm => 0xB108
  | mulDiv => 0x80C0
  | chk => 0x4180
  | ext => 0x4880
  | unary => 0x4000
  | eor => 0xB100
  | toCcr => 0x003C
  | toSr => 0x007C
  | bitDynamic => 0x0100
  | bitStatic => 0x0800
  | shift => 0xE000
  | implied => 0x0000
  | stop => 0x4E72
  | trap => 0x4E40
  | control op => UInt16.ofNat op.code
  | branch => 0x6000
  | dbcc => 0x50C8
  | scc => 0x50C0

def proper : Family → Bool
  | dyadic op _ => op ∈ Operation.dyadics
  | toAddress op => op ∈ Operation.toAddresses
  | immediate op => op ∈ Operation.immediates
  | extended op => op ∈ Operation.extendeds
  | decimal op => op ∈ Operation.decimals
  | alterableByte op => op ∈ Operation.alterableBytes
  | control op => op ∈ Operation.controls
  | _ => true

def Admits (f : Family) (w : Opcode) : Prop := w &&& f.mask = f.code

open Layout

theorem faithful {f : Family} (h : f.Admits w) (hp : f.proper) (hl : f.layout w = .ok l) :
    Faithful w l := by
  cases f with
  | move => exact faithful_move h hl
  | moveq =>
    cases hl
    exact faithful_moveq h
  | movem =>
    cases hl
    exact faithful_movem h
  | movep =>
    cases hl
    exact faithful_movep h
  | moveFromSr =>
    cases hl
    exact faithful_moveFromSr h
  | moveToCcr =>
    cases hl
    exact faithful_moveToCcr h
  | moveToSr =>
    cases hl
    exact faithful_moveToSr h
  | moveUsp =>
    cases hl
    exact faithful_moveUsp h
  | exg =>
    cases hl
    exact faithful_exg h
  | swap =>
    cases hl
    exact faithful_swap h
  | lea =>
    cases hl
    exact faithful_lea h
  | link =>
    cases hl
    exact faithful_link h
  | unlk =>
    cases hl
    exact faithful_unlk h
  | quick => exact faithful_quick h hl
  | cmpm => exact faithful_cmpm h hl
  | mulDiv =>
    cases hl
    exact faithful_mulDiv h
  | chk =>
    cases hl
    exact faithful_chk h
  | ext =>
    cases hl
    exact faithful_ext h
  | unary => exact faithful_unary h hl
  | eor => exact faithful_eor h hl
  | toCcr =>
    cases hl
    exact faithful_toCcr h
  | toSr =>
    cases hl
    exact faithful_toSr h
  | bitDynamic => exact faithful_bitDynamic h hl
  | bitStatic => exact faithful_bitStatic h hl
  | shift => exact faithful_shift h hl
  | stop =>
    cases hl
    exact faithful_stop h
  | trap =>
    cases hl
    exact faithful_trap h
  | branch =>
    cases hl
    exact faithful_branch h
  | dbcc =>
    cases hl
    exact faithful_dbcc h
  | scc =>
    cases hl
    exact faithful_scc h
  | implied =>
    cases hl
    exact faithful_implied w
  | dyadic op b => exact faithful_dyadic (of_decide_eq_true hp) h hl
  | immediate op => exact faithful_immediate (of_decide_eq_true hp) h hl
  | extended op => exact faithful_extended (of_decide_eq_true hp) h hl
  | toAddress op =>
    cases hl
    exact faithful_toAddress (of_decide_eq_true hp) h
  | decimal op =>
    cases hl
    exact faithful_decimal (of_decide_eq_true hp) h
  | alterableByte op =>
    cases hl
    exact faithful_alterableByte (of_decide_eq_true hp) h
  | control op =>
    cases hl
    exact faithful_control (of_decide_eq_true hp) h

end Family

/-- Every entry of the table selects words of its own family. -/
theorem table_sound : ∀ e ∈ table, e.pattern.mask &&& e.family.mask = e.family.mask ∧
    e.pattern.value &&& e.family.mask = e.family.code ∧ e.family.proper := by
  decide +kernel

theorem admits_of_resolve {e : Entry} (h : resolve w = some e) :
    e.family.Admits w ∧ e.family.proper := by
  obtain ⟨hm, hc, hp⟩ := table_sound e (List.mem_of_find?_eq_some h)
  have ha : w &&& e.pattern.mask = e.pattern.value := by
    simpa [Pattern.accepts] using List.find?_some h
  refine ⟨?_, hp⟩
  rw [Family.Admits, ← hm, ← UInt16.and_assoc, ha, hc]

open Layout

/-- Every layout that an opcode has can be assembled back to that opcode. -/
theorem Opcode.faithful (h : w.layout = .ok l) : Faithful w l := by
  unfold Opcode.layout at h
  cases he : resolve w with
  | none =>
    simp only [he] at h
    cases h
    exact faithful_dataWord w
  | some e =>
    simp only [he] at h
    obtain ⟨ha, hp⟩ := admits_of_resolve he
    exact Family.faithful ha hp h

end Mc68000
