import Mc68000.Table

namespace Mc68000

open Layout

variable {α : Type} {F : Family} {w : Opcode} {l : Layout}

theorem Opcode.field_lt (w : Opcode) (i n : Nat) : w.field i n < 1 <<< n := by
  rw [field, Nat.one_shiftLeft]
  exact Nat.mod_lt _ (Nat.two_pow_pos n)

def ShiftKind.ofBits (bits : Nat) : ShiftKind :=
  match bits % 4 with
  | 0 => arithmetic
  | 1 => logical
  | 2 => rotateExtended
  | _ => rotate

theorem ShiftKind.entryAt_all : ∀ {n : Nat}, n < 4 → entryAt all n = .ok (ofBits n)
  | 0, _ | 1, _ | 2, _ | 3, _ => rfl
  | n + 4, h => absurd h (by omega)

def BitAction.ofBits (bits : Nat) : BitAction :=
  match bits % 4 with
  | 0 => test
  | 1 => change
  | 2 => clear
  | _ => set

theorem BitAction.entryAt_all : ∀ {n : Nat}, n < 4 → entryAt all n = .ok (ofBits n)
  | 0, _ | 1, _ | 2, _ | 3, _ => rfl
  | n + 4, h => absurd h (by omega)

namespace Layout

theorem exists_of_bind_eq_ok {x : Except Fault α} {g : α → Layout}
    (h : (do let a ← x; return g a) = .ok l) : ∃ a, x = .ok a ∧ g a = l := by
  cases x with
  | error f => cases h
  | ok a => exact ⟨a, rfl, Except.ok.inj h⟩

theorem bitDynamic_eq (w : Opcode) :
    bitDynamic w = .ok (plain (.bit (BitAction.ofBits (w.field 6 2)))
      [.dataReg w.upperReg, bitTarget w]) := by
  rw [bitDynamic, BitAction.entryAt_all (w.field_lt 6 2)]
  rfl

theorem bitStatic_eq (w : Opcode) :
    bitStatic w = .ok (plain (.bit (BitAction.ofBits (w.field 6 2)))
      [.immediate .byte, bitTarget w]) := by
  rw [bitStatic, BitAction.entryAt_all (w.field_lt 6 2)]
  rfl

theorem shift_eq (w : Opcode) :
    shift w = if w.field 6 2 = 3 then
        .ok (if w.bit 11 then dataWord w
          else sized (.shift (ShiftKind.ofBits (w.field 9 2)) (direction w)) .word
            [w.address .word])
      else do
        return sized (.shift (ShiftKind.ofBits (w.field 3 2)) (direction w)) (← w.size)
          [if w.bit 5 then .dataReg w.upperReg else .fixed (.count w.quick), .dataReg w.reg] := by
  rw [shift, ShiftKind.entryAt_all (w.field_lt 9 2), ShiftKind.entryAt_all (w.field_lt 3 2)]
  by_cases h3 : w.field 6 2 = 3
  · rw [if_pos h3, if_pos h3]
    split <;> rfl
  · rw [if_neg h3, if_neg h3]
    rfl

/-- Data is the bare opcode. -/
def DataOnly (w : Opcode) (l : Layout) : Prop := l.isData = true → l = dataWord w

theorem dataOnly_dataWord (w : Opcode) : DataOnly w (dataWord w) := fun _ ↦ rfl

theorem dataOnly_of_isData_eq_false (h : l.isData = false) : DataOnly w l :=
  fun hd ↦ absurd (h.symm.trans hd) Bool.false_ne_true

theorem dataOnly_ite {c : Prop} [Decidable c] {l' : Layout} (h : DataOnly w l)
    (h' : DataOnly w l') : DataOnly w (if c then l else l') := by
  split
  · exact h
  · exact h'

end Layout

/-- No family calls an opcode data after it has begun to read operands for it. -/
theorem Family.dataOnly_of_layout (h : F.layout w = .ok l) : DataOnly w l := by
  have hdata := dataOnly_dataWord w
  cases F with
  | moveq | movep | moveFromSr | moveToCcr | moveToSr | moveUsp | swap | lea | link | unlk
  | toAddress _ | decimal _ | mulDiv | chk | ext | stop | trap | control _ | dbcc =>
    cases h
    exact dataOnly_of_isData_eq_false rfl
  | immediate _ | extended _ | cmpm | eor | bitDynamic | bitStatic =>
    obtain ⟨a, -, rfl⟩ := exists_of_bind_eq_ok h
    exact dataOnly_of_isData_eq_false rfl
  | movem | alterableByte _ | scc =>
    cases h
    exact dataOnly_ite (dataOnly_of_isData_eq_false rfl) hdata
  | quick =>
    obtain ⟨s, -, rfl⟩ := exists_of_bind_eq_ok h
    exact dataOnly_ite (dataOnly_of_isData_eq_false rfl) hdata
  | move =>
    obtain ⟨s, -, rfl⟩ := exists_of_bind_eq_ok h
    exact dataOnly_ite (dataOnly_ite hdata (dataOnly_of_isData_eq_false rfl))
      (dataOnly_of_isData_eq_false rfl)
  | dyadic _ _ =>
    obtain ⟨s, -, rfl⟩ := exists_of_bind_eq_ok h
    exact dataOnly_ite (dataOnly_ite (dataOnly_of_isData_eq_false rfl) hdata)
      (dataOnly_ite hdata (dataOnly_of_isData_eq_false rfl))
  | exg =>
    cases h
    unfold Layout.exg
    split
    case h_4 => exact hdata
    all_goals exact dataOnly_of_isData_eq_false rfl
  | toCcr =>
    cases h
    unfold Layout.toCcr
    split
    · exact dataOnly_of_isData_eq_false rfl
    · exact hdata
  | toSr =>
    cases h
    unfold Layout.toSr
    split
    · exact dataOnly_of_isData_eq_false rfl
    · exact hdata
  | implied =>
    cases h
    unfold Layout.implied
    split
    · exact dataOnly_of_isData_eq_false rfl
    · exact hdata
  | branch =>
    cases h
    unfold Layout.branch
    dsimp only
    split <;> exact dataOnly_of_isData_eq_false rfl
  | unary =>
    simp only [layout, Layout.unary] at h
    split at h
    · cases h
      exact hdata
    · obtain ⟨s, -, rfl⟩ := exists_of_bind_eq_ok h
      exact dataOnly_ite (dataOnly_of_isData_eq_false rfl) hdata
  | shift =>
    simp only [layout, shift_eq] at h
    split at h
    · cases h
      exact dataOnly_ite hdata (dataOnly_of_isData_eq_false rfl)
    · obtain ⟨s, -, rfl⟩ := exists_of_bind_eq_ok h
      exact dataOnly_of_isData_eq_false rfl

theorem Opcode.dataOnly_of_layout (h : w.layout = .ok l) : DataOnly w l := by
  unfold layout at h
  split at h
  · exact Family.dataOnly_of_layout h
  · cases h
    exact dataOnly_dataWord w

end Mc68000
