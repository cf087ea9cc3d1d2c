import Mc68000.Proofs.Reassembly.Basic
import Mc68000.Table

namespace Mc68000

def Slot.relative : Slot → Bool
  | nearTarget _ => true
  | wordTarget => true
  | longTarget => true
  | _ => false

def Family.branches : Family → Bool
  | branch => true
  | dbcc => true
  | _ => false

namespace Layout

variable {w : Opcode} {m : Mnemonic} {b d : Bool} {σ τ : Slot} {l : Layout}

structure Absolute (l : Layout) : Prop where
  arity : l.slots.length ≤ 2
  absolute : ∀ ρ ∈ l.slots, ρ.relative = false

/-- The last operand is a target, and it has at most one other in front of it. -/
structure Relative (l : Layout) (lead : List Slot) (σ : Slot) : Prop where
  slots : l.slots = lead ++ [σ]
  arity : lead.length ≤ 1
  absolute : ∀ ρ ∈ lead, ρ.relative = false
  relative : σ.relative = true
  swapped : l.swapped = false

theorem absolute_zero : Absolute ⟨m, [], b, d⟩ := ⟨Nat.zero_le 2, nofun⟩

theorem absolute_one (hσ : σ.relative = false) : Absolute ⟨m, [σ], b, d⟩ := by
  refine ⟨Nat.le_succ 1, ?_⟩
  simpa using hσ

theorem absolute_two (hσ : σ.relative = false) (hτ : τ.relative = false) :
    Absolute ⟨m, [σ, τ], b, d⟩ := by
  refine ⟨Nat.le_refl 2, ?_⟩
  simpa using And.intro hσ hτ

theorem absolute_dataWord (w : Opcode) : (dataWord w).Absolute := absolute_one rfl

theorem absolute_ite {c : Prop} [Decidable c] {l' : Layout} (h : l.Absolute) (h' : l'.Absolute) :
    (if c then l else l').Absolute := by
  split
  · exact h
  · exact h'

theorem absolute_ite_slots {c : Prop} [Decidable c] {σs τs : List Slot} 
    (h : Absolute ⟨m, σs, b, d⟩)
    (h' : Absolute ⟨m, τs, b, d⟩) : Absolute ⟨m, if c then σs else τs, b, d⟩ := by
  split
  · exact h
  · exact h'

theorem relative_branch (w : Opcode) : ∃ σ, (branch w).Relative [] σ := by
  unfold branch
  dsimp only
  split
  · exact ⟨.wordTarget, rfl, Nat.zero_le 1, nofun, rfl, rfl⟩
  · exact ⟨.longTarget, rfl, Nat.zero_le 1, nofun, rfl, rfl⟩
  · exact ⟨.nearTarget _, rfl, Nat.zero_le 1, nofun, rfl, rfl⟩

theorem relative_dbcc (w : Opcode) : (dbcc w).Relative [.dataReg w.reg] .wordTarget where
  slots := rfl
  arity := Nat.le_refl 1
  absolute := by
    intro ρ hρ
    rw [List.mem_singleton.mp hρ]
    rfl
  relative := rfl
  swapped := rfl

end Layout

open Layout

namespace Family

variable {F : Family} {w : Opcode} {l : Layout}

/-- No family but the branches lays an opcode out with a target, whether the opcode is one of its
own or not. -/
theorem absolute_of_layout (hF : F.branches = false) (h : F.layout w = .ok l) : l.Absolute := by
  have hdata := absolute_dataWord w
  cases F with
  | branch | dbcc => cases hF
  | moveq | moveFromSr | moveToCcr | moveToSr | lea | link | toAddress _ | mulDiv | chk =>
    cases h
    exact absolute_two rfl rfl
  | swap | unlk | ext | stop | trap | control _ =>
    cases h
    exact absolute_one rfl
  | immediate _ | cmpm | eor | bitDynamic | bitStatic =>
    obtain ⟨a, -, rfl⟩ := exists_of_bind_eq_ok h
    exact absolute_two rfl rfl
  | movep | moveUsp | decimal _ =>
    cases h
    exact absolute_ite_slots (absolute_two rfl rfl) (absolute_two rfl rfl)
  | extended _ =>
    obtain ⟨s, -, rfl⟩ := exists_of_bind_eq_ok h
    exact absolute_ite_slots (absolute_two rfl rfl) (absolute_two rfl rfl)
  | movem =>
    cases h
    exact absolute_ite (absolute_two rfl rfl) hdata
  | alterableByte _ | scc =>
    cases h
    exact absolute_ite (absolute_one rfl) hdata
  | quick =>
    obtain ⟨s, -, rfl⟩ := exists_of_bind_eq_ok h
    exact absolute_ite (absolute_two rfl rfl) hdata
  | move =>
    obtain ⟨s, -, rfl⟩ := exists_of_bind_eq_ok h
    exact absolute_ite (absolute_ite hdata (absolute_two rfl rfl)) (absolute_two rfl rfl)
  | dyadic _ _ =>
    obtain ⟨s, -, rfl⟩ := exists_of_bind_eq_ok h
    exact absolute_ite (absolute_ite (absolute_two rfl rfl) hdata)
      (absolute_ite hdata (absolute_two rfl rfl))
  | exg =>
    cases h
    unfold Layout.exg
    split
    · exact absolute_two rfl rfl
    · exact absolute_two rfl rfl
    · exact absolute_two rfl rfl
    · exact hdata
  | toCcr =>
    cases h
    unfold Layout.toCcr
    split
    · exact absolute_two rfl rfl
    · exact hdata
  | toSr =>
    cases h
    unfold Layout.toSr
    split
    · exact absolute_two rfl rfl
    · exact hdata
  | implied =>
    cases h
    unfold Layout.implied
    split
    · exact absolute_zero
    · exact hdata
  | unary =>
    simp only [layout, Layout.unary] at h
    split at h
    · cases h
      exact hdata
    · obtain ⟨s, -, rfl⟩ := exists_of_bind_eq_ok h
      exact absolute_ite (absolute_one rfl) hdata
  | shift =>
    simp only [layout, shift_eq] at h
    split at h
    · cases h
      exact absolute_ite hdata (absolute_one rfl)
    · obtain ⟨s, -, rfl⟩ := exists_of_bind_eq_ok h
      exact absolute_two (by split <;> rfl) rfl

theorem relative_of_layout (hF : F.branches = true) (h : F.layout w = .ok l) :
    ∃ lead σ, l.Relative lead σ := by
  cases F with
  | branch =>
    cases h
    exact ⟨[], relative_branch w⟩
  | dbcc =>
    cases h
    exact ⟨_, _, relative_dbcc w⟩
  | _ => cases hF

theorem arity_le (h : F.layout w = .ok l) : l.slots.length ≤ 2 := by
  cases hF : F.branches with
  | false => exact (absolute_of_layout hF h).arity
  | true =>
    obtain ⟨lead, σ, hr⟩ := relative_of_layout hF h
    have hl := hr.arity
    rw [hr.slots, List.length_append, List.length_singleton]
    omega

end Family

end Mc68000
