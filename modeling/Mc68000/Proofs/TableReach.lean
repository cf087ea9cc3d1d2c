import Mc68000.Proofs.TableLabel

namespace Mc68000

open Layout

variable {d e : Entry} {w mask value : UInt16}

theorem accepts_of_before (h : resolve w = some e) (hd : d ∈ table.takeWhile (· ≠ e)) :
    d.pattern.accepts w = false := by
  obtain ⟨-, before, after, ht, hb⟩ := List.find?_eq_some_iff_append.mp h
  have hmem : d ∈ before := by
    rw [ht, List.takeWhile_append] at hd
    split at hd
    · simpa using hd
    · exact List.takeWhile_subset _ hd
  simpa using hb d hmem

theorem and_or_eq {mask' value' : UInt16} (h : w &&& mask = value) (h' : w &&& mask' = value') :
    w &&& (mask ||| mask') = value ||| value' := by
  rw [← h, ← h']
  exact UInt16.toBitVec_inj.mp BitVec.and_or_distrib_left

namespace Entry

/-- What is known of a word that the entry gets and that has the bits of `value` in the places of
`mask`. -/
def narrowed (e : Entry) (mask value : UInt16) : Pattern :=
  ⟨e.pattern.mask ||| mask, e.pattern.value ||| value, e.pattern.name⟩

/-- Whether no word with the bits of `value` in the places of `mask` is left for the entry: it does
not accept them, or an entry before it accepts them all. -/
def lacks (e : Entry) (mask value : UInt16) : Bool :=
  !e.pattern.agrees mask value ||
    (table.takeWhile (· ≠ e)).any
      (fun d ↦ (e.narrowed mask value).demands d.pattern.mask d.pattern.value)

theorem and_ne_of_lacks (h : resolve w = some e) (hl : e.lacks mask value) :
    w &&& mask ≠ value := by
  intro hw
  have ha := accepts_of_resolve h
  rw [lacks, Bool.or_eq_true] at hl
  rcases hl with hl | hl
  · rw [Pattern.agrees_of_accepts hw (Pattern.accepts_iff.mpr ha)] at hl
    cases hl
  · obtain ⟨d, hd, hdem⟩ := List.any_eq_true.mp hl
    have hn : (e.narrowed mask value).accepts w := Pattern.accepts_iff.mpr (and_or_eq ha hw)
    have hacc := Pattern.accepts_iff.mpr (Pattern.and_of_demands hn hdem)
    rw [accepts_of_before h hd] at hacc
    cases hacc

end Entry

theorem table_operations : ∀ e ∈ table, (e.family, e.pattern.name) ∈ openLabels ∨
    e.pattern.mask &&& e.family.selector = e.family.selector ∧
      e.family.operations e.pattern.value ≠ [] ∧ .dc ∉ e.family.operations e.pattern.value := by
  decide

/-- Every word that an entry gets names an operation of its family, and that is not the one which
stands for data. -/
theorem operations_of_resolve (h : resolve w = some e) :
    e.family.operations w ≠ [] ∧ .dc ∉ e.family.operations w := by
  have hbranch : ∀ c, branchOperation c ≠ .dc := by
    intro c
    cases c <;> decide
  rcases table_operations e (List.mem_of_find?_eq_some h) with hl | ⟨hs, hop⟩
  · simp only [openLabels, List.mem_cons, Prod.mk.injEq, List.not_mem_nil, or_false] at hl
    obtain ⟨hF, -⟩ | ⟨hF, -⟩ | ⟨hF, -⟩ | ⟨hF, -⟩ := hl
    · simp [hF, Family.operations, (hbranch _).symm]
    · simp [hF, Family.operations]
    · simp [hF, Family.operations]
    · simp [hF, Family.operations]
  · rwa [operations_eq_of_resolve h hs]

theorem exists_of_toList_ne_nil {o : Option Operation} (h : o.toList ≠ []) :
    ∃ op, o = some op ∧ op ∈ o.toList := by
  cases o with
  | none => exact absurd rfl h
  | some op => exact ⟨op, rfl, List.mem_singleton_self op⟩

def Family.sized : Family → Bool
  | dyadic _ _ => true
  | immediate _ => true
  | extended _ => true
  | quick => true
  | cmpm => true
  | unary => true
  | eor => true
  | _ => false

def Family.keepsUnsized : Family → Bool
  | immediate _ => true
  | unary => true
  | _ => false

/-- The upper ten bits of these words. -/
def unsized : List UInt16 := [0x00C0, 0x02C0, 0x04C0, 0x06C0, 0x0AC0, 0x0CC0, 0x42C0]

def unsizedLabels : List String := ["ORI", "ANDI", "SUBI", "ADDI", "EORI", "CMPI", "CLR"]

/-- Most of the families lose their words without a size to earlier entries. In some lines there is
one such entry for either value of bit 8. -/
theorem table_sized : ∀ e ∈ table, e.family.sized →
    (e.lacks 0x1C0 0x0C0 ∧ e.lacks 0x1C0 0x1C0) ∨
      e.family.keepsUnsized ∧ e.pattern.mask = 0xFF00 ∧ e.pattern.value ||| 0xC0 ∈ unsized := by
  decide +kernel

theorem table_unsized : unsized.all fun v ↦ Opcode.field v 6 2 = 3 ∧
    (∀ d ∈ table, d.pattern.agrees 0xFFC0 v → d.family.sized ∧ d.pattern.name ∈ unsizedLabels) ∧
    ∃ d ∈ table, d.pattern.mask &&& 0xFFC0 = d.pattern.mask ∧
      v &&& d.pattern.mask = d.pattern.value := by
  decide

namespace Opcode

theorem and_eq_of_field_three (h : Opcode.field w 6 2 = 3) :
    w &&& 0x1C0 = 0x0C0 ∨ w &&& 0x1C0 = 0x1C0 := by
  have h8 := Opcode.field_lt w 8 1
  have h63 : Opcode.field w 6 3 = 3 + 4 * Opcode.field w 8 1 := by
    simp only [field, Nat.one_shiftLeft] at h ⊢
    omega
  rcases (show Opcode.field w 8 1 = 0 ∨ Opcode.field w 8 1 = 1 by omega) with hb | hb
  · exact .inl (and_of_field (i := 6) (n := 3) rfl (by rw [h63, hb]; rfl))
  · exact .inr (and_of_field (i := 6) (n := 3) rfl (by rw [h63, hb]; rfl))

theorem unsized_of_field_three (h : resolve w = some e) (hs : e.family.sized)
    (h3 : Opcode.field w 6 2 = 3) : e.family.keepsUnsized ∧ w &&& 0xFFC0 ∈ unsized := by
  rcases table_sized e (List.mem_of_find?_eq_some h) hs with ⟨hl, hl'⟩ | ⟨hk, hm, hv⟩
  · rcases and_eq_of_field_three h3 with hw | hw
    · exact absurd hw (Entry.and_ne_of_lacks h hl)
    · exact absurd hw (Entry.and_ne_of_lacks h hl')
  · have hhigh : w &&& 0xFF00 = e.pattern.value := hm ▸ accepts_of_resolve h
    have hlow : w &&& 0x00C0 = 0x00C0 := and_of_field (i := 6) (n := 2) rfl (by rw [h3]; rfl)
    exact ⟨hk, and_or_eq hhigh hlow ▸ hv⟩

theorem resolve_of_unsized (h : w &&& 0xFFC0 ∈ unsized) :
    Opcode.field w 6 2 = 3 ∧
      ∃ e, resolve w = some e ∧ e.family.sized ∧ e.pattern.name ∈ unsizedLabels := by
  obtain ⟨h3, hsized, d, hd, hm, hv⟩ :=
    of_decide_eq_true (List.all_eq_true.mp table_unsized _ h)
  refine ⟨field_of_and rfl rfl h3, ?_⟩
  have ha : d.pattern.accepts w := by
    rw [Pattern.accepts_iff, ← hv, UInt16.and_assoc, UInt16.and_comm 0xFFC0, hm]
  have hsome : (resolve w).isSome := List.find?_isSome.mpr ⟨d, hd, ha⟩
  obtain ⟨e, he⟩ := Option.isSome_iff_exists.mp hsome
  have hacc : e.pattern.accepts w := Pattern.accepts_iff.mpr (accepts_of_resolve he)
  exact ⟨e, he, hsized e (List.mem_of_find?_eq_some he) (Pattern.agrees_of_accepts rfl hacc)⟩

theorem size_of_field_three (h : Opcode.field w 6 2 = 3) :
    Opcode.size w = .error (.invalidSize 3) := by
  simp [size, Size.ofBits, h]

theorem exists_size (h : Opcode.field w 6 2 ≠ 3) :
    ∃ s, Opcode.size w = .ok s ∧ (s = .byte ↔ Opcode.field w 6 2 = 0) := by
  have hlt := Opcode.field_lt w 6 2
  generalize hk : Opcode.field w 6 2 = k at h hlt ⊢
  have hsizes : ∀ k < 4, k ≠ 3 → ∃ s, Size.ofBits k = .ok s ∧ (s = .byte ↔ k = 0) := by
    intro k hk h3
    have : k = 0 ∨ k = 1 ∨ k = 2 := by omega
    rcases this with rfl | rfl | rfl
    · exact ⟨.byte, rfl, by decide⟩
    · exact ⟨.word, rfl, by decide⟩
    · exact ⟨.long, rfl, by decide⟩
  rw [size, hk]
  exact hsizes k hlt h

end Opcode

end Mc68000
