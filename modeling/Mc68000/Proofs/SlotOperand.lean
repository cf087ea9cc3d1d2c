import Mc68000.EffectiveAddress.Encode
import Mc68000.Proofs.OperandText
import Mc68000.Proofs.SlotReading

namespace Mc68000

variable {α : Type}

/-- The values that an extension can take, whatever words follow. -/
def Extension.Gives : Extension α → α → Prop
  | absent a, v => v = a
  | word f, v => ∃ w, v = f w
  | long f, v => ∃ l, v = f l

theorem Extension.gives_of_read {x : Extension α} {bs : List UInt8} {v : α}
    (h : x.read bs = some v) : x.Gives v := by
  cases x with
  | absent a => exact (Option.some.inj h).symm
  | word f =>
    obtain ⟨a, b, _, -, rfl⟩ := exists_of_read_word h
    exact ⟨joinBytes a b, rfl⟩
  | long f =>
    obtain ⟨a, b, c, d, _, -, rfl⟩ := exists_of_read_long h
    exact ⟨joinWords (joinBytes a b) (joinBytes c d), rfl⟩

theorem Index.wellFormed_ofWord (w : UInt16) : (Index.ofWord w).WellFormed := by
  have hn : (w.toNat >>> 12) % 8 < 8 := Nat.mod_lt _ (by decide)
  unfold Index.WellFormed Index.ofWord
  refine ⟨?_, ?_⟩
  · by_cases h : w.toNat.testBit 15 <;> simpa [h] using hn
  · by_cases h : w.toNat.testBit 11 <;> simp [h]

theorem Size.lt_of_gives_immediate {s : Size} {v : UInt32} (h : s.immediate.Gives v) :
    v.toNat < 1 <<< (8 * s.bytes) := by
  cases s with
  | byte =>
    obtain ⟨w, rfl⟩ := h
    rw [UInt32.toNat_ofNat']
    simp only [bytes]
    omega
  | word =>
    obtain ⟨w, rfl⟩ := h
    exact w.toNat_lt
  | long => exact v.toNat_lt

theorem Extension.exists_of_gives_map {β : Type} {g : α → β} {x : Extension α} {v : β}
    (h : (x.map g).Gives v) : ∃ u, x.Gives u ∧ v = g u := by
  cases x with
  | absent a => exact ⟨a, rfl, h⟩
  | word f =>
    obtain ⟨w, rfl⟩ := h
    exact ⟨f w, ⟨w, rfl⟩, rfl⟩
  | long f =>
    obtain ⟨l, rfl⟩ := h
    exact ⟨f l, ⟨l, rfl⟩, rfl⟩

namespace EffectiveAddress

variable {m r : Nat} {s : Size} {a : EffectiveAddress}

theorem fields_of_form {x : Extension EffectiveAddress} (h : form? m r s = some x)
    (ha : x.Gives a) : a.mode = m % 8 ∧ a.reg = r % 8 ∧ a.WellFormed s := by
  have hr : r % 8 < 8 := Nat.mod_lt _ (by decide)
  unfold form? at h
  generalize m % 8 = k at h ⊢
  generalize r % 8 = j at h hr ⊢
  split at h <;> cases h
  case h_12 =>
    obtain ⟨v, hv, rfl⟩ := Extension.exists_of_gives_map ha
    exact ⟨rfl, rfl, rfl, Size.lt_of_gives_immediate hv⟩
  case h_7 =>
    obtain ⟨w, rfl⟩ := ha
    exact ⟨rfl, rfl, hr, Index.wellFormed_ofWord w⟩
  case h_11 =>
    obtain ⟨w, rfl⟩ := ha
    exact ⟨rfl, rfl, Index.wellFormed_ofWord w⟩
  case h_6 | h_8 | h_9 | h_10 =>
    obtain ⟨w, rfl⟩ := ha
    exact ⟨rfl, rfl, hr⟩
  all_goals
    cases ha
    exact ⟨rfl, rfl, hr⟩

end EffectiveAddress

namespace Slot

/-- The operands that a slot at the address `pc` can have. -/
def Yields (pc : UInt32) : Slot → Operand → Prop
  | fixed p, o => o = p
  | address m r s, o => ∃ a, o = .address a ∧ a.mode = m % 8 ∧ a.reg = r % 8 ∧ a.WellFormed s
  | immediate s, o => ∃ v, o = .address (.immediate v s) ∧ v.toNat < 1 <<< (8 * s.bytes)
  | signedWord, o => ∃ v, o = .signed v
  | displaced r, o => ∃ d, o = .address (.displacement r d)
  | registers b, o => ∃ w, o = .registers ⟨w, b⟩
  | nearTarget d, o => o = .target (pc + d.toInt32.toUInt32) 4
  | wordTarget, o => ∃ t, o = .target t 4
  | longTarget, o => ∃ t, o = .target t 8

theorem yields_of_operandAt {σ : Slot} {pc : UInt32} {bs : List UInt8} {o : Operand}
    (h : σ.operandAt pc bs = some o) : σ.Yields pc o := by
  have hg : ∃ x, σ.form pc = .ok x ∧ x.Gives o := by
    unfold operandAt at h
    cases hx : σ.form pc with
    | error f => simp [hx] at h
    | ok x =>
      simp only [hx] at h
      exact ⟨x, rfl, Extension.gives_of_read h⟩
  obtain ⟨x, hx, ho⟩ := hg
  cases σ with
  | address m r s =>
    cases hy : EffectiveAddress.form? m r s with
    | none => simp [form, hy] at hx
    | some y =>
      simp only [form, hy, Except.ok.injEq] at hx
      subst hx
      obtain ⟨a, ha, rfl⟩ := Extension.exists_of_gives_map ho
      exact ⟨a, rfl, EffectiveAddress.fields_of_form hy ha⟩
  | immediate s =>
    cases hx
    obtain ⟨v, hv, rfl⟩ := Extension.exists_of_gives_map ho
    exact ⟨v, rfl, Size.lt_of_gives_immediate hv⟩
  | fixed p | nearTarget d =>
    cases hx
    exact ho
  | _ =>
    cases hx
    obtain ⟨w, rfl⟩ := ho
    exact ⟨_, rfl⟩

end Slot

namespace Layout

theorem yields_of_one {σ : Slot} {pc : UInt32} {bs : List UInt8} {os : List Operand}
    (h : operandsAt [σ] pc bs = some os) : ∃ o, os = [o] ∧ σ.Yields pc o := by
  obtain ⟨o, os', ho, hn, rfl⟩ := operandsAt_cons.mp h
  cases hn
  exact ⟨o, rfl, Slot.yields_of_operandAt ho⟩

theorem yields_of_two {σ τ : Slot} {pc : UInt32} {bs : List UInt8} {os : List Operand}
    (h : operandsAt [σ, τ] pc bs = some os) :
    ∃ o p pc', os = [o, p] ∧ σ.Yields pc o ∧ τ.Yields pc' p := by
  obtain ⟨o, os', ho, hos, rfl⟩ := operandsAt_cons.mp h
  obtain ⟨p, rfl, hp⟩ := yields_of_one hos
  exact ⟨o, p, _, rfl, Slot.yields_of_operandAt ho, hp⟩

end Layout

def Operation.Ordinary (op : Operation) (arity : Nat) : Prop :=
  op.registerKind = .address ∧ op.pointerKind = .address ∧ op.literalKind arity = .address

instance (op : Operation) (arity : Nat) : Decidable (op.Ordinary arity) :=
  inferInstanceAs (Decidable (_ ∧ _ ∧ _))

namespace Operand

variable {m : Mnemonic} {texts : List String}

attribute [local simp] Operand.kind Operand.text Operation.kindOf EffectiveAddress.lead
  EffectiveAddress.mode

theorem meant_address {a : EffectiveAddress}
    (hr : m.operation.registerKind = .address ∨ 2 ≤ a.mode)
    (hp : m.operation.pointerKind = .address ∨ a.mode < 7)
    (hi : ∀ v s, a = .immediate v s → m.operation.literalKind texts.length = .address ∧
      s = m.immediateSize ∧ v.toNat < 1 <<< (8 * s.bytes)) : (address a).Meant m texts where
  kind := by
    rw [text, a.head_text]
    cases a with
    | immediate v s => simp [hi v s rfl]
    | _ => simp_all
  immediate v s ha := (hi v s (address.inj ha)).2
  width := nofun
  order := nofun

theorem meant_of_mode_lt {a : EffectiveAddress} (ha : a.mode < 7)
    (hr : m.operation.registerKind = .address ∨ 2 ≤ a.mode) : (address a).Meant m texts := by
  refine meant_address hr (.inr ha) ?_
  intro v s h
  rw [h] at ha
  cases Nat.lt_irrefl 7 ha

theorem meant_dataDirect {n : Nat} (hr : m.operation.registerKind = .address) :
    (address (.dataDirect n)).Meant m texts :=
  meant_of_mode_lt (show 0 < 7 by decide) (.inl hr)

theorem meant_addressDirect {n : Nat} (hr : m.operation.registerKind = .address) :
    (address (.addressDirect n)).Meant m texts :=
  meant_of_mode_lt (show 1 < 7 by decide) (.inl hr)

theorem meant_of_kind {o : Operand}
    (hk : o.kind = m.operation.kindOf texts.length o.text.toList.head?)
    (ha : o.kind ≠ .address) (hr : o.kind ≠ .registers) (ht : o.kind ≠ .target) :
    o.Meant m texts where
  kind := hk
  immediate := by
    rintro v s rfl
    exact absurd rfl ha
  width := by
    rintro t k rfl
    exact absurd rfl ht
  order := by
    rintro l rfl
    exact absurd rfl hr

theorem meant_signed {v : Int} (h : m.operation.literalKind texts.length = .signed) :
    (signed v).Meant m texts :=
  meant_of_kind (by simp [h]) nofun nofun nofun

theorem meant_count {n : Nat} (h : m.operation.literalKind texts.length = .count) :
    (count n).Meant m texts :=
  meant_of_kind (by simp [h]) nofun nofun nofun

theorem meant_datum {w : UInt16} (h : m.operation.pointerKind = .datum) :
    (datum w).Meant m texts :=
  meant_of_kind (by simp [h]) nofun nofun nofun

theorem meant_ccr : ccr.Meant m texts :=
  meant_of_kind (by simp) nofun nofun nofun

theorem meant_sr : sr.Meant m texts :=
  meant_of_kind (by simp) nofun nofun nofun

theorem meant_usp : usp.Meant m texts :=
  meant_of_kind (by simp) nofun nofun nofun

theorem meant_target {t : UInt32} {k : Nat} (h : m.operation.pointerKind = .target)
    (hk : k = m.targetWidth) : (target t k).Meant m texts where
  kind := by simp [Literal.address, h]
  immediate := nofun
  width := by
    rintro _ _ ⟨⟩
    exact hk
  order := nofun

theorem meant_registers {l : RegisterList} (h : m.operation.registerKind = .registers)
    (hr : l.reversed = reversedOrder texts) (hn : texts.length = 2) :
    (registers l).Meant m texts where
  kind := by
    have ht := l.head_text
    simp only [Operand.kind, text]
    rcases ht with ht | ht | ht <;> simp [ht, h]
  immediate := nofun
  width := nofun
  order := by
    rintro _ ⟨⟩
    exact ⟨hr, hn⟩

variable {pc : UInt32} {o : Operand} {s : Size}

theorem meant_of_yields_address {k r : Nat} (hop : m.operation.Ordinary texts.length)
    (hs : s = m.immediateSize) (h : (Slot.address k r s).Yields pc o) : o.Meant m texts := by
  obtain ⟨a, rfl, -, -, ha⟩ := h
  refine meant_address (.inl hop.1) (.inl hop.2.1) ?_
  intro v t hv
  rw [hv] at ha
  exact ⟨hop.2.2, ha.1.trans hs, ha.2⟩

theorem meant_of_yields_immediate (hop : m.operation.Ordinary texts.length)
    (hs : s = m.immediateSize) (h : (Slot.immediate s).Yields pc o) : o.Meant m texts := by
  obtain ⟨v, rfl, hv⟩ := h
  refine meant_address (.inl hop.1) (.inl hop.2.1) ?_
  intro u t h
  cases h
  exact ⟨hop.2.2, hs, hv⟩

end Operand

theorem reversedOrder_pair {l : RegisterList} {a : EffectiveAddress} :
    reversedOrder [l.text, a.text] = decide (a.mode = 4) ∧
      reversedOrder [a.text, l.text] = decide (a.mode = 4) := by
  have hl : l.text.toList.head? ≠ some '-' := by
    rcases l.head_text with h | h | h <;> simp [h]
  have ha : a.lead = '-' ↔ a.mode = 4 := by
    cases a <;> simp [EffectiveAddress.lead, EffectiveAddress.mode]
  simp [reversedOrder, hl, a.head_text, ha]

end Mc68000
