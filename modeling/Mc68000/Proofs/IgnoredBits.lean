import Mc68000.Proofs.SlotReading

namespace Mc68000

variable {α β : Type} {a b a' b' : UInt8} {x : Extension α} {mask ms bs bs' cs cs' : List UInt8}

theorem toNat_joinBytes (hi lo : UInt8) : (joinBytes hi lo).toNat = hi.toNat <<< 8 + lo.toNat := by
  have hh := hi.toNat_lt
  have hl := lo.toNat_lt
  rw [joinBytes, UInt16.toNat_ofNat']
  omega

theorem toNat_joinWords (hi lo : UInt16) :
    (joinWords hi lo).toNat = hi.toNat <<< 16 + lo.toNat := by
  have hh := hi.toNat_lt
  have hl := lo.toNat_lt
  rw [joinWords, UInt32.toNat_ofNat']
  omega

theorem joinBytes_inj : joinBytes a b = joinBytes a' b' ↔ a = a' ∧ b = b' := by
  rw [← UInt16.toNat_inj, toNat_joinBytes, toNat_joinBytes, ← UInt8.toNat_inj, ← UInt8.toNat_inj]
  have hl := b.toNat_lt
  have hl' := b'.toNat_lt
  omega

theorem joinWords_inj {u v u' v' : UInt16} : joinWords u v = joinWords u' v' ↔ u = u' ∧ v = v' := by
  rw [← UInt32.toNat_inj, toNat_joinWords, toNat_joinWords, ← UInt16.toNat_inj, ← UInt16.toNat_inj]
  have hl := v.toNat_lt
  have hl' := v'.toNat_lt
  omega

theorem toUInt8_joinBytes (hi lo : UInt8) : (joinBytes hi lo).toUInt8 = lo := by
  apply UInt8.toNat_inj.mp
  have hl := lo.toNat_lt
  rw [UInt16.toNat_toUInt8, toNat_joinBytes]
  omega

@[simp]
theorem toInt16_inj {u v : UInt16} : u.toInt16 = v.toInt16 ↔ u = v :=
  ⟨fun h ↦ by simpa using congrArg Int16.toUInt16 h, fun h ↦ by rw [h]⟩

theorem or_seven_eq_iff : a ||| 7 = a' ||| 7 ↔ a.toNat / 8 = a'.toNat / 8 := by
  have hor : ∀ n < 256, n ||| 7 = 8 * (n / 8) + 7 := by decide +kernel
  have h7 : (7 : UInt8).toNat = 7 := rfl
  rw [← UInt8.toNat_inj, UInt8.toNat_or, UInt8.toNat_or, h7, hor _ a.toNat_lt, hor _ a'.toNat_lt]
  omega

theorem Index.ofWord_eq_iff :
    Index.ofWord (joinBytes a b) = Index.ofWord (joinBytes a' b') ↔
      a ||| 7 = a' ||| 7 ∧ b = b' := by
  have hb := b.toNat_lt
  have hb' := b'.toNat_lt
  have ha := a.toNat_lt
  have ha' := a'.toNat_lt
  rw [or_seven_eq_iff]
  simp only [Index.ofWord, Index.mk.injEq, toUInt8_joinBytes, toNat_joinBytes,
    Nat.testBit_eq_decide_div_mod_eq, decide_eq_true_eq]
  constructor
  · rintro ⟨hr, hs, hd⟩
    have hl : b = b' := by simpa using congrArg Int8.toUInt8 hd
    refine ⟨?_, hl⟩
    split at hr <;> split at hr <;> split at hs <;> split at hs <;> simp_all <;> omega
  · rintro ⟨h, rfl⟩
    have h15 : (a.toNat <<< 8 + b.toNat) / 2 ^ 15 = (a'.toNat <<< 8 + b.toNat) / 2 ^ 15 := by
      omega
    have h12 : (a.toNat <<< 8 + b.toNat) >>> 12 = (a'.toNat <<< 8 + b.toNat) >>> 12 := by
      omega
    have h11 : (a.toNat <<< 8 + b.toNat) / 2 ^ 11 = (a'.toNat <<< 8 + b.toNat) / 2 ^ 11 := by
      omega
    rw [h15, h12, h11]
    exact ⟨rfl, rfl, rfl⟩

/-- Two byte strings of the length of a mask that agree outside of its bits. -/
def EqualExcept (mask bs bs' : List UInt8) : Prop :=
  bs.length = mask.length ∧ bs'.length = mask.length ∧
    bs.zipWith (· ||| ·) mask = bs'.zipWith (· ||| ·) mask

instance (mask bs bs' : List UInt8) : Decidable (EqualExcept mask bs bs') :=
  inferInstanceAs (Decidable (_ ∧ _ ∧ _))

theorem equalExcept_append (hb : bs.length = mask.length) (hb' : bs'.length = mask.length) :
    EqualExcept (mask ++ ms) (bs ++ cs) (bs' ++ cs') ↔
      EqualExcept mask bs bs' ∧ EqualExcept ms cs cs' := by
  simp only [EqualExcept, List.length_append, List.zipWith_append hb, List.zipWith_append hb',
    hb, hb', Nat.add_left_cancel_iff, true_and]
  constructor
  · rintro ⟨hc, hc', h⟩
    obtain ⟨h₁, h₂⟩ := List.append_inj h (by simp [hb, hb'])
    exact ⟨h₁, hc, hc', h₂⟩
  · rintro ⟨h₁, hc, hc', h₂⟩
    exact ⟨hc, hc', by rw [h₁, h₂]⟩

theorem equalExcept_nil : EqualExcept [] [] [] := ⟨rfl, rfl, rfl⟩

theorem equalExcept_word {m₀ m₁ : UInt8} :
    EqualExcept [m₀, m₁] [a, b] [a', b'] ↔ a ||| m₀ = a' ||| m₀ ∧ b ||| m₁ = b' ||| m₁ := by
  simp [EqualExcept]

namespace Extension

/-- The value hangs on every bit of its words that the mask leaves clear, and on no other. -/
structure Ignores (x : Extension α) (mask : List UInt8) : Prop where
  length : mask.length = 2 * x.words
  read_eq_iff : ∀ bs bs', bs.length = mask.length → bs'.length = mask.length →
    (x.read bs = x.read bs' ↔ EqualExcept mask bs bs')

theorem ignores_absent (v : α) : (absent v).Ignores [] where
  length := rfl
  read_eq_iff bs bs' hb hb' := by
    rw [List.length_eq_zero_iff.mp hb, List.length_eq_zero_iff.mp hb']
    exact ⟨fun _ ↦ equalExcept_nil, fun _ ↦ rfl⟩

theorem ignores_word {f : UInt16 → α} {m₀ m₁ : UInt8}
    (hf : ∀ a b a' b', f (joinBytes a b) = f (joinBytes a' b') ↔
      a ||| m₀ = a' ||| m₀ ∧ b ||| m₁ = b' ||| m₁) : (word f).Ignores [m₀, m₁] where
  length := rfl
  read_eq_iff bs bs' hb hb' := by
    match bs, bs', hb, hb' with
    | [a, b], [a', b'], _, _ => rw [equalExcept_word, ← hf, read, read, Option.some_inj]

theorem ignores_word_of_injective {f : UInt16 → α} (hf : Function.Injective f) :
    (word f).Ignores [0, 0] := by
  apply ignores_word
  intro a b a' b'
  simp only [UInt8.or_zero]
  exact hf.eq_iff.trans joinBytes_inj

theorem ignores_long {f : UInt32 → α} (hf : Function.Injective f) :
    (long f).Ignores [0, 0, 0, 0] where
  length := rfl
  read_eq_iff bs bs' hb hb' := by
    match bs, bs', hb, hb' with
    | [a, b, c, d], [a', b', c', d'], _, _ =>
      simp only [read, Option.some_inj, hf.eq_iff, joinWords_inj, joinBytes_inj, EqualExcept,
        List.zipWith, UInt8.or_zero, List.length_cons, List.cons.injEq, true_and, and_true]
      exact and_assoc

theorem Ignores.map {g : α → β} (hg : Function.Injective g) (hx : x.Ignores mask) :
    (x.map g).Ignores mask where
  length := by rw [words_map, hx.length]
  read_eq_iff bs bs' hb hb' := by
    rw [read_map, read_map, Option.map_inj_right (fun _ _ h ↦ hg h)]
    exact hx.read_eq_iff bs bs' hb hb'

theorem read_take (x : Extension α) (bs : List UInt8) :
    x.read (bs.take (2 * x.words)) = x.read bs := by
  cases x with
  | absent a => rfl
  | word f => rcases bs with _ | ⟨a, _ | ⟨b, bs⟩⟩ <;> rfl
  | long f => rcases bs with _ | ⟨a, _ | ⟨b, _ | ⟨c, _ | ⟨d, bs⟩⟩⟩⟩ <;> rfl

end Extension

def Size.ignored : Size → List UInt8
  | byte => [0xFF, 0]
  | word => [0, 0]
  | long => [0, 0, 0, 0]

def EffectiveAddress.ignored (mode reg : Nat) (size : Size) : List UInt8 :=
  match mode % 8, reg % 8 with
  | 5, _ => [0, 0]
  | 6, _ => [0x07, 0]
  | 7, 0 => [0, 0]
  | 7, 1 => [0, 0, 0, 0]
  | 7, 2 => [0, 0]
  | 7, 3 => [0x07, 0]
  | 7, 4 => size.ignored
  | _, _ => []

/-- The bits of a slot's extension words that its operand does not hang on. -/
def Slot.ignored : Slot → List UInt8
  | address m r s => EffectiveAddress.ignored m r s
  | immediate s => s.ignored
  | signedWord => [0, 0]
  | displaced _ => [0, 0]
  | registers _ => [0, 0]
  | wordTarget => [0, 0]
  | longTarget => [0, 0, 0, 0]
  | fixed _ => []
  | nearTarget _ => []

theorem Size.ignores_immediate (s : Size) : s.immediate.Ignores s.ignored := by
  cases s with
  | byte =>
    apply Extension.ignores_word
    intro a b a' b'
    have hb := b.toNat_lt
    have hb' := b'.toNat_lt
    have hff (c : UInt8) : c ||| 0xFF = 0xFF := UInt8.or_neg_one
    rw [hff, hff, UInt8.or_zero, UInt8.or_zero, eq_self, true_and, toNat_joinBytes, toNat_joinBytes,
      ← UInt32.toNat_inj, UInt32.toNat_ofNat', UInt32.toNat_ofNat', ← UInt8.toNat_inj]
    omega
  | word => exact Extension.ignores_word_of_injective (fun _ _ h ↦ UInt16.toUInt32_inj.mp h)
  | long => exact Extension.ignores_long (fun _ _ h ↦ h)

theorem EffectiveAddress.ignores_form {m r : Nat} {s : Size} {y : Extension EffectiveAddress}
    (h : form? m r s = some y) : y.Ignores (EffectiveAddress.ignored m r s) := by
  have hindex (g : Index → EffectiveAddress) (hg : Function.Injective g) :
      (Extension.word (fun w ↦ g (Index.ofWord w))).Ignores [0x07, 0] := by
    apply Extension.ignores_word
    intro a b a' b'
    rw [hg.eq_iff, Index.ofWord_eq_iff, UInt8.or_zero, UInt8.or_zero]
  unfold form? at h
  unfold EffectiveAddress.ignored
  generalize m % 8 = k at h ⊢
  generalize r % 8 = j at h ⊢
  split at h <;> cases h
  · exact Extension.ignores_absent _
  · exact Extension.ignores_absent _
  · exact Extension.ignores_absent _
  · exact Extension.ignores_absent _
  · exact Extension.ignores_absent _
  · exact Extension.ignores_word_of_injective (fun _ _ h ↦ by simpa using h)
  · exact hindex _ (fun _ _ h ↦ by simpa using h)
  · exact Extension.ignores_word_of_injective (fun _ _ h ↦ by simpa using h)
  · exact Extension.ignores_long (fun _ _ h ↦ by simpa using h)
  · exact Extension.ignores_word_of_injective (fun _ _ h ↦ by simpa using h)
  · exact hindex _ (fun _ _ h ↦ by simpa using h)
  · exact s.ignores_immediate.map (fun _ _ h ↦ by simpa using h)

namespace Slot

theorem ignores_form {σ : Slot} {pc : UInt32} {y : Extension Operand} (h : σ.form pc = .ok y) :
    y.Ignores σ.ignored := by
  cases σ with
  | address m r s =>
    cases hz : EffectiveAddress.form? m r s with
    | none => simp [form, hz] at h
    | some z =>
      simp only [form, hz, Except.ok.injEq] at h
      subst h
      exact (EffectiveAddress.ignores_form hz).map (fun _ _ h ↦ by simpa using h)
  | immediate s =>
    cases h
    exact s.ignores_immediate.map (fun _ _ h ↦ by simpa using h)
  | fixed o =>
    cases h
    exact Extension.ignores_absent _
  | nearTarget d =>
    cases h
    exact Extension.ignores_absent _
  | longTarget =>
    cases h
    exact Extension.ignores_long (fun _ _ h ↦ by simpa using h)
  | wordTarget =>
    cases h
    apply Extension.ignores_word_of_injective
    intro u v h
    have he : u.toInt16.toInt32.toUInt32 = v.toInt16.toInt32.toUInt32 := by simpa using h
    have hi := congrArg (fun l ↦ l.toInt32.toInt16.toUInt16) he
    simpa using hi
  | signedWord =>
    cases h
    exact Extension.ignores_word_of_injective (fun _ _ h ↦ by simpa [Int16.toInt_inj] using h)
  | _ =>
    cases h
    exact Extension.ignores_word_of_injective (fun _ _ h ↦ by simpa using h)

theorem operandAt_eq_iff {σ : Slot} {pc : UInt32} {o o' : Operand} (ho : σ.operandAt pc bs = some o)
    (ho' : σ.operandAt pc bs' = some o') :
    o = o' ↔ EqualExcept σ.ignored (bs.take (2 * σ.words)) (bs'.take (2 * σ.words)) := by
  unfold operandAt at ho ho'
  rcases σ.form_cases pc with ⟨y, hy, -, hw⟩ | ⟨f, hy, -⟩
  · simp only [hy] at ho ho'
    have hi := ignores_form hy
    have hlen {cs : List UInt8} {p : Operand} (hp : y.read cs = some p) :
        (cs.take (2 * σ.words)).length = σ.ignored.length := by
      have hs := Extension.words_le_of_read hp
      rw [hi.length, List.length_take, hw] at *
      omega
    rw [← hi.read_eq_iff _ _ (hlen ho) (hlen ho'), ← hw, y.read_take, y.read_take, ho, ho',
      Option.some_inj]
  · simp [hy] at ho

theorem length_ignored {σ : Slot} (h : σ.fault? = none) : σ.ignored.length = 2 * σ.words := by
  rcases σ.form_cases 0 with ⟨y, hy, -, hw⟩ | ⟨f, -, hf⟩
  · rw [(ignores_form hy).length, hw]
  · rw [h] at hf
    cases hf

end Slot

namespace Layout

def ignored (σs : List Slot) : List UInt8 := σs.flatMap Slot.ignored

theorem operandsAt_eq_iff {σs : List Slot} {pc : UInt32} {os os' : List Operand}
    (h : operandsAt σs pc bs = some os) (h' : operandsAt σs pc bs' = some os') :
    os = os' ↔ EqualExcept (ignored σs) (bs.take (2 * extent σs)) (bs'.take (2 * extent σs)) := by
  induction σs generalizing pc bs bs' os os' with
  | nil =>
    cases h
    cases h'
    simpa [ignored, extent] using equalExcept_nil
  | cons σ σs ih =>
    have hlen {cs : List UInt8} {o : Operand} (ho : σ.operandAt pc cs = some o) :
        (cs.take (2 * σ.words)).length = σ.ignored.length := by
      obtain ⟨hf, hl⟩ := (σ.exists_operandAt_iff pc cs).mp ⟨o, ho⟩
      rw [List.length_take, Slot.length_ignored hf]
      omega
    obtain ⟨o, ps, ho, hps, rfl⟩ := operandsAt_cons.mp h
    obtain ⟨o', ps', ho', hps', rfl⟩ := operandsAt_cons.mp h'
    have hf := ((σ.exists_operandAt_iff pc bs).mp ⟨o, ho⟩).1
    have he : 2 * extent (σ :: σs) = 2 * σ.words + 2 * extent σs := by
      simp [extent, hf, Nat.mul_add]
    rw [he, List.take_add, List.take_add, ignored, List.flatMap_cons,
      equalExcept_append (hlen ho) (hlen ho'), ← Slot.operandAt_eq_iff ho ho', List.cons.injEq]
    exact and_congr_right (fun _ ↦ ih hps hps')

end Layout

end Mc68000
