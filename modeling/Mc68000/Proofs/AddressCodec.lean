import Mc68000.Proofs.AddressEncoding
import Mc68000.Proofs.ReadingBounds
import Mc68000.Proofs.SlotOperand

namespace Mc68000.EffectiveAddress

variable {mode reg n : Nat} {s : Size} {a : EffectiveAddress} {x : Extension EffectiveAddress}
  {data : List UInt8} {f : Fault}

def formWords (mode reg : Nat) (size : Size) : Nat :=
  match mode % 8, reg % 8 with
  | 5, _ => 1
  | 6, _ => 1
  | 7, 0 => 1
  | 7, 1 => 2
  | 7, 2 => 1
  | 7, 3 => 1
  | 7, 4 => size.words
  | _, _ => 0

theorem words_of_form (h : form? mode reg s = some x) : x.words = formWords mode reg s := by
  unfold form? at h
  unfold formWords
  generalize mode % 8 = k at h ⊢
  generalize reg % 8 = j at h ⊢
  split at h <;> cases h
  case h_12 => exact (Extension.words_map _ _).trans s.words_immediate
  all_goals rfl

theorem form?_mod (mode reg : Nat) (s : Size) :
    form? (mode % 8) (reg % 8) s = form? mode reg s := by
  simp only [form?, Nat.mod_mod]

theorem decode_eq_ok_iff :
    decode data mode reg s = .ok (a, n) ↔
      ∃ x, form? mode reg s = some x ∧ x.read data = some a ∧ x.words = n := by
  unfold decode
  cases form? mode reg s with
  | none => simp
  | some x => cases hx : x.read data <;> simp [hx]

theorem decode_eq_error_iff :
    decode data mode reg s = .error f ↔
      (mode % 8 = 7 ∧ 5 ≤ reg % 8) ∧ f = .invalidMode 7 (reg % 8) ∨
      ¬ (mode % 8 = 7 ∧ 5 ≤ reg % 8) ∧ data.length < 2 * formWords mode reg s ∧
        f = .insufficientData (2 * formWords mode reg s) data.length := by
  rw [← form?_eq_none_iff mode reg s]
  unfold decode
  cases h : form? mode reg s with
  | none => simp [eq_comm]
  | some x =>
    have hw := words_of_form h
    have hr := x.read_eq_none_iff data
    rw [hw] at hr
    cases hx : x.read data with
    | none => simp [hx, hw, hr.mp hx, eq_comm]
    | some a =>
      have hl : ¬ data.length < 2 * formWords mode reg s := by
        rw [← hr, hx]
        exact nofun
      simp [hx, hl]

theorem WellFormed.decode_encode (h : a.WellFormed s) (hm : mode % 8 = a.mode)
    (hr : reg % 8 = a.reg) (rest : List UInt8) :
    decode (a.extensionBytes ++ rest) mode reg s = .ok (a, a.extensionWords.length) := by
  obtain ⟨x, hx, hw⟩ := h.writes_form
  rw [← hm, ← hr, form?_mod] at hx
  exact decode_eq_ok_iff.mpr ⟨x, hx, hw.read rest, hw.length.symm⟩

theorem fields_of_decode (h : decode data mode reg s = .ok (a, n)) :
    a.WellFormed s ∧ a.mode = mode % 8 ∧ a.reg = reg % 8 ∧ a.extensionWords.length = n := by
  obtain ⟨x, hx, hread, rfl⟩ := decode_eq_ok_iff.mp h
  obtain ⟨hm, hr, hwf⟩ := fields_of_form hx (Extension.gives_of_read hread)
  obtain ⟨y, hy, hw⟩ := hwf.writes_form
  rw [hm, hr, form?_mod, hx] at hy
  cases hy
  exact ⟨hwf, hm, hr, hw.length⟩

theorem equalExcept_of_decode (h : decode data mode reg s = .ok (a, n)) :
    EqualExcept (EffectiveAddress.ignored mode reg s) a.extensionBytes (data.take (2 * n)) := by
  obtain ⟨hwf, hm, hr, hlen⟩ := fields_of_decode h
  obtain ⟨x, hx, hread, rfl⟩ := decode_eq_ok_iff.mp h
  have hi := ignores_form hx
  have hback : x.read a.extensionBytes = some a := by
    obtain ⟨y, hy, hw⟩ := hwf.writes_form
    rw [hm, hr, form?_mod, hx] at hy
    cases hy
    have ht := hw.read []
    rwa [List.append_nil] at ht
  have hout : a.extensionBytes.length = (EffectiveAddress.ignored mode reg s).length := by
    rw [hi.length, ← hlen]
    exact length_bytesOfWords a.extensionWords
  have hin : (data.take (2 * x.words)).length = (EffectiveAddress.ignored mode reg s).length := by
    rw [hi.length]
    exact List.length_take_of_le (Extension.words_le_of_read hread)
  rw [← hi.read_eq_iff _ _ hout hin, x.read_take, hback, hread]

/-- Addresses and their words determine each other: what is written is read back, what was read is
written back, and reading fails for undefined forms and for missing words alone. -/
theorem decode_inverts_encode (s : Size) :
    (∀ a : EffectiveAddress, a.WellFormed s → ∀ mode reg rest,
      mode % 8 = a.mode → reg % 8 = a.reg →
      decode (a.extensionBytes ++ rest) mode reg s = .ok (a, a.extensionWords.length)) ∧
    (∀ data mode reg a n, decode data mode reg s = .ok (a, n) →
      a.WellFormed s ∧ a.mode = mode % 8 ∧ a.reg = reg % 8 ∧ a.extensionWords.length = n ∧
        EqualExcept (EffectiveAddress.ignored mode reg s) a.extensionBytes (data.take (2 * n))) ∧
    ∀ data mode reg,
      (decode data mode reg s = .error (.invalidMode 7 (reg % 8)) ↔ mode % 8 = 7 ∧ 5 ≤ reg % 8) ∧
      (¬ (mode % 8 = 7 ∧ 5 ≤ reg % 8) →
        (decode data mode reg s =
            .error (.insufficientData (2 * formWords mode reg s) data.length) ↔
          data.length < 2 * formWords mode reg s)) ∧
      ∀ f, decode data mode reg s = .error f → f = .invalidMode 7 (reg % 8) ∨
        f = .insufficientData (2 * formWords mode reg s) data.length := by
  refine ⟨?_, ?_, ?_⟩
  · intro a ha mode reg rest hm hr
    exact ha.decode_encode hm hr rest
  · intro data mode reg a n h
    obtain ⟨hwf, hm, hr, hn⟩ := fields_of_decode h
    exact ⟨hwf, hm, hr, hn, equalExcept_of_decode h⟩
  · intro data mode reg
    refine ⟨?_, ?_, ?_⟩
    · rw [decode_eq_error_iff]
      simp
    · intro hu
      rw [decode_eq_error_iff]
      simp [hu]
    · intro f h
      rcases decode_eq_error_iff.mp h with ⟨-, hf⟩ | ⟨-, -, hf⟩
      · exact .inl hf
      · exact .inr hf

theorem decode_inverts_encode_index :
    let a := indexed 5 ⟨.address 2, .word, -2⟩
    decode ([0xA0, 0xFE] ++ [0x4E]) 14 0x1D .word = .ok (a, 1) ∧
      decode [0xA6, 0xFE, 0x4E] 14 0x1D .word = .ok (a, 1) ∧
      EqualExcept [0x07, 0] [0xA0, 0xFE] [0xA6, 0xFE] ∧
      decode [0xA0] 14 0x1D .word = .error (.insufficientData 2 1) := by
  intro a
  obtain ⟨hwrite, hread, hfail⟩ := decode_inverts_encode .word
  have ha : a.WellFormed .word := ⟨by decide, by decide, by decide⟩
  have hd : decode [0xA6, 0xFE, 0x4E] 14 0x1D .word = .ok (a, 1) := by decide
  exact ⟨hwrite a ha 14 0x1D [0x4E] rfl rfl, hd, (hread _ _ _ _ _ hd).2.2.2.2,
    ((hfail [0xA0] 14 0x1D).2.1 (by decide)).mpr (by decide)⟩

end Mc68000.EffectiveAddress
