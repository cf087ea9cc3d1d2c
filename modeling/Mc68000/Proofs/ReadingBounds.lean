import Mc68000.Proofs.LayoutShape
import Mc68000.Proofs.Outcome

namespace Mc68000

variable {α β : Type} {n k : Nat} {c c' c'' : Cursor}

namespace Cursor

/-- From one cursor to another over at most `n` words, all of which are there. -/
def Reaches (n : Nat) (c c' : Cursor) : Prop :=
  ∃ i ≤ n, c' = c.advance i ∧ c'.position ≤ max c.position c.bytes.length

theorem Reaches.refl (c : Cursor) : Reaches 0 c c :=
  ⟨0, Nat.le_refl 0, rfl, Nat.le_max_left _ _⟩

theorem Reaches.mono (h : Reaches n c c') (hnk : n ≤ k) : Reaches k c c' := by
  obtain ⟨i, hi, hc, hp⟩ := h
  exact ⟨i, Nat.le_trans hi hnk, hc, hp⟩

theorem Reaches.trans (h : Reaches n c c') (h' : Reaches k c' c'') : Reaches (n + k) c c'' := by
  obtain ⟨i, hi, rfl, hp⟩ := h
  obtain ⟨j, hj, rfl, hq⟩ := h'
  refine ⟨i + j, Nat.add_le_add hi hj, advance_advance c i j, Nat.le_trans hq ?_⟩
  exact Nat.max_le.mpr ⟨hp, Nat.le_max_right _ _⟩

theorem reaches_of_read {x : Extension α} {a : α} (h : x.read c.rest = some a) :
    Reaches x.words c (c.advance x.words) := by
  refine ⟨x.words, Nat.le_refl _, rfl, ?_⟩
  have hr := Extension.words_le_of_read h
  rw [length_rest] at hr
  rw [position_advance]
  omega

theorem Reaches.of_start {bytes : List UInt8} {address : UInt32}
    (h : Reaches n (start bytes address) c) :
    c.position % 2 = 0 ∧ 2 ≤ c.position ∧ c.position ≤ 2 + 2 * n ∧
      c.position ≤ max 2 bytes.length ∧ c.pc = address + UInt32.ofNat c.position := by
  obtain ⟨i, hi, rfl, hp⟩ := h
  have hpos : ((start bytes address).advance i).position = 2 + 2 * i := position_advance _ i
  rw [hpos] at hp ⊢
  refine ⟨by omega, by omega, by omega, hp, ?_⟩
  rw [pc, hpos]
  rfl

end Cursor

/-- A fault that fits the place where it stopped the reading: the mode is undefined, or one or two
words are missing there. The bytes are counted right if there are any up to that place. -/
def Fault.Fits (c : Cursor) (f : Fault) : Prop :=
  (∃ reg, 5 ≤ reg ∧ reg ≤ 7 ∧ f = .invalidMode 7 reg) ∨
    ∃ needed available, f = .insufficientData needed available ∧
      (needed = c.position + 2 ∨ needed = c.position + 4) ∧ available < needed ∧
      (c.position ≤ c.bytes.length → available = c.bytes.length)

theorem Fault.fits_of_read {x : Extension α} {available : Nat} (h : x.read c.rest = none)
    (ha : available < c.position + 2 * x.words)
    (hl : c.position ≤ c.bytes.length → available = c.bytes.length) :
    Fits c (.insufficientData (c.position + 2 * x.words) available) := by
  refine .inr ⟨_, _, rfl, ?_, ha, hl⟩
  cases x with
  | absent a => cases h
  | word f => exact .inl rfl
  | long f => exact .inr rfl

theorem EffectiveAddress.form?_eq_none_iff (mode reg : Nat) (size : Size) :
    form? mode reg size = none ↔ mode % 8 = 7 ∧ 5 ≤ reg % 8 := by
  have hm := Nat.mod_lt mode (show 8 > 0 by decide)
  have hr := Nat.mod_lt reg (show 8 > 0 by decide)
  unfold form?
  generalize mode % 8 = m at hm ⊢
  generalize reg % 8 = r at hr ⊢
  split
  case h_13 => grind
  all_goals simp

namespace Decoder

variable {m : Decoder α} {f : α → Decoder β}

/-- A decoder that reads at most `n` words, never behind the end of the bytes, and that stops in
front of what it cannot read. -/
def Bounded (n : Nat) (m : Decoder α) : Prop :=
  ∀ c, (∃ a c', m c = .ok a c' ∧ c.Reaches n c') ∨
    ∃ e c', m c = .error e c' ∧ c.Reaches n c' ∧ e.Fits c'

theorem Bounded.mono (h : Bounded n m) (hnk : n ≤ k) : Bounded k m := by
  intro c
  rcases h c with ⟨a, c', hm, hr⟩ | ⟨e, c', hm, hr, he⟩
  · exact .inl ⟨a, c', hm, hr.mono hnk⟩
  · exact .inr ⟨e, c', hm, hr.mono hnk, he⟩

theorem bounded_pure (a : α) : Bounded 0 (pure a : Decoder α) := fun c ↦ .inl ⟨a, c, rfl, .refl c⟩

theorem bounded_get : Bounded 0 (get : Decoder Cursor) := fun c ↦ .inl ⟨c, c, rfl, .refl c⟩

theorem Bounded.bind (hm : Bounded n m) (hf : ∀ a, Bounded k (f a)) :
    Bounded (n + k) (m >>= f) := by
  intro c
  simp only [Bind.bind, EStateM.bind]
  rcases hm c with ⟨a, c', h, hr⟩ | ⟨e, c', h, hr, he⟩
  · rw [h]
    rcases hf a c' with ⟨b, c'', h', hr'⟩ | ⟨e, c'', h', hr', he⟩
    · exact .inl ⟨b, c'', h', hr.trans hr'⟩
    · exact .inr ⟨e, c'', h', hr.trans hr', he⟩
  · rw [h]
    exact .inr ⟨e, c', rfl, hr.mono (Nat.le_add_right n k), he⟩

theorem bounded_mapM {as : List α} {g : α → Decoder β} (h : ∀ a ∈ as, Bounded n (g a)) :
    Bounded (n * as.length) (as.mapM g) := by
  induction as with
  | nil => exact bounded_pure []
  | cons a as ih =>
    rw [List.mapM_cons, List.length_cons, Nat.mul_succ, Nat.add_comm]
    refine (h a List.mem_cons_self).bind fun b ↦ ?_
    exact (ih fun a' ha' ↦ h a' (List.mem_cons_of_mem _ ha')).bind fun bs ↦ bounded_pure _

theorem take_cases (x : Extension α) (c : Cursor) :
    (∃ a, take x c = .ok a (c.advance x.words) ∧ x.read c.rest = some a) ∨
      ∃ f, take x c = .error f c ∧ f.Fits c := by
  unfold take
  cases h : x.read c.rest with
  | some a => exact .inl ⟨a, rfl, rfl⟩
  | none =>
    have hl := (x.read_eq_none_iff _).mp h
    rw [c.length_rest] at hl
    exact .inr ⟨_, rfl, Fault.fits_of_read h (by omega) (fun _ ↦ rfl)⟩

/-- The rest of the bytes is empty also for a cursor behind their end, and then a shortage is
counted from the cursor. -/
theorem effectiveAddress_cases (mode reg : Nat) (size : Size) (c : Cursor) :
    (∃ x a, EffectiveAddress.form? mode reg size = some x ∧
      effectiveAddress mode reg size c = .ok a (c.advance x.words) ∧ x.read c.rest = some a) ∨
      ∃ f, effectiveAddress mode reg size c = .error f c ∧ f.Fits c := by
  rw [effectiveAddress_eq]
  unfold EffectiveAddress.decode
  cases hx : EffectiveAddress.form? mode reg size with
  | none =>
    obtain ⟨-, hr⟩ := (EffectiveAddress.form?_eq_none_iff mode reg size).mp hx
    have hlt := Nat.mod_lt reg (show 8 > 0 by decide)
    exact .inr ⟨_, rfl, .inl ⟨reg % 8, hr, by omega, rfl⟩⟩
  | some x =>
    dsimp only
    cases h : x.read c.rest with
    | some a => exact .inl ⟨x, a, rfl, rfl, h⟩
    | none =>
      have hl := (x.read_eq_none_iff _).mp h
      have hrest := c.length_rest
      refine .inr ⟨_, rfl, ?_⟩
      rw [Fault.rebase, Nat.add_comm (2 * x.words)]
      exact Fault.fits_of_read h (by omega) (fun hc ↦ by omega)

theorem bounded_take (x : Extension α) : Bounded 2 (take x) := by
  intro c
  rcases take_cases x c with ⟨a, h, hx⟩ | ⟨f, h, hf⟩
  · exact .inl ⟨a, _, h, (Cursor.reaches_of_read hx).mono x.words_le⟩
  · exact .inr ⟨f, c, h, (Cursor.Reaches.refl c).mono (Nat.zero_le 2), hf⟩

theorem bounded_effectiveAddress (mode reg : Nat) (size : Size) :
    Bounded 2 (effectiveAddress mode reg size) := by
  intro c
  rcases effectiveAddress_cases mode reg size c with ⟨x, a, -, h, hx⟩ | ⟨f, h, hf⟩
  · exact .inl ⟨a, _, h, (Cursor.reaches_of_read hx).mono x.words_le⟩
  · exact .inr ⟨f, c, h, (Cursor.Reaches.refl c).mono (Nat.zero_le 2), hf⟩

end Decoder

open Decoder

theorem Slot.bounded_decode (σ : Slot) : Bounded 2 σ.decode := by
  cases σ with
  | fixed o => exact (bounded_pure o).mono (Nat.zero_le 2)
  | address mode reg size =>
    exact (bounded_effectiveAddress mode reg size).bind fun _ ↦ bounded_pure _
  | nearTarget d => exact (bounded_get.bind fun _ ↦ bounded_pure _).mono (Nat.zero_le 2)
  | wordTarget | longTarget =>
    exact bounded_get.bind fun _ ↦ (bounded_take _).bind fun _ ↦ bounded_pure _
  | _ => exact (bounded_take _).bind fun _ ↦ bounded_pure _

theorem Layout.bounded_decode (l : Layout) : Bounded (2 * l.slots.length) l.decode := by
  have hslots : Bounded (2 * l.slots.length) (l.slots.mapM Slot.decode) :=
    bounded_mapM fun σ _ ↦ σ.bounded_decode
  refine Bounded.bind (k := 0) hslots fun os ↦ ?_
  dsimp only
  split
  · exact bounded_pure _
  · exact bounded_get.bind fun _ ↦ bounded_pure _

/-- Where a decoder says that a statement ends it stands itself, for data as well. -/
theorem Layout.length_eq_position {w : Opcode} {l : Layout} {bytes : List UInt8} {address : UInt32}
    {fields : Fields} (hl : DataOnly w l)
    (h : l.decode (Cursor.start bytes address) = .ok fields c) : fields.length = c.position := by
  cases hm : l.slots.mapM Slot.decode (Cursor.start bytes address) with
  | error f c' =>
    rw [decode_of_error hm] at h
    cases h
  | ok os c' =>
    rw [decode_of_ok hm] at h
    cases h
    change (if l.isData then 2 else c.position) = c.position
    split
    · next hd =>
      rw [hl hd] at hm
      cases hm
      rfl
    · rfl

theorem Family.decode_cases (F : Family) (w : Opcode) (bytes : List UInt8) (address : UInt32) :
    (∃ fields c, (F.decode w).run (Cursor.start bytes address) = .ok fields c ∧
      (Cursor.start bytes address).Reaches 4 c ∧ fields.length = c.position) ∨
    ∃ f c, (F.decode w).run (Cursor.start bytes address) = .error f c ∧
      (Cursor.start bytes address).Reaches 4 c ∧ ((∃ bits, f = .invalidSize bits) ∨ f.Fits c) := by
  unfold Family.decode
  cases hl : F.layout w with
  | error f =>
    have hr := (Cursor.Reaches.refl (Cursor.start bytes address)).mono (Nat.zero_le 4)
    exact .inr ⟨f, _, rfl, hr, .inl (Family.invalidSize_of_layout hl)⟩
  | ok l =>
    have ha : 2 * l.slots.length ≤ 4 := Nat.mul_le_mul_left 2 (Family.arity_le hl)
    rcases l.bounded_decode (Cursor.start bytes address) with
      ⟨fields, c, hd, hr⟩ | ⟨f, c, hd, hr, hf⟩
    · have hlen := Layout.length_eq_position (Family.dataOnly_of_layout hl) hd
      exact .inl ⟨fields, c, hd, hr.mono ha, hlen⟩
    · exact .inr ⟨f, c, hd, hr.mono ha, .inr hf⟩

/-- A family reads an opcode without leaving its tables or the bytes, whatever opcode and bytes it
is given, and it tells how far it got. If it fails, it stands in front of what it could not read,
and the fault belongs to that place. -/
theorem Family.decode_within (F : Family) (w : Opcode) (bytes : List UInt8) (address : UInt32) :
    (∀ i n c, (F.decode w).run (Cursor.start bytes address) ≠ .error (.outOfRange i n) c) ∧
    match (F.decode w).run (Cursor.start bytes address) with
    | .ok fields c => fields.length % 2 = 0 ∧ 2 ≤ fields.length ∧ fields.length ≤ 10 ∧
        fields.length ≤ max 2 bytes.length ∧ c.position = fields.length ∧
        c.pc = address + UInt32.ofNat fields.length
    | .error f c => c.position % 2 = 0 ∧ 2 ≤ c.position ∧ c.position ≤ max 2 bytes.length ∧
        ((∃ bits, f = .invalidSize bits) ∨ (∃ reg, 5 ≤ reg ∧ reg ≤ 7 ∧ f = .invalidMode 7 reg) ∨
          ∃ needed available, f = .insufficientData needed available ∧
            (needed = c.position + 2 ∨ needed = c.position + 4) ∧ available < needed ∧
            (2 ≤ bytes.length → available = bytes.length)) := by
  rcases F.decode_cases w bytes address with ⟨fields, c, hd, hr, hlen⟩ | ⟨f, c, hd, hr, hf⟩
  · obtain ⟨hev, hge, hten, hle, hpc⟩ := hr.of_start
    rw [hd]
    refine ⟨nofun, ?_⟩
    dsimp only
    rw [hlen]
    exact ⟨hev, hge, hten, hle, rfl, hpc⟩
  · obtain ⟨hev, hge, -, hle, -⟩ := hr.of_start
    rw [hd]
    refine ⟨?_, hev, hge, hle, hf.imp_right (Or.imp_right ?_)⟩
    · rintro i n c' h
      cases h
      obtain ⟨bits, h⟩ | ⟨reg, -, -, h⟩ | ⟨needed, available, h, -⟩ := hf <;> cases h
    · rintro ⟨needed, available, rfl, hn, hlt, hav⟩
      refine ⟨needed, available, rfl, hn, hlt, fun htwo ↦ ?_⟩
      obtain ⟨i, -, rfl, -⟩ := hr
      exact hav (Nat.le_trans hle (Nat.max_le.mpr ⟨htwo, Nat.le_refl _⟩))

theorem Family.decode_within_chk :
    (Family.chk.decode 0x0039).run (Cursor.start [0x12, 0x34, 0x56] 0) =
        .error (.insufficientData 6 3) (Cursor.start [0x12, 0x34, 0x56] 0) ∧
      ∃ needed available, Fault.insufficientData 6 3 = .insufficientData needed available ∧
        (needed = 2 + 2 ∨ needed = 2 + 4) ∧ available < needed ∧ available = 3 := by
  have hd : (Family.chk.decode 0x0039).run (Cursor.start [0x12, 0x34, 0x56] 0) =
      .error (.insufficientData 6 3) (Cursor.start [0x12, 0x34, 0x56] 0) := rfl
  obtain ⟨-, h⟩ := Family.decode_within .chk 0x0039 [0x12, 0x34, 0x56] 0
  rw [hd] at h
  obtain ⟨-, -, -, ⟨bits, hf⟩ | ⟨reg, -, -, hf⟩ | ⟨needed, available, hf, hn, hlt, ha⟩⟩ := h
  · cases hf
  · cases hf
  · exact ⟨hd, needed, available, hf, hn, hlt, ha (by decide)⟩

end Mc68000
