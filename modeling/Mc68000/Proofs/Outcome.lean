import Mc68000.Proofs.Reassembly.Dispatch

namespace Mc68000

open Layout

variable {w : Opcode} {l : Layout} {f : Fault} {hi lo : UInt8} {rest : List UInt8}
  {address : UInt32} {n a : Nat}

/-- The bytes that the instruction takes, or that are read before it is found to be faulty. -/
def Opcode.byteCount (w : Opcode) : Nat :=
  match w.layout with
  | .ok l => 2 + 2 * extent l.slots
  | .error _ => 2

/-- What comes of an opcode that is followed by enough bytes. -/
def Opcode.verdict (w : Opcode) : Except Fault Mnemonic :=
  match w.layout with
  | .ok l =>
    match firstFault? l.slots with
    | some f => .error f
    | none => .ok l.mnemonic
  | .error f => .error f

/-- Where slots end, one after the other, if the first of them begins behind `n` bytes. From a
faulty slot on nothing is read. -/
def Layout.ends : Nat → List Slot → List Nat
  | _, [] => []
  | n, σ :: σs =>
    if σ.fault?.isSome then [] else (n + 2 * σ.words) :: ends (n + 2 * σ.words) σs

/-- The bytes that are asked for where `available` bytes are too few: they reach to the end of the
first operand that is not all there. -/
def Opcode.needed (w : Opcode) (available : Nat) : Nat :=
  match w.layout with
  | .ok l => ((ends 2 l.slots).find? (available < ·)).getD 2
  | .error _ => 2

/-- The faults that an opcode can have by itself. -/
def Fault.Architectural (f : Fault) : Prop :=
  (∃ mode reg, f = .invalidMode mode reg) ∨ ∃ bits, f = .invalidSize bits

theorem Size.invalidSize_of_ofBits {n : Nat} (h : ofBits n = .error f) :
    ∃ bits, f = .invalidSize bits := by
  unfold ofBits at h
  split at h
  · cases h
  · cases h
  · cases h
  · exact ⟨_, (Except.error.inj h).symm⟩

theorem Size.invalidSize_of_ofMoveBits {n : Nat} (h : ofMoveBits n = .error f) :
    ∃ bits, f = .invalidSize bits := by
  unfold ofMoveBits at h
  split at h
  · cases h
  · cases h
  · cases h
  · exact ⟨_, (Except.error.inj h).symm⟩

theorem Layout.error_of_bind {x : Except Fault Size} {g : Size → Layout}
    (h : (do let s ← x; return g s) = .error f) : x = .error f := by
  cases x with
  | error k => exact congrArg Except.error (Except.error.inj h)
  | ok s => cases h

theorem Family.invalidSize_of_layout {F : Family} (h : F.layout w = .error f) :
    ∃ bits, f = .invalidSize bits := by
  cases F with
  | move => exact Size.invalidSize_of_ofMoveBits (error_of_bind h)
  | dyadic _ _ | immediate _ | extended _ | quick | cmpm | eor =>
    exact Size.invalidSize_of_ofBits (error_of_bind h)
  | unary =>
    simp only [layout, Layout.unary] at h
    split at h
    · cases h
    · exact Size.invalidSize_of_ofBits (error_of_bind h)
  | shift =>
    simp only [layout, shift_eq] at h
    split at h
    · cases h
    · exact Size.invalidSize_of_ofBits (error_of_bind h)
  | bitDynamic => cases (bitDynamic_eq w).symm.trans h
  | bitStatic => cases (bitStatic_eq w).symm.trans h
  | _ => cases h

theorem Opcode.invalidSize_of_layout (h : w.layout = .error f) : ∃ bits, f = .invalidSize bits := by
  unfold layout at h
  split at h
  · exact Family.invalidSize_of_layout h
  · cases h

theorem Slot.invalidMode_of_fault {σ : Slot} (h : σ.fault? = some f) :
    ∃ mode reg, f = .invalidMode mode reg := by
  cases σ with
  | address m r s =>
    cases hy : EffectiveAddress.form? m r s with
    | none =>
      simp only [fault?, form, hy, Option.some.injEq] at h
      exact ⟨7, r % 8, h.symm⟩
    | some y => simp [fault?, form, hy] at h
  | _ => cases h

theorem Layout.invalidMode_of_firstFault {σs : List Slot} (h : firstFault? σs = some f) :
    ∃ mode reg, f = .invalidMode mode reg := by
  induction σs with
  | nil => cases h
  | cons σ σs ih =>
    rw [firstFault?] at h
    split at h
    · exact Slot.invalidMode_of_fault h
    · exact ih h

/-- A run over slots lacks bytes exactly where the first slot ends that the bytes do not reach. -/
theorem Layout.mapM_insufficientData_iff (σs : List Slot) {c : Cursor}
    (hc : c.position ≤ c.bytes.length) :
    (∃ c', σs.mapM Slot.decode c = .error (.insufficientData n a) c') ↔
      (ends c.position σs).find? (c.bytes.length < ·) = some n ∧ a = c.bytes.length := by
  induction σs generalizing c with
  | nil =>
    constructor
    · rintro ⟨c', h⟩
      cases h
    · rintro ⟨h, -⟩
      cases h
  | cons σ σs ih =>
    rcases σ.decode_cases hc with ⟨o, hd, hf, -, hl⟩ | ⟨f, hd, hf⟩ | ⟨hd, hf, hl⟩
    · have hp := c.position_advance σ.words
      have hc' : (c.advance σ.words).position ≤ (c.advance σ.words).bytes.length := hp ▸ hl
      have he : (ends c.position (σ :: σs)).find? (c.bytes.length < ·) =
          (ends (c.advance σ.words).position σs).find? (c.bytes.length < ·) := by
        simp [ends, hf, hp, Nat.not_lt.mpr hl]
      rw [he]
      refine Iff.trans ?_ (ih hc')
      simp only [List.mapM_cons, bind, EStateM.bind, hd]
      cases σs.mapM Slot.decode (c.advance σ.words) with
      | ok os c' => simp [pure, EStateM.pure]
      | error f c' => simp
    · obtain ⟨mode, reg, rfl⟩ := Slot.invalidMode_of_fault hf
      simp [List.mapM_cons, bind, EStateM.bind, hd, ends, hf]
    · simp [List.mapM_cons, bind, EStateM.bind, hd, ends, hf, hl, eq_comm]

theorem insufficientData_of_layout_iff (hl : Opcode.layout (joinBytes hi lo) = .ok l) :
    decodeInstruction (hi :: lo :: rest) address =
        .error ⟨address, some (joinBytes hi lo), .insufficientData n a⟩ ↔
      (ends 2 l.slots).find? ((hi :: lo :: rest).length < ·) = some n ∧
        a = (hi :: lo :: rest).length := by
  have hc : (Cursor.start (hi :: lo :: rest) address).position ≤ (hi :: lo :: rest).length := by
    simp [Cursor.start, Cursor.position]
  refine Iff.trans ?_ (mapM_insufficientData_iff l.slots hc)
  rcases mapM_decode l.slots hc with ⟨os, hm, -, -, hlen⟩ | ⟨f, c, hm, -⟩ | ⟨k, c, hm, -⟩
  · rw [decodeInstruction_of_read hl hm hlen, hm]
    simp
  · rw [decodeInstruction_of_stop hl hm, hm]
    simp
  · rw [decodeInstruction_of_stop hl hm, hm]
    simp

theorem Layout.exists_find?_ends {σs : List Slot} (hle : n ≤ a) (h : a < n + 2 * extent σs) :
    ∃ k, (ends n σs).find? (a < ·) = some (n + 2 * k) ∧ a < n + 2 * k ∧ k ≤ extent σs := by
  induction σs generalizing n with
  | nil =>
    rw [extent] at h
    omega
  | cons σ σs ih =>
    cases hf : σ.fault? with
    | some f =>
      simp only [extent, hf, Option.isSome_some, if_true] at h
      omega
    | none =>
      have he : extent (σ :: σs) = σ.words + extent σs := by simp [extent, hf]
      have hends : ends n (σ :: σs) = (n + 2 * σ.words) :: ends (n + 2 * σ.words) σs := by
        simp [ends, hf]
      rw [hends, List.find?_cons]
      by_cases ha : a < n + 2 * σ.words
      · exact ⟨σ.words, by simp only [ha, decide_true], ha, by omega⟩
      · obtain ⟨k, hk, hlt, hle'⟩ := ih (Nat.not_lt.mp ha) (by omega)
        have hsum : n + 2 * σ.words + 2 * k = n + 2 * (σ.words + k) := by omega
        rw [hsum] at hk hlt
        exact ⟨σ.words + k, by simpa only [ha, decide_false] using hk, hlt, by omega⟩

theorem Extension.words_le {α : Type} (x : Extension α) : x.words ≤ 2 := by
  cases x <;> simp [words]

theorem Slot.words_le (σ : Slot) : σ.words ≤ 2 := by
  unfold words
  split
  · exact Extension.words_le _
  · exact Nat.zero_le 2

theorem Layout.extent_le (σs : List Slot) : extent σs ≤ 2 * σs.length := by
  induction σs with
  | nil => exact Nat.le_refl 0
  | cons σ σs ih =>
    have hw := σ.words_le
    rw [extent, List.length_cons]
    split <;> omega

theorem Opcode.byteCount_mem (w : Opcode) : w.byteCount ∈ [2, 4, 6, 8, 10] := by
  unfold byteCount
  cases h : w.layout with
  | error f => exact List.mem_cons_self
  | ok l =>
    have ha := (Opcode.faithful h).arity
    have he := extent_le l.slots
    have hm : ∀ e ≤ 4, 2 + 2 * e ∈ [2, 4, 6, 8, 10] := by decide
    exact hm _ (by omega)

theorem Opcode.architectural_of_verdict (h : w.verdict = .error f) : f.Architectural := by
  unfold verdict at h
  split at h
  · split at h
    · next k hk =>
      cases h
      exact .inl (invalidMode_of_firstFault hk)
    · cases h
  · next k hk =>
    cases h
    exact .inr (invalidSize_of_layout hk)

theorem decodeInstruction_of_verdict {m : Mnemonic}
    (hv : Opcode.verdict (joinBytes hi lo) = .ok m)
    (hn : Opcode.byteCount (joinBytes hi lo) ≤ (hi :: lo :: rest).length) :
    ∃ i, decodeInstruction (hi :: lo :: rest) address = .ok i ∧
      i.size = Opcode.byteCount (joinBytes hi lo) ∧ i.mnemonic = m.text ∧
      i.bytes = (hi :: lo :: rest).take i.size := by
  unfold Opcode.verdict at hv
  unfold Opcode.byteCount at hn ⊢
  cases hl : Opcode.layout (joinBytes hi lo) with
  | error f => simp [hl] at hv
  | ok l =>
    simp only [hl] at hv hn ⊢
    rcases decodeInstruction_of_layout hl rest address with
      ⟨os, hd, hf, -⟩ | ⟨f, -, hf, -⟩ | ⟨n, -, hlt, hle⟩
    · simp only [hf, Except.ok.injEq] at hv
      subst hv
      exact ⟨_, hd, rfl, rfl, rfl⟩
    · simp [hf] at hv
    · omega

theorem decodeInstruction_of_faulty (hv : Opcode.verdict (joinBytes hi lo) = .error f)
    (hn : Opcode.byteCount (joinBytes hi lo) ≤ (hi :: lo :: rest).length) :
    decodeInstruction (hi :: lo :: rest) address = .error ⟨address, some (joinBytes hi lo), f⟩ := by
  unfold Opcode.verdict at hv
  unfold Opcode.byteCount at hn
  cases hl : Opcode.layout (joinBytes hi lo) with
  | error k =>
    simp only [hl, Except.error.injEq] at hv
    subst hv
    exact decodeInstruction_of_fault hl
  | ok l =>
    simp only [hl] at hv hn
    rcases decodeInstruction_of_layout hl rest address with
      ⟨os, -, hf, -⟩ | ⟨k, hd, hf, -⟩ | ⟨n, -, hlt, hle⟩
    · simp [hf] at hv
    · simp only [hf, Except.error.injEq] at hv
      rw [hd, hv]
    · omega

theorem Opcode.exists_layout_of_lt (htwo : 2 ≤ n) (hn : n < w.byteCount) :
    ∃ l k, w.layout = .ok l ∧ (ends 2 l.slots).find? (n < ·) = some (2 + 2 * k) ∧
      n < 2 + 2 * k ∧ 2 + 2 * k ≤ w.byteCount := by
  unfold byteCount at hn ⊢
  cases hl : w.layout with
  | error f =>
    simp only [hl] at hn
    omega
  | ok l =>
    simp only [hl] at hn ⊢
    obtain ⟨k, hk, hlt, hle⟩ := exists_find?_ends htwo hn
    exact ⟨l, k, rfl, hk, hlt, by omega⟩

theorem Opcode.needed_bounds (htwo : 2 ≤ n) (hn : n < w.byteCount) :
    w.needed n % 2 = 0 ∧ n < w.needed n ∧ w.needed n ≤ w.byteCount := by
  obtain ⟨l, k, hl, hk, hlt, hle⟩ := exists_layout_of_lt htwo hn
  have hneeded : w.needed n = 2 + 2 * k := by simp only [needed, hl, hk, Option.getD_some]
  rw [hneeded]
  exact ⟨by omega, hlt, hle⟩

theorem decodeInstruction_of_short (rest : List UInt8) (address : UInt32)
    (hn : (hi :: lo :: rest).length < Opcode.byteCount (joinBytes hi lo)) :
    decodeInstruction (hi :: lo :: rest) address = .error ⟨address, some (joinBytes hi lo),
      .insufficientData (Opcode.needed (joinBytes hi lo) (hi :: lo :: rest).length)
        (hi :: lo :: rest).length⟩ := by
  obtain ⟨l, k, hl, hk, -⟩ := Opcode.exists_layout_of_lt (by simp) hn
  refine (insufficientData_of_layout_iff hl).mpr ⟨?_, rfl⟩
  simp only [Opcode.needed, hl, hk, Option.getD_some]

theorem fault_ne_outOfRange {e : DecodeError}
    (h : decodeInstruction (hi :: lo :: rest) address = .error e) (i n : Nat) :
    e.fault ≠ .outOfRange i n := by
  cases hl : Opcode.layout (joinBytes hi lo) with
  | error f =>
    obtain ⟨bits, rfl⟩ := Opcode.invalidSize_of_layout hl
    cases (decodeInstruction_of_fault hl).symm.trans h
    exact nofun
  | ok l =>
    rcases decodeInstruction_of_layout hl rest address with ⟨os, hd, -⟩ | ⟨f, hd, hf, -⟩ | ⟨k, hd, -⟩
    · cases hd.symm.trans h
    · obtain ⟨mode, reg, rfl⟩ := invalidMode_of_firstFault hf
      cases hd.symm.trans h
      exact nofun
    · cases hd.symm.trans h
      exact nofun

/-- The opcode and the number of bytes decide what comes of an instruction. -/
theorem outcome_of_opcode (w : Opcode) :
    w.byteCount ∈ [2, 4, 6, 8, 10] ∧ (∀ k, w.verdict = .error k → k.Architectural) ∧
      (∀ n, 2 ≤ n → n < w.byteCount →
        w.needed n % 2 = 0 ∧ n < w.needed n ∧ w.needed n ≤ w.byteCount) ∧
      ∀ hi lo rest address, joinBytes hi lo = w →
        (w.byteCount ≤ (hi :: lo :: rest).length →
          match w.verdict with
          | .ok m => ∃ i, decodeInstruction (hi :: lo :: rest) address = .ok i ∧
              i.size = w.byteCount ∧ i.mnemonic = m.text ∧
              i.bytes = (hi :: lo :: rest).take i.size
          | .error k =>
            decodeInstruction (hi :: lo :: rest) address = .error ⟨address, some w, k⟩) ∧
        ((hi :: lo :: rest).length < w.byteCount →
          decodeInstruction (hi :: lo :: rest) address = .error ⟨address, some w,
            .insufficientData (w.needed (hi :: lo :: rest).length) (hi :: lo :: rest).length⟩) ∧
        ∀ i n, decodeInstruction (hi :: lo :: rest) address ≠
          .error ⟨address, some w, .outOfRange i n⟩ := by
  refine ⟨w.byteCount_mem, fun k ↦ Opcode.architectural_of_verdict,
    fun n ↦ Opcode.needed_bounds, ?_⟩
  intro hi lo rest address hw
  subst hw
  refine ⟨?_, decodeInstruction_of_short rest address, ?_⟩
  · intro hn
    cases hv : Opcode.verdict (joinBytes hi lo) with
    | ok m => exact decodeInstruction_of_verdict hv hn
    | error k => exact decodeInstruction_of_faulty hv hn
  · intro i n hd
    exact fault_ne_outOfRange hd i n rfl

theorem outcome_of_cmpi :
    (∃ i, decodeInstruction [0x0C, 0x39, 0, 5, 0, 0, 0x12, 0x34] 0 = .ok i ∧ i.size = 8 ∧
      i.mnemonic = "CMPI.B") ∧
    decodeInstruction [0x0C, 0x39, 0, 5, 0] 0 = .error ⟨0, some 0x0C39,
      .insufficientData (Opcode.needed 0x0C39 5) 5⟩ ∧
    Opcode.needed 0x0C39 5 = 8 ∧ 5 < Opcode.needed 0x0C39 5 := by
  obtain ⟨-, -, hneeded, h⟩ := outcome_of_opcode 0x0C39
  obtain ⟨i, hd, hs, hm, -⟩ := (h 0x0C 0x39 [0, 5, 0, 0, 0x12, 0x34] 0 rfl).1 (by decide)
  exact ⟨⟨i, hd, hs, hm⟩, (h 0x0C 0x39 [0, 5, 0] 0 rfl).2.1 (by decide), by decide,
    (hneeded 5 (by decide) (by decide)).2.1⟩

end Mc68000
