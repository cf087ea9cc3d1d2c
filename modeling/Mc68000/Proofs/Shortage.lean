import Mc68000.Proofs.Outcome

namespace Mc68000

open Layout

variable {bytes bytes' : List UInt8} {address : UInt32} {e : DecodeError} {n a : Nat}

theorem Layout.length_ends_le (n : Nat) (σs : List Slot) : (ends n σs).length ≤ σs.length := by
  induction σs generalizing n with
  | nil => exact Nat.le_refl 0
  | cons σ σs ih =>
    rw [ends]
    split
    · exact Nat.zero_le _
    · exact Nat.succ_le_succ (ih _)

/-- The numbers of bytes at which decoding can have to stop for want of more: behind the opcode, as
far as that is known, and behind each of its operands. -/
def stops : List UInt8 → List Nat
  | hi :: lo :: _ =>
    2 :: match Opcode.layout (joinBytes hi lo) with
      | .ok l => ends 2 l.slots
      | .error _ => []
  | _ => [2]

theorem length_stops_le (bytes : List UInt8) : (stops bytes).length ≤ 3 := by
  rcases bytes with _ | ⟨hi, _ | ⟨lo, rest⟩⟩
  · exact Nat.le_add_left 1 2
  · exact Nat.le_add_left 1 2
  · rw [stops, List.length_cons]
    refine Nat.succ_le_succ ?_
    cases hl : Opcode.layout (joinBytes hi lo) with
    | error f => exact Nat.zero_le 2
    | ok l => exact Nat.le_trans (length_ends_le 2 l.slots) (Opcode.faithful hl).arity

/-- Further bytes can tell of further stops, but they change none that is known. -/
theorem stops_monotone (h : bytes <+: bytes') : stops bytes <+: stops bytes' := by
  obtain ⟨t, rfl⟩ := h
  have htwo (bs : List UInt8) : [2] <+: stops bs := by
    unfold stops
    split
    · exact ⟨_, rfl⟩
    · exact List.prefix_rfl
  rcases bytes with _ | ⟨hi, _ | ⟨lo, rest⟩⟩
  · exact htwo _
  · exact htwo _
  · exact List.prefix_rfl

theorem insufficientData_iff :
    decodeInstruction bytes address = .error ⟨address, opcode? bytes, .insufficientData n a⟩ ↔
      (stops bytes).find? (bytes.length < ·) = some n ∧ a = bytes.length := by
  rcases bytes with _ | ⟨hi, _ | ⟨lo, rest⟩⟩
  · simp [decodeInstruction, opcode?, stops, eq_comm]
  · simp [decodeInstruction, opcode?, stops, eq_comm]
  · have hlen : ¬ (hi :: lo :: rest).length < 2 := by simp
    cases hl : Opcode.layout (joinBytes hi lo) with
    | error f =>
      obtain ⟨bits, rfl⟩ := Opcode.invalidSize_of_layout hl
      simp [decodeInstruction_of_fault hl, stops, hl, opcode?]
    | ok l =>
      have hfind : (stops (hi :: lo :: rest)).find? ((hi :: lo :: rest).length < ·) =
          (ends 2 l.slots).find? ((hi :: lo :: rest).length < ·) := by
        simp only [stops, hl, List.find?_cons, hlen, decide_false]
      rw [hfind]
      exact insufficientData_of_layout_iff hl

theorem find_of_error (h : decodeInstruction bytes address = .error e)
    (he : e.fault = .insufficientData n a) :
    (stops bytes).find? (bytes.length < ·) = some n ∧ a = bytes.length := by
  rw [eq_of_error h, he] at h
  exact insufficientData_iff.mp h

/-- The bytes that are asked for, if decoding fails for want of them. -/
def shortage? (bytes : List UInt8) (address : UInt32) : Option Nat :=
  match decodeInstruction bytes address with
  | .error ⟨_, _, .insufficientData needed _⟩ => some needed
  | _ => none

theorem shortage?_eq (bytes : List UInt8) (address : UInt32) :
    shortage? bytes address = (stops bytes).find? (bytes.length < ·) := by
  ext n
  rw [shortage?]
  constructor
  · intro h
    split at h
    · next hd =>
      cases h
      exact (find_of_error hd rfl).1
    · cases h
  · intro h
    rw [insufficientData_iff.mpr ⟨h, rfl⟩]

section Stops

variable {ns ns' : List Nat} {b : Nat}

theorem lt_of_find?_lt (h : ns.find? (a < ·) = some n) : a < n := by
  have hn := List.find?_some h
  exact of_decide_eq_true hn

theorem find?_lt_of_prefix (h : ns.find? (a < ·) = some n) (hp : ns <+: ns') (hab : a ≤ b)
    (hb : b < n) : ns'.find? (b < ·) = some n := by
  obtain ⟨-, before, after, rfl, hbefore⟩ := List.find?_eq_some_iff_append.mp h
  obtain ⟨more, rfl⟩ := hp
  refine List.find?_eq_some_iff_append.mpr ⟨decide_eq_true hb, before, after ++ more, by simp, ?_⟩
  intro k hk
  have hka := hbefore k hk
  simp only [Bool.not_eq_true', decide_eq_false_iff_not] at hka ⊢
  omega

theorem countP_le_lt_of_prefix (h : ns.find? (a < ·) = some n) (hp : ns <+: ns') (hn : n ≤ b) :
    ns.countP (· ≤ a) < ns'.countP (· ≤ b) := by
  have han := lt_of_find?_lt h
  obtain ⟨-, before, after, rfl, -⟩ := List.find?_eq_some_iff_append.mp h
  obtain ⟨more, rfl⟩ := hp
  have hmono (ks : List Nat) : ks.countP (· ≤ a) ≤ ks.countP (· ≤ b) := by
    refine List.countP_mono_left fun k _ hk ↦ ?_
    have hk := of_decide_eq_true hk
    exact decide_eq_true (by omega)
  have hbefore := hmono before
  have hafter := hmono after
  simp only [List.countP_append, List.countP_cons, decide_eq_true hn,
    decide_eq_false (Nat.not_le.mpr han), if_true, Bool.false_eq_true, if_false]
  omega

end Stops

/-- What a caller does about a shortage: it comes back with at least as many bytes as were asked
for, of which the first are the old ones. -/
def Refill (address : UInt32) (bytes bytes' : List UInt8) : Prop :=
  ∀ needed, shortage? bytes address = some needed → bytes <+: bytes' ∧ needed ≤ bytes'.length

def reached (bytes : List UInt8) : Nat := (stops bytes).countP (· ≤ bytes.length)

theorem reached_lt_of_short (h : shortage? bytes address = some n) : reached bytes < 3 := by
  rw [shortage?_eq] at h
  have hne : reached bytes ≠ (stops bytes).length := by
    intro hall
    have hn := List.countP_eq_length.mp hall n (List.mem_of_find?_eq_some h)
    exact Nat.not_le.mpr (lt_of_find?_lt h) (of_decide_eq_true hn)
  have hle : reached bytes ≤ (stops bytes).length := List.countP_le_length
  have hthree := length_stops_le bytes
  omega

theorem reached_lt_of_refill (hs : shortage? bytes address = some n)
    (h : Refill address bytes bytes') : reached bytes < reached bytes' := by
  obtain ⟨hp, hn⟩ := h n hs
  rw [shortage?_eq] at hs
  exact countP_le_lt_of_prefix hs (stops_monotone hp) hn

theorem le_reached_of_refills {feed : Nat → List UInt8} {k : Nat}
    (h : ∀ j < k, Refill address (feed j) (feed (j + 1)))
    (hs : ∀ j < k, ∃ n, shortage? (feed j) address = some n) : k ≤ reached (feed k) := by
  induction k with
  | zero => exact Nat.zero_le _
  | succ k ih =>
    have hk := ih (fun j hj ↦ h j (Nat.lt_succ_of_lt hj)) (fun j hj ↦ hs j (Nat.lt_succ_of_lt hj))
    obtain ⟨n, hn⟩ := hs k (Nat.lt_succ_self k)
    exact Nat.lt_of_le_of_lt hk (reached_lt_of_refill hn (h k (Nat.lt_succ_self k)))

theorem exists_served {feed : Nat → List UInt8}
    (h : ∀ k, Refill address (feed k) (feed (k + 1))) :
    ∃ k ≤ 3, shortage? (feed k) address = none := by
  by_contra hall
  have hs : ∀ k ≤ 3, ∃ n, shortage? (feed k) address = some n := by
    intro k hk
    refine Option.ne_none_iff_exists'.mp fun hnone ↦ hall ⟨k, hk, hnone⟩
  have hk := le_reached_of_refills (fun j (_ : j < 3) ↦ h j) (fun j hj ↦ hs j (Nat.le_of_lt hj))
  obtain ⟨n, hn⟩ := hs 3 (Nat.le_refl 3)
  exact Nat.not_le.mpr (reached_lt_of_short hn) hk

theorem decodeInstruction_append_of_architectural (h : decodeInstruction bytes address = .error e)
    (he : e.fault.Architectural) (t : List UInt8) :
    decodeInstruction (bytes ++ t) address = .error e := by
  have hshort (n a : Nat) : ¬ (Fault.insufficientData n a).Architectural := by
    rintro (⟨mode, reg, hf⟩ | ⟨bits, hf⟩)
    · cases hf
    · cases hf
  rcases bytes with _ | ⟨hi, _ | ⟨lo, rest⟩⟩
  · cases h
    exact absurd he (hshort _ _)
  · cases h
    exact absurd he (hshort _ _)
  · cases hl : Opcode.layout (joinBytes hi lo) with
    | error f =>
      rw [decodeInstruction_of_fault hl] at h
      exact (decodeInstruction_of_fault hl).trans h
    | ok l =>
      rcases decodeInstruction_of_layout hl rest address with
        ⟨os, hd, -⟩ | ⟨f, hd, hf, hle⟩ | ⟨n, hd, -⟩
      · rw [hd] at h
        cases h
      · rcases decodeInstruction_of_layout hl (rest ++ t) address with
          ⟨os, -, hnone, -⟩ | ⟨f', hd', hf', -⟩ | ⟨n, -, hlt, hn⟩
        · rw [hf] at hnone
          cases hnone
        · rw [hf] at hf'
          cases hf'
          exact hd'.trans (hd.symm.trans h)
        · simp only [List.length_cons, List.length_append] at hle hlt
          omega
      · rw [hd] at h
        cases h
        exact absurd he (hshort _ _)

/-- A shortage is reported as it is: it lasts until there are as many bytes as were asked for and is
over then, so that no instruction takes more than three refills. Any other failure is final. -/
theorem shortage_tight (bytes : List UInt8) (address : UInt32) :
    (∀ e needed available, decodeInstruction bytes address = .error e →
      e.fault = .insufficientData needed available →
      available = bytes.length ∧ bytes.length < needed ∧
      ∀ t, ((bytes ++ t).length < needed →
          ∃ e', decodeInstruction (bytes ++ t) address = .error e' ∧
            e'.fault = .insufficientData needed (bytes ++ t).length) ∧
        (needed ≤ (bytes ++ t).length → ∀ e' needed' available',
          decodeInstruction (bytes ++ t) address = .error e' →
          e'.fault = .insufficientData needed' available' → needed < needed')) ∧
    (∀ feed : Nat → List UInt8, feed 0 = bytes →
      (∀ k, Refill address (feed k) (feed (k + 1))) →
      ∃ k ≤ 3, shortage? (feed k) address = none) ∧
    ∀ e, decodeInstruction bytes address = .error e → e.fault.Architectural →
      ∀ t, decodeInstruction (bytes ++ t) address = .error e := by
  refine ⟨?_, fun feed _ hfeed ↦ exists_served hfeed,
    fun e h he ↦ decodeInstruction_append_of_architectural h he⟩
  intro e needed available h hf
  obtain ⟨hfind, hlen⟩ := find_of_error h hf
  refine ⟨hlen, lt_of_find?_lt hfind, fun t ↦ ⟨fun ht ↦ ?_, ?_⟩⟩
  · have hle : bytes.length ≤ (bytes ++ t).length := by simp
    have hfind' := find?_lt_of_prefix hfind (stops_monotone (List.prefix_append bytes t)) hle ht
    exact ⟨_, insufficientData_iff.mpr ⟨hfind', rfl⟩, rfl⟩
  · intro ht e' needed' available' h' hf'
    exact Nat.lt_of_le_of_lt ht (lt_of_find?_lt (find_of_error h' hf').1)

theorem shortage_tight_move :
    let bytes : List UInt8 := [0x23, 0xF9, 0, 0, 0x10, 0, 0, 0, 0x20, 0]
    let feed : Nat → List UInt8 := fun k ↦ bytes.take ([0, 2, 6].getD k 10)
    (shortage? (feed 0) 0 = some 2 ∧ shortage? (feed 1) 0 = some 6 ∧
      shortage? (feed 2) 0 = some 10) ∧
    (∃ k ≤ 3, shortage? (feed k) 0 = none) ∧
    decodeInstruction [0x23, 0xF9, 0] 0 = .error ⟨0, some 0x23F9, .insufficientData 6 3⟩ ∧
    (∃ e', decodeInstruction [0x23, 0xF9, 0, 0, 0x10] 0 = .error e' ∧
      e'.fault = .insufficientData 6 5) ∧
    decodeInstruction [0x35, 0xFF] 0 = .error ⟨0, some 0x35FF, .invalidMode 7 7⟩ ∧
    ∀ t, decodeInstruction ([0x35, 0xFF] ++ t) 0 =
      .error ⟨0, some 0x35FF, .invalidMode 7 7⟩ := by
  intro bytes feed
  have h0 : shortage? (feed 0) 0 = some 2 := by decide
  have h1 : shortage? (feed 1) 0 = some 6 := by decide
  have h2 : shortage? (feed 2) 0 = some 10 := by decide
  have h3 : shortage? bytes 0 = none := by decide
  have hfeed : ∀ k, Refill 0 (feed k) (feed (k + 1)) := by
    rintro (_ | _ | _ | k) needed hn
    · cases h0.symm.trans hn
      decide
    · cases h1.symm.trans hn
      decide
    · cases h2.symm.trans hn
      decide
    · cases h3.symm.trans hn
  have hshort : decodeInstruction [0x23, 0xF9, 0] 0 =
      .error ⟨0, some 0x23F9, .insufficientData 6 3⟩ := by decide
  have hbad : decodeInstruction [0x35, 0xFF] 0 = .error ⟨0, some 0x35FF, .invalidMode 7 7⟩ := by
    decide
  obtain ⟨-, -, htight⟩ := (shortage_tight [0x23, 0xF9, 0] 0).1 _ _ _ hshort rfl
  exact ⟨⟨h0, h1, h2⟩, (shortage_tight [] 0).2.1 feed rfl hfeed, hshort,
    (htight [0, 0x10]).1 (by decide), hbad,
    (shortage_tight [0x35, 0xFF] 0).2.2 _ hbad (.inl ⟨7, 7, rfl⟩)⟩

end Mc68000
