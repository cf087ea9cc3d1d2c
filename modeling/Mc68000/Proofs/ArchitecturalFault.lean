import Mc68000.Proofs.DataWord
import Mc68000.Proofs.ReadingBounds

namespace Mc68000

open Layout EffectiveAddress

def EffectiveAddress.namesNothing (mode reg : Nat) : Bool := mode == 7 && 5 ≤ reg

/-- Whether the low six bits are the mode and the register of an operand. -/
def addressedUnder (label : String) (w : Opcode) : Bool :=
  match label with
  | "Bcc" | "MOVEQ" => false
  | "SHIFT" => w.field 6 2 == 3
  | _ => true

namespace Opcode

def undefinedSource (w : Opcode) : Bool :=
  (resolve w).any (fun e ↦ addressedUnder e.pattern.name w) && namesNothing w.mode w.reg

/-- Of all words those for a MOVE alone have a second operand with a mode of its own. -/
def undefinedDestination (w : Opcode) : Bool :=
  (resolve w).any (fun e ↦ e.pattern.name == "MOVE") && namesNothing (w.field 6 3) w.upperReg

end Opcode

variable {F : Family} {w : Opcode} {l l' : Layout} {e : Entry} {f : Fault} {hi lo : UInt8}
  {rest : List UInt8} {address : UInt32}

theorem Family.unsized_of_layout (he : resolve w = some e) (h : e.family.layout w = .error f) :
    e.family.sized ∧ w.field 6 2 = 3 ∧ f = .invalidSize 3 := by
  have hsize {g : Size → Layout} (h : (do let s ← w.size; return g s) = .error f) :
      w.field 6 2 = 3 ∧ f = .invalidSize 3 := by
    have hs := error_of_bind h
    by_cases h3 : w.field 6 2 = 3
    · rw [Opcode.size_of_field_three h3] at hs
      exact ⟨h3, (Except.error.inj hs).symm⟩
    · obtain ⟨s, hs', -⟩ := Opcode.exists_size h3
      rw [hs'] at hs
      cases hs
  have hmove := Opcode.exists_moveSize he
  generalize e.family = F at *
  cases F with
  | dyadic _ _ | immediate _ | extended _ | quick | cmpm | eor => exact ⟨rfl, hsize h⟩
  | unary =>
    simp only [layout, Layout.unary] at h
    split at h
    · cases h
    · exact ⟨rfl, hsize h⟩
  | shift =>
    simp only [layout, shift_eq] at h
    split at h
    · cases h
    · next h3 => exact absurd (hsize h).1 h3
  | move =>
    obtain ⟨s, hs, -⟩ := hmove rfl
    rw [layout, Layout.move, bind_of_size hs] at h
    cases h
  | bitDynamic => cases (bitDynamic_eq w).symm.trans h
  | bitStatic => cases (bitStatic_eq w).symm.trans h
  | _ => cases h

theorem Family.layout_of_unsized (he : resolve w = some e) (hs : e.family.sized)
    (h3 : w.field 6 2 = 3) : e.family.layout w = .error (.invalidSize 3) := by
  obtain ⟨hsome, -⟩ := operations_of_resolve he
  have hbind (g : Size → Layout) :
      (do let s ← w.size; return g s) = .error (.invalidSize 3) := by
    rw [Opcode.size_of_field_three h3]
    rfl
  generalize e.family = F at *
  cases F with
  | dyadic _ _ | immediate _ | extended _ | quick | cmpm | eor => exact hbind _
  | unary =>
    obtain ⟨op, ho, -⟩ := exists_of_toList_ne_nil hsome
    rw [layout, Layout.unary, ho]
    exact hbind _
  | _ => cases hs

theorem Opcode.layout_eq_error_iff :
    w.layout = .error f ↔ w &&& 0xFFC0 ∈ unsized ∧ f = .invalidSize 3 := by
  constructor
  · intro h
    cases he : resolve w with
    | none => simp [layout, he] at h
    | some e =>
      rw [layout_of_resolve he] at h
      obtain ⟨hs, h3, rfl⟩ := Family.unsized_of_layout he h
      exact ⟨(unsized_of_field_three he hs h3).2, rfl⟩
  · rintro ⟨hw, rfl⟩
    obtain ⟨h3, e, he, hs, -⟩ := resolve_of_unsized hw
    rw [layout_of_resolve he]
    exact Family.layout_of_unsized he hs h3

namespace Family

def implicit : Family → Bool
  | movep | moveUsp | exg | swap | link | unlk => true
  | extended _ | decimal _ | cmpm | ext => true
  | toCcr | toSr | implied | stop | trap | dbcc => true
  | _ => false

def addresses : Family → Opcode → Bool
  | branch, _ => false
  | moveq, _ => false
  | shift, w => w.field 6 2 == 3
  | F, _ => !F.implicit

end Family

def EffectiveAddress.fault? (mode reg : Nat) : Option Fault :=
  if namesNothing mode reg then some (.invalidMode 7 reg) else none

theorem Slot.fault?_address {mode reg : Nat} (hm : mode < 8) (hr : reg < 8) (s : Size) :
    (Slot.address mode reg s).fault? = EffectiveAddress.fault? mode reg := by
  have hnone : form? mode reg s = none ↔ namesNothing mode reg = true := by
    rw [form?_eq_none_iff, Nat.mod_eq_of_lt hm, Nat.mod_eq_of_lt hr]
    simp [namesNothing]
  cases hf : form? mode reg s with
  | none =>
    simp [fault?, form, hf, EffectiveAddress.fault?, hnone.mp hf, Nat.mod_eq_of_lt hr]
  | some x =>
    have hn : namesNothing mode reg ≠ true := by
      intro h
      rw [hnone.mpr h] at hf
      cases hf
    simp [fault?, form, hf, EffectiveAddress.fault?, hn]

theorem Opcode.fault?_address (w : Opcode) (s : Size) :
    (w.address s).fault? = EffectiveAddress.fault? w.mode w.reg :=
  Slot.fault?_address (w.field_lt 3 3) (w.field_lt 0 3) s

namespace Layout

theorem firstFault?_cons (σ : Slot) (σs : List Slot) :
    firstFault? (σ :: σs) = σ.fault?.or (firstFault? σs) := by
  rw [firstFault?]
  cases σ.fault? <;> rfl

def Faults (w : Opcode) (x : Option Fault) (l : Layout) : Prop :=
  l = dataWord w ∨ firstFault? l.slots = x

variable {x : Option Fault} {m : Mnemonic} {b d : Bool} {σ τ : Slot} {s : Size}

theorem faults_dataWord : Faults w x (dataWord w) := .inl rfl

theorem faults_address : 
    Faults w (EffectiveAddress.fault? w.mode w.reg) ⟨m, [w.address s], b, d⟩ := by
  refine .inr ?_
  rw [firstFault?_cons, Opcode.fault?_address]
  exact Option.or_none

theorem faults_address_fst (hτ : τ.fault? = none) :
    Faults w (EffectiveAddress.fault? w.mode w.reg) ⟨m, [w.address s, τ], b, d⟩ := by
  refine .inr ?_
  rw [firstFault?_cons, firstFault?_cons, hτ, Opcode.fault?_address]
  exact Option.or_none

theorem faults_address_snd (hσ : σ.fault? = none) :
    Faults w (EffectiveAddress.fault? w.mode w.reg) ⟨m, [σ, w.address s], b, d⟩ := by
  refine .inr ?_
  rw [firstFault?_cons, firstFault?_cons, hσ, Opcode.fault?_address]
  exact Option.or_none

theorem faults_ite {c : Prop} [Decidable c] (h : Faults w x l) (h' : Faults w x l') :
    Faults w x (if c then l else l') := by
  split
  · exact h
  · exact h'

theorem faults_ite_slots {c : Prop} [Decidable c] {σs τs : List Slot} 
    (h : Faults w x ⟨m, σs, b, d⟩)
    (h' : Faults w x ⟨m, τs, b, d⟩) : Faults w x ⟨m, if c then σs else τs, b, d⟩ := by
  split
  · exact h
  · exact h'

end Layout

def Family.fault? : Family → Opcode → Option Fault
  | move, w =>
    (EffectiveAddress.fault? w.mode w.reg).or (EffectiveAddress.fault? (w.field 6 3) w.upperReg)
  | F, w => if F.addresses w then EffectiveAddress.fault? w.mode w.reg else none

theorem Family.faults_of_layout (h : F.layout w = .ok l) : Faults w (F.fault? w) l := by
  have hdata {x : Option Fault} : Faults w x (dataWord w) := faults_dataWord
  cases F with
  | moveq | swap | link | unlk | ext | stop | trap | dbcc =>
    cases h
    exact .inr rfl
  | movep | moveUsp | decimal _ =>
    cases h
    exact faults_ite_slots (.inr rfl) (.inr rfl)
  | extended _ =>
    obtain ⟨s, -, rfl⟩ := exists_of_bind_eq_ok h
    exact faults_ite_slots (.inr rfl) (.inr rfl)
  | cmpm =>
    obtain ⟨s, -, rfl⟩ := exists_of_bind_eq_ok h
    exact .inr rfl
  | branch =>
    cases h
    rw [branch_eq]
    split
    · exact .inr rfl
    · exact .inr rfl
    · exact .inr rfl
  | exg =>
    cases h
    unfold Layout.exg
    split
    · exact .inr rfl
    · exact .inr rfl
    · exact .inr rfl
    · exact hdata
  | toCcr =>
    cases h
    unfold Layout.toCcr
    split
    · exact .inr rfl
    · exact hdata
  | toSr =>
    cases h
    unfold Layout.toSr
    split
    · exact .inr rfl
    · exact hdata
  | implied =>
    cases h
    unfold Layout.implied
    split
    · exact .inr rfl
    · exact hdata
  | control _ =>
    cases h
    exact faults_address
  | moveToCcr | moveToSr | lea | toAddress _ | mulDiv | chk =>
    cases h
    exact faults_address_fst rfl
  | moveFromSr =>
    cases h
    exact faults_address_snd rfl
  | immediate _ | eor | bitDynamic | bitStatic =>
    obtain ⟨a, -, rfl⟩ := exists_of_bind_eq_ok h
    exact faults_address_snd rfl
  | movem =>
    cases h
    exact faults_ite (faults_address_snd rfl) hdata
  | alterableByte _ | scc =>
    cases h
    exact faults_ite faults_address hdata
  | quick =>
    obtain ⟨s, -, rfl⟩ := exists_of_bind_eq_ok h
    exact faults_ite (faults_address_snd rfl) hdata
  | dyadic _ _ =>
    obtain ⟨s, -, rfl⟩ := exists_of_bind_eq_ok h
    exact faults_ite (faults_ite (faults_address_snd rfl) hdata)
      (faults_ite hdata (faults_address_fst rfl))
  | unary =>
    simp only [layout, Layout.unary] at h
    split at h
    · cases h
      exact hdata
    · obtain ⟨s, -, rfl⟩ := exists_of_bind_eq_ok h
      exact faults_ite faults_address hdata
  | shift =>
    simp only [layout, shift_eq] at h
    split at h
    · next h3 =>
      cases h
      simp only [fault?, addresses, h3, beq_self_eq_true, if_true]
      exact faults_ite hdata faults_address
    · next h3 =>
      obtain ⟨s, -, rfl⟩ := exists_of_bind_eq_ok h
      have hn : addresses .shift w = false := beq_false_of_ne h3
      simp only [fault?, hn]
      refine .inr ?_
      cases w.bit 5 <;> rfl
  | move =>
    obtain ⟨s, -, rfl⟩ := exists_of_bind_eq_ok h
    split
    · next h1 =>
      have hn : EffectiveAddress.fault? (w.field 6 3) w.upperReg = none := by
        rw [h1]
        rfl
      rw [fault?, hn, Option.or_none]
      exact faults_ite hdata (faults_address_fst rfl)
    · have hr : w.upperReg < 8 := w.field_lt 9 3
      refine .inr ?_
      rw [Layout.sized, firstFault?_cons, firstFault?_cons, Opcode.fault?_address,
        Slot.fault?_address (w.field_lt 6 3) hr]
      exact congrArg _ Option.or_none

theorem table_addressed : ∀ e ∈ table, (e.family = .move ↔ e.pattern.name = "MOVE") ∧
    ((e.family, e.pattern.name) ∈ [(.branch, "Bcc"), (.moveq, "MOVEQ"), (.shift, "SHIFT")] ∨
      e.family ∉ [.branch, .moveq, .shift] ∧ e.pattern.name ∉ ["Bcc", "MOVEQ", "SHIFT"]) := by
  decide

theorem table_implicit : ∀ e ∈ table, e.family.implicit →
    e.lacks 0x3F 0x3D ∧ e.lacks 0x3F 0x3E ∧ e.lacks 0x3F 0x3F := by
  decide

theorem Opcode.namesNothing_of_implicit (h : resolve w = some e) (hF : e.family.implicit) :
    namesNothing w.mode w.reg = false := by
  obtain ⟨hd, he, hf⟩ := table_implicit e (List.mem_of_find?_eq_some h) hF
  by_contra hn
  obtain ⟨h7, h5⟩ : w.mode = 7 ∧ 5 ≤ w.reg := by simpa [namesNothing] using hn
  have h6 : w.field 0 6 = w.mode <<< 3 + w.reg := by
    simp only [mode, reg, field, Nat.one_shiftLeft]
    omega
  have hand {v : UInt16} (hv : v.toNat = 56 + w.reg) : w &&& 0x3F = v :=
    and_of_field (i := 0) (n := 6) rfl (by rw [hv, h6, h7]; rfl)
  have hlt : w.reg < 8 := w.field_lt 0 3
  rcases (show w.reg = 5 ∨ w.reg = 6 ∨ w.reg = 7 by omega) with hr | hr | hr
  · exact Entry.and_ne_of_lacks h hd (hand (by rw [hr]; rfl))
  · exact Entry.and_ne_of_lacks h he (hand (by rw [hr]; rfl))
  · exact Entry.and_ne_of_lacks h hf (hand (by rw [hr]; rfl))

theorem Opcode.undefinedSource_eq (h : resolve w = some e) :
    w.undefinedSource = (e.family.addresses w && namesNothing w.mode w.reg) := by
  have himp := namesNothing_of_implicit h
  obtain ⟨-, hlabel⟩ := table_addressed e (List.mem_of_find?_eq_some h)
  rw [undefinedSource, h, Option.any_some]
  generalize e.family = F at *
  generalize e.pattern.name = label at *
  rcases hlabel with hlabel | ⟨hF, hlabel⟩
  · simp only [List.mem_cons, Prod.mk.injEq, List.not_mem_nil, or_false] at hlabel
    obtain ⟨rfl, rfl⟩ | ⟨rfl, rfl⟩ | ⟨rfl, rfl⟩ := hlabel
    · rfl
    · rfl
    · rfl
  · have hunder : addressedUnder label w = true := by
      simp only [List.mem_cons, not_or] at hlabel
      simp [addressedUnder, hlabel]
    have haddr : F.addresses w = !F.implicit := by
      unfold Family.addresses
      split
      · simp at hF
      · simp at hF
      · simp at hF
      · rfl
    rw [hunder, haddr]
    cases hi : F.implicit with
    | false => rfl
    | true => rw [himp hi, Bool.and_false, Bool.and_false]

theorem Opcode.undefinedDestination_eq (h : resolve w = some e) :
    w.undefinedDestination =
      (decide (e.family = .move) && namesNothing (w.field 6 3) w.upperReg) := by
  obtain ⟨hmove, -⟩ := table_addressed e (List.mem_of_find?_eq_some h)
  rw [undefinedDestination, h, Option.any_some, decide_eq_decide.mpr hmove]
  rfl

def Opcode.modeFault? (w : Opcode) : Option Fault :=
  if w.undefinedSource then some (.invalidMode 7 w.reg)
  else if w.undefinedDestination then some (.invalidMode 7 w.upperReg)
  else none

theorem Opcode.modeFault?_eq_some_iff :
    w.modeFault? = some f ↔ (w.undefinedSource = true ∨ w.undefinedDestination = true) ∧
      f = .invalidMode 7 (if w.undefinedSource then w.reg else w.upperReg) := by
  unfold modeFault?
  cases w.undefinedSource with
  | true => simp [eq_comm (a := f)]
  | false => cases w.undefinedDestination <;> simp [eq_comm (a := f)]

theorem Family.fault?_eq (h : resolve w = some e) : e.family.fault? w = w.modeFault? := by
  rw [Opcode.modeFault?, Opcode.undefinedSource_eq h, Opcode.undefinedDestination_eq h]
  generalize e.family = F
  by_cases hF : F = .move
  · subst hF
    have ha : addresses .move w = true := rfl
    rw [Family.fault?, ha, decide_eq_true rfl, Bool.true_and, Bool.true_and]
    unfold EffectiveAddress.fault?
    cases namesNothing w.mode w.reg <;> cases namesNothing (w.field 6 3) w.upperReg <;> rfl
  · have hother : F.fault? w =
        if F.addresses w then EffectiveAddress.fault? w.mode w.reg else none := by
      cases F with
      | move => exact absurd rfl hF
      | _ => rfl
    rw [hother, decide_eq_false hF, Bool.false_and]
    unfold EffectiveAddress.fault?
    cases F.addresses w <;> cases namesNothing w.mode w.reg <;> rfl

def Opcode.fault? (w : Opcode) : Option Fault :=
  if w &&& 0xFFC0 ∈ unsized then some (.invalidSize 3)
  else if w.undefined then none
  else w.modeFault?

theorem Opcode.fault?_eq_some_iff :
    w.fault? = some f ↔ (w &&& 0xFFC0 ∈ unsized ∧ f = .invalidSize 3) ∨
      w &&& 0xFFC0 ∉ unsized ∧ w.undefined = false ∧
        (w.undefinedSource = true ∨ w.undefinedDestination = true) ∧
        f = .invalidMode 7 (if w.undefinedSource then w.reg else w.upperReg) := by
  unfold fault?
  by_cases hs : w &&& 0xFFC0 ∈ unsized
  · simp [hs, eq_comm (a := f)]
  · cases hu : w.undefined with
    | true => simp [hs]
    | false => simp [hs, modeFault?_eq_some_iff]

theorem Opcode.firstFault?_of_layout (hl : w.layout = .ok l) : firstFault? l.slots = w.fault? := by
  have hsize : w &&& 0xFFC0 ∉ unsized := by
    intro hw
    rw [layout_eq_error_iff.mpr ⟨hw, rfl⟩] at hl
    cases hl
  rw [fault?, if_neg hsize]
  cases hd : w.undefined with
  | true =>
    rw [(layout_eq_dataWord_iff w).mpr hd] at hl
    cases hl
    rfl
  | false =>
    cases he : resolve w with
    | none => simp [undefined, he] at hd
    | some e =>
      rcases Family.faults_of_layout (layout_of_resolve he ▸ hl) with rfl | hfault
      · rw [(layout_eq_dataWord_iff w).mp hl] at hd
        cases hd
      · rw [hfault, Family.fault?_eq he]
        rfl

theorem Opcode.verdict_eq_error_iff : w.verdict = .error f ↔ w.fault? = some f := by
  unfold verdict
  cases hl : w.layout with
  | error k =>
    obtain ⟨hw, rfl⟩ := layout_eq_error_iff.mp hl
    simp [fault?, hw]
  | ok l =>
    rw [← firstFault?_of_layout hl]
    dsimp only
    cases firstFault? l.slots <;> simp

/-- Ten bytes are enough to tell what is wrong with a word, and nothing else goes wrong there. -/
theorem decodeInstruction_eq_error_iff {k : DecodeError}
    (hlen : 10 ≤ (hi :: lo :: rest).length) :
    decodeInstruction (hi :: lo :: rest) address = .error k ↔
      ∃ f, Opcode.fault? (joinBytes hi lo) = some f ∧
        k = ⟨address, some (joinBytes hi lo), f⟩ := by
  have hcount : Opcode.byteCount (joinBytes hi lo) ≤ (hi :: lo :: rest).length := by
    have hle : ∀ n ∈ [2, 4, 6, 8, 10], n ≤ 10 := by decide
    exact Nat.le_trans (hle _ (Opcode.byteCount_mem _)) hlen
  simp only [← Opcode.verdict_eq_error_iff]
  constructor
  · intro hd
    cases hv : Opcode.verdict (joinBytes hi lo) with
    | ok m =>
      have hok : ∃ i, decodeInstruction (hi :: lo :: rest) address = .ok i := by
        obtain ⟨i, hd', -⟩ := decodeInstruction_of_verdict hv hcount
        exact ⟨i, hd'⟩
      obtain ⟨i, hd'⟩ := hok
      cases hd.symm.trans hd'
    | error f =>
      rw [decodeInstruction_of_faulty hv hcount] at hd
      exact ⟨f, rfl, (Except.error.inj hd).symm⟩
  · rintro ⟨f, hv, rfl⟩
    exact decodeInstruction_of_faulty hv hcount

theorem invalidSize_iff :
    (∃ k bits, decodeInstruction (hi :: lo :: rest) address = .error k ∧
      k.fault = .invalidSize bits) ↔ joinBytes hi lo &&& 0xFFC0 ∈ unsized := by
  constructor
  · rintro ⟨k, bits, hd, hk⟩
    cases hl : Opcode.layout (joinBytes hi lo) with
    | error f => exact (Opcode.layout_eq_error_iff.mp hl).1
    | ok l =>
      rcases decodeInstruction_of_layout hl rest address with
        ⟨os, hd', -⟩ | ⟨f, hd', hf, -⟩ | ⟨n, hd', -⟩
      · rw [hd'] at hd
        cases hd
      · rw [hd'] at hd
        cases hd
        obtain ⟨mode, reg, rfl⟩ := invalidMode_of_firstFault hf
        cases hk
      · rw [hd'] at hd
        cases hd
        cases hk
  · intro hw
    exact ⟨_, 3, decodeInstruction_of_fault (Opcode.layout_eq_error_iff.mpr ⟨hw, rfl⟩), rfl⟩

theorem invalidMode_iff (hlen : 10 ≤ (hi :: lo :: rest).length) :
    (∃ k mode reg, decodeInstruction (hi :: lo :: rest) address = .error k ∧
        k.fault = .invalidMode mode reg) ↔
      joinBytes hi lo &&& 0xFFC0 ∉ unsized ∧ Opcode.undefined (joinBytes hi lo) = false ∧
        (Opcode.undefinedSource (joinBytes hi lo) = true ∨
          Opcode.undefinedDestination (joinBytes hi lo) = true) := by
  constructor
  · rintro ⟨k, mode, reg, hd, hk⟩
    obtain ⟨f, hf, rfl⟩ := (decodeInstruction_eq_error_iff hlen).mp hd
    rcases Opcode.fault?_eq_some_iff.mp hf with ⟨-, rfl⟩ | ⟨hs, hu, hmode, -⟩
    · cases hk
    · exact ⟨hs, hu, hmode⟩
  · rintro ⟨hs, hu, hmode⟩
    have hf := Opcode.fault?_eq_some_iff.mpr (.inr ⟨hs, hu, hmode, rfl⟩)
    exact ⟨_, _, _, (decodeInstruction_eq_error_iff hlen).mpr ⟨_, hf, rfl⟩, rfl⟩

/-- A word fails for its size or for a mode that names nothing, and for which of them is told by the
word alone. -/
theorem architectural_faults (hi lo : UInt8) (rest : List UInt8) (address : UInt32) :
    ((∃ k bits, decodeInstruction (hi :: lo :: rest) address = .error k ∧
      k.fault = .invalidSize bits) ↔ joinBytes hi lo &&& 0xFFC0 ∈ unsized) ∧
    (joinBytes hi lo &&& 0xFFC0 ∈ unsized →
      decodeInstruction (hi :: lo :: rest) address =
          .error ⟨address, some (joinBytes hi lo), .invalidSize 3⟩ ∧
        ∃ e, resolve (joinBytes hi lo) = some e ∧ e.pattern.name ∈ unsizedLabels) ∧
    (10 ≤ (hi :: lo :: rest).length →
      ((∃ k mode reg, decodeInstruction (hi :: lo :: rest) address = .error k ∧
          k.fault = .invalidMode mode reg) ↔
        joinBytes hi lo &&& 0xFFC0 ∉ unsized ∧
          (¬ ∃ i, decodeInstruction (hi :: lo :: rest) address = .ok i ∧ i.isData = true) ∧
          (Opcode.undefinedSource (joinBytes hi lo) = true ∨
            Opcode.undefinedDestination (joinBytes hi lo) = true)) ∧
      ∀ k, decodeInstruction (hi :: lo :: rest) address = .error k →
        (∃ bits, k.fault = .invalidSize bits) ∨
          k = ⟨address, some (joinBytes hi lo), .invalidMode 7
            (if Opcode.undefinedSource (joinBytes hi lo) then Opcode.reg (joinBytes hi lo)
              else Opcode.upperReg (joinBytes hi lo))⟩) := by
  refine ⟨invalidSize_iff, ?_, fun hlen ↦ ⟨?_, ?_⟩⟩
  · intro hw
    obtain ⟨-, e, he, -, hlabel⟩ := Opcode.resolve_of_unsized hw
    exact ⟨decodeInstruction_of_fault (Opcode.layout_eq_error_iff.mpr ⟨hw, rfl⟩), e, he, hlabel⟩
  · rw [exists_isData_iff, Bool.not_eq_true]
    exact invalidMode_iff hlen
  · intro k hd
    obtain ⟨f, hf, rfl⟩ := (decodeInstruction_eq_error_iff hlen).mp hd
    rcases Opcode.fault?_eq_some_iff.mp hf with ⟨-, hf⟩ | ⟨-, -, -, hf⟩
    · exact .inl ⟨3, hf⟩
    · exact .inr (by rw [hf])

/-- Both operands of the MOVE name nothing, and its source is blamed. That the other word has no
size is found out although nothing follows it. -/
theorem architectural_faults_move :
    decodeInstruction [0x3F, 0xFD, 0, 0, 0, 0, 0, 0, 0, 0] 0x1000 =
        .error ⟨0x1000, some 0x3FFD, .invalidMode 7 5⟩ ∧
      decodeInstruction [0x42, 0xC0] 0x1000 = .error ⟨0x1000, some 0x42C0, .invalidSize 3⟩ := by
  have hmove := (architectural_faults 0x3F 0xFD [0, 0, 0, 0, 0, 0, 0, 0] 0x1000).2.2 (by decide)
  refine ⟨?_, ((architectural_faults 0x42 0xC0 [] 0x1000).2.1 (by decide)).1⟩
  have hdata : Opcode.undefined 0x3FFD = false := by decide
  have hsource : Opcode.undefinedSource 0x3FFD = true := by decide
  obtain ⟨k, mode, reg, hd, hk⟩ := hmove.1.mpr
    ⟨by decide, mt exists_isData_iff.mp (Bool.not_eq_true _ ▸ hdata), .inl hsource⟩
  rcases hmove.2 k hd with ⟨bits, hbits⟩ | rfl
  · cases hk.symm.trans hbits
  · exact hd.trans (by decide)

end Mc68000
