import Mc68000.Proofs.TableReach

namespace Mc68000

open Layout

namespace EffectiveAddress

def namesRelative (mode reg : Nat) : Bool := mode == 7 && (reg == 2 || reg == 3)

def namesImmediate (mode reg : Nat) : Bool := mode == 7 && reg == 4

def namesReadOnly (mode reg : Nat) : Bool := namesRelative mode reg || namesImmediate mode reg

end EffectiveAddress

open EffectiveAddress

/-- Whether the processor has no instruction for a word that the table knows under the label. -/
def undefinedUnder (label : String) (w : Opcode) : Bool :=
  match label with
  | "OR" | "AND" =>
    if w.bit 8 then w.mode == 0 || w.mode == 1 || namesReadOnly w.mode w.reg else w.mode == 1
  | "ADD" | "SUB" | "CMP" =>
    if w.bit 8 then namesReadOnly w.mode w.reg else w.field 6 2 == 0 && w.mode == 1
  | "ADDQ" | "SUBQ" => namesReadOnly w.mode w.reg || w.field 6 2 == 0 && w.mode == 1
  | "NEGX" | "CLR" | "NEG" | "NOT" | "TST" =>
    w.field 6 2 != 3 && (w.mode == 1 || namesReadOnly w.mode w.reg)
  | "TAS" | "NBCD" | "Scc" => w.mode == 1 || namesReadOnly w.mode w.reg
  | "MOVEM" =>
    w.mode == 0 || w.mode == 1 || namesImmediate w.mode w.reg ||
      if w.bit 10 then w.mode == 4 else w.mode == 3 || namesRelative w.mode w.reg
  | "MOVE" => w.field 12 4 == 1 && w.field 6 3 == 1
  | "SHIFT" => w.field 6 2 == 3 && w.bit 11
  | _ => false

/-- The words that are data, whatever follows them. -/
def Opcode.undefined (w : Opcode) : Bool :=
  match resolve w with
  | none => true
  | some e => undefinedUnder e.pattern.name w

variable {w : Opcode} {l : Layout} {e : Entry} {op : Operation} {hi lo : UInt8}
  {rest : List UInt8} {address : UInt32}

namespace Opcode

theorem dataAlterable_eq (w : Opcode) :
    w.dataAlterable = !(w.mode == 1 || namesReadOnly w.mode w.reg) := by
  have hm : w.mode < 8 := w.field_lt 3 3
  have hr : w.reg < 8 := w.field_lt 0 3
  unfold dataAlterable
  generalize w.mode = m at *
  generalize w.reg = r at *
  revert r
  revert m
  decide

theorem memoryAlterable_eq (w : Opcode) :
    w.memoryAlterable = !(w.mode == 0 || w.mode == 1 || namesReadOnly w.mode w.reg) := by
  simp only [memoryAlterable, dataAlterable_eq, bne, Bool.not_or, Bool.and_assoc]

end Opcode

namespace Family

def refuses : Family → Opcode → Bool
  | dyadic _ fromAddress, w =>
    if w.bit 8 then !w.memoryAlterable else w.mode == 1 && (!fromAddress || w.field 6 2 == 0)
  | quick, w => if w.mode == 1 then w.field 6 2 == 0 else !w.dataAlterable
  | unary, w => w.field 6 2 != 3 && !w.dataAlterable
  | alterableByte _, w => !w.dataAlterable
  | scc, w => !w.dataAlterable
  | movem, w => !movemAllowed (w.bit 10) w.mode w.reg
  | move, w => w.field 12 4 == 1 && w.field 6 3 == 1
  | shift, w => w.field 6 2 == 3 && w.bit 11
  | _, _ => false

end Family

namespace Layout

theorem ne_dataWord (h : l.mnemonic.operation ≠ .dc) : l ≠ dataWord w := by
  rintro rfl
  exact h rfl

theorem ite_eq_dataWord_iff {c : Bool} (h : l.mnemonic.operation ≠ .dc) :
    (if c then l else dataWord w) = dataWord w ↔ c = false := by
  cases c <;> simp [ne_dataWord h]

theorem bind_of_size {x : Except Fault Size} {s : Size} (h : x = .ok s) (g : Size → Layout) :
    (do let s ← x; return g s) = .ok (g s) := by
  rw [h]
  rfl

theorem dyadic_eq_dataWord_iff {b : Bool} (hop : op ≠ .dc) (h3 : w.field 6 2 ≠ 3) :
    dyadic op b w = .ok (dataWord w) ↔ (Family.dyadic op b).refuses w = true := by
  obtain ⟨s, hs, hbyte⟩ := Opcode.exists_size h3
  rw [dyadic, bind_of_size hs, Except.ok.injEq, Family.refuses]
  cases w.bit 8 with
  | true =>
    refine (ite_eq_dataWord_iff hop).trans ?_
    rw [if_pos rfl, Bool.not_eq_true']
  | false =>
    have hne : sized op s [w.address s, .dataReg w.upperReg] ≠ dataWord w := ne_dataWord hop
    cases b <;> simp [hne, hbyte]

theorem quick_eq_dataWord_iff (h3 : w.field 6 2 ≠ 3) :
    quick w = .ok (dataWord w) ↔ Family.quick.refuses w = true := by
  obtain ⟨s, hs, hbyte⟩ := Opcode.exists_size h3
  have hop : (if w.bit 8 then .subq else .addq : Operation) ≠ .dc := by
    cases w.bit 8 <;> decide
  rw [quick, bind_of_size hs, Except.ok.injEq]
  refine (ite_eq_dataWord_iff hop).trans ?_
  rw [alterable, Family.refuses]
  by_cases hm : w.mode = 1
  · simp [hm, hbyte]
  · simp [hm]

theorem unary_eq_dataWord_iff (hop : unaryOperation? w = some op) (hdc : op ≠ .dc) :
    unary w = .ok (dataWord w) ↔ Family.unary.refuses w = true := by
  rw [unary, hop, Family.refuses]
  dsimp only
  by_cases h3 : w.field 6 2 = 3
  · rw [Opcode.size_of_field_three h3, h3]
    constructor
    · intro h
      cases h
    · intro h
      simp at h
  · obtain ⟨s, hs, -⟩ := Opcode.exists_size h3
    rw [bind_of_size hs, Except.ok.injEq]
    refine (ite_eq_dataWord_iff hdc).trans ?_
    simp [h3]

theorem move_eq_dataWord_iff {s : Size} (hs : Size.ofMoveBits (w.field 12 4) = .ok s)
    (hbyte : s = .byte ↔ w.field 12 4 = 1) :
    move w = .ok (dataWord w) ↔ Family.move.refuses w = true := by
  rw [move, bind_of_size hs, Except.ok.injEq, Family.refuses]
  by_cases hd : w.field 6 3 = 1
  · simp [hd, sized, ne_dataWord, hbyte]
  · simp [hd, sized, ne_dataWord]

theorem movemAllowed_eq_not (load : Bool) {mode reg : Nat} (hm : mode < 8) (hr : reg < 8) :
    movemAllowed load mode reg = !(mode == 0 || mode == 1 || namesImmediate mode reg ||
      if load then mode == 4 else mode == 3 || namesRelative mode reg) := by
  have hall : ∀ load, ∀ m < 8, ∀ r < 8, movemAllowed load m r =
      !(m == 0 || m == 1 || namesImmediate m r ||
        if load then m == 4 else m == 3 || namesRelative m r) := by
    decide
  exact hall load mode hm reg hr

theorem shift_eq_dataWord_iff : shift w = .ok (dataWord w) ↔ Family.shift.refuses w = true := by
  rw [shift_eq, Family.refuses]
  by_cases h3 : w.field 6 2 = 3
  · cases hb : w.bit 11 <;> simp [h3, sized, ne_dataWord]
  · obtain ⟨s, hs, -⟩ := Opcode.exists_size h3
    rw [if_neg h3, bind_of_size hs]
    simp [h3, sized, ne_dataWord]

end Layout

def Family.narrowFields : Family → List (Nat × Nat × List Nat)
  | move => [(12, 4, [1, 2, 3])]
  | exg => [(3, 5, [0x08, 0x09, 0x11])]
  | _ => []

theorem table_narrowFields : ∀ e ∈ table, ∀ x ∈ e.family.narrowFields,
    Opcode.field e.pattern.mask x.1 x.2.1 = 1 <<< x.2.1 - 1 ∧
      Opcode.field e.pattern.value x.1 x.2.1 ∈ x.2.2 := by
  decide

theorem Opcode.field_mem (h : resolve w = some e) {i n : Nat} {values : List Nat}
    (hx : (i, n, values) ∈ e.family.narrowFields) : w.field i n ∈ values := by
  obtain ⟨hm, hv⟩ := table_narrowFields e (List.mem_of_find?_eq_some h) _ hx
  rw [field_of_and (accepts_of_resolve h) hm rfl]
  exact hv

theorem Opcode.exists_moveSize (h : resolve w = some e) (hF : e.family = .move) :
    ∃ s, Size.ofMoveBits (w.field 12 4) = .ok s ∧ (s = .byte ↔ w.field 12 4 = 1) := by
  have hsizes : ∀ n ∈ [1, 2, 3], ∃ s, Size.ofMoveBits n = .ok s ∧ (s = .byte ↔ n = 1) := by
    simp [Size.ofMoveBits]
  exact hsizes _ (field_mem h (by rw [hF]; exact List.mem_cons_self))

theorem Layout.exg_ne_dataWord (h : w.field 3 5 ∈ [0x08, 0x09, 0x11]) : exg w ≠ dataWord w := by
  have hop : Operation.exg ≠ .dc := by decide
  simp only [List.mem_cons, List.not_mem_nil, or_false] at h
  unfold exg
  rcases h with h | h | h
  · rw [h]
    exact ne_dataWord hop
  · rw [h]
    exact ne_dataWord hop
  · rw [h]
    exact ne_dataWord hop

namespace Family

def restricted : Family → List String
  | dyadic _ true => ["ADD", "SUB", "CMP"]
  | dyadic _ false => ["OR", "AND"]
  | quick => ["ADDQ", "SUBQ"]
  | unary => ["NEGX", "CLR", "NEG", "NOT", "TST"]
  | alterableByte _ => ["TAS", "NBCD"]
  | scc => ["Scc"]
  | movem => ["MOVEM"]
  | move => ["MOVE"]
  | shift => ["SHIFT"]
  | _ => []

theorem layout_ne_dataWord (h : resolve w = some e) (hr : e.family.restricted = []) :
    e.family.layout w ≠ .ok (dataWord w) := by
  obtain ⟨hsome, hdc⟩ := operations_of_resolve h
  have hop : ∀ op ∈ e.family.operations w, op ≠ .dc := fun op ho ↦ ne_of_mem_of_not_mem ho hdc
  have hfield {i n : Nat} {values : List Nat} :
      (i, n, values) ∈ e.family.narrowFields → w.field i n ∈ values := Opcode.field_mem h
  generalize e.family = F at *
  intro hl
  cases F with
  | move | movem | alterableByte _ | quick | unary | shift | scc => cases hr
  | dyadic _ b => cases b <;> cases hr
  | moveq | movep | moveFromSr | moveToCcr | moveToSr | moveUsp | swap | lea | link | unlk
  | toAddress _ | decimal _ | mulDiv | chk | ext | stop | trap | control _ | dbcc =>
    exact ne_dataWord (hop _ List.mem_cons_self) (Except.ok.inj hl)
  | bitDynamic =>
    rw [layout, bitDynamic_eq] at hl
    exact ne_dataWord (hop _ List.mem_cons_self) (Except.ok.inj hl)
  | bitStatic =>
    rw [layout, bitStatic_eq] at hl
    exact ne_dataWord (hop _ List.mem_cons_self) (Except.ok.inj hl)
  | immediate _ | extended _ | cmpm | eor =>
    obtain ⟨s, -, hl⟩ := exists_of_bind_eq_ok hl
    exact ne_dataWord (hop _ List.mem_cons_self) hl
  | branch =>
    rw [layout, branch_eq] at hl
    split at hl
    · exact ne_dataWord (hop _ List.mem_cons_self) (Except.ok.inj hl)
    · exact ne_dataWord (hop _ List.mem_cons_self) (Except.ok.inj hl)
    · exact ne_dataWord (hop _ List.mem_cons_self) (Except.ok.inj hl)
  | exg => exact exg_ne_dataWord (hfield List.mem_cons_self) (Except.ok.inj hl)
  | toCcr | toSr | implied =>
    obtain ⟨op, ho, hmem⟩ := exists_of_toList_ne_nil hsome
    simp only [layout, Layout.toCcr, Layout.toSr, Layout.implied, ho] at hl
    exact ne_dataWord (hop op hmem) (Except.ok.inj hl)

theorem layout_eq_dataWord_iff (h : resolve w = some e) :
    e.family.layout w = .ok (dataWord w) ↔ e.family.refuses w = true := by
  obtain ⟨hsome, hdc⟩ := operations_of_resolve h
  have hop : ∀ op ∈ e.family.operations w, op ≠ .dc := fun op ho ↦ ne_of_mem_of_not_mem ho hdc
  have hne := layout_ne_dataWord h
  have hsized := Opcode.unsized_of_field_three h
  have hmove := Opcode.exists_moveSize h
  generalize e.family = F at *
  cases F with
  | dyadic op b =>
    refine dyadic_eq_dataWord_iff (hop op List.mem_cons_self) fun h3 ↦ ?_
    cases (hsized rfl h3).1
  | quick =>
    refine quick_eq_dataWord_iff fun h3 ↦ ?_
    cases (hsized rfl h3).1
  | unary =>
    obtain ⟨op, ho, hmem⟩ := exists_of_toList_ne_nil hsome
    exact unary_eq_dataWord_iff ho (hop op hmem)
  | move =>
    obtain ⟨s, hs, hbyte⟩ := hmove rfl
    exact move_eq_dataWord_iff hs hbyte
  | shift => exact shift_eq_dataWord_iff
  | movem | alterableByte _ | scc =>
    refine (iff_of_eq (Except.ok.injEq _ _)).trans ?_
    refine (ite_eq_dataWord_iff (hop _ List.mem_cons_self)).trans ?_
    rw [refuses, Bool.not_eq_true']
  | _ => exact iff_of_false (hne rfl) Bool.false_ne_true

end Family

def restrictedLabels : List String :=
  ["OR", "AND", "ADD", "SUB", "CMP", "ADDQ", "SUBQ", "NEGX", "CLR", "NEG", "NOT", "TST", "TAS",
    "NBCD", "Scc", "MOVEM", "MOVE", "SHIFT"]

theorem table_restricted : ∀ e ∈ table, e.pattern.name ∈ e.family.restricted ∨
    e.family.restricted = [] ∧ e.pattern.name ∉ restrictedLabels := by
  decide

theorem table_dyadic : ∀ e ∈ table, e.family.restricted = ["ADD", "SUB", "CMP"] →
    e.lacks 0x0130 0x0100 := by
  decide

theorem undefinedUnder_of_notMem {label : String} (h : label ∉ restrictedLabels) (w : Opcode) :
    undefinedUnder label w = false := by
  simp only [restrictedLabels, List.mem_cons, not_or] at h
  simp [undefinedUnder, h]

theorem Opcode.two_le_mode (h : resolve w = some e)
    (hr : e.family.restricted = ["ADD", "SUB", "CMP"]) (h8 : w.bit 8 = true) : 2 ≤ w.mode := by
  have hl := Entry.and_ne_of_lacks h (table_dyadic e (List.mem_of_find?_eq_some h) hr)
  rw [bit_eq, decide_eq_true_eq] at h8
  by_contra hm
  have h4 : w.field 4 2 = 0 := by
    rw [mode_eq] at hm
    omega
  have hw8 : w &&& 0x0100 = 0x0100 := and_of_field (i := 8) (n := 1) rfl (by rw [h8]; rfl)
  have hw4 : w &&& 0x0030 = 0x0000 := and_of_field (i := 4) (n := 2) rfl (by rw [h4]; rfl)
  exact hl (and_or_eq hw8 hw4)

/-- What a family refuses of its words is what the instruction set lacks under their label. -/
theorem Family.refuses_eq (h : resolve w = some e) :
    e.family.refuses w = undefinedUnder e.pattern.name w := by
  have htwo := Opcode.two_le_mode h
  have hlabel := table_restricted e (List.mem_of_find?_eq_some h)
  generalize e.family = F at *
  generalize e.pattern.name = label at *
  have hmem (hr : F.restricted ≠ []) : label ∈ F.restricted :=
    hlabel.resolve_right fun hn ↦ hr hn.1
  cases F with
  | dyadic op b =>
    cases b with
    | true =>
      have hdef : undefinedUnder label w =
          if w.bit 8 then namesReadOnly w.mode w.reg else w.field 6 2 == 0 && w.mode == 1 := by
        obtain rfl | rfl | rfl := by simpa [restricted] using hmem (List.cons_ne_nil _ _)
        all_goals rfl
      rw [hdef, refuses]
      cases h8 : w.bit 8 with
      | true =>
        have hm := htwo rfl h8
        have h0 : (w.mode == 0) = false := beq_false_of_ne (by omega)
        have h1 : (w.mode == 1) = false := beq_false_of_ne (by omega)
        simp [Opcode.memoryAlterable_eq, h0, h1]
      | false => simp [Bool.and_comm]
    | false =>
      obtain rfl | rfl := by simpa [restricted] using hmem (List.cons_ne_nil _ _)
      all_goals simp [refuses, undefinedUnder, Opcode.memoryAlterable_eq]
  | quick =>
    obtain rfl | rfl := by simpa [restricted] using hmem (List.cons_ne_nil _ _)
    all_goals
      rw [refuses, undefinedUnder, Opcode.dataAlterable_eq]
      by_cases hm : w.mode = 1
      · simp [hm, namesReadOnly, namesRelative, namesImmediate]
      · simp [beq_false_of_ne hm]
  | unary =>
    obtain rfl | rfl | rfl | rfl | rfl := by simpa [restricted] using hmem (List.cons_ne_nil _ _)
    all_goals simp [refuses, undefinedUnder, Opcode.dataAlterable_eq]
  | alterableByte op =>
    obtain rfl | rfl := by simpa [restricted] using hmem (List.cons_ne_nil _ _)
    all_goals simp [refuses, undefinedUnder, Opcode.dataAlterable_eq]
  | scc =>
    obtain rfl := by simpa [restricted] using hmem (List.cons_ne_nil _ _)
    simp [refuses, undefinedUnder, Opcode.dataAlterable_eq]
  | movem =>
    obtain rfl := by simpa [restricted] using hmem (List.cons_ne_nil _ _)
    have hm : w.mode < 8 := w.field_lt 3 3
    have hr : w.reg < 8 := w.field_lt 0 3
    rw [refuses, movemAllowed_eq_not _ hm hr, Bool.not_not]
    rfl
  | move =>
    obtain rfl := by simpa [restricted] using hmem (List.cons_ne_nil _ _)
    rfl
  | shift =>
    obtain rfl := by simpa [restricted] using hmem (List.cons_ne_nil _ _)
    rfl
  | _ =>
    obtain ⟨-, hl⟩ := hlabel.resolve_left List.not_mem_nil
    exact (undefinedUnder_of_notMem hl w).symm

theorem Opcode.layout_eq_dataWord_iff (w : Opcode) :
    w.layout = .ok (dataWord w) ↔ w.undefined = true := by
  unfold undefined
  cases h : resolve w with
  | none => simp [layout, h]
  | some e => rw [layout_of_resolve h, Family.layout_eq_dataWord_iff h, Family.refuses_eq h]

theorem Mnemonic.text_dataWord (w : Opcode) : (dataWord w).mnemonic.text = "DC.W" :=
  show Mnemonic.text ⟨.dc, .sized .word⟩ = "DC.W" by decide

theorem decodeInstruction_of_undefined (h : Opcode.undefined (joinBytes hi lo) = true)
    (rest : List UInt8) (address : UInt32) :
    decodeInstruction (hi :: lo :: rest) address = .ok ⟨address, joinBytes hi lo, "DC.W",
      "$" ++ Numeral.hex 4 (joinBytes hi lo).toNat, 2, [hi, lo]⟩ := by
  have hl := (Opcode.layout_eq_dataWord_iff _).mpr h
  refine decodeInstruction_eq_ok_iff.mpr
    ⟨hi, lo, rest, _, [.datum (joinBytes hi lo)], rfl, hl, rfl, ?_⟩
  rw [← Mnemonic.text_dataWord (joinBytes hi lo)]
  rfl

theorem Opcode.layout_of_dc (hl : w.layout = .ok l) (hdc : l.mnemonic.operation = .dc) :
    w.layout = .ok (dataWord w) := by
  cases he : resolve w with
  | none => simp [layout, he]
  | some e =>
    have hperf := Family.performs_of_layout (layout_of_resolve he ▸ hl)
    rcases hperf with rfl | hop
    · exact hl
    · rw [hdc] at hop
      exact absurd hop (operations_of_resolve he).2

theorem Instruction.isData_iff {i : Instruction}
    (h : decodeInstruction (hi :: lo :: rest) address = .ok i) :
    i.isData = true ↔ Opcode.undefined (joinBytes hi lo) = true := by
  constructor
  · intro hdata
    obtain ⟨_, _, _, l, os, hbytes, hl, -, rfl⟩ := decodeInstruction_eq_ok_iff.mp h
    cases hbytes
    have hm : l.mnemonic = (dataWord (joinBytes hi lo)).mnemonic :=
      Mnemonic.text_inj ((beq_iff_eq.mp hdata).trans (Mnemonic.text_dataWord _).symm)
    exact (Opcode.layout_eq_dataWord_iff _).mp (Opcode.layout_of_dc hl (by rw [hm]; rfl))
  · intro hw
    rw [decodeInstruction_of_undefined hw] at h
    cases h
    rfl

theorem exists_isData_iff :
    (∃ i, decodeInstruction (hi :: lo :: rest) address = .ok i ∧ i.isData = true) ↔
      Opcode.undefined (joinBytes hi lo) = true := by
  constructor
  · rintro ⟨i, hd, hdata⟩
    exact (Instruction.isData_iff hd).mp hdata
  · intro hw
    have hd := decodeInstruction_of_undefined hw rest address
    exact ⟨_, hd, (Instruction.isData_iff hd).mpr hw⟩

/-- Exactly the words that the instruction set leaves undefined are data, and nothing of what
follows them is read. -/
theorem data_iff_undefined (hi lo : UInt8) (rest : List UInt8) (address : UInt32) :
    ((∃ i, decodeInstruction (hi :: lo :: rest) address = .ok i ∧ i.isData = true) ↔
      Opcode.undefined (joinBytes hi lo) = true) ∧
    (Opcode.undefined (joinBytes hi lo) = true →
      decodeInstruction (hi :: lo :: rest) address = .ok ⟨address, joinBytes hi lo, "DC.W",
        "$" ++ Numeral.hex 4 (joinBytes hi lo).toNat, 2, [hi, lo]⟩) :=
  ⟨exists_isData_iff, fun hw ↦ decodeInstruction_of_undefined hw rest address⟩

/-- There is no `ADD.B A0, D0`. With bit 8 set the word is not an addition to a register, which
would be undefined too, but `ADDX`. -/
theorem data_iff_undefined_add :
    decodeInstruction [0xD0, 0x08] 0x1000 =
        .ok ⟨0x1000, 0xD008, "DC.W", "$D008", 2, [0xD0, 0x08]⟩ ∧
      ¬ ∃ i, decodeInstruction [0xD1, 0x08] 0x1000 = .ok i ∧ i.isData = true := by
  refine ⟨(data_iff_undefined 0xD0 0x08 [] 0x1000).2 (by decide), fun hd ↦ ?_⟩
  have hw := (data_iff_undefined 0xD1 0x08 [] 0x1000).1.mp hd
  exact absurd hw (by decide)

end Mc68000
