import Mc68000.Listing
import Mc68000.Proofs.RangeWalk
import Mc68000.Proofs.Reassembly.Control
import Mc68000.Proofs.TableLookup

namespace Mc68000

open Layout

variable {F : Family} {w w' : Opcode} {l l' : Layout} {op : Operation} {e : Entry}

namespace Family

def operations : Family → Opcode → List Operation
  | move, _ => [.move, .movea]
  | moveq, _ => [.moveq]
  | movem, _ => [.movem]
  | movep, _ => [.movep]
  | moveFromSr, _ => [.move]
  | moveToCcr, _ => [.move]
  | moveToSr, _ => [.move]
  | moveUsp, _ => [.move]
  | exg, _ => [.exg]
  | swap, _ => [.swap]
  | lea, _ => [.lea]
  | link, _ => [.link]
  | unlk, _ => [.unlk]
  | dyadic op _, _ => [op]
  | toAddress op, _ => [op]
  | immediate op, _ => [op]
  | extended op, _ => [op]
  | decimal op, _ => [op]
  | alterableByte op, _ => [op]
  | quick, w => [if w.bit 8 then .subq else .addq]
  | cmpm, _ => [.cmpm]
  | mulDiv, w =>
    [if w.field 12 4 = 0xC then (if w.bit 8 then .muls else .mulu)
      else (if w.bit 8 then .divs else .divu)]
  | chk, _ => [.chk]
  | ext, _ => [.ext]
  | unary, w => (unaryOperation? w).toList
  | eor, _ => [.eor]
  | toCcr, w => (statusOperation? w).toList
  | toSr, w => (statusOperation? w).toList
  | bitDynamic, w => [.bit (BitAction.ofBits (w.field 6 2))]
  | bitStatic, w => [.bit (BitAction.ofBits (w.field 6 2))]
  | shift, w =>
    [ShiftKind.arithmetic, .logical, .rotateExtended, .rotate].map (Operation.shift · (direction w))
  | implied, w => (impliedOperation? w).toList
  | stop, _ => [.stop]
  | trap, _ => [.trap]
  | control op, _ => [op]
  | branch, w => [branchOperation w.condition]
  | dbcc, w => [.dbcc w.condition]
  | scc, w => [.scc w.condition]

/-- The bits that the operation hangs on. -/
def selector : Family → UInt16
  | quick => 0x0100
  | mulDiv => 0xF100
  | unary => 0x0F00
  | toCcr => 0x0E00
  | toSr => 0x0E00
  | bitDynamic => 0x00C0
  | bitStatic => 0x00C0
  | shift => 0x0100
  | implied => 0xFFFF
  | branch => 0x0F00
  | dbcc => 0x0F00
  | scc => 0x0F00
  | _ => 0

end Family

theorem Opcode.field_congr {mask : UInt16} {i n : Nat} (h : w &&& mask = w' &&& mask)
    (hm : Opcode.field mask i n = 1 <<< n - 1) : w.field i n = w'.field i n :=
  field_of_and h hm (field_of_and rfl hm rfl).symm

theorem Opcode.bit_congr {mask : UInt16} {i : Nat} (h : w &&& mask = w' &&& mask)
    (hm : Opcode.field mask i 1 = 1) : w.bit i = w'.bit i := by
  rw [bit_eq, bit_eq, field_congr h hm]

namespace Family

theorem operations_congr (h : w &&& F.selector = w' &&& F.selector) :
    F.operations w = F.operations w' := by
  cases F with
  | quick =>
    have hb : w.bit 8 = w'.bit 8 := Opcode.bit_congr h rfl
    simp only [operations, hb]
  | mulDiv =>
    have hb : w.bit 8 = w'.bit 8 := Opcode.bit_congr h rfl
    have hf : w.field 12 4 = w'.field 12 4 := Opcode.field_congr h rfl
    simp only [operations, hb, hf]
  | unary =>
    have hf : w.field 8 4 = w'.field 8 4 := Opcode.field_congr h rfl
    simp only [operations, unaryOperation?, hf]
  | toCcr | toSr =>
    have hf : w.upperReg = w'.upperReg := Opcode.field_congr h rfl
    simp only [operations, statusOperation?, hf]
  | bitDynamic | bitStatic =>
    have hf : w.field 6 2 = w'.field 6 2 := Opcode.field_congr h rfl
    simp only [operations, hf]
  | shift =>
    have hb : w.bit 8 = w'.bit 8 := Opcode.bit_congr h rfl
    simp only [operations, direction, hb]
  | implied =>
    have hw (u : Opcode) : u.field 0 16 = u.toNat := Nat.mod_eq_of_lt u.toNat_lt
    have hf : w.field 0 16 = w'.field 0 16 := Opcode.field_congr h rfl
    rw [hw, hw, UInt16.toNat_inj] at hf
    rw [hf]
  | branch | dbcc | scc =>
    have hf : w.field 8 4 = w'.field 8 4 := Opcode.field_congr h rfl
    simp only [operations, Opcode.condition, hf]
  | _ => rfl

end Family

namespace Layout

def Performs (w : Opcode) (ops : List Operation) (l : Layout) : Prop :=
  l = dataWord w ∨ l.mnemonic.operation ∈ ops

variable {ops : List Operation}

theorem performs_dataWord : Performs w ops (dataWord w) := .inl rfl

theorem performs_of_mem {x : Suffix} {σs : List Slot} {b d : Bool} (h : op ∈ ops) :
    Performs w ops ⟨⟨op, x⟩, σs, b, d⟩ := .inr h

theorem performs_one {x : Suffix} {σs : List Slot} {b d : Bool} :
    Performs w [op] ⟨⟨op, x⟩, σs, b, d⟩ :=
  performs_of_mem List.mem_cons_self

theorem performs_ite {c : Prop} [Decidable c] (h : Performs w ops l) (h' : Performs w ops l') :
    Performs w ops (if c then l else l') := by
  split
  · exact h
  · exact h'

end Layout

theorem Family.performs_of_layout (h : F.layout w = .ok l) : Performs w (F.operations w) l := by
  have hdata {ops : List Operation} : Performs w ops (dataWord w) := performs_dataWord
  cases F with
  | moveq | movep | moveFromSr | moveToCcr | moveToSr | moveUsp | swap | lea | link | unlk
  | toAddress _ | decimal _ | mulDiv | chk | ext | stop | trap | control _ | dbcc =>
    cases h
    exact performs_one
  | bitDynamic =>
    cases (bitDynamic_eq w).symm.trans h
    exact performs_one
  | bitStatic =>
    cases (bitStatic_eq w).symm.trans h
    exact performs_one
  | immediate _ | extended _ | cmpm | eor =>
    obtain ⟨s, -, rfl⟩ := exists_of_bind_eq_ok h
    exact performs_one
  | movem | alterableByte _ | scc =>
    cases h
    exact performs_ite performs_one hdata
  | quick =>
    obtain ⟨s, -, rfl⟩ := exists_of_bind_eq_ok h
    exact performs_ite performs_one hdata
  | move =>
    obtain ⟨s, -, rfl⟩ := exists_of_bind_eq_ok h
    exact performs_ite
      (performs_ite hdata (performs_of_mem (List.mem_cons_of_mem _ List.mem_cons_self)))
      (performs_of_mem List.mem_cons_self)
  | dyadic _ _ =>
    obtain ⟨s, -, rfl⟩ := exists_of_bind_eq_ok h
    exact performs_ite (performs_ite performs_one hdata) (performs_ite hdata performs_one)
  | exg =>
    cases h
    unfold Layout.exg
    split
    · exact performs_one
    · exact performs_one
    · exact performs_one
    · exact hdata
  | branch =>
    cases h
    rw [branch_eq]
    split
    · exact performs_one
    · exact performs_one
    · exact performs_one
  | toCcr =>
    cases h
    unfold Layout.toCcr
    split
    · next op hop => exact performs_of_mem (by simp [operations, hop])
    · exact hdata
  | toSr =>
    cases h
    unfold Layout.toSr
    split
    · next op hop => exact performs_of_mem (by simp [operations, hop])
    · exact hdata
  | implied =>
    cases h
    unfold Layout.implied
    split
    · next op hop => exact performs_of_mem (by simp [operations, hop])
    · exact hdata
  | unary =>
    simp only [layout, Layout.unary] at h
    split at h
    · cases h
      exact hdata
    · next op hop =>
      obtain ⟨s, -, rfl⟩ := exists_of_bind_eq_ok h
      exact performs_ite (performs_of_mem (by simp [operations, hop])) hdata
  | shift =>
    have hmem (k : ShiftKind) : Operation.shift k (direction w) ∈ shift.operations w := by
      cases k <;> simp [operations]
    simp only [layout, shift_eq] at h
    split at h
    · cases h
      exact performs_ite hdata (performs_of_mem (hmem _))
    · obtain ⟨s, -, rfl⟩ := exists_of_bind_eq_ok h
      exact performs_of_mem (hmem _)

/-- The names that go with a label which says nothing of a condition or a direction. -/
def plainNames : String → List String
  | "MOVE" => ["MOVE", "MOVEA"]
  | "MOVE from SR" => ["MOVE"]
  | "MOVE to CCR" => ["MOVE"]
  | "MOVE to SR" => ["MOVE"]
  | "MOVE USP" => ["MOVE"]
  | "ORI to CCR" => ["ORI"]
  | "ANDI to CCR" => ["ANDI"]
  | "EORI to CCR" => ["EORI"]
  | "ORI to SR" => ["ORI"]
  | "ANDI to SR" => ["ANDI"]
  | "EORI to SR" => ["EORI"]
  | label => [label]

/-- The names that an instruction can have which the table knows under this label. -/
def namesUnder (label : String) (w : Opcode) : List String :=
  match label with
  | "Bcc" =>
    match w.field 8 4 with
    | 0 => ["BRA"]
    | 1 => ["BSR"]
    | _ => ["B" ++ w.condition.suffix]
  | "DBcc" => ["DB" ++ w.condition.suffix]
  | "Scc" => ["S" ++ w.condition.suffix]
  | "SHIFT" => ["AS", "LS", "ROX", "RO"].map (· ++ if w.bit 8 then "L" else "R")
  | label => plainNames label

def openLabels : List (Family × String) :=
  [(.branch, "Bcc"), (.dbcc, "DBcc"), (.scc, "Scc"), (.shift, "SHIFT")]

theorem table_labels : ∀ e ∈ table, (e.family, e.pattern.name) ∈ openLabels ∨
    e.pattern.mask &&& e.family.selector = e.family.selector ∧
      e.pattern.name ∉ openLabels.map Prod.snd ∧
      ∀ op ∈ e.family.operations e.pattern.value, op.name ∈ plainNames e.pattern.name := by
  decide

theorem namesUnder_of_notMem {label : String} (h : label ∉ openLabels.map Prod.snd) (w : Opcode) :
    namesUnder label w = plainNames label := by
  simp only [openLabels, List.map_cons, List.map_nil, List.mem_cons, not_or] at h
  simp [namesUnder, h]

theorem branchOperation_name (w : Opcode) :
    (branchOperation w.condition).name ∈ namesUnder "Bcc" w := by
  have hnames : ∀ k < 16, (branchOperation (Condition.ofBits k)).name ∈
      match k with
      | 0 => ["BRA"]
      | 1 => ["BSR"]
      | _ => ["B" ++ (Condition.ofBits k).suffix] := by
    decide
  exact hnames (w.field 8 4) (w.field_lt 8 4)

theorem name_mem_of_openLabels {label : String} (h : (F, label) ∈ openLabels)
    (hop : op ∈ F.operations w) : op.name ∈ namesUnder label w := by
  simp only [openLabels, List.mem_cons, Prod.mk.injEq, List.not_mem_nil, or_false] at h
  obtain ⟨rfl, rfl⟩ | ⟨rfl, rfl⟩ | ⟨rfl, rfl⟩ | ⟨rfl, rfl⟩ := h
  · cases List.mem_singleton.mp hop
    exact branchOperation_name w
  · cases List.mem_singleton.mp hop
    exact List.mem_cons_self
  · cases List.mem_singleton.mp hop
    exact List.mem_cons_self
  · obtain ⟨k, -, rfl⟩ := List.mem_map.mp hop
    have hd : (direction w).name = if w.bit 8 then "L" else "R" := apply_ite Direction.name _ _ _
    refine List.mem_map.mpr ⟨k.name, ?_, by rw [← hd]; rfl⟩
    cases k <;> simp [ShiftKind.name]

theorem operations_eq_of_resolve (he : resolve w = some e)
    (hs : e.pattern.mask &&& e.family.selector = e.family.selector) :
    e.family.operations w = e.family.operations e.pattern.value := by
  apply Family.operations_congr
  rw [← accepts_of_resolve he, UInt16.and_assoc, hs]

theorem name_mem_namesUnder (he : resolve w = some e) (hop : op ∈ e.family.operations w) :
    op.name ∈ namesUnder e.pattern.name w := by
  rcases table_labels e (List.mem_of_find?_eq_some he) with hl | ⟨hs, hl, hn⟩
  · exact name_mem_of_openLabels hl hop
  · rw [namesUnder_of_notMem hl]
    rw [operations_eq_of_resolve he hs] at hop
    exact hn op hop

/-- A mnemonic up to the letter of its size. -/
def withoutSize (mnemonic : String) : String :=
  match mnemonic.toList.reverse with
  | letter :: '.' :: name =>
    if letter ∈ ['B', 'W', 'L', 'S'] then String.ofList name.reverse else mnemonic
  | _ => mnemonic

theorem withoutSize_of_letter {mnemonic name : String} {letter : Char}
    (h : mnemonic.toList = name.toList ++ ['.', letter]) (hl : letter ∈ ['B', 'W', 'L', 'S']) :
    withoutSize mnemonic = name := by
  have hr : mnemonic.toList.reverse = letter :: '.' :: name.toList.reverse := by
    rw [h, List.reverse_append]
    rfl
  simp only [withoutSize, hr, hl, if_true, List.reverse_reverse, String.ofList_toList]

theorem withoutSize_of_notMem {mnemonic : String} (h : '.' ∉ mnemonic.toList) :
    withoutSize mnemonic = mnemonic := by
  unfold withoutSize
  split
  · next letter name hr =>
    rw [← List.mem_reverse, hr] at h
    simp at h
  · rfl

theorem Mnemonic.withoutSize_text (m : Mnemonic) : withoutSize m.text = m.operation.name := by
  have ht := m.toList_text
  rcases hs : m.suffix with _ | s | _
  · rw [hs, Suffix.text, String.toList_empty, List.append_nil, String.toList_inj] at ht
    rw [ht]
    exact withoutSize_of_notMem (Operation.not_mem_name (by decide) _)
  · rw [hs] at ht
    cases s <;> exact withoutSize_of_letter ht (by decide)
  · rw [hs] at ht
    exact withoutSize_of_letter ht (by decide)

/-- The instruction stands at the front of some bytes. -/
def Instruction.Decoded (i : Instruction) : Prop :=
  ∃ bytes address, decodeInstruction bytes address = .ok i

theorem Run.decoded {bs rest : List UInt8} {a b : UInt32} {is : List Instruction}
    (h : Run bs a is rest b) : ∀ i ∈ is, i.Decoded := by
  induction h with
  | nil => simp
  | cons hd _ ih =>
    rintro j (_ | ⟨_, hj⟩)
    · exact ⟨_, _, hd⟩
    · exact ih j hj

theorem table_getLast : ∀ e ∈ table, e.pattern.name.toList.getLast? ≠ none ∧
    e.pattern.name.toList.getLast? ≠ some ')' := by
  decide

namespace Instruction

variable {i : Instruction} {is : List Instruction}

theorem isData_dataWord {os : List Operand} {address : UInt32} {bytes : List UInt8} :
    ((dataWord w).instruction os w' address bytes).isData = true :=
  beq_iff_eq.mpr (show Mnemonic.text ⟨.dc, .sized .word⟩ = "DC.W" by decide)

theorem Decoded.label (h : i.Decoded) (hi : i.isData = false) :
    ∃ e, resolve i.opcode = some e ∧
      withoutSize i.mnemonic ∈ namesUnder e.pattern.name i.opcode := by
  obtain ⟨bytes, address, hd⟩ := h
  obtain ⟨hi', lo, rest, l, os, -, hl, -, rfl⟩ := decodeInstruction_eq_ok_iff.mp hd
  have hdata : l ≠ dataWord (joinBytes hi' lo) := by
    rintro rfl
    rw [isData_dataWord] at hi
    cases hi
  rw [Opcode.layout] at hl
  split at hl
  · next e he =>
    refine ⟨e, he, ?_⟩
    have hop := (Family.performs_of_layout hl).resolve_left hdata
    rw [Layout.instruction, Mnemonic.withoutSize_text]
    exact name_mem_namesUnder he hop
  · cases hl
    exact absurd rfl hdata

theorem Decoded.family?_eq_none_iff (h : i.Decoded) : i.family? = none ↔ i.isData = true := by
  cases hi : i.isData with
  | true => simp [family?, hi]
  | false =>
    obtain ⟨e, he, -⟩ := h.label hi
    simp [family?, hi, he]

theorem Decoded.familyLine_marked (h : i.Decoded) :
    "(data)".toList <:+ i.familyLine.toList ↔ i.isData = true := by
  constructor
  · rintro ⟨t, ht⟩
    by_contra hi
    rw [Bool.not_eq_true] at hi
    obtain ⟨e, he, -⟩ := h.label hi
    obtain ⟨hnone, hmark⟩ := table_getLast e (List.mem_of_find?_eq_some he)
    obtain ⟨c, hc⟩ := Option.ne_none_iff_exists'.mp hnone
    have hline : i.familyLine.toList.getLast? = some c := by
      simp only [familyLine, family?, hi, he, Bool.false_eq_true, if_false, Option.map_some,
        Option.getD_some, String.toList_append, List.getLast?_append, hc, Option.some_or]
    rw [← ht, List.getLast?_append] at hline
    exact hmark (hc.trans hline.symm)
  · intro hi
    rw [familyLine, h.family?_eq_none_iff.mpr hi, String.toList_append]
    exact List.suffix_append _ _

theorem countP_family (h : ∀ i ∈ is, i.Decoded) :
    is.countP (fun i ↦ i.family?.isSome) = is.length - is.countP isData := by
  have hsplit := List.length_eq_countP_add_countP isData (l := is)
  have hnamed : is.countP (fun i ↦ i.family?.isSome) = is.countP (fun i ↦ ¬ i.isData = true) := by
    refine List.countP_congr fun i hi ↦ ?_
    rw [decide_eq_true_eq, ← (h i hi).family?_eq_none_iff, Option.isSome_iff_ne_none]
  omega

theorem familyReport_eq (h : ∀ i ∈ is, i.Decoded) :
    familyReport is = unlines (is.map familyLine ++
      [Numeral.decimal (is.length - is.countP isData) ++ " instructions, " ++
        Numeral.decimal (is.countP isData) ++ " data words"]) := by
  have hle : is.countP isData ≤ is.length := List.countP_le_length
  simp only [familyReport, countP_family h, Nat.sub_sub_self hle]

end Instruction

/-- The table's label and the mnemonic agree, so that a report on what was decoded marks the data
and counts everything once. -/
theorem label_agrees_with_mnemonic :
    (∀ bytes address i, decodeInstruction bytes address = .ok i → i.isData = false →
      ∃ e, resolve i.opcode = some e ∧
        withoutSize i.mnemonic ∈ namesUnder e.pattern.name i.opcode) ∧
    (∀ is : List Instruction, (∀ i ∈ is, i.Decoded) →
      (∀ i ∈ is, "(data)".toList <:+ i.familyLine.toList ↔ i.isData = true) ∧
      is.countP Instruction.isData ≤ is.length ∧
      is.countP (fun i ↦ i.family?.isSome) + is.countP Instruction.isData = is.length ∧
      familyReport is = unlines (is.map Instruction.familyLine ++
        [Numeral.decimal (is.length - is.countP Instruction.isData) ++ " instructions, " ++
          Numeral.decimal (is.countP Instruction.isData) ++ " data words"])) ∧
    ∀ bytes address, ∀ i ∈ decodedBy (decodeRange bytes address), i.Decoded := by
  refine ⟨fun bytes address i h ↦ Instruction.Decoded.label ⟨bytes, address, h⟩,
    fun is h ↦ ?_, fun bytes address ↦ ?_⟩
  · have hle : is.countP Instruction.isData ≤ is.length := List.countP_le_length
    have hsum := Instruction.countP_family h
    exact ⟨fun i hi ↦ (h i hi).familyLine_marked, hle, by omega, Instruction.familyReport_eq h⟩
  · obtain ⟨rest, b, hrun⟩ := run_decodedBy bytes address
    exact hrun.decoded

theorem label_agrees_with_mnemonic_dbf :
    let i : Instruction := ⟨0x1000, 0x51C8, "DBF", "D0, $1000", 4, [0x51, 0xC8, 0xFF, 0xFE]⟩
    let j : Instruction := ⟨0x1004, 0xFFFF, "DC.W", "$FFFF", 2, [0xFF, 0xFF]⟩
    decodeInstruction [0x51, 0xC8, 0xFF, 0xFE] 0x1000 = .ok i ∧
      decodeInstruction [0xFF, 0xFF] 0x1004 = .ok j ∧
      (∃ e, resolve i.opcode = some e ∧
        withoutSize i.mnemonic ∈ namesUnder e.pattern.name i.opcode) ∧
      ("(data)".toList <:+ i.familyLine.toList ↔ i.isData = true) ∧
      familyReport [i, j] =
        "  $00001000  51C8  DBcc\n  $00001004  FFFF  (data)\n1 instructions, 1 data words\n" := by
  intro i j
  have hi : decodeInstruction [0x51, 0xC8, 0xFF, 0xFE] 0x1000 = .ok i := by decide +kernel
  have hj : decodeInstruction [0xFF, 0xFF] 0x1004 = .ok j := by decide +kernel
  have hall : ∀ k ∈ [i, j], k.Decoded := by
    rintro k (_ | ⟨_, _ | ⟨_, ⟨⟩⟩⟩)
    · exact ⟨_, _, hi⟩
    · exact ⟨_, _, hj⟩
  have hreport := label_agrees_with_mnemonic.2.1 [i, j] hall
  exact ⟨hi, hj, label_agrees_with_mnemonic.1 _ _ i hi (by decide +kernel),
    hreport.1 i List.mem_cons_self, hreport.2.2.2.trans (by decide +kernel)⟩

end Mc68000
