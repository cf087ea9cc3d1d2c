import Mc68000.Proofs.AddressCodec
import Mc68000.Proofs.InstructionEncoding
import Mc68000.Proofs.TableLabel

namespace Mc68000

open Layout RegisterList

def Register.isData : Register → Bool
  | data _ => true
  | address _ => false

/-- The text lists the registers that a word selects, in their order and each of them once. No part
of it mixes the two kinds, and no two parts of one kind could be joined. -/
def Lists (text : String) (mask : Nat) (reversed : Bool) : Prop :=
  ∃ parts, readRanges? text = some parts ∧
    parts.flatMap span = ((List.range 16).filter (fun i ↦
      mask.testBit (if reversed then 15 - i else i))).map .ofIndex ∧
    (∀ p ∈ parts, p.1.isData = p.2.isData) ∧
    parts.Pairwise (fun p q ↦ p.2.isData = q.1.isData → p.2.index + 1 < q.1.index)

namespace RegisterList

theorem pairwise_consRun {rs : List (Nat × Nat)} {n : Nat} (hle : ∀ r ∈ rs, r.1 ≤ r.2)
    (hn : ∀ r ∈ rs, n < r.1) (h : rs.Pairwise (fun r q ↦ r.2 + 1 < q.1)) :
    (consRun n rs).Pairwise (fun r q ↦ r.2 + 1 < q.1) := by
  rcases rs with _ | ⟨⟨a, b⟩, rs⟩
  · simp [consRun]
  · obtain ⟨hab, hrs⟩ := List.pairwise_cons.mp h
    simp only [consRun]
    split
    · exact List.pairwise_cons.mpr ⟨hab, hrs⟩
    · next hne =>
      refine List.pairwise_cons.mpr ⟨?_, h⟩
      have ha : n < a := hn _ List.mem_cons_self
      have hb : a ≤ b := hle _ List.mem_cons_self
      rintro q (_ | ⟨_, hq⟩)
      · dsimp only
        omega
      · have hq := hab q hq
        dsimp only at hq ⊢
        omega

theorem pairwise_runs {ns : List Nat} (h : ns.Pairwise (· < ·)) :
    (runs ns).Pairwise (fun r q ↦ r.2 + 1 < q.1) := by
  induction ns with
  | nil => exact .nil
  | cons n ns ih =>
    obtain ⟨hn, hns⟩ := List.pairwise_cons.mp h
    exact pairwise_consRun (runs_ordered ns) (fun r hr ↦ hn r.1 (mem_of_mem_runs hr).1) (ih hns)

theorem isData_of_mem_ranges {l : RegisterList} {p : Register × Register} (h : p ∈ l.ranges) :
    p.1.isData = p.2.isData := by
  rcases List.mem_append.mp h with h | h <;>
  · obtain ⟨r, -, rfl⟩ := List.mem_map.mp h
    rfl

theorem pairwise_ranges (l : RegisterList) :
    l.ranges.Pairwise (fun p q ↦ p.2.isData = q.1.isData → p.2.index + 1 < q.1.index) := by
  have hnumbers {p : Nat → Bool} : ((List.range 8).filter p).Pairwise (· < ·) :=
    List.pairwise_lt_range.filter p
  refine List.pairwise_append.mpr ⟨?_, ?_, ?_⟩
  · refine List.pairwise_map.mpr ((pairwise_runs hnumbers).imp ?_)
    intro r q h _
    exact h
  · refine List.pairwise_map.mpr ((pairwise_runs hnumbers).imp ?_)
    intro r q h _
    simp only [Register.index]
    omega
  · intro p hp q hq h
    obtain ⟨r, -, rfl⟩ := List.mem_map.mp hp
    obtain ⟨r', -, rfl⟩ := List.mem_map.mp hq
    cases h

theorem lists_text (l : RegisterList) : Lists l.text l.mask.toNat l.reversed := by
  refine ⟨l.ranges, readRanges?_text l, ?_, fun p ↦ isData_of_mem_ranges, pairwise_ranges l⟩
  rw [flatMap_span_ranges, registers_eq]
  rfl

end RegisterList

theorem table_movem : ∀ e ∈ table,
    .movem ∈ e.family.operations e.pattern.value → e.family = .movem := by
  decide

theorem family_of_movem {w : Opcode} {e : Entry} (h : resolve w = some e)
    (hop : .movem ∈ e.family.operations w) : e.family = .movem := by
  have he := List.mem_of_find?_eq_some h
  have hbranch : ∀ c, branchOperation c ≠ .movem := by
    intro c
    cases c <;> decide
  rcases table_labels e he with hl | ⟨hs, -⟩
  · simp only [openLabels, List.mem_cons, Prod.mk.injEq, List.not_mem_nil, or_false] at hl
    obtain ⟨hF, -⟩ | ⟨hF, -⟩ | ⟨hF, -⟩ | ⟨hF, -⟩ := hl <;>
      simp [hF, Family.operations, (hbranch _).symm] at hop
  · rw [operations_eq_of_resolve h hs] at hop
    exact table_movem e he hop

theorem Opcode.layout_of_movem {w : Opcode} {l : Layout} {s : Size} (hl : w.layout = .ok l)
    (hm : l.mnemonic = ⟨.movem, .sized s⟩) :
    2 ≤ w.mode ∧
      l = ⟨⟨.movem, .sized s⟩, [.registers (w.mode = 4), w.address s], w.bit 10, false⟩ := by
  have hdata : l ≠ dataWord w := by
    rintro rfl
    cases hm
  cases he : resolve w with
  | none =>
    rw [layout, he] at hl
    cases hl
    exact absurd rfl hdata
  | some e =>
    rw [layout_of_resolve he] at hl
    have hop := (Family.performs_of_layout hl).resolve_left hdata
    rw [hm] at hop
    rw [family_of_movem he hop] at hl
    change Except.ok (if movemAllowed (w.bit 10) w.mode w.reg then _ else _) = _ at hl
    split at hl
    · next ha =>
      cases hl
      cases hm
      exact ⟨(movemAllowed_spec ha).1, rfl⟩
    · cases hl
      exact absurd rfl hdata

theorem Slot.operandAt_address {m r : Nat} {s : Size} {pc : UInt32} {bs : List UInt8} {o : Operand}
    (h : (Slot.address m r s).operandAt pc bs = some o) :
    ∃ a n, EffectiveAddress.decode bs m r s = .ok (a, n) ∧ o = .address a := by
  rw [Slot.operandAt, Slot.form] at h
  cases hx : EffectiveAddress.form? m r s with
  | none => simp [hx] at h
  | some x =>
    simp only [hx, Extension.read_map, Option.map_eq_some_iff] at h
    obtain ⟨a, ha, rfl⟩ := h
    exact ⟨a, x.words, EffectiveAddress.decode_eq_ok_iff.mpr ⟨x, hx, ha, rfl⟩, rfl⟩

theorem Layout.operandsAt_transfer {r : Bool} {m k : Nat} {s : Size} {pc : UInt32}
    {bs : List UInt8} {os : List Operand}
    (h : operandsAt [.registers r, .address m k s] pc bs = some os) :
    ∃ a b rest ea n, bs = a :: b :: rest ∧ EffectiveAddress.decode rest m k s = .ok (ea, n) ∧
      os = [.registers ⟨joinBytes a b, r⟩, .address ea] := by
  obtain ⟨o, os', ho, hos, rfl⟩ := operandsAt_cons.mp h
  obtain ⟨a, b, rest, rfl, rfl⟩ := Extension.exists_of_read_word ho
  obtain ⟨p, os', hp, hnil, rfl⟩ := operandsAt_cons.mp hos
  cases hnil
  obtain ⟨ea, n, hea, rfl⟩ := Slot.operandAt_address hp
  exact ⟨a, b, rest, ea, n, rfl, hea, rfl⟩

/-- The operands of a transfer are a list of the registers that the word selects and the address.
The list is read backwards for -(An) alone, and it stands in front unless registers are loaded. -/
def Transfers (operands : String) (mask : Nat) (a : EffectiveAddress) (load : Bool) : Prop :=
  ∃ list reversed, Lists list mask reversed ∧ (reversed = true ↔ ∃ n, a = .preDecrement n) ∧
    (operands = joinOperands [list, a.text] ↔ load = false) ∧
    (operands = joinOperands [a.text, list] ↔ load = true)

theorem joinOperands_ne {l : RegisterList} {a : EffectiveAddress} (ha : 2 ≤ a.mode) :
    joinOperands [l.text, a.text] ≠ joinOperands [a.text, l.text] := by
  intro h
  have hl := l.not_mem_text (c := ' ') (by decide)
  have ha' := a.not_mem_text (c := ' ') (by decide)
  have heq := joinOperands_inj (by simp [hl, ha']) (by simp [hl, ha']) (by simp) (by simp) h
  have hhead := l.head_text
  rw [(List.cons.inj heq).1, a.head_text] at hhead
  cases a <;> simp_all [EffectiveAddress.lead, EffectiveAddress.mode]

theorem transfers_of_order {a : EffectiveAddress} (ha : 2 ≤ a.mode) (mask : UInt16) (load : Bool) :
    Transfers (joinOperands (if load then [a.text, RegisterList.text ⟨mask, a.mode = 4⟩]
      else [RegisterList.text ⟨mask, a.mode = 4⟩, a.text])) mask.toNat a load := by
  have hrev : decide (a.mode = 4) = true ↔ ∃ n, a = .preDecrement n := by
    cases a <;> simp [EffectiveAddress.mode]
  have hne := joinOperands_ne (l := ⟨mask, a.mode = 4⟩) ha
  refine ⟨_, _, lists_text ⟨mask, a.mode = 4⟩, hrev, ?_⟩
  cases load with
  | false => simpa using hne
  | true => simpa using hne.symm

variable {bytes : List UInt8} {address : UInt32} {i : Instruction} {s : Size}

theorem transfers_of_decode (h : decodeInstruction bytes address = .ok i)
    (hm : i.mnemonic = "MOVEM" ++ s.suffix) :
    ∃ hi lo a b rest ea n, bytes = hi :: lo :: a :: b :: rest ∧
      EffectiveAddress.decode rest (Opcode.mode (joinBytes hi lo)) (Opcode.reg (joinBytes hi lo))
        s = .ok (ea, n) ∧
      Transfers i.operands (a.toNat * 0x100 + b.toNat) ea (Opcode.bit (joinBytes hi lo) 10) := by
  obtain ⟨hi, lo, rest, l, os, rfl, hl, hos, rfl⟩ := decodeInstruction_eq_ok_iff.mp h
  have hmn : l.mnemonic = ⟨.movem, .sized s⟩ := Mnemonic.text_inj hm
  obtain ⟨h2, rfl⟩ := Opcode.layout_of_movem hl hmn
  obtain ⟨a, b, rest, ea, n, rfl, hea, rfl⟩ := operandsAt_transfer hos
  refine ⟨hi, lo, a, b, rest, ea, n, rfl, hea, ?_⟩
  have hmode : ea.mode = Opcode.mode (joinBytes hi lo) := by
    obtain ⟨-, hmode, -⟩ := EffectiveAddress.fields_of_decode hea
    exact hmode.trans (Nat.mod_eq_of_lt (Opcode.field_lt _ 3 3))
  have hmask : (joinBytes a b).toNat = a.toNat * 0x100 + b.toNat := by
    rw [toNat_joinBytes, Nat.shiftLeft_eq]
  have ht := transfers_of_order (hmode ▸ h2) (joinBytes a b) (Opcode.bit (joinBytes hi lo) 10)
  rw [hmask, hmode] at ht
  convert ht using 1
  cases Opcode.bit (joinBytes hi lo) 10 <;> rfl

/-- Lists of registers are exact and as short as they can be: they name what their word selects,
by the longest runs there are, so that the text tells the word. A transfer lists its registers so,
in front of the address to store or behind the address to load. -/
theorem transfer_lists_registers :
    (∀ mask reversed, Lists (RegisterList.text ⟨mask, reversed⟩) mask.toNat reversed) ∧
    (∀ mask mask' reversed,
      RegisterList.text ⟨mask, reversed⟩ = RegisterList.text ⟨mask', reversed⟩ → mask = mask') ∧
    ∀ bytes address i s, decodeInstruction bytes address = .ok i →
      i.mnemonic = "MOVEM" ++ s.suffix →
      ∃ hi lo a b rest ea n, bytes = hi :: lo :: a :: b :: rest ∧
        EffectiveAddress.decode rest (Opcode.mode (joinBytes hi lo)) (Opcode.reg (joinBytes hi lo))
          s = .ok (ea, n) ∧
        Transfers i.operands (a.toNat * 0x100 + b.toNat) ea (Opcode.bit (joinBytes hi lo) 10) := by
  refine ⟨?_, ?_, ?_⟩
  · intro mask reversed
    exact lists_text ⟨mask, reversed⟩
  · intro mask mask' reversed h
    let l : RegisterList := ⟨mask, reversed⟩
    let l' : RegisterList := ⟨mask', reversed⟩
    have hr : l.reversed = l'.reversed := rfl
    exact congrArg RegisterList.mask (text_inj hr h)
  · intro bytes address i s h hm
    exact transfers_of_decode h hm

theorem transfer_lists_pushed :
    let i : Instruction :=
      ⟨0, 0x48E7, "MOVEM.L", "D0-D3/A0-A1/A6, -(A7)", 4, [0x48, 0xE7, 0xF0, 0xC2]⟩
    decodeInstruction [0x48, 0xE7, 0xF0, 0xC2] 0 = .ok i ∧
      Transfers i.operands 0xF0C2 (.preDecrement 7) false ∧
      ∀ mask, RegisterList.text ⟨mask, true⟩ = "D0-D3/A0-A1/A6" → mask = 0xF0C2 := by
  intro i
  obtain ⟨-, hinj, hdecode⟩ := transfer_lists_registers
  have hd : decodeInstruction [0x48, 0xE7, 0xF0, 0xC2] 0 = .ok i := by decide
  refine ⟨hd, ?_, ?_⟩
  · obtain ⟨hi, lo, a, b, rest, ea, n, hbytes, hea, ht⟩ := hdecode _ _ _ .long hd (by decide)
    cases hbytes
    cases hea
    exact ht
  · intro mask h
    exact hinj mask 0xF0C2 true (h.trans (by decide))

end Mc68000
