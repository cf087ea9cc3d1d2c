import Mc68000.Proofs.InstructionEncoding
import Mc68000.Proofs.RoundTrip

namespace Mc68000

open Layout Numeral

/-- How a branch gets to its target: what its mnemonic ends in, how many bytes it takes, how far it
goes from the word behind its opcode, and how many digits its target has at least. -/
structure Reach where
  suffix : String
  size : Nat
  distance : Int
  digits : Nat
  deriving DecidableEq

def Reach.target (r : Reach) (address : UInt32) : Int :=
  ((address.toNat : Int) + 2 + r.distance) % 0x100000000

def wordDistance? : List UInt8 → Option Int
  | a :: b :: _ => some (Int.bmod (a.toNat * 0x100 + b.toNat) 0x10000)
  | _ => none

def longDistance? : List UInt8 → Option Int
  | a :: b :: c :: d :: _ =>
    some ((a.toNat * 0x100 + b.toNat) * 0x10000 + (c.toNat * 0x100 + d.toNat))
  | _ => none

/-- The low byte of the opcode is the distance, or it tells how much of the bytes behind it is. -/
def branchReach? (low : UInt8) (rest : List UInt8) : Option Reach :=
  if low = 0x00 then (wordDistance? rest).map (⟨".W", 4, ·, 4⟩)
  else if low = 0xFF then (longDistance? rest).map (⟨".L", 6, ·, 8⟩)
  else some ⟨".S", 2, Int.bmod low.toNat 0x100, 4⟩

def loopReach? (rest : List UInt8) : Option Reach := (wordDistance? rest).map (⟨"", 4, ·, 4⟩)

/-- The text names the number in upper-case hexadecimal: zeros fill it up to `width` digits, and it
has more of them only if the number does. -/
def Points (text : String) (width : Nat) (n : Int) : Prop :=
  ∃ ds, text.toList = '$' :: ds ∧ (∀ c ∈ ds, c ∈ "0123456789ABCDEF".toList) ∧
    (value 16 ds : Int) = n ∧ width ≤ ds.length ∧
    (width < ds.length → 1 <<< (4 * (ds.length - 1)) ≤ value 16 ds)

namespace Numeral

theorem le_of_lt_length_hex {width n : Nat} (hw : 0 < width)
    (h : width < (hex width n).toList.length) :
    1 <<< (4 * ((hex width n).toList.length - 1)) ≤ n := by
  have hl (k : Nat) : (hex k n).toList.length = max k (digits 16 n).length := length_padded 16 k n
  have hk : 0 < (hex width n).toList.length - 1 := by omega
  rw [← Nat.not_lt]
  intro hn
  have hshort := length_hex_of_lt hk hn
  rw [hl] at h hshort
  rw [hl width] at hshort
  omega

end Numeral

theorem Literal.points_address (v : UInt32) {width : Nat} (hw : 0 < width) :
    Points (address v width) width v.toNat := by
  have hv : value 16 (hex width v.toNat).toList = v.toNat :=
    value_padded (by decide) (by decide) _ _
  refine ⟨(hex width v.toNat).toList, by simp [address], ?_, congrArg _ hv, le_length_hex _ _, ?_⟩
  · intro c hc
    obtain ⟨d, hd, rfl⟩ := exists_of_mem_padded (by decide) hc
    exact mem_hexDigits d hd
  · intro hl
    rw [hv]
    exact le_of_lt_length_hex hw hl

section Distance

theorem toNat_toUInt32 (x : Int32) : (x.toUInt32.toNat : Int) = x.toInt % 0x100000000 := by
  change (x.toBitVec.toNat : Int) = x.toBitVec.toInt % 0x100000000
  have hx := x.toBitVec.isLt
  have hm := @Int.bmod_emod x.toBitVec.toNat (2 ^ 32)
  rw [BitVec.toInt_eq_toNat_bmod]
  omega

theorem toNat_ofInt (d : Int) : ((UInt32.ofInt d).toNat : Int) = d % 0x100000000 := by
  rw [UInt32.ofInt, UInt32.toNat_ofNat']
  omega

theorem toInt_toInt8 (b : UInt8) : b.toInt8.toInt = Int.bmod b.toNat 0x100 :=
  BitVec.toInt_eq_toNat_bmod b.toBitVec

theorem toInt_toInt16 (w : UInt16) : w.toInt16.toInt = Int.bmod w.toNat 0x10000 :=
  BitVec.toInt_eq_toNat_bmod w.toBitVec

theorem toUInt32_eq_ofInt (x : Int32) : x.toUInt32 = UInt32.ofInt x.toInt := by
  apply UInt32.toNat_inj.mp
  have h := (toNat_toUInt32 x).trans (toNat_ofInt x.toInt).symm
  omega

theorem Reach.toNat_target (r : Reach) (address : UInt32) :
    ((address + 2 + UInt32.ofInt r.distance).toNat : Int) = r.target address := by
  have h := toNat_ofInt r.distance
  have h2 : (2 : UInt32).toNat = 2 := rfl
  rw [UInt32.toNat_add, UInt32.toNat_add, h2, target]
  omega

end Distance

namespace Slot

variable {pc : UInt32} {rest : List UInt8}

theorem operandAt_nearTarget (low : UInt8) :
    (nearTarget low.toInt8).operandAt pc rest =
      (some (Int.bmod low.toNat 0x100)).map (fun d ↦ .target (pc + UInt32.ofInt d) 4) := by
  rw [operandAt, form, toUInt32_eq_ofInt, Int8.toInt_toInt32, toInt_toInt8]
  rfl

theorem operandAt_wordTarget :
    wordTarget.operandAt pc rest =
      (wordDistance? rest).map (fun d ↦ .target (pc + UInt32.ofInt d) 4) := by
  rcases rest with _ | ⟨a, _ | ⟨b, rest⟩⟩
  · rfl
  · rfl
  · have hw : (joinBytes a b).toNat = a.toNat * 0x100 + b.toNat := by
      rw [toNat_joinBytes]
      omega
    change some (Operand.target (pc + (joinBytes a b).toInt16.toInt32.toUInt32) 4) = _
    rw [toUInt32_eq_ofInt, Int16.toInt_toInt32, toInt_toInt16, hw]
    rfl

theorem operandAt_longTarget :
    longTarget.operandAt pc rest =
      (longDistance? rest).map (fun d ↦ .target (pc + UInt32.ofInt d) 8) := by
  rcases rest with _ | ⟨a, _ | ⟨b, _ | ⟨c, _ | ⟨d, rest⟩⟩⟩⟩
  · rfl
  · rfl
  · rfl
  · rfl
  · change some (Operand.target (pc + joinWords (joinBytes a b) (joinBytes c d)) 8) = _
    have hl : joinWords (joinBytes a b) (joinBytes c d) =
        UInt32.ofInt ((a.toNat * 0x100 + b.toNat) * 0x10000 + (c.toNat * 0x100 + d.toNat)) := by
      apply UInt32.toNat_inj.mp
      have h := toNat_ofInt ((a.toNat * 0x100 + b.toNat) * 0x10000 + (c.toNat * 0x100 + d.toNat))
      have ha := a.toNat_lt
      have hb := b.toNat_lt
      have hc := c.toNat_lt
      have hd := d.toNat_lt
      rw [toNat_joinWords, toNat_joinBytes, toNat_joinBytes]
      omega
    rw [hl]
    rfl

end Slot

theorem Layout.operandsAt_fixed (ps : List Operand) (σ : Slot) (pc : UInt32) (bs : List UInt8) :
    operandsAt (ps.map .fixed ++ [σ]) pc bs = (σ.operandAt pc bs).map (fun o ↦ ps ++ [o]) := by
  induction ps with
  | nil =>
    rw [List.map_nil, List.nil_append, operandsAt]
    cases σ.operandAt pc bs <;> rfl
  | cons p ps ih =>
    have hp : pc + UInt32.ofNat (2 * (Slot.fixed p).words) = pc := UInt32.add_zero pc
    change (operandsAt (ps.map .fixed ++ [σ]) (pc + UInt32.ofNat (2 * (Slot.fixed p).words)) bs).map
      (p :: ·) = _
    rw [hp, ih, Option.map_map]
    rfl

theorem Layout.extent_fixed (ps : List Operand) (σ : Slot) :
    extent (ps.map .fixed ++ [σ]) = extent [σ] := by
  induction ps with
  | nil => rfl
  | cons p ps ih => exact (Nat.zero_add _).trans ih

/-- The bytes are an instruction with this name that goes where its reach tells, or they end before
the reach is known. -/
def Goes (address : UInt32) (bytes : List UInt8) (name lead : String) : Option Reach → Prop
  | some r => ∃ i t, decodeInstruction bytes address = .ok i ∧ i.size = r.size ∧
      i.mnemonic = name ++ r.suffix ∧ i.operands = lead ++ t ∧ Points t r.digits (r.target address)
  | none => ∃ e, decodeInstruction bytes address = .error e

variable {hi lo : UInt8} {rest : List UInt8} {address : UInt32} {w : Opcode}

theorem goes_of_layout (ps : List Operand) {m : Mnemonic} {σ : Slot} {d? : Option Int}
    {name lead suffix : String} {digits : Nat}
    (hl : Opcode.layout (joinBytes hi lo) = .ok ⟨m, ps.map .fixed ++ [σ], false, false⟩)
    (hσ : σ.operandAt (address + 2) rest =
      d?.map (fun d ↦ .target (address + 2 + UInt32.ofInt d) digits))
    (hdigits : 0 < digits) (hm : m.text = name ++ suffix)
    (hlead : ∀ t, joinOperands (ps.map Operand.text ++ [t]) = lead ++ t) :
    Goes address (hi :: lo :: rest) name lead
      (d?.map (⟨suffix, 2 + 2 * extent [σ], ·, digits⟩)) := by
  have hos := operandsAt_fixed ps σ (address + 2) rest
  rw [hσ] at hos
  cases d? with
  | some d =>
    let r : Reach := ⟨suffix, 2 + 2 * extent [σ], d, digits⟩
    refine ⟨_, _, decodeInstruction_eq_ok_iff.mpr ⟨hi, lo, rest, _, _, rfl, hl, hos, rfl⟩, ?_, hm,
      ?_, r.toNat_target address ▸ Literal.points_address _ hdigits⟩
    · rw [← extent_fixed ps σ]
      rfl
    · change joinOperands ((ps ++ [_]).map Operand.text) = _
      rw [List.map_append]
      exact hlead _
  | none =>
    cases hd : decodeInstruction (hi :: lo :: rest) address with
    | error e => exact ⟨e, hd⟩
    | ok i =>
      obtain ⟨_, _, _, l, os, hbytes, hl', hos', -⟩ := decodeInstruction_eq_ok_iff.mp hd
      cases hbytes
      rw [hl] at hl'
      cases hl'
      rw [hos] at hos'
      cases hos'

theorem Opcode.field_joinBytes (hi lo : UInt8) : Opcode.field (joinBytes hi lo) 0 8 = lo.toNat := by
  have hl := lo.toNat_lt
  rw [field, toNat_joinBytes, Nat.one_shiftLeft]
  omega

theorem Layout.branch_joinBytes (hi lo : UInt8) :
    branch (joinBytes hi lo) =
      let op := branchOperation (Opcode.condition (joinBytes hi lo))
      if lo = 0x00 then sized op .word [.wordTarget]
      else if lo = 0xFF then sized op .long [.longTarget]
      else ⟨⟨op, .short⟩, [.nearTarget lo.toInt8], false, false⟩ := by
  rw [branch_eq, Opcode.field_joinBytes, toUInt8_joinBytes]
  by_cases h0 : lo = 0x00
  · subst h0
    rfl
  by_cases h1 : lo = 0xFF
  · subst h1
    rfl
  have hn0 : lo.toNat ≠ 0x00 := fun h ↦ h0 (UInt8.toNat_inj.mp h)
  have hn1 : lo.toNat ≠ 0xFF := fun h ↦ h1 (UInt8.toNat_inj.mp h)
  simp only [h0, h1, if_false]

theorem Opcode.layout_eq_branch (h : w &&& 0xF000 = 0x6000) : w.layout = .ok (branch w) := by
  have hfirst : table.find? (fun e ↦ e.pattern.agrees 0xF000 0x6000) =
      some ⟨⟨0xF000, 0x6000, "Bcc"⟩, .branch⟩ := by
    decide
  exact layout_of_first h hfirst

theorem Opcode.layout_eq_dbcc (h : w &&& 0xF0F8 = 0x50C8) : w.layout = .ok (dbcc w) := by
  have hfirst : table.find? (fun e ↦ e.pattern.agrees 0xF0F8 0x50C8) =
      some ⟨⟨0xF0F8, 0x50C8, "DBcc"⟩, .dbcc⟩ := by
    decide
  exact layout_of_first h hfirst

theorem goes_branch (h : joinBytes hi lo &&& 0xF000 = 0x6000) (rest : List UInt8)
    (address : UInt32) :
    Goes address (hi :: lo :: rest) (branchOperation (Opcode.condition (joinBytes hi lo))).name ""
      (branchReach? lo rest) := by
  have hlead (t : String) : joinOperands ([].map Operand.text ++ [t]) = "" ++ t := by
    simp [joinOperands]
  have hl := Opcode.layout_eq_branch h
  rw [branch_joinBytes] at hl
  unfold branchReach?
  by_cases h0 : lo = 0x00
  · rw [if_pos h0] at hl ⊢
    exact goes_of_layout [] hl Slot.operandAt_wordTarget (by decide) rfl hlead
  rw [if_neg h0] at hl ⊢
  by_cases h1 : lo = 0xFF
  · rw [if_pos h1] at hl ⊢
    exact goes_of_layout [] hl Slot.operandAt_longTarget (by decide) rfl hlead
  rw [if_neg h1] at hl ⊢
  exact goes_of_layout [] hl (Slot.operandAt_nearTarget lo) (by decide) rfl hlead

theorem goes_dbcc (h : joinBytes hi lo &&& 0xF0F8 = 0x50C8) (rest : List UInt8)
    (address : UInt32) :
    Goes address (hi :: lo :: rest) ("DB" ++ (Opcode.condition (joinBytes hi lo)).suffix)
      ((Register.data (lo.toNat % 8)).text ++ ", ") (loopReach? rest) := by
  have hreg : Opcode.reg (joinBytes hi lo) = lo.toNat % 8 := by
    have hl := lo.toNat_lt
    rw [Opcode.reg, Opcode.field, toNat_joinBytes, Nat.one_shiftLeft]
    omega
  have hl := Opcode.layout_eq_dbcc h
  rw [dbcc, hreg] at hl
  refine goes_of_layout [.address (.dataDirect (lo.toNat % 8))] hl Slot.operandAt_wordTarget
    (by decide) rfl ?_
  intro t
  exact joinOperands_pair _ t

theorem eq_of_equalExcept {mask bs bs' : List UInt8} (hm : ∀ m ∈ mask, m = 0)
    (h : EqualExcept mask bs bs') : bs = bs' := by
  have hzero {cs : List UInt8} (hl : cs.length = mask.length) :
      cs.zipWith (· ||| ·) mask = cs := by
    apply List.ext_getElem
    · simp [hl]
    · intro n h₁ h₂
      rw [List.getElem_zipWith, hm _ (List.getElem_mem _), UInt8.or_zero]
  obtain ⟨hl, hl', hz⟩ := h
  rwa [hzero hl, hzero hl'] at hz

theorem Opcode.ignored_of_branch (h : w &&& 0xF000 = 0x6000 ∨ w &&& 0xF0F8 = 0x50C8) :
    ∀ m ∈ w.ignored, m = 0 := by
  unfold Opcode.ignored
  rcases h with h | h
  · rw [layout_eq_branch h, branch_eq]
    dsimp only
    split <;> simp [sized, Layout.ignored, Slot.ignored]
  · rw [layout_eq_dbcc h]
    simp [dbcc, plain, Layout.ignored, Slot.ignored, Slot.dataReg]

theorem Opcode.and_of_line {w : Opcode} (h : 0x6000 ≤ w.toNat) (h' : w.toNat ≤ 0x6FFF) :
    w &&& 0xF000 = 0x6000 := by
  have h12 : w.field 12 4 = 6 := by
    rw [field, Nat.one_shiftLeft]
    omega
  exact and_of_field (i := 12) (n := 4) rfl (by rw [h12]; rfl)

theorem bytes_eq_of_branch {bs bs' : List UInt8} {i i' : Instruction}
    (h : decodeInstruction bs address = .ok i) (h' : decodeInstruction bs' address = .ok i')
    (hb : i.opcode &&& 0xF000 = 0x6000 ∨ i.opcode &&& 0xF0F8 = 0x50C8)
    (hm : i.mnemonic = i'.mnemonic) (ho : i.operands = i'.operands) : i.bytes = i'.bytes := by
  have ha : i.assembly = i'.assembly := by rw [Instruction.assembly, Instruction.assembly, hm, ho]
  exact eq_of_equalExcept (Opcode.ignored_of_branch hb) (encoding_of_assembly_eq h h' ha).2.2

/-- A branch names the address that it goes to, counted from the word behind its opcode and around
the end of the address space, and at one address no two branches go to the same place by the same
name. -/
theorem branch_names_target (address : UInt32) :
    (∀ hi lo rest, 0x6000 ≤ (joinBytes hi lo).toNat → (joinBytes hi lo).toNat ≤ 0x6FFF →
      Goes address (hi :: lo :: rest)
        (branchOperation (Opcode.condition (joinBytes hi lo))).name "" (branchReach? lo rest)) ∧
    (∀ hi lo rest, joinBytes hi lo &&& 0xF0F8 = 0x50C8 →
      Goes address (hi :: lo :: rest) ("DB" ++ (Opcode.condition (joinBytes hi lo)).suffix)
        ((Register.data (lo.toNat % 8)).text ++ ", ") (loopReach? rest)) ∧
    ∀ bs bs' i i', decodeInstruction bs address = .ok i → decodeInstruction bs' address = .ok i' →
      (i.opcode &&& 0xF000 = 0x6000 ∨ i.opcode &&& 0xF0F8 = 0x50C8) →
      i.mnemonic = i'.mnemonic → i.operands = i'.operands → i.bytes = i'.bytes := by
  refine ⟨?_, ?_, ?_⟩
  · intro hi lo rest h h'
    exact goes_branch (Opcode.and_of_line h h') rest address
  · intro hi lo rest h
    exact goes_dbcc h rest address
  · intro bs bs' i i' h h' hb hm ho
    exact bytes_eq_of_branch h h' hb hm ho

theorem branch_names_target_backwards :
    Goes 0 [0x60, 0xFC] "BRA" "" (some ⟨".S", 2, -4, 4⟩) ∧
      Reach.target ⟨".S", 2, -4, 4⟩ 0 = 0xFFFFFFFE ∧
      Goes 0x100 [0x56, 0xC9, 0xFF, 0xFC] "DBNE" "D1, " (some ⟨"", 4, -4, 4⟩) ∧
      Reach.target ⟨"", 4, -4, 4⟩ 0x100 = 0xFE ∧
      ∀ bs i, decodeInstruction bs 0 = .ok i → i.mnemonic = "BRA.S" → i.operands = "$FFFFFFFE" →
        i.bytes = [0x60, 0xFC] := by
  have hbra : decodeInstruction [0x60, 0xFC] 0 =
      .ok ⟨0, 0x60FC, "BRA.S", "$FFFFFFFE", 2, [0x60, 0xFC]⟩ := by decide
  obtain ⟨hbranch, -, hbytes⟩ := branch_names_target 0
  obtain ⟨-, hloop, -⟩ := branch_names_target 0x100
  have hb := hbranch 0x60 0xFC [] (by decide) (by decide)
  have hl := hloop 0x56 0xC9 [0xFF, 0xFC] (by decide)
  rw [show branchReach? 0xFC [] = some ⟨".S", 2, -4, 4⟩ by decide] at hb
  rw [show loopReach? [0xFF, 0xFC] = some ⟨"", 4, -4, 4⟩ by decide] at hl
  refine ⟨hb, by decide, hl, by decide, ?_⟩
  intro bs i h hm ho
  exact (hbytes _ bs _ i hbra h (.inl (by decide)) hm.symm ho.symm).symm

end Mc68000
