import Mc68000.Instruction
import Mc68000.Proofs.MnemonicText
import Mc68000.Proofs.RegisterListText

namespace Mc68000

open Numeral

/-- The sorts of operands; texts of different sorts can look alike. -/
inductive OperandKind
  | address
  | signed
  | count
  | registers
  | target
  | datum
  | ccr
  | sr
  | usp
  deriving DecidableEq

def Operand.kind : Operand → OperandKind
  | address _ => .address
  | signed _ => .signed
  | count _ => .count
  | registers _ => .registers
  | target _ _ => .target
  | datum _ => .datum
  | ccr => .ccr
  | sr => .sr
  | usp => .usp

namespace Operation

/-- What a text with a number sign is. A shift by a count has two operands, one in memory one. -/
def literalKind (op : Operation) (arity : Nat) : OperandKind :=
  match op with
  | addq => .count
  | subq => .count
  | trap => .count
  | shift _ _ => if arity = 2 then .count else .address
  | moveq => .signed
  | link => .signed
  | _ => .address

/-- What a text with a dollar sign is. -/
def pointerKind : Operation → OperandKind
  | bra => .target
  | bsr => .target
  | bcc _ => .target
  | dbcc _ => .target
  | dc => .datum
  | _ => .address

def registerKind : Operation → OperandKind
  | movem => .registers
  | _ => .address

def kindOf (op : Operation) (arity : Nat) : Option Char → OperandKind
  | none => op.registerKind
  | some 'D' => op.registerKind
  | some 'A' => op.registerKind
  | some '#' => op.literalKind arity
  | some '$' => op.pointerKind
  | some 'C' => .ccr
  | some 'S' => .sr
  | some 'U' => .usp
  | some _ => .address

end Operation

namespace Mnemonic

/-- The size of the immediates of an instruction, which its suffix tells if it has one. -/
def immediateSize (m : Mnemonic) : Size :=
  match m.suffix with
  | .sized s => s
  | _ =>
    match m.operation with
    | .bit _ => .byte
    | .tas => .byte
    | .nbcd => .byte
    | .scc _ => .byte
    | .lea => .long
    | .pea => .long
    | .jsr => .long
    | .jmp => .long
    | _ => .word

def targetWidth (m : Mnemonic) : Nat := if m.suffix = .sized .long then 8 else 4

end Mnemonic

/-- A register list before or behind a predecremented address is in reversed order. -/
def reversedOrder (texts : List String) : Bool :=
  texts.any (fun t ↦ t.toList.head? = some '-')

/-- An operand is what its text means in a statement with this mnemonic and these operand texts. -/
structure Operand.Meant (m : Mnemonic) (texts : List String) (o : Operand) : Prop where
  kind : o.kind = m.operation.kindOf texts.length o.text.toList.head?
  immediate : ∀ v s, o = .address (.immediate v s) →
    s = m.immediateSize ∧ v.toNat < 1 <<< (8 * s.bytes)
  width : ∀ a k, o = .target a k → k = m.targetWidth
  order : ∀ l, o = .registers l → l.reversed = reversedOrder texts ∧ texts.length = 2

namespace Operand

variable {o o' : Operand} {m : Mnemonic} {texts : List String}

theorem Meant.unique (ho : o.Meant m texts) (ho' : o'.Meant m texts) (h : o.text = o'.text) :
    o = o' := by
  have hk : o.kind = o'.kind := by rw [ho.kind, ho'.kind, h]
  cases o <;> cases o' <;> simp only [Operand.kind, reduceCtorEq] at hk
  case address.address a b =>
    refine congrArg address (EffectiveAddress.text_inj h ?_)
    rintro v s v' s' rfl rfl
    obtain ⟨rfl, hv⟩ := ho.immediate v s rfl
    obtain ⟨rfl, hv'⟩ := ho'.immediate v' s' rfl
    exact ⟨rfl, hv, hv'⟩
  case signed.signed v v' =>
    have hs : Literal.signed v = Literal.signed v' := by simpa [text] using h
    rw [Literal.signed_inj hs]
  case count.count n n' =>
    have hs : decimal n = decimal n' := by simpa [text] using h
    rw [decimal_inj hs]
  case registers.registers l l' =>
    rw [RegisterList.text_inj ((ho.order l rfl).1.trans (ho'.order l' rfl).1.symm) h]
  case target.target a k a' k' =>
    rw [ho.width a k rfl, ho'.width a' k' rfl, Literal.address_inj h]
  case datum.datum w w' => rw [UInt16.toNat_inj.mp (hex_inj (Literal.dollar_inj h))]
  all_goals rfl

theorem not_mem_text {c : Char} (hc : c.isWhitespace = true) (o : Operand) :
    c ∉ o.text.toList := by
  cases o with
  | address a => exact a.not_mem_text hc
  | registers l => exact l.not_mem_text hc
  | _ => rcases whitespace_cases hc with rfl | rfl | rfl | rfl <;> simp [text]

theorem text_ne_empty (h : o.kind ≠ .registers) : o.text ≠ "" := by
  intro he
  have hl := congrArg (fun s ↦ s.toList.head?) he
  cases o with
  | address a => simp [text, EffectiveAddress.head_text] at hl
  | registers l => exact h rfl
  | _ => simp [text, Literal.address] at hl

end Operand

theorem joinOperands_cons_inj {t t' : String} {ts ts' : List String}
    (ht : ∀ u ∈ t :: ts, ' ' ∉ u.toList) (ht' : ∀ u ∈ t' :: ts', ' ' ∉ u.toList)
    (h : joinOperands (t :: ts) = joinOperands (t' :: ts')) : t :: ts = t' :: ts' := by
  have hmany {u v : String} {us : List String} : (joinOperands (u :: v :: us)).toList =
      (u.toList ++ [',']) ++ ' ' :: (joinOperands (v :: us)).toList := by
    simp [joinOperands]
  induction ts generalizing t t' ts' with
  | nil =>
    cases ts' with
    | nil => simpa [joinOperands] using h
    | cons u' ts' =>
      have hm := ht t List.mem_cons_self
      have hl := congrArg String.toList h
      rw [hmany, joinOperands, String.intercalate_singleton] at hl
      rw [hl] at hm
      simp at hm
  | cons u ts ih =>
    cases ts' with
    | nil =>
      have hm := ht' t' List.mem_cons_self
      have hl := congrArg String.toList h
      rw [hmany, joinOperands, joinOperands, String.intercalate_singleton] at hl
      rw [← hl] at hm
      simp at hm
    | cons u' ts' =>
      have hl := congrArg String.toList h
      rw [hmany, hmany] at hl
      have hfree {v : String} (hv : ' ' ∉ v.toList) : ' ' ∉ v.toList ++ [','] := by simpa using hv
      obtain ⟨hhead, htail⟩ := append_separator_inj (hfree (ht t List.mem_cons_self))
        (hfree (ht' t' List.mem_cons_self)) hl
      rw [String.toList_inj.mp (List.append_cancel_right hhead),
        ih (fun v hv ↦ ht v (List.mem_cons_of_mem _ hv))
          (fun v hv ↦ ht' v (List.mem_cons_of_mem _ hv)) (String.toList_inj.mp htail)]

theorem joinOperands_inj {ts ts' : List String} (ht : ∀ t ∈ ts, ' ' ∉ t.toList)
    (ht' : ∀ t ∈ ts', ' ' ∉ t.toList) (hs : ts ≠ [""]) (hs' : ts' ≠ [""])
    (h : joinOperands ts = joinOperands ts') : ts = ts' := by
  have hempty {us : List String} (hu : us ≠ [""]) (he : joinOperands us = "") : us = [] := by
    rcases us with _ | ⟨u, _ | ⟨v, us⟩⟩
    · rfl
    · simp_all [joinOperands]
    · simp [joinOperands] at he
  rcases ts with _ | ⟨t, ts⟩
  · exact (hempty hs' h.symm).symm
  · rcases ts' with _ | ⟨t', ts'⟩
    · exact hempty hs h
    · exact joinOperands_cons_inj ht ht' h

namespace EffectiveAddress

/-- Two immediates of one size that holds both values, or two addresses of which one at least is
no immediate. -/
def Comparable (a b : EffectiveAddress) : Prop :=
  ∀ v s v' s', a = immediate v s → b = immediate v' s' →
    s = s' ∧ v.toNat < 1 <<< (8 * s.bytes) ∧ v'.toNat < 1 <<< (8 * s.bytes)

/-- The text tells an address, and two addresses can be told from their joined texts. -/
theorem text_unambiguous :
    (∀ a b : EffectiveAddress, a.Comparable b → a.text = b.text → a = b) ∧
    (∀ a : EffectiveAddress, a.text ≠ "" ∧ ¬ ", ".toList <:+: a.text.toList) ∧
    ∀ a b a' b' : EffectiveAddress,
      joinOperands [a.text, b.text] = joinOperands [a'.text, b'.text] →
      (a.text = a'.text ∧ b.text = b'.text) ∧
      (a.Comparable a' → a = a') ∧ (b.Comparable b' → b = b') := by
  refine ⟨fun a b hc h ↦ text_inj h hc, fun a ↦ ⟨a.text_ne_empty, a.separator_not_infix⟩, ?_⟩
  intro a b a' b' h
  have hfree (c d : EffectiveAddress) : ∀ t ∈ [c.text, d.text], ' ' ∉ t.toList := by
    intro t ht
    rcases List.mem_pair.mp ht with rfl | rfl
    · exact c.not_mem_text (by decide)
    · exact d.not_mem_text (by decide)
  have htexts := joinOperands_cons_inj (hfree a b) (hfree a' b') h
  obtain ⟨ha, hb⟩ : a.text = a'.text ∧ b.text = b'.text := by simpa using htexts
  exact ⟨⟨ha, hb⟩, text_inj ha, text_inj hb⟩

theorem text_unambiguous_indexed :
    let a := indexed 255 ⟨.data 10, .byte, -128⟩
    joinOperands [a.text, (immediate 5 .byte).text] = "(-128,A255,D10.B), #5" ∧
      joinOperands [a.text, (immediate 5 .word).text] = "(-128,A255,D10.B), #5" ∧
      (immediate 5 .byte).text = (immediate 5 .word).text ∧
      (immediate 100 .byte).text ≠ (immediate 99 .byte).text := by
  intro a
  have hb : joinOperands [a.text, (immediate 5 .byte).text] = "(-128,A255,D10.B), #5" := by decide
  have hw : joinOperands [a.text, (immediate 5 .word).text] = "(-128,A255,D10.B), #5" := by decide
  have hc : (immediate 100 .byte).Comparable (immediate 99 .byte) := by
    rintro v s v' s' ⟨⟩ ⟨⟩
    decide
  refine ⟨hb, hw, (text_unambiguous.2.2 _ _ _ _ (hb.trans hw.symm)).1.2, fun h ↦ ?_⟩
  exact absurd (text_unambiguous.1 _ _ hc h) (by decide)

end EffectiveAddress

/-- A statement whose operands are what their texts mean in it. -/
def Statement.Regular (s : Statement) : Prop :=
  ∀ o ∈ s.operands, o.Meant s.mnemonic (s.operands.map Operand.text)

namespace Statement

variable {s s' : Statement}

theorem Regular.texts_ne (h : s.Regular) : s.operands.map Operand.text ≠ [""] := by
  intro he
  obtain ⟨o, ho, ht⟩ := List.map_eq_singleton_iff.mp he
  have hm := h o (by rw [ho]; exact List.mem_singleton_self o)
  by_cases hk : o.kind = .registers
  · cases o <;> simp only [Operand.kind, reduceCtorEq] at hk
    have hl := (hm.order _ rfl).2
    rw [he] at hl
    cases hl
  · exact Operand.text_ne_empty hk ht

theorem Regular.eq_of_text_eq (hs : s.Regular) (hs' : s'.Regular)
    (hm : s.mnemonic = s'.mnemonic) (h : s.operandText = s'.operandText) : s = s' := by
  have hfree (r : Statement) : ∀ t ∈ r.operands.map Operand.text, ' ' ∉ t.toList := by
    intro t ht
    obtain ⟨o, -, rfl⟩ := List.mem_map.mp ht
    exact o.not_mem_text (by decide)
  have htexts := joinOperands_inj (hfree s) (hfree s') hs.texts_ne hs'.texts_ne h
  have hops : s.operands = s'.operands := by
    have hlen : s.operands.length = s'.operands.length := by
      simpa using congrArg List.length htexts
    apply List.ext_getElem hlen
    intro i hi hi'
    have ho := hs _ (List.getElem_mem hi)
    have ho' := hs' _ (List.getElem_mem hi')
    rw [← hm, ← htexts] at ho'
    apply ho.unique ho'
    have ht := List.getElem_of_eq htexts (i := i) (by simpa using hi)
    simpa using ht
  cases s
  cases s'
  rw [Statement.mk.injEq]
  exact ⟨hm, hops⟩

end Statement

theorem Instruction.assembly_inj {i i' : Instruction} (hm : ' ' ∉ i.mnemonic.toList)
    (hm' : ' ' ∉ i'.mnemonic.toList) (h : i.assembly = i'.assembly) :
    i.mnemonic = i'.mnemonic ∧ i.operands = i'.operands := by
  have hempty {s : String} (he : s.isEmpty = true) : s = "" := String.isEmpty_iff.mp he
  unfold assembly at h
  by_cases he : i.operands.isEmpty <;> by_cases he' : i'.operands.isEmpty
  · rw [if_pos he, if_pos he'] at h
    exact ⟨h, (hempty he).trans (hempty he').symm⟩
  · rw [if_pos he, if_neg he'] at h
    rw [h] at hm
    simp at hm
  · rw [if_neg he, if_pos he'] at h
    rw [← h] at hm'
    simp at hm'
  · rw [if_neg he, if_neg he'] at h
    have hl : i.mnemonic.toList ++ ' ' :: i.operands.toList =
        i'.mnemonic.toList ++ ' ' :: i'.operands.toList := by
      simpa using congrArg String.toList h
    obtain ⟨h₁, h₂⟩ := append_separator_inj hm hm' hl
    exact ⟨String.toList_inj.mp h₁, String.toList_inj.mp h₂⟩

end Mc68000
