import Mathlib.Data.List.Nodup
import Mc68000.Operation
import Mc68000.Proofs.AddressText

namespace Mc68000

def Condition.all : List Condition :=
  [.t, .f, .hi, .ls, .cc, .cs, .ne, .eq, .vc, .vs, .pl, .mi, .ge, .lt, .gt, .le]

theorem Condition.isAlpha_suffix (c : Condition) : ∀ x ∈ c.suffix.toList, x.isAlpha = true := by
  cases c <;> simp [suffix]

namespace Operation

def simple : List Operation :=
  [.move, .movea, .moveq, .movem, .movep, .exg, .lea, .pea, .link, .unlk, .swap, .add, .adda, .addi,
    .addq, .addx, .sub, .suba, .subi, .subq, .subx, .mulu, .muls, .divu, .divs, .neg, .negx, .clr,
    .tst, .ext, .chk, .cmp, .cmpa, .cmpi, .cmpm, .abcd, .sbcd, .nbcd, .and, .andi, .or, .ori, .eor,
    .eori, .not, .tas, .bra, .bsr, .jsr, .jmp, .nop, .rts, .rte, .rtr, .reset, .trapv, .trap,
    .illegal, .stop, .dc]

def all : List Operation :=
  simple ++ [ShiftKind.arithmetic, .logical, .rotateExtended, .rotate].flatMap
      (fun k ↦ [shift k .left, shift k .right]) ++
    [BitAction.test, .change, .clear, .set].map bit ++ Condition.all.map bcc ++
    Condition.all.map dbcc ++ Condition.all.map scc

theorem mem_all (o : Operation) : o ∈ all := by
  cases o with
  | shift k d => cases k <;> cases d <;> decide +kernel
  | bit a => cases a <;> decide +kernel
  | bcc c => cases c <;> decide +kernel
  | dbcc c => cases c <;> decide +kernel
  | scc c => cases c <;> decide +kernel
  | _ => decide +kernel

/-- A name as a number, which is quicker to compare. -/
def key (name : String) : Nat := name.toList.foldl (fun n c ↦ 256 * n + c.toNat) 0

theorem nodup_keys : (all.map (fun o ↦ key o.name)).Nodup := by decide +kernel

theorem name_inj {o o' : Operation} (h : o.name = o'.name) : o = o' :=
  List.inj_on_of_nodup_map nodup_keys (mem_all o) (mem_all o') (congrArg key h)

theorem isAlpha_name (o : Operation) : ∀ x ∈ o.name.toList, x.isAlpha = true := by
  cases o with
  | shift k d => cases k <;> cases d <;> simp [name, ShiftKind.name, Direction.name]
  | bit a => cases a <;> simp [name, BitAction.name]
  | bcc c | dbcc c | scc c => simpa [name] using c.isAlpha_suffix
  | _ => simp [name]

theorem not_mem_name {x : Char} (hx : x.isAlpha = false) (o : Operation) : x ∉ o.name.toList := by
  intro h
  rw [isAlpha_name o x h] at hx
  cases hx

end Operation

namespace Suffix

variable {s s' : Suffix}

theorem text_inj (h : s.text = s'.text) : s = s' := by
  rcases s with _ | s | _ <;> rcases s' with _ | s' | _
  · rfl
  · cases s' <;> exact absurd h (by decide)
  · exact absurd h (by decide)
  · cases s <;> exact absurd h (by decide)
  · rw [Size.suffix_inj h]
  · cases s <;> exact absurd h (by decide)
  · exact absurd h (by decide)
  · cases s' <;> exact absurd h (by decide)
  · rfl

theorem eq_plain_or_dot (s : Suffix) : s = plain ∨ ∃ t, s.text.toList = '.' :: t := by
  rcases s with _ | s | _
  · exact .inl rfl
  · exact .inr (by cases s <;> exact ⟨_, rfl⟩)
  · exact .inr ⟨_, rfl⟩

end Suffix

namespace Mnemonic

variable {m m' : Mnemonic}

theorem toList_text (m : Mnemonic) :
    m.text.toList = m.operation.name.toList ++ m.suffix.text.toList := by
  rw [text, Suffix.mark, String.toList_append]

theorem text_inj (h : m.text = m'.text) : m = m' := by
  have hl := String.toList_inj.mpr h
  rw [toList_text, toList_text] at hl
  have hfree := Operation.not_mem_name (x := '.') (by decide)
  have hparts : m.operation.name.toList = m'.operation.name.toList ∧
      m.suffix.text.toList = m'.suffix.text.toList := by
    rcases m.suffix.eq_plain_or_dot with hs | ⟨t, hs⟩ <;>
      rcases m'.suffix.eq_plain_or_dot with hs' | ⟨t', hs'⟩
    · rw [hs, hs'] at hl ⊢
      exact ⟨List.append_cancel_right hl, rfl⟩
    · have hm := hfree m.operation
      rw [hs, Suffix.text, String.toList_empty, List.append_nil] at hl
      rw [hl, hs'] at hm
      simp at hm
    · have hm := hfree m'.operation
      rw [hs', Suffix.text, String.toList_empty, List.append_nil] at hl
      rw [← hl, hs] at hm
      simp at hm
    · rw [hs, hs'] at hl ⊢
      obtain ⟨hn, rfl⟩ := append_separator_inj (hfree _) (hfree _) hl
      exact ⟨hn, rfl⟩
  cases m
  cases m'
  rw [Mnemonic.mk.injEq]
  exact ⟨Operation.name_inj (String.toList_inj.mp hparts.1),
    Suffix.text_inj (String.toList_inj.mp hparts.2)⟩

theorem not_mem_text {c : Char} (hc : c.isWhitespace = true) (m : Mnemonic) :
    c ∉ m.text.toList := by
  obtain ⟨halpha, halnum, hdot⟩ : c.isAlpha = false ∧ c.isAlphanum = false ∧ c ≠ '.' := by
    rcases whitespace_cases hc with rfl | rfl | rfl | rfl <;> decide
  have hs : c ∉ m.suffix.text.toList := by
    rcases m.suffix with _ | s | _
    · exact List.not_mem_nil
    · exact Size.not_mem_suffix halnum hdot
    · rcases whitespace_cases hc with rfl | rfl | rfl | rfl <;> decide
  rw [toList_text, List.mem_append]
  rintro (h | h)
  · exact Operation.not_mem_name halpha _ h
  · exact hs h

end Mnemonic

end Mc68000
