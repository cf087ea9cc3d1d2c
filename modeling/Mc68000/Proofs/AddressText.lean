import Mc68000.Proofs.LiteralText

namespace Mc68000

open Numeral

theorem Register.text_inj {r r' : Register} (h : r.text = r'.text) : r = r' := by
  cases r with
  | data n =>
    cases r' with
    | data m => exact congrArg data (decimal_inj (by simpa [text] using h))
    | address m => simpa [text] using congrArg String.toList h
  | address n =>
    cases r' with
    | data m => simpa [text] using congrArg String.toList h
    | address m => exact congrArg address (decimal_inj (by simpa [text] using h))

@[simp]
theorem Register.not_mem_text {r : Register} {c : Char} (hc : c.isAlphanum = false) :
    c ∉ r.text.toList := by
  have hne (x : Char) (hx : x.isAlphanum = true) : c ≠ x := by
    rintro rfl
    rw [hx] at hc
    cases hc
  cases r with
  | data n => simp [text, hc, hne 'D' (by decide)]
  | address n => simp [text, hc, hne 'A' (by decide)]

theorem Size.length_suffix (s : Size) : s.suffix.toList.length = 2 := by cases s <;> rfl

theorem Size.not_mem_suffix {s : Size} {c : Char} (hc : c.isAlphanum = false) (hd : c ≠ '.') :
    c ∉ s.suffix.toList := by
  have hne (x : Char) (hx : x.isAlphanum = true) : c ≠ x := by
    rintro rfl
    rw [hx] at hc
    cases hc
  cases s <;> simp [suffix, hd, hne]

theorem Size.suffix_inj {s s' : Size} (h : s.suffix = s'.suffix) : s = s' := by
  cases s <;> cases s' <;> first | rfl | exact absurd h (by decide)

namespace EffectiveAddress

variable {a b : EffectiveAddress}

def lead : EffectiveAddress → Char
  | dataDirect _ => 'D'
  | addressDirect _ => 'A'
  | preDecrement _ => '-'
  | absoluteShort _ => '$'
  | absoluteLong _ => '$'
  | immediate _ _ => '#'
  | _ => '('

def bracket? : EffectiveAddress → Option (List String × String)
  | indirect n => some ([(Register.address n).text], "")
  | postIncrement n => some ([(Register.address n).text], "+")
  | displacement n d => some ([signedDecimal d.toInt, (Register.address n).text], "")
  | indexed n x => some ([signedDecimal x.displacement.toInt, (Register.address n).text,
      x.register.text ++ x.size.suffix], "")
  | pcDisplacement d => some ([signedDecimal d.toInt, "PC"], "")
  | pcIndexed x => some ([signedDecimal x.displacement.toInt, "PC",
      x.register.text ++ x.size.suffix], "")
  | _ => none

theorem head_text (a : EffectiveAddress) : a.text.toList.head? = some a.lead := by
  cases a <;> simp [text, lead, Register.text, Index.text, Literal.address]

theorem text_eq_bracket {ps : List String} {t : String} (h : a.bracket? = some (ps, t)) :
    a.text.toList = '(' :: ([','].intercalate (ps.map String.toList) ++ ')' :: t.toList) := by
  cases a <;> simp only [bracket?, Option.some.injEq, Prod.mk.injEq, reduceCtorEq] at h
  all_goals
    obtain ⟨rfl, rfl⟩ := h
    simp [text, Index.text, List.intercalate]

theorem bracket_inj {ps ps' : List String} {t t' : String} (ha : a.bracket? = some (ps, t))
    (hb : b.bracket? = some (ps', t')) (h : a.text = b.text) : ps = ps' ∧ t = t' := by
  have hfree {e : EffectiveAddress} {qs : List String} {u : String}
      (he : e.bracket? = some (qs, u)) :
      qs ≠ [] ∧ (∀ q ∈ qs, ',' ∉ q.toList) ∧ ')' ∉ [','].intercalate (qs.map String.toList) := by
    cases e <;> simp only [bracket?, Option.some.injEq, Prod.mk.injEq, reduceCtorEq] at he
    all_goals
      obtain ⟨rfl, rfl⟩ := he
      simp [List.intercalate, Size.not_mem_suffix]
  obtain ⟨ha₀, hac, hap⟩ := hfree ha
  obtain ⟨hb₀, hbc, hbp⟩ := hfree hb
  have hl := String.toList_inj.mpr h
  rw [text_eq_bracket ha, text_eq_bracket hb] at hl
  obtain ⟨hp, ht⟩ := append_separator_inj hap hbp (List.cons.inj hl).2
  exact ⟨intercalate_inj hac hbc ha₀ hb₀ hp, String.toList_inj.mp ht⟩

theorem index_inj {x y : Index} (h : x.register.text ++ x.size.suffix =
    y.register.text ++ y.size.suffix) (hd : signedDecimal x.displacement.toInt =
    signedDecimal y.displacement.toInt) : x = y := by
  have hl := String.toList_inj.mpr h
  rw [String.toList_append, String.toList_append] at hl
  obtain ⟨hr, hs⟩ := List.append_inj' hl (by rw [Size.length_suffix, Size.length_suffix])
  cases x
  cases y
  rw [Index.mk.injEq]
  exact ⟨Register.text_inj (String.toList_inj.mp hr), Size.suffix_inj (String.toList_inj.mp hs),
    Int8.toInt_inj.mp (signedDecimal_inj hd)⟩

theorem eq_of_bracket?_eq {p : List String × String} (ha : a.bracket? = some p)
    (hb : b.bracket? = some p) : a = b := by
  have hpc (n : Nat) : (Register.address n).text ≠ "PC" := by
    intro he
    simpa [Register.text] using congrArg String.toList he
  cases a <;> simp only [bracket?, Option.some.injEq, reduceCtorEq] at ha
  all_goals
    subst ha
    cases b <;> simp [bracket?, hpc, fun n ↦ (hpc n).symm] at hb
  case indirect.indirect => rw [Register.address.inj (Register.text_inj hb)]
  case postIncrement.postIncrement => rw [Register.address.inj (Register.text_inj hb)]
  case displacement.displacement =>
    obtain ⟨hd, hr⟩ := hb
    rw [Register.address.inj (Register.text_inj hr), Int16.toInt_inj.mp (signedDecimal_inj hd)]
  case indexed.indexed =>
    obtain ⟨hd, hr, hx⟩ := hb
    rw [Register.address.inj (Register.text_inj hr), index_inj hx hd]
  case pcDisplacement.pcDisplacement => rw [Int16.toInt_inj.mp (signedDecimal_inj hb)]
  case pcIndexed.pcIndexed =>
    obtain ⟨hd, hx⟩ := hb
    rw [index_inj hx hd]

theorem lead_eq (h : a.text = b.text) : a.lead = b.lead := by
  apply Option.some.inj
  rw [← head_text, ← head_text, h]

theorem isSome_bracket?_iff (a : EffectiveAddress) : a.bracket?.isSome ↔ a.lead = '(' := by
  cases a <;> simp [bracket?, lead]

theorem absolute_text_ne (x : UInt16) (y : UInt32) :
    (absoluteShort x).text ≠ (absoluteLong y).text := by
  intro h
  have hl := congrArg List.length (String.toList_inj.mpr (Literal.dollar_inj h))
  have hx : (hex 4 x.toUInt32.toNat).toList.length = 4 :=
    length_hex_of_lt (by decide) (by simpa using x.toNat_lt)
  have hy := le_length_hex 8 y.toNat
  omega

/-- The text tells an address, up to the size of an immediate and the bytes beyond it. -/
theorem text_inj (h : a.text = b.text)
    (hi : ∀ v s v' s', a = immediate v s → b = immediate v' s' →
      s = s' ∧ v.toNat < 1 <<< (8 * s.bytes) ∧ v'.toNat < 1 <<< (8 * s.bytes)) : a = b := by
  have hl := lead_eq h
  by_cases hp : a.lead = '('
  · obtain ⟨p, ha⟩ := Option.isSome_iff_exists.mp ((isSome_bracket?_iff a).mpr hp)
    obtain ⟨q, hb⟩ := Option.isSome_iff_exists.mp ((isSome_bracket?_iff b).mpr (hl ▸ hp))
    obtain ⟨hs, ht⟩ := bracket_inj ha hb h
    exact eq_of_bracket?_eq ha (by rw [hb, Prod.ext hs.symm ht.symm])
  · cases a <;> simp only [lead, not_true_eq_false] at hp
    all_goals cases b <;> simp only [lead, Char.reduceEq] at hl
    case dataDirect.dataDirect => rw [Register.data.inj (Register.text_inj h)]
    case addressDirect.addressDirect => rw [Register.address.inj (Register.text_inj h)]
    case preDecrement.preDecrement n m =>
      have hr : (Register.address n).text = (Register.address m).text := by simpa [text] using h
      rw [Register.address.inj (Register.text_inj hr)]
    case absoluteShort.absoluteShort =>
      rw [UInt16.toUInt32_inj.mp (Literal.address_inj h)]
    case absoluteShort.absoluteLong => exact absurd h (absolute_text_ne _ _)
    case absoluteLong.absoluteShort => exact absurd h.symm (absolute_text_ne _ _)
    case absoluteLong.absoluteLong => rw [Literal.address_inj h]
    case immediate.immediate v s v' s' =>
      obtain ⟨rfl, hv, hv'⟩ := hi _ _ _ _ rfl rfl
      have hu : Literal.unsigned v s.bytes = Literal.unsigned v' s.bytes := by
        simpa [text] using h
      rw [Literal.unsigned_inj hv hv' hu]

theorem not_mem_text {c : Char} (hc : c.isWhitespace = true) (a : EffectiveAddress) :
    c ∉ a.text.toList := by
  rcases whitespace_cases hc with rfl | rfl | rfl | rfl <;> cases a <;>
    simp [text, Index.text, Size.not_mem_suffix]

theorem text_ne_empty (a : EffectiveAddress) : a.text ≠ "" := by
  intro he
  have hlead := a.head_text
  simp [he] at hlead

theorem separator_not_infix (a : EffectiveAddress) : ¬ ", ".toList <:+: a.text.toList := by
  intro h
  have hblank : ' ' ∈ a.text.toList := h.subset (by simp)
  exact a.not_mem_text (by decide) hblank

end EffectiveAddress

end Mc68000
