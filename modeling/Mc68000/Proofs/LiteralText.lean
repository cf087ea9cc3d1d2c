import Mc68000.EffectiveAddress.Basic
import Mc68000.Numeral

namespace Mc68000

theorem whitespace_cases {c : Char} (h : c.isWhitespace = true) :
    c = ' ' ∨ c = '\t' ∨ c = '\r' ∨ c = '\n' := by
  simpa [Char.isWhitespace, or_assoc] using h

/-- A separator that neither front part holds marks the same place in both texts. -/
theorem append_separator_inj {α : Type} {a a' r r' : List α} {c : α} (ha : c ∉ a) (ha' : c ∉ a')
    (h : a ++ c :: r = a' ++ c :: r') : a = a' ∧ r = r' := by
  induction a generalizing a' with
  | nil =>
    cases a' with
    | nil => exact ⟨rfl, (List.cons.inj h).2⟩
    | cons x a' => exact absurd (List.cons.inj h).1 (List.ne_of_not_mem_cons ha')
  | cons x a ih =>
    cases a' with
    | nil => exact absurd (List.cons.inj h).1.symm (List.ne_of_not_mem_cons ha)
    | cons y a' =>
      obtain ⟨rfl, ht⟩ := List.cons.inj h
      obtain ⟨rfl, hr⟩ := ih (List.not_mem_of_not_mem_cons ha) (List.not_mem_of_not_mem_cons ha') ht
      exact ⟨rfl, hr⟩

theorem intercalate_inj {c : Char} {ss ts : List String} (hs : ∀ s ∈ ss, c ∉ s.toList)
    (ht : ∀ t ∈ ts, c ∉ t.toList) (hs₀ : ss ≠ []) (ht₀ : ts ≠ [])
    (h : [c].intercalate (ss.map String.toList) = [c].intercalate (ts.map String.toList)) :
    ss = ts := by
  have hsplit {us : List String} (hu : ∀ u ∈ us, c ∉ u.toList) (hu₀ : us ≠ []) :
      ([c].intercalate (us.map String.toList)).splitOn c = us.map String.toList := by
    apply List.splitOn_intercalate
    · simpa using hu
    · simpa using hu₀
  have hm := congrArg (List.splitOn c) h
  rw [hsplit hs hs₀, hsplit ht ht₀] at hm
  exact (List.map_inj_right (fun _ _ ↦ String.toList_inj.mp)).mp hm

namespace Numeral

variable {base width width' n m : Nat} {c : Char}

/-- The number that a row of digits stands for. -/
def value (base : Nat) (cs : List Char) : Nat :=
  cs.foldl (fun n c ↦ n * base + (letterValue? c).getD 0) 0

theorem value_concat (base : Nat) (cs : List Char) (c : Char) :
    value base (cs ++ [c]) = value base cs * base + (letterValue? c).getD 0 := by
  simp only [value, List.foldl_append, List.foldl_cons, List.foldl_nil]

theorem value_zeros_append (base k : Nat) (cs : List Char) :
    value base (List.replicate k '0' ++ cs) = value base cs := by
  induction k with
  | zero => rfl
  | succ k ih =>
    have hz : 0 * base + (letterValue? '0').getD 0 = 0 := by
      rw [show letterValue? '0' = some 0 by decide]
      simp
    rw [List.replicate_succ, List.cons_append, value, List.foldl_cons, hz]
    exact ih

theorem letterValue?_digitChar : ∀ d < 16, letterValue? d.digitChar.toUpper = some d := by
  decide

theorem mem_hexDigits : ∀ d < 16, d.digitChar.toUpper ∈ "0123456789ABCDEF".toList := by
  decide

theorem isAlphanum_digitChar : ∀ d < 16, d.digitChar.toUpper.isAlphanum = true := by
  decide

theorem digits_of_lt (h : n < base) : digits base n = [n.digitChar.toUpper] := by
  rw [digits, Nat.toDigits_of_lt_base h]
  rfl

theorem digits_of_le (hb : 1 < base) (h : base ≤ n) :
    digits base n = digits base (n / base) ++ [(n % base).digitChar.toUpper] := by
  rw [digits, Nat.toDigits_of_base_le hb h, List.map_append]
  rfl

theorem digits_induction {motive : Nat → List Char → Prop} (hb : 1 < base)
    (single : ∀ d, d < base → motive d [d.digitChar.toUpper])
    (more : ∀ q d cs, d < base → motive q cs → motive (q * base + d) (cs ++ [d.digitChar.toUpper]))
    (n : Nat) : motive n (digits base n) := by
  induction n using Nat.strongRecOn with
  | ind n ih =>
    by_cases h : n < base
    · rw [digits_of_lt h]
      exact single n h
    · have hq := ih (n / base) (Nat.div_lt_self (by omega) hb)
      have hd := Nat.mod_lt n (show base > 0 by omega)
      have hs := more _ _ _ hd hq
      rw [Nat.mul_comm, Nat.div_add_mod] at hs
      rw [digits_of_le hb (by omega)]
      exact hs

theorem value_digits (hb : 1 < base) (hb' : base ≤ 16) (n : Nat) :
    value base (digits base n) = n := by
  refine digits_induction (motive := fun n cs ↦ value base cs = n) hb ?_ ?_ n
  · intro d hd
    have h := value_concat base [] d.digitChar.toUpper
    rw [letterValue?_digitChar d (by omega)] at h
    simpa [value] using h
  · intro q d cs hd hq
    rw [value_concat, letterValue?_digitChar d (by omega), hq]
    rfl

theorem exists_of_mem_digits (hb : 1 < base) (hc : c ∈ digits base n) :
    ∃ d < base, c = d.digitChar.toUpper := by
  revert hc
  refine digits_induction (motive := fun _ cs ↦ c ∈ cs → ∃ d < base, c = d.digitChar.toUpper)
    hb ?_ ?_ n
  · intro d hd hc
    exact ⟨d, hd, List.mem_singleton.mp hc⟩
  · intro q d cs hd hq hc
    rcases List.mem_append.mp hc with hc | hc
    · exact hq hc
    · exact ⟨d, hd, List.mem_singleton.mp hc⟩

theorem toList_padded (base width n : Nat) :
    (padded base width n).toList =
      List.replicate (width - (digits base n).length) '0' ++ digits base n := by
  rw [padded, String.toList_ofList, List.leftpad]

theorem value_padded (hb : 1 < base) (hb' : base ≤ 16) (width n : Nat) :
    value base (padded base width n).toList = n := by
  rw [toList_padded, value_zeros_append, value_digits hb hb']

theorem exists_of_mem_padded (hb : 1 < base) (hc : c ∈ (padded base width n).toList) :
    ∃ d < base, c = d.digitChar.toUpper := by
  rw [toList_padded] at hc
  rcases List.mem_append.mp hc with hc | hc
  · exact ⟨0, by omega, List.eq_of_mem_replicate hc⟩
  · exact exists_of_mem_digits hb hc

theorem isAlphanum_of_mem_padded (hb : 1 < base) (hb' : base ≤ 16)
    (hc : c ∈ (padded base width n).toList) : c.isAlphanum = true := by
  obtain ⟨d, hd, rfl⟩ := exists_of_mem_padded hb hc
  exact isAlphanum_digitChar d (by omega)

theorem length_padded (base width n : Nat) :
    (padded base width n).toList.length = max width (digits base n).length := by
  rw [toList_padded, List.length_append, List.length_replicate]
  omega

theorem length_hex_of_lt {k : Nat} (hk : 0 < k) (hn : n < 1 <<< (4 * k)) :
    (hex k n).toList.length = k := by
  rw [Nat.one_shiftLeft, Nat.pow_mul] at hn
  change n < 16 ^ k at hn
  have h := (Nat.length_toDigits_le_iff (by decide) hk).mpr hn
  rw [hex, length_padded, digits, List.length_map]
  omega

theorem le_length_hex (k n : Nat) : k ≤ (hex k n).toList.length := by
  rw [hex, length_padded]
  exact Nat.le_max_left _ _

theorem decimal_inj (h : decimal n = decimal m) : n = m := by
  have hv := congrArg (fun s ↦ value 10 s.toList) h
  simpa only [decimal, value_padded (show 1 < 10 by decide) (show 10 ≤ 16 by decide)] using hv

theorem hex_inj (h : hex width n = hex width' m) : n = m := by
  have hv := congrArg (fun s ↦ value 16 s.toList) h
  simpa only [hex, value_padded (show 1 < 16 by decide) (show 16 ≤ 16 by decide)] using hv

@[simp]
theorem not_mem_decimal (hc : c.isAlphanum = false) : c ∉ (decimal n).toList := by
  intro h
  rw [isAlphanum_of_mem_padded (by decide) (by decide) h] at hc
  cases hc

@[simp]
theorem not_mem_hex (hc : c.isAlphanum = false) : c ∉ (hex width n).toList := by
  intro h
  rw [isAlphanum_of_mem_padded (by decide) (by decide) h] at hc
  cases hc

theorem decimal_ne {s : String} (hs : c ∈ s.toList) (hc : c.isAlphanum = false) :
    decimal n ≠ s := by
  rintro rfl
  exact not_mem_decimal hc hs

theorem signedDecimal_inj {v v' : Int} (h : signedDecimal v = signedDecimal v') : v = v' := by
  have hn {n m : Nat} : decimal n ≠ "-" ++ decimal m := decimal_ne (c := '-') (by simp) (by decide)
  cases v with
  | ofNat n =>
    cases v' with
    | ofNat m => exact congrArg Int.ofNat (decimal_inj h)
    | negSucc m => exact absurd h hn
  | negSucc n =>
    cases v' with
    | ofNat m => exact absurd h.symm hn
    | negSucc m =>
      have hs : decimal (n + 1) = decimal (m + 1) := by simpa [signedDecimal] using h
      have := decimal_inj hs
      congr 1
      omega

@[simp]
theorem not_mem_signedDecimal {v : Int} (hc : c.isAlphanum = false) (hm : c ≠ '-') :
    c ∉ (signedDecimal v).toList := by
  cases v with
  | ofNat n => exact not_mem_decimal hc
  | negSucc n => simp [signedDecimal, hc, hm]

end Numeral

namespace Literal

open Numeral

variable {c : Char}

theorem dollar_inj {s t : String} (h : "$" ++ s = "$" ++ t) : s = t := by simpa using h

theorem unsigned_eq {v : UInt32} {s : Size} (hv : v.toNat < 1 <<< (8 * s.bytes)) :
    unsigned v s.bytes =
      if v.toNat < 100 then decimal v.toNat else "$" ++ hex (2 * s.bytes) v.toNat := by
  unfold unsigned
  cases s with
  | byte =>
    have hm : v.toNat % 0x100 = v.toNat := Nat.mod_eq_of_lt hv
    simp only [Size.bytes, hm]
  | word =>
    have hm : v.toNat % 0x10000 = v.toNat := Nat.mod_eq_of_lt hv
    simp only [Size.bytes, hm]
  | long => rfl

theorem unsigned_inj {v v' : UInt32} {s : Size} (hv : v.toNat < 1 <<< (8 * s.bytes))
    (hv' : v'.toNat < 1 <<< (8 * s.bytes)) (h : unsigned v s.bytes = unsigned v' s.bytes) :
    v = v' := by
  apply UInt32.toNat_inj.mp
  have hd {n : Nat} {t : String} : decimal n ≠ "$" ++ t :=
    decimal_ne (c := '$') (by simp) (by decide)
  rw [unsigned_eq hv, unsigned_eq hv'] at h
  by_cases hl : v.toNat < 100 <;> by_cases hl' : v'.toNat < 100
  · rw [if_pos hl, if_pos hl'] at h
    exact decimal_inj h
  · rw [if_pos hl, if_neg hl'] at h
    exact absurd h hd
  · rw [if_neg hl, if_pos hl'] at h
    exact absurd h.symm hd
  · rw [if_neg hl, if_neg hl'] at h
    exact hex_inj (dollar_inj h)

theorem signed_inj {v v' : Int} (h : signed v = signed v') : v = v' := by
  have hd {n : Nat} {t : String} : decimal n ≠ "$" ++ t :=
    decimal_ne (c := '$') (by simp) (by decide)
  have hs {n : Nat} {t : String} : decimal n ≠ "-$" ++ t :=
    decimal_ne (c := '-') (by simp) (by decide)
  have hn {s t : String} : "$" ++ s ≠ "-$" ++ t := by
    intro he
    simpa using congrArg String.toList he
  cases v with
  | ofNat n =>
    cases v' with
    | ofNat m =>
      simp only [signed] at h
      split at h <;> split at h
      · exact congrArg Int.ofNat (decimal_inj h)
      · exact absurd h hd
      · exact absurd h.symm hd
      · exact congrArg Int.ofNat (hex_inj (dollar_inj h))
    | negSucc m =>
      simp only [signed] at h
      split at h
      · exact absurd h hs
      · exact absurd h hn
  | negSucc n =>
    cases v' with
    | ofNat m =>
      simp only [signed] at h
      split at h
      · exact absurd h.symm hs
      · exact absurd h.symm hn
    | negSucc m =>
      have hx : hex 0 (n + 1) = hex 0 (m + 1) := by simpa [signed] using h
      have := hex_inj hx
      congr 1
      omega

theorem address_inj {a a' : UInt32} {k k' : Nat} (h : address a k = address a' k') : a = a' :=
  UInt32.toNat_inj.mp (hex_inj (dollar_inj h))

@[simp]
theorem not_mem_address {a : UInt32} {k : Nat} (hc : c.isAlphanum = false) (hd : c ≠ '$') :
    c ∉ (address a k).toList := by
  simp [address, hc, hd]

@[simp]
theorem not_mem_unsigned {v : UInt32} {k : Nat} (hc : c.isAlphanum = false) (hd : c ≠ '$') :
    c ∉ (unsigned v k).toList := by
  unfold unsigned
  split
  · exact not_mem_decimal hc
  · split <;> simp [hc, hd]

@[simp]
theorem not_mem_signed {v : Int} (hc : c.isAlphanum = false) (hd : c ≠ '$') (hm : c ≠ '-') :
    c ∉ (signed v).toList := by
  unfold signed
  split
  · split <;> simp [hc, hd]
  · simp [hc, hd, hm]

end Literal

end Mc68000
