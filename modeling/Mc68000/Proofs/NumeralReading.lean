import Mathlib.Algebra.Group.Nat.Defs
import Mc68000.Proofs.LiteralText

namespace Mc68000

namespace Numeral

variable {radix n d : Nat} {c : Char} {cs : List Char}

theorem extend_append (radix n : Nat) (cs ds : List Char) :
    extend radix n (cs ++ ds) = (extend radix n cs >>= fun m ↦ extend radix m ds) := by
  induction cs generalizing n with
  | nil => rfl
  | cons c cs ih =>
    rw [List.cons_append, extend, extend]
    cases digitValue? radix c with
    | none => rfl
    | some d =>
      dsimp only
      split
      · exact ih _
      · rfl

theorem digitValue?_digitChar (hr : radix ≤ 16) (hd : d < radix) :
    digitValue? radix d.digitChar.toUpper = some d := by
  rw [digitValue?, letterValue?_digitChar d (by omega)]
  simp [hd]

theorem extend_digit (hr : radix ≤ 16) (hd : d < radix) (hn : n * radix + d < 0x100000000) :
    extend radix n [d.digitChar.toUpper] = .ok (n * radix + d) := by
  rw [extend, digitValue?_digitChar hr hd]
  simp only [hn, if_true, extend]

theorem extend_digits (hb : 1 < radix) (hr : radix ≤ 16) (hn : n < 0x100000000) :
    extend radix 0 (digits radix n) = .ok n := by
  revert hn
  refine digits_induction (motive := fun n cs ↦ n < 0x100000000 → extend radix 0 cs = .ok n)
    hb ?_ ?_ n
  · intro d hd hn
    rw [extend_digit hr hd (by omega), Nat.zero_mul, Nat.zero_add]
  · intro q d cs hd ih hn
    have hq : q ≤ q * radix := Nat.le_mul_of_pos_right q (by omega)
    rw [extend_append, ih (by omega)]
    exact extend_digit hr hd hn

theorem extend_zeros (hb : 1 < radix) (k : Nat) (cs : List Char) :
    extend radix 0 (List.replicate k '0' ++ cs) = extend radix 0 cs := by
  have hz : digitValue? radix '0' = some 0 := by
    rw [digitValue?, show letterValue? '0' = some 0 by decide]
    simp [show 0 < radix by omega]
  induction k with
  | zero => rfl
  | succ k ih =>
    rw [List.replicate_succ, List.cons_append, extend, hz]
    simpa using ih

theorem extend_padded (hb : 1 < radix) (hr : radix ≤ 16) (width : Nat) (hn : n < 0x100000000) :
    extend radix 0 (padded radix width n).toList = .ok n := by
  rw [toList_padded, extend_zeros hb, extend_digits hb hr hn]

theorem isBlank_digitChar : ∀ d < 16, isBlank d.digitChar.toUpper = false := by
  decide

theorem isBlank_of_mem_padded {width : Nat} (hb : 1 < radix) (hr : radix ≤ 16)
    (hc : c ∈ (padded radix width n).toList) : isBlank c = false := by
  obtain ⟨d, hd, rfl⟩ := exists_of_mem_padded hb hc
  exact isBlank_digitChar d (by omega)

theorem trim_eq_self (h : ∀ c ∈ cs, isBlank c = false) : trim cs = cs := by
  have hdrop {ds : List Char} (hd : ∀ c ∈ ds, isBlank c = false) : ds.dropWhile isBlank = ds := by
    cases ds with
    | nil => rfl
    | cons c ds =>
      rw [List.dropWhile_cons, hd c List.mem_cons_self]
      rfl
  rw [trim, trimEnd, hdrop h, hdrop (by simpa using h), List.reverse_reverse]

theorem padded_ne_nil (hb : 1 < radix) (width n : Nat) : (padded radix width n).toList ≠ [] := by
  have hd : digits radix n ≠ [] := by
    refine digits_induction (motive := fun _ cs ↦ cs ≠ []) hb ?_ ?_ n
    · exact fun d _ ↦ List.cons_ne_nil _ _
    · exact fun q d cs _ _ ↦ List.append_ne_nil_of_right_ne_nil _ (List.cons_ne_nil _ _)
  rw [toList_padded]
  exact List.append_ne_nil_of_right_ne_nil _ hd

theorem magnitude_padded (hb : 1 < radix) (hr : radix ≤ 16) (width : Nat)
    (hn : n < 0x100000000) : magnitude radix (padded radix width n).toList = .ok n := by
  have he := extend_padded hb hr width hn
  have ha : ∀ c ∈ (padded radix width n).toList, c.isAlphanum = true :=
    fun c ↦ isAlphanum_of_mem_padded hb hr
  unfold magnitude
  split
  · next h => exact absurd h (padded_ne_nil hb width n)
  · next c cs h => exact absurd (ha '+' (h ▸ List.mem_cons_self)) (by decide)
  · exact he

theorem digitChar_ne_mark : ∀ d < 16,
    d.digitChar.toUpper ≠ '$' ∧ d.digitChar.toUpper ≠ 'x' ∧ d.digitChar.toUpper ≠ 'X' := by
  decide

theorem radixSplit_of_forall (h : ∀ c ∈ cs.take 2, c ≠ '$' ∧ c ≠ 'x' ∧ c ≠ 'X') :
    radixSplit cs = (10, cs) := by
  unfold radixSplit
  split
  · exact absurd rfl (h '$' List.mem_cons_self).1
  · exact absurd rfl (h 'x' (by simp)).2.1
  · exact absurd rfl (h 'X' (by simp)).2.2
  · rfl

theorem read_of_magnitude {s : String} (ht : trim s.toList = s.toList)
    (hr : radixSplit s.toList = (radix, cs)) (hm : magnitude radix cs = .ok n) :
    read s = .ok (UInt32.ofNat n) := by
  rw [read, ht, hr, hm]

theorem read_hex (width : Nat) (hn : n < 0x100000000) :
    read ("$" ++ hex width n) = .ok (UInt32.ofNat n) := by
  have hl : ("$" ++ hex width n).toList = '$' :: (hex width n).toList := by simp
  have ht : trim ("$" ++ hex width n).toList = ("$" ++ hex width n).toList := by
    apply trim_eq_self
    intro c hc
    rw [hl] at hc
    rcases List.mem_cons.mp hc with rfl | hc
    · decide
    · exact isBlank_of_mem_padded (by decide) (by decide) hc
  have hs : radixSplit ("$" ++ hex width n).toList = (16, (hex width n).toList) := by
    rw [hl, radixSplit]
  exact read_of_magnitude ht hs (magnitude_padded (by decide) (by decide) width hn)

theorem read_decimal (hn : n < 0x100000000) : read (decimal n) = .ok (UInt32.ofNat n) := by
  have ht : trim (decimal n).toList = (decimal n).toList := by
    apply trim_eq_self
    intro c hc
    exact isBlank_of_mem_padded (by decide) (by decide) hc
  have hs : radixSplit (decimal n).toList = (10, (decimal n).toList) := by
    apply radixSplit_of_forall
    intro c hc
    obtain ⟨d, hd, rfl⟩ := exists_of_mem_padded (by decide) (List.mem_of_mem_take hc)
    exact digitChar_ne_mark d (by omega)
  exact read_of_magnitude ht hs (magnitude_padded (by decide) (by decide) 0 hn)

end Numeral

namespace Literal

open Numeral

variable {v : UInt32} {width : Nat}

theorem read_address (v : UInt32) (width : Nat) : Numeral.read (address v width) = .ok v := by
  rw [address, read_hex width v.toNat_lt, UInt32.ofNat_toNat]

theorem unsigned_cases (h : v.toNat < 256 ^ width ∨ width ≠ 1 ∧ width ≠ 2) :
    unsigned v width = decimal v.toNat ∨ ∃ k, unsigned v width = "$" ++ hex k v.toNat := by
  unfold unsigned
  split
  · exact .inl rfl
  · refine .inr ?_
    split
    · have hv : v.toNat < 256 := by simpa using h
      exact ⟨2, by rw [Nat.mod_eq_of_lt hv]⟩
    · have hv : v.toNat < 65536 := by simpa using h
      exact ⟨4, by rw [Nat.mod_eq_of_lt hv]⟩
    · exact ⟨8, rfl⟩
    · exact ⟨0, rfl⟩

theorem read_unsigned (h : v.toNat < 256 ^ width ∨ width ≠ 1 ∧ width ≠ 2) :
    Numeral.read (unsigned v width) = .ok v := by
  rcases unsigned_cases h with hu | ⟨k, hu⟩
  · rw [hu, read_decimal v.toNat_lt, UInt32.ofNat_toNat]
  · rw [hu, read_hex k v.toNat_lt, UInt32.ofNat_toNat]

theorem read_signed_ofNat {n : Nat} (hn : n < 0x100000000) :
    Numeral.read (signed n) = .ok (UInt32.ofNat n) := by
  change Numeral.read (if n < 100 then decimal n else "$" ++ hex 0 n) = _
  split
  · exact read_decimal hn
  · exact read_hex 0 hn

theorem signed_of_neg {z : Int} (h : z < 0) : signed z = "-" ++ ("$" ++ hex 0 z.natAbs) := by
  cases z with
  | ofNat n => exact absurd h (by simp)
  | negSucc n => rfl

/-- Reading undoes every way of printing a 32-bit number, so none of them prints two numbers
alike. -/
theorem read_inverts_printing :
    (∀ (v : UInt32) (width : Nat), Numeral.read (address v width) = .ok v) ∧
    (∀ (v : UInt32) (width : Nat), v.toNat < 256 ^ width ∨ width ≠ 1 ∧ width ≠ 2 →
      Numeral.read (unsigned v width) = .ok v) ∧
    (∀ z : Int32, 0 ≤ z →
      ∃ v, Numeral.read (signed z.toInt) = .ok v ∧ (v.toNat : Int) = z.toInt) ∧
    (∀ z : Int32, z < 0 → ∃ t v, signed z.toInt = "-" ++ t ∧ Numeral.read t = .ok v ∧
      v.toNat = z.toInt.natAbs) ∧
    (∀ (v v' : UInt32) (width width' : Nat), address v width = address v' width' → v = v') ∧
    (∀ (v v' : UInt32) (width width' : Nat), v.toNat < 256 ^ width ∨ width ≠ 1 ∧ width ≠ 2 →
      v'.toNat < 256 ^ width' ∨ width' ≠ 1 ∧ width' ≠ 2 →
      unsigned v width = unsigned v' width' → v = v') ∧
    ∀ z z' : Int32, signed z.toInt = signed z'.toInt → z = z' := by
  refine ⟨read_address, fun v width h ↦ read_unsigned h, ?_, ?_, ?_, ?_, ?_⟩
  · intro z hz
    have hle : 0 ≤ z.toInt := Int32.le_iff_toInt_le.mp hz
    have hlt := z.toInt_lt
    obtain ⟨n, hn⟩ := Int.eq_ofNat_of_zero_le hle
    rw [hn] at hlt ⊢
    have hbound : n < 0x100000000 := by omega
    refine ⟨UInt32.ofNat n, read_signed_ofNat hbound, ?_⟩
    rw [UInt32.toNat_ofNat_of_lt' hbound]
  · intro z hz
    -- The least number has no counterpart of its size, but 32 bits hold its magnitude.
    have hlt : z.toInt < 0 := Int32.lt_iff_toInt_lt.mp hz
    have hge := z.le_toInt
    have hbound : z.toInt.natAbs < 0x100000000 := by omega
    refine ⟨_, UInt32.ofNat z.toInt.natAbs, signed_of_neg hlt, read_hex 0 hbound, ?_⟩
    rw [UInt32.toNat_ofNat_of_lt' hbound]
  · intro v v' width width' h
    have hr := read_address v width
    rw [h, read_address] at hr
    exact (Except.ok.inj hr).symm
  · intro v v' width width' hv hv' h
    have hr := read_unsigned hv
    rw [h, read_unsigned hv'] at hr
    exact (Except.ok.inj hr).symm
  · intro z z' h
    exact Int32.toInt_inj.mp (signed_inj h)

theorem read_inverts_printing_limits :
    Numeral.read (unsigned 0xFFFF 2) = .ok 0xFFFF ∧ (-2147483648 : Int32) < 0 ∧
      ∃ t v, signed (-2147483648) = "-" ++ t ∧ Numeral.read t = .ok v ∧ v.toNat = 2147483648 :=
  ⟨read_inverts_printing.2.1 0xFFFF 2 (.inl (by decide)), by decide,
    read_inverts_printing.2.2.2.1 (-2147483648) (by decide)⟩

end Literal

end Mc68000
