import Mathlib.Data.List.Forall2
import Mathlib.Data.Nat.Digits.Defs
import Mc68000.Proofs.NumeralReading

namespace Mc68000.Numeral

variable {radix n m d : Nat} {c : Char} {t cs mark sign row rest : List Char}

/-- A character that writes a digit, a letter in either case. -/
def Spells (radix : Nat) (c : Char) (d : Nat) : Prop :=
  d < radix ∧ (c = d.digitChar ∨ c = d.digitChar.toUpper)

def Denotes (radix : Nat) (row : List Char) (n : Nat) : Prop :=
  ∃ ds, List.Forall₂ (Spells radix) row ds ∧ Nat.ofDigits radix ds.reverse = n

theorem letterValue?_lower : ∀ d < 16, letterValue? d.digitChar = some d := by
  decide

theorem ofNat_eq_digitChar : ∀ d < 16, (d < 10 → Char.ofNat (d + 48) = d.digitChar) ∧
    (10 ≤ d → Char.ofNat (d + 87) = d.digitChar ∧ Char.ofNat (d + 55) = d.digitChar.toUpper) := by
  decide

theorem eq_digitChar_of_letterValue? (hd : d < 16) (h : letterValue? c = some d) :
    c = d.digitChar ∨ c = d.digitChar.toUpper := by
  obtain ⟨hdigit, hletter⟩ := ofNat_eq_digitChar d hd
  have hc {k : Nat} (hk : c.toNat = k) : c = Char.ofNat k := by rw [← hk, Char.ofNat_toNat]
  unfold letterValue? at h
  split at h
  · next hr =>
    have hlow : 48 ≤ c.toNat := hr.1
    have hhigh : c.toNat ≤ 57 := hr.2
    have hv : c.toNat - 48 = d := Option.some.inj h
    exact .inl ((hc (by omega)).trans (hdigit (by omega)))
  · split at h
    · next hr =>
      have hlow : 97 ≤ c.toNat := hr.1
      have hv : c.toNat - 97 + 10 = d := Option.some.inj h
      exact .inl ((hc (by omega)).trans (hletter (by omega)).1)
    · split at h
      · next hr =>
        have hlow : 65 ≤ c.toNat := hr.1
        have hv : c.toNat - 65 + 10 = d := Option.some.inj h
        exact .inr ((hc (by omega)).trans (hletter (by omega)).2)
      · cases h

theorem digitValue?_eq_some_iff (hr : radix ≤ 16) :
    digitValue? radix c = some d ↔ Spells radix c d := by
  rw [digitValue?, Option.filter_eq_some_iff, decide_eq_true_eq]
  constructor
  · rintro ⟨h, hd⟩
    exact ⟨hd, eq_digitChar_of_letterValue? (by omega) h⟩
  · rintro ⟨hd, rfl | rfl⟩
    · exact ⟨letterValue?_lower d (by omega), hd⟩
    · exact ⟨letterValue?_digitChar d (by omega), hd⟩

/-- What the digits of a row make of a number that stands before them. -/
def Prolongs (radix n : Nat) (row : List Char) (m : Nat) : Prop :=
  ∃ ds : List Nat, List.Forall₂ (Spells radix) row ds ∧ ds.foldl (fun n d ↦ n * radix + d) n = m

theorem denotes_iff : Denotes radix row n ↔ Prolongs radix 0 row n := by
  have hfold (ds : List Nat) :
      Nat.ofDigits radix ds.reverse = ds.foldl (fun n d ↦ n * radix + d) 0 := by
    rw [Nat.ofDigits_eq_foldr, List.foldr_reverse]
    congr
    funext n d
    rw [Nat.cast_id, Nat.add_comm, Nat.mul_comm]
  simp only [Denotes, Prolongs, hfold]

theorem prolongs_nil : Prolongs radix n [] m ↔ n = m := by
  simp [Prolongs]

theorem prolongs_cons (hr : radix ≤ 16) (hd : digitValue? radix c = some d) :
    Prolongs radix n (c :: row) m ↔ Prolongs radix (n * radix + d) row m := by
  constructor
  · rintro ⟨ds, hds, hm⟩
    obtain ⟨e, es, he, hes, rfl⟩ := List.forall₂_cons_left_iff.mp hds
    rw [← digitValue?_eq_some_iff hr, hd] at he
    cases he
    exact ⟨es, hes, hm⟩
  · rintro ⟨ds, hds, hm⟩
    exact ⟨d :: ds, .cons ((digitValue?_eq_some_iff hr).mp hd) hds, hm⟩

theorem exists_spells {ds : List Nat} (h : List.Forall₂ (Spells radix) row ds) (hc : c ∈ row) :
    ∃ d, Spells radix c d := by
  induction h with
  | nil => cases hc
  | cons hd _ ih =>
    rcases List.mem_cons.mp hc with rfl | hc
    · exact ⟨_, hd⟩
    · exact ih hc

theorem exists_digit (hr : radix ≤ 16) (h : Prolongs radix n (c :: row) m) :
    ∃ d, digitValue? radix c = some d := by
  obtain ⟨ds, hds, -⟩ := h
  obtain ⟨d, hd⟩ := exists_spells hds List.mem_cons_self
  exact ⟨d, (digitValue?_eq_some_iff hr).mpr hd⟩

theorem Prolongs.le (h : Prolongs radix n row m) (hr : 0 < radix) : n ≤ m := by
  obtain ⟨ds, -, rfl⟩ := h
  induction ds generalizing n with
  | nil => exact Nat.le_refl n
  | cons d ds ih =>
    have hn : n ≤ n * radix := Nat.le_mul_of_pos_right n hr
    exact Nat.le_trans (Nat.le_trans hn (Nat.le_add_right _ d)) ih

theorem extend_eq_ok_iff (hb : 0 < radix) (hr : radix ≤ 16) (hn : n < 0x100000000) :
    extend radix n cs = .ok m ↔ Prolongs radix n cs m ∧ m < 0x100000000 := by
  induction cs generalizing n with
  | nil =>
    rw [extend, prolongs_nil, Except.ok.injEq]
    constructor
    · rintro rfl
      exact ⟨rfl, hn⟩
    · exact And.left
  | cons c cs ih =>
    rw [extend]
    cases hd : digitValue? radix c with
    | none =>
      refine ⟨by simp, fun h ↦ ?_⟩
      obtain ⟨d, hd'⟩ := exists_digit hr h.1
      rw [hd] at hd'
      cases hd'
    | some d =>
      rw [prolongs_cons hr hd]
      dsimp only
      split
      · next hlt => exact ih hlt
      · next hge => exact ⟨by simp, fun h ↦ absurd (Nat.lt_of_le_of_lt (h.1.le hb) h.2) hge⟩

theorem extend_eq_tooLarge_iff (hr : radix ≤ 16) (hn : n < 0x100000000) :
    extend radix n cs = .error .tooLarge ↔
      ∃ row m, row <+: cs ∧ Prolongs radix n row m ∧ 0x100000000 ≤ m := by
  induction cs generalizing n with
  | nil =>
    refine ⟨by simp [extend], ?_⟩
    rintro ⟨row, m, hp, hm, hle⟩
    rw [List.prefix_nil.mp hp, prolongs_nil] at hm
    omega
  | cons c cs ih =>
    rw [extend]
    cases hd : digitValue? radix c with
    | none =>
      refine ⟨by simp, ?_⟩
      rintro ⟨row, m, hp, hm, hle⟩
      rcases List.prefix_cons_iff.mp hp with rfl | ⟨row, rfl, -⟩
      · rw [prolongs_nil] at hm
        omega
      · obtain ⟨d, hd'⟩ := exists_digit hr hm
        rw [hd] at hd'
        cases hd'
    | some d =>
      dsimp only
      split
      · next hlt =>
        rw [ih hlt]
        constructor
        · rintro ⟨row, m, hp, hm, hle⟩
          exact ⟨c :: row, m, List.cons_prefix_cons.mpr ⟨rfl, hp⟩, (prolongs_cons hr hd).mpr hm, hle⟩
        · rintro ⟨row, m, hp, hm, hle⟩
          rcases List.prefix_cons_iff.mp hp with rfl | ⟨row, rfl, hp'⟩
          · rw [prolongs_nil] at hm
            omega
          · exact ⟨row, m, hp', (prolongs_cons hr hd).mp hm, hle⟩
      · next hge =>
        refine ⟨fun _ ↦ ⟨[c], n * radix + d, ?_, ?_, Nat.le_of_not_lt hge⟩, fun _ ↦ rfl⟩
        · exact List.cons_prefix_cons.mpr ⟨rfl, List.nil_prefix⟩
        · rw [prolongs_cons hr hd, prolongs_nil]

theorem extend_ne_empty (radix n : Nat) (cs : List Char) : extend radix n cs ≠ .error .empty := by
  induction cs generalizing n with
  | nil => simp [extend]
  | cons c cs ih =>
    rw [extend]
    split
    · simp
    · split
      · exact ih _
      · simp

/-- The marks that may announce a number, and the radix they announce. -/
inductive Mark : List Char → Nat → Prop
  | none : Mark [] 10
  | dollar : Mark ['$'] 16
  | lower : Mark ['0', 'x'] 16
  | upper : Mark ['0', 'X'] 16

inductive Sign : List Char → Prop
  | none : Sign []
  | plus : Sign ['+']

def afterSign : List Char → List Char
  | '+' :: c :: cs => c :: cs
  | cs => cs

theorem magnitude_eq (h : cs ≠ []) : magnitude radix cs = extend radix 0 (afterSign cs) := by
  unfold magnitude
  split
  · exact absurd rfl h
  · rfl
  · next hsign =>
    rw [afterSign]
    exact hsign

theorem exists_sign (cs : List Char) : ∃ sign, Sign sign ∧ cs = sign ++ afterSign cs := by
  unfold afterSign
  split
  · exact ⟨['+'], .plus, rfl⟩
  · exact ⟨[], .none, rfl⟩

theorem exists_mark (t : List Char) :
    ∃ mark, Mark mark (radixSplit t).1 ∧ t = mark ++ (radixSplit t).2 := by
  unfold radixSplit
  split
  · exact ⟨['$'], .dollar, rfl⟩
  · exact ⟨['0', 'x'], .lower, rfl⟩
  · exact ⟨['0', 'X'], .upper, rfl⟩
  · exact ⟨[], .none, rfl⟩

theorem Mark.bounds (h : Mark mark radix) : 0 < radix ∧ radix ≤ 16 := by
  cases h <;> decide

theorem digitValue?_eq_none (hr : radix ≤ 16) (hc : c ∈ ['$', 'x', 'X', '+']) :
    digitValue? radix c = none := by
  have h : digitValue? 16 c = none := by
    simp only [List.mem_cons, List.not_mem_nil, or_false] at hc
    rcases hc with rfl | rfl | rfl | rfl <;> rfl
  rw [digitValue?, Option.filter_eq_none_iff] at h ⊢
  intro d hd hlt
  have hlt' : d < radix := by simpa using hlt
  exact h d hd (by simpa using Nat.lt_of_lt_of_le hlt' hr)

theorem Prolongs.not_mem (h : Prolongs radix n row m) (hr : radix ≤ 16)
    (hc : c ∈ ['$', 'x', 'X', '+']) : c ∉ row := by
  intro hmem
  obtain ⟨ds, hds, -⟩ := h
  obtain ⟨d, hd⟩ := exists_spells hds hmem
  rw [← digitValue?_eq_some_iff hr, digitValue?_eq_none hr hc] at hd
  cases hd

theorem radixSplit_append (hm : Mark mark radix) (hs : Sign sign) (h : Prolongs radix n row m)
    (hrest : rest = [] ∨ 1 < row.length) :
    radixSplit (mark ++ (sign ++ (row ++ rest))) = (radix, sign ++ (row ++ rest)) := by
  cases hm with
  | dollar | lower | upper => rfl
  | none =>
    cases hs with
    | plus => rfl
    | none =>
      have htake : (row ++ rest).take 2 = row.take 2 := by
        rcases hrest with rfl | hlen
        · rw [List.append_nil]
        · exact List.take_append_of_le_length hlen
      apply radixSplit_of_forall
      intro c hc
      rw [List.nil_append, List.nil_append, htake] at hc
      have hmem := List.mem_of_mem_take hc
      have hfree (x : Char) (hx : x ∈ ['$', 'x', 'X', '+']) : c ≠ x := by
        rintro rfl
        exact h.not_mem (by decide) hx hmem
      exact ⟨hfree '$' (by simp), hfree 'x' (by simp), hfree 'X' (by simp)⟩

theorem afterSign_append (hs : Sign sign) (h : Prolongs radix n row m) (hr : radix ≤ 16)
    (hrow : row ≠ []) : afterSign (sign ++ (row ++ rest)) = row ++ rest := by
  obtain ⟨c, row, rfl⟩ := List.exists_cons_of_ne_nil hrow
  cases hs with
  | plus => rfl
  | none =>
    rw [List.nil_append, afterSign]
    rintro e es he
    exact h.not_mem hr (c := '+') (by simp) ((List.cons.inj he).1 ▸ List.mem_cons_self)

/-- A text that is a number: a mark, a sign and digits, the first two of which may be missing. -/
def IsNumeral (t : List Char) (n : Nat) : Prop :=
  ∃ mark radix sign row, t = mark ++ (sign ++ row) ∧ Mark mark radix ∧ Sign sign ∧ row ≠ [] ∧
    Denotes radix row n

/-- Some of the first digits of the text already stand for a number of more than 32 bits. -/
def Exceeds (t : List Char) : Prop :=
  ∃ mark radix sign row rest n, t = mark ++ (sign ++ (row ++ rest)) ∧ Mark mark radix ∧
    Sign sign ∧ Denotes radix row n ∧ 0x100000000 ≤ n

theorem afterSign_ne_nil (h : cs ≠ []) : afterSign cs ≠ [] := by
  unfold afterSign
  split
  · exact List.cons_ne_nil _ _
  · exact h

theorem magnitude_eq_empty_iff : magnitude radix cs = .error .empty ↔ cs = [] := by
  constructor
  · intro h
    by_contra hcs
    rw [magnitude_eq hcs] at h
    exact extend_ne_empty _ _ _ h
  · rintro rfl
    rfl

theorem exists_parts (h : magnitude (radixSplit t).1 (radixSplit t).2 ≠ .error .empty) :
    ∃ mark sign row, t = mark ++ (sign ++ row) ∧ Mark mark (radixSplit t).1 ∧ Sign sign ∧
      row ≠ [] ∧ magnitude (radixSplit t).1 (radixSplit t).2 = extend (radixSplit t).1 0 row := by
  have hne : (radixSplit t).2 ≠ [] := mt magnitude_eq_empty_iff.mpr h
  obtain ⟨mark, hm, ht⟩ := exists_mark t
  obtain ⟨sign, hs, hbody⟩ := exists_sign (radixSplit t).2
  exact ⟨mark, sign, _, by rw [← hbody, ← ht], hm, hs, afterSign_ne_nil hne, magnitude_eq hne⟩

theorem magnitude_append (hm : Mark mark radix) (hs : Sign sign) (h : Prolongs radix n row m)
    (hrow : row ≠ []) (hrest : rest = [] ∨ 1 < row.length)
    (ht : t = mark ++ (sign ++ (row ++ rest))) :
    magnitude (radixSplit t).1 (radixSplit t).2 = extend radix 0 (row ++ rest) := by
  rw [ht, radixSplit_append hm hs h hrest, magnitude_eq (by simp [hrow]),
    afterSign_append hs h hm.bounds.2 hrow]

theorem magnitude_eq_ok_iff : magnitude (radixSplit t).1 (radixSplit t).2 = .ok n ↔
    IsNumeral t n ∧ n < 0x100000000 := by
  constructor
  · intro h
    obtain ⟨mark, sign, row, ht, hm, hs, hrow, hext⟩ := exists_parts (t := t) (by simp [h])
    rw [hext, extend_eq_ok_iff hm.bounds.1 hm.bounds.2 (by decide)] at h
    exact ⟨⟨mark, _, sign, row, ht, hm, hs, hrow, denotes_iff.mpr h.1⟩, h.2⟩
  · rintro ⟨⟨mark, radix, sign, row, ht, hm, hs, hrow, hn⟩, hlt⟩
    rw [denotes_iff] at hn
    rw [← List.append_nil row] at ht
    rw [magnitude_append hm hs hn hrow (.inl rfl) ht, List.append_nil,
      extend_eq_ok_iff hm.bounds.1 hm.bounds.2 (by decide)]
    exact ⟨hn, hlt⟩

theorem Denotes.one_lt_length (h : Denotes radix row n) (hr : radix ≤ 16) (hn : 16 ≤ n) :
    1 < row.length := by
  obtain ⟨ds, hds, rfl⟩ := h
  rw [hds.length_eq]
  rcases ds with _ | ⟨d, _ | ⟨e, ds⟩⟩
  · simp at hn
  · obtain ⟨c, -, hd, -⟩ := List.forall₂_cons_right_iff.mp hds
    have hd := hd.1
    simp at hn
    omega
  · simp

theorem magnitude_eq_tooLarge_iff :
    magnitude (radixSplit t).1 (radixSplit t).2 = .error .tooLarge ↔ Exceeds t := by
  constructor
  · intro h
    obtain ⟨mark, sign, _, ht, hm, hs, -, hext⟩ := exists_parts (t := t) (by simp [h])
    rw [hext, extend_eq_tooLarge_iff hm.bounds.2 (by decide)] at h
    obtain ⟨row, n, ⟨rest, rfl⟩, hn, hle⟩ := h
    exact ⟨mark, _, sign, row, rest, n, ht, hm, hs, denotes_iff.mpr hn, hle⟩
  · rintro ⟨mark, radix, sign, row, rest, n, ht, hm, hs, hn, hle⟩
    have hlen := hn.one_lt_length hm.bounds.2 (by omega)
    have hrow : row ≠ [] := by
      rintro rfl
      simp at hlen
    rw [denotes_iff] at hn
    rw [magnitude_append hm hs hn hrow (.inr hlen) ht,
      extend_eq_tooLarge_iff hm.bounds.2 (by decide)]
    exact ⟨row, n, List.prefix_append row rest, hn, hle⟩

theorem radixSplit_eq_nil_iff : (radixSplit t).2 = [] ↔ ∃ radix, Mark t radix := by
  constructor
  · intro h
    obtain ⟨mark, hm, ht⟩ := exists_mark t
    rw [h, List.append_nil] at ht
    subst ht
    exact ⟨_, hm⟩
  · rintro ⟨radix, hm⟩
    cases hm <;> rfl

theorem flaw_of_magnitude {f : Flaw}
    (h : magnitude (radixSplit t).1 (radixSplit t).2 = .error f) :
    (f = .empty ↔ ∃ radix, Mark t radix) ∧ (f = .tooLarge ↔ Exceeds t) ∧
      (f = .badDigit ↔ (¬∃ radix, Mark t radix) ∧ ¬Exceeds t) := by
  have hempty : f = .empty ↔ ∃ radix, Mark t radix := by
    rw [← radixSplit_eq_nil_iff, ← magnitude_eq_empty_iff, h, Except.error.injEq]
  have hlarge : f = .tooLarge ↔ Exceeds t := by
    rw [← magnitude_eq_tooLarge_iff, h, Except.error.injEq]
  refine ⟨hempty, hlarge, ?_⟩
  rw [← hempty, ← hlarge]
  cases f <;> decide

/-- The text between the blanks at both ends. -/
def Trims (s t : List Char) : Prop :=
  ∃ before after, s = before ++ (t ++ after) ∧ (∀ c ∈ before ++ after, isBlank c = true) ∧
    (∀ c ∈ t.head?, isBlank c = false) ∧ ∀ c ∈ t.getLast?, isBlank c = false

theorem head?_dropWhile_isBlank (s : List Char) :
    ∀ c ∈ (s.dropWhile isBlank).head?, isBlank c = false := by
  intro c hc
  have h := List.head?_dropWhile_not isBlank s
  rw [Option.mem_def.mp hc] at h
  exact h

theorem trims_trim (s : List Char) : Trims s (trim s) := by
  rw [trim, trimEnd]
  have hfirst := head?_dropWhile_isBlank s
  have hsplit : s.takeWhile isBlank ++ s.dropWhile isBlank = s := List.takeWhile_append_dropWhile
  generalize s.dropWhile isBlank = u at hfirst hsplit ⊢
  have hback : (u.reverse.dropWhile isBlank).reverse ++ (u.reverse.takeWhile isBlank).reverse =
      u := by
    rw [← List.reverse_append, List.takeWhile_append_dropWhile, List.reverse_reverse]
  refine ⟨s.takeWhile isBlank, (u.reverse.takeWhile isBlank).reverse, ?_, ?_, ?_, ?_⟩
  · rw [hback, hsplit]
  · intro c hc
    rcases List.mem_append.mp hc with hc | hc
    · exact List.all_eq_true.mp List.all_takeWhile c hc
    · exact List.all_eq_true.mp List.all_takeWhile c (List.mem_reverse.mp hc)
  · intro c hc
    apply hfirst
    rw [← hback, List.head?_append, Option.mem_def.mp hc]
    rfl
  · intro c hc
    rw [List.getLast?_reverse] at hc
    exact head?_dropWhile_isBlank _ c hc

theorem read_eq_ok_iff {s : String} {v : UInt32} :
    read s = .ok v ↔ IsNumeral (trim s.toList) v.toNat := by
  have hm (n : Nat) := magnitude_eq_ok_iff (t := trim s.toList) (n := n)
  rw [read]
  constructor
  · intro h
    split at h
    · next n hn =>
      obtain ⟨hnum, hlt⟩ := (hm n).mp hn
      rw [← Except.ok.inj h, UInt32.toNat_ofNat_of_lt' hlt]
      exact hnum
    · cases h
  · intro h
    rw [(hm v.toNat).mpr ⟨h, v.toNat_lt⟩]
    exact congrArg Except.ok (UInt32.ofNat_toNat)

theorem read_of_not_isNumeral {s : String}
    (h : ∀ n < 0x100000000, ¬IsNumeral (trim s.toList) n) :
    ∃ f, read s = .error ⟨String.ofList (trim s.toList), f⟩ ∧
      magnitude (radixSplit (trim s.toList)).1 (radixSplit (trim s.toList)).2 = .error f := by
  rw [read]
  cases hm : magnitude (radixSplit (trim s.toList)).1 (radixSplit (trim s.toList)).2 with
  | ok n =>
    obtain ⟨hn, hlt⟩ := magnitude_eq_ok_iff.mp hm
    exact absurd hn (h n hlt)
  | error f => exact ⟨f, rfl, rfl⟩

theorem Denotes.zeros_append (h : Denotes radix row n) (hr : 0 < radix) (k : Nat) :
    Denotes radix (List.replicate k '0' ++ row) n := by
  obtain ⟨ds, hds, rfl⟩ := h
  refine ⟨List.replicate k 0 ++ ds, ?_, ?_⟩
  · induction k with
    | zero => exact hds
    | succ k ih => exact .cons ⟨hr, .inl rfl⟩ ih
  · rw [List.reverse_append, List.reverse_replicate, Nat.ofDigits_append_replicate_zero]

theorem isBlank_digit : ∀ d < 16, isBlank d.digitChar = false := by
  decide

theorem Spells.isBlank_eq (h : Spells radix c d) (hr : radix ≤ 16) : isBlank c = false := by
  obtain ⟨hd, rfl | rfl⟩ := h
  · exact isBlank_digit d (by omega)
  · exact isBlank_digitChar d (by omega)

theorem IsNumeral.trim_eq (h : IsNumeral t n) : trim t = t := by
  obtain ⟨mark, radix, sign, row, rfl, hm, hs, -, ds, hds, -⟩ := h
  have hmark : ∀ c ∈ mark, isBlank c = false := by cases hm <;> simp [isBlank]
  have hsign : ∀ c ∈ sign, isBlank c = false := by cases hs <;> simp [isBlank]
  have hrow : ∀ c ∈ row, isBlank c = false := by
    intro c hc
    obtain ⟨d, hd⟩ := exists_spells hds hc
    exact hd.isBlank_eq hm.bounds.2
  apply trim_eq_self
  intro c hc
  rcases List.mem_append.mp hc with hc | hc
  · exact hmark c hc
  · rcases List.mem_append.mp hc with hc | hc
    · exact hsign c hc
    · exact hrow c hc

/-- Reading accepts the numbers of 32 bits with or without a mark and a sign, and refuses every
other text with the reason that it deserves. -/
theorem read_accepts_grammar :
    (∀ s : String,
      let t := trim s.toList
      Trims s.toList t ∧
      (∀ v : UInt32, read s = .ok v ↔ IsNumeral t v.toNat) ∧
      ((∀ n < 0x100000000, ¬IsNumeral t n) →
        ∃ f, read s = .error ⟨String.ofList t, f⟩ ∧
          Refusal.message ⟨String.ofList t, f⟩ =
            "invalid number '" ++ String.ofList t ++ "': " ++ f.reason ∧
          (f = .empty ↔ ∃ radix, Mark t radix) ∧ (f = .tooLarge ↔ Exceeds t) ∧
          (f = .badDigit ↔ (¬∃ radix, Mark t radix) ∧ ¬Exceeds t))) ∧
    ∀ (k : Nat) (mark sign row : List Char) (radix : Nat) (v : UInt32), Mark mark radix →
      Sign sign → row ≠ [] → Denotes radix row v.toNat →
      read (String.ofList (mark ++ (sign ++ (List.replicate k '0' ++ row)))) = .ok v := by
  constructor
  · intro s t
    refine ⟨trims_trim s.toList, fun v ↦ read_eq_ok_iff, ?_⟩
    intro h
    obtain ⟨f, hread, hm⟩ := read_of_not_isNumeral h
    exact ⟨f, hread, rfl, flaw_of_magnitude hm⟩
  · intro k mark sign row radix v hm hs hrow hn
    have hnum : IsNumeral (mark ++ (sign ++ (List.replicate k '0' ++ row))) v.toNat :=
      ⟨mark, radix, sign, _, rfl, hm, hs, by simp [hrow], hn.zeros_append hm.bounds.1 k⟩
    rw [read_eq_ok_iff, String.toList_ofList, hnum.trim_eq]
    exact hnum

theorem read_accepts_grammar_late :
    (∀ n < 0x100000000, ¬IsNumeral "4294967290x".toList n) ∧
      read " 4294967290x\n" = .error ⟨"4294967290x", .badDigit⟩ ∧
      ¬Exceeds "4294967290x".toList ∧ read "$+00010" = .ok 16 := by
  have ht : trim " 4294967290x\n".toList = "4294967290x".toList := by decide
  have hm : magnitude (radixSplit "4294967290x".toList).1 (radixSplit "4294967290x".toList).2 =
      .error .badDigit := by rfl
  have hno : ∀ n < 0x100000000, ¬IsNumeral "4294967290x".toList n := by
    intro n hlt hn
    have h := magnitude_eq_ok_iff.mpr ⟨hn, hlt⟩
    rw [hm] at h
    cases h
  obtain ⟨f, hread, -, -, -, hbad⟩ :=
    (read_accepts_grammar.1 " 4294967290x\n").2.2 (by rwa [ht])
  have hf : read " 4294967290x\n" = .error ⟨"4294967290x", .badDigit⟩ := by rfl
  rw [ht] at hbad
  rw [hf, Except.error.injEq, Refusal.mk.injEq] at hread
  refine ⟨hno, hf, (hbad.mp hread.2.symm).2, ?_⟩
  exact read_accepts_grammar.2 3 ['$'] ['+'] ['1', '0'] 16 16 .dollar .plus (by decide)
    ⟨[1, 0], by simp [Spells], by decide⟩

end Mc68000.Numeral
