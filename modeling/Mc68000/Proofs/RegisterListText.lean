import Mc68000.Proofs.AddressText
import Mc68000.RegisterList

namespace Mc68000

open Numeral

namespace Register

/-- The place of a register in the order D0 to D7, A0 to A7. -/
def index : Register → Nat
  | data n => n
  | address n => 8 + n

def ofIndex (i : Nat) : Register := if i < 8 then data i else address (i - 8)

theorem ofIndex_of_lt {n : Nat} (h : n < 8) : ofIndex n = data n := if_pos h

theorem ofIndex_add (n : Nat) : ofIndex (8 + n) = address n := by
  simp [ofIndex]

@[simp]
theorem index_ofIndex (i : Nat) : (ofIndex i).index = i := by
  unfold ofIndex
  split
  · rfl
  · simp only [index]
    omega

theorem ofIndex_inj {i j : Nat} (h : ofIndex i = ofIndex j) : i = j := by
  simpa using congrArg index h

def read? : List Char → Option Register
  | ['D', c] => (digitValue? 8 c).map data
  | ['A', c] => (digitValue? 8 c).map address
  | _ => none

theorem read?_text : ∀ i < 16, read? (ofIndex i).text.toList = some (ofIndex i) := by
  decide

end Register

namespace RegisterList

variable {l l' : RegisterList}

def expand (rs : List (Nat × Nat)) : List Nat :=
  rs.flatMap (fun r ↦ List.range' r.1 (r.2 + 1 - r.1))

theorem consRun_ordered {rs : List (Nat × Nat)} (h : ∀ r ∈ rs, r.1 ≤ r.2) (n : Nat) :
    ∀ r ∈ consRun n rs, r.1 ≤ r.2 := by
  rcases rs with _ | ⟨⟨a, b⟩, rs⟩
  · simp [consRun]
  · have hr : a ≤ b := h (a, b) List.mem_cons_self
    intro q hq
    simp only [consRun] at hq
    split at hq
    · rcases List.mem_cons.mp hq with rfl | hq
      · dsimp only
        omega
      · exact h q (List.mem_cons_of_mem _ hq)
    · rcases List.mem_cons.mp hq with rfl | hq
      · exact Nat.le_refl _
      · exact h q hq

theorem runs_ordered (ns : List Nat) : ∀ r ∈ runs ns, r.1 ≤ r.2 := by
  induction ns with
  | nil => simp [runs]
  | cons n ns ih => exact consRun_ordered ih n

theorem expand_consRun {rs : List (Nat × Nat)} (h : ∀ r ∈ rs, r.1 ≤ r.2) (n : Nat) :
    expand (consRun n rs) = n :: expand rs := by
  rcases rs with _ | ⟨⟨a, b⟩, rs⟩
  · simp [consRun, expand]
  · have hr : a ≤ b := h (a, b) List.mem_cons_self
    simp only [consRun]
    split
    · next he =>
      have hk : b + 1 - n = b + 1 - a + 1 := by omega
      simp [expand, hk, List.range'_succ, he]
    · simp [expand]

theorem expand_runs (ns : List Nat) : expand (runs ns) = ns := by
  induction ns with
  | nil => rfl
  | cons n ns ih =>
    have h := expand_consRun (runs_ordered ns) n
    rw [ih] at h
    exact h

theorem mem_of_mem_runs {ns : List Nat} {r : Nat × Nat} (h : r ∈ runs ns) :
    r.1 ∈ ns ∧ r.2 ∈ ns := by
  have hle := runs_ordered ns r h
  have hmem {n : Nat} (hn : r.1 ≤ n ∧ n ≤ r.2) : n ∈ ns := by
    rw [← expand_runs ns]
    exact List.mem_flatMap.mpr ⟨r, h, List.mem_range'_1.mpr (by omega)⟩
  exact ⟨hmem ⟨Nat.le_refl _, hle⟩, hmem ⟨hle, Nat.le_refl _⟩⟩

/-- A run is named by its first and last register. -/
def rangeText (x y : Register) : String :=
  if x = y then x.text else x.text ++ "-" ++ y.text

def ranges (l : RegisterList) : List (Register × Register) :=
  (runs l.dataNumbers).map (fun r ↦ (.data r.1, .data r.2)) ++
    (runs l.addressNumbers).map (fun r ↦ (.address r.1, .address r.2))

theorem text_eq_ranges (l : RegisterList) :
    l.text = "/".intercalate (l.ranges.map (fun r ↦ rangeText r.1 r.2)) := by
  have hrun {f : Nat → Register} (hf : ∀ a b, f a = f b ↔ a = b) :
      runText f = fun r ↦ rangeText (f r.1) (f r.2) := by
    funext r
    simp [runText, rangeText, hf]
  rw [text, hrun (f := .data) (by simp), hrun (f := .address) (by simp), ranges, List.map_append,
    List.map_map, List.map_map]
  rfl

theorem lt_of_mem_dataNumbers {n : Nat} (h : n ∈ l.dataNumbers) : n < 8 :=
  List.mem_range.mp (List.mem_filter.mp h).1

theorem lt_of_mem_addressNumbers {n : Nat} (h : n ∈ l.addressNumbers) : n < 8 :=
  List.mem_range.mp (List.mem_filter.mp h).1

theorem exists_of_mem_ranges {p : Register × Register} (h : p ∈ l.ranges) :
    ∃ i j, i ≤ j ∧ j < 16 ∧ p = (.ofIndex i, .ofIndex j) := by
  rcases List.mem_append.mp h with h | h
  · obtain ⟨⟨a, b⟩, hr, rfl⟩ := List.mem_map.mp h
    have hab : a ≤ b := runs_ordered _ _ hr
    have hb : b < 8 := lt_of_mem_dataNumbers (mem_of_mem_runs hr).2
    refine ⟨a, b, hab, by omega, ?_⟩
    rw [Register.ofIndex_of_lt hb, Register.ofIndex_of_lt (by omega)]
  · obtain ⟨⟨a, b⟩, hr, rfl⟩ := List.mem_map.mp h
    have hab : a ≤ b := runs_ordered _ _ hr
    have hb : b < 8 := lt_of_mem_addressNumbers (mem_of_mem_runs hr).2
    refine ⟨8 + a, 8 + b, by omega, by omega, ?_⟩
    rw [Register.ofIndex_add, Register.ofIndex_add]

theorem rangeText_ne_nil (x y : Register) : (rangeText x y).toList ≠ [] := by
  have hne (r : Register) : r.text.toList ≠ [] := by cases r <;> simp [Register.text]
  unfold rangeText
  split <;> simp [hne]

theorem not_mem_rangeText {c : Char} (hc : c.isAlphanum = false) (hd : c ≠ '-') (x y : Register) :
    c ∉ (rangeText x y).toList := by
  unfold rangeText
  split <;> simp [hc, hd]

/-- One register, or the first and the last of several. -/
def readRange? (cs : List Char) : Option (Register × Register) :=
  match cs.splitOn '-' with
  | [r] => (Register.read? r).map (fun x ↦ (x, x))
  | [r, r'] => do
    let x ← Register.read? r
    let y ← Register.read? r'
    if x.index < y.index then some (x, y) else none
  | _ => none

def readRanges? (t : String) : Option (List (Register × Register)) :=
  if t = "" then some [] else (t.toList.splitOn '/').mapM readRange?

theorem readRange?_rangeText {i j : Nat} (hij : i ≤ j) (hj : j < 16) :
    readRange? (rangeText (.ofIndex i) (.ofIndex j)).toList = some (.ofIndex i, .ofIndex j) := by
  have hdash (r : Register) : '-' ∉ r.text.toList := Register.not_mem_text (by decide)
  have hx := Register.read?_text i (by omega)
  have hy := Register.read?_text j hj
  unfold readRange? rangeText
  by_cases h : i = j
  · subst h
    rw [if_pos rfl, List.splitOn_eq_singleton (hdash _)]
    simp [hx]
  · have hlt : i < j := by omega
    have hl : ((Register.ofIndex i).text ++ "-" ++ (Register.ofIndex j).text).toList =
        ['-'].intercalate [(Register.ofIndex i).text.toList, (Register.ofIndex j).text.toList] := by
      simp [List.intercalate]
    rw [if_neg (fun he ↦ h (Register.ofIndex_inj he)), hl,
      List.splitOn_intercalate '-' (by simp [hdash]) (by simp)]
    simp [hx, hy, hlt]

theorem mapM_map_eq_some {α β : Type} {g : α → β} {read? : β → Option α} {as : List α}
    (h : ∀ a ∈ as, read? (g a) = some a) : (as.map g).mapM read? = some as := by
  induction as with
  | nil => rfl
  | cons a as ih =>
    have ih := ih (fun b hb ↦ h b (List.mem_cons_of_mem a hb))
    simp [h a List.mem_cons_self, ih]

theorem readRanges?_text (l : RegisterList) : readRanges? l.text = some l.ranges := by
  have hread : ∀ p ∈ l.ranges, readRange? (rangeText p.1 p.2).toList = some p := by
    intro p hp
    obtain ⟨i, j, hij, hj, rfl⟩ := exists_of_mem_ranges hp
    exact readRange?_rangeText hij hj
  rw [text_eq_ranges]
  generalize l.ranges = ps at hread ⊢
  -- Cutting the empty text gives one empty part, so it has to be told apart first.
  by_cases h : ps = []
  · subst h
    rfl
  have hsplit : ("/".intercalate (ps.map (fun p ↦ rangeText p.1 p.2))).toList.splitOn '/' =
      ps.map (fun p ↦ (rangeText p.1 p.2).toList) := by
    rw [String.toList_intercalate, List.map_map]
    apply List.splitOn_intercalate
    · intro t ht
      obtain ⟨p, -, rfl⟩ := List.mem_map.mp ht
      exact not_mem_rangeText (by decide) (by decide) p.1 p.2
    · simpa using h
  have hne : "/".intercalate (ps.map (fun p ↦ rangeText p.1 p.2)) ≠ "" := by
    intro he
    obtain ⟨p, ps, rfl⟩ := List.exists_cons_of_ne_nil h
    rw [he] at hsplit
    exact rangeText_ne_nil p.1 p.2 (List.cons.inj hsplit).1.symm
  rw [readRanges?, if_neg hne, hsplit]
  exact mapM_map_eq_some hread

def span (p : Register × Register) : List Register :=
  (List.range' p.1.index (p.2.index + 1 - p.1.index)).map .ofIndex

theorem flatMap_span {f : Nat → Register} {base : Nat} (hf : ∀ n < 8, f n = .ofIndex (base + n))
    {ns : List Nat} (hns : ∀ n ∈ ns, n < 8) :
    ((runs ns).map (fun r ↦ (f r.1, f r.2))).flatMap span = ns.map f := by
  have hspan : ∀ r ∈ runs ns,
      span (f r.1, f r.2) = (List.range' r.1 (r.2 + 1 - r.1)).map f := by
    rintro ⟨a, b⟩ hr
    obtain ⟨ha, hb⟩ := mem_of_mem_runs hr
    have hb := hns b hb
    have hab : a ≤ b := runs_ordered ns _ hr
    have hlen : base + b + 1 - (base + a) = b + 1 - a := by omega
    rw [span, hf a (hns a ha), hf b hb, Register.index_ofIndex, Register.index_ofIndex, hlen,
      ← List.map_add_range', List.map_map]
    refine List.map_congr_left (fun n hn ↦ ?_)
    obtain ⟨-, hn⟩ := List.mem_range'_1.mp hn
    exact (hf n (by omega)).symm
  have hexp := congrArg (List.map f) (expand_runs ns)
  rw [← hexp, expand, List.map_flatMap, List.flatMap_map]
  exact congrArg List.flatten (List.map_congr_left hspan)

theorem flatMap_span_ranges (l : RegisterList) : l.ranges.flatMap span = l.registers := by
  have hdata : ∀ n < 8, Register.data n = .ofIndex (0 + n) := by
    intro n hn
    rw [Nat.zero_add, Register.ofIndex_of_lt hn]
  have haddress : ∀ n < 8, Register.address n = .ofIndex (8 + n) := by
    intro n _
    rw [Register.ofIndex_add]
  rw [ranges, List.flatMap_append, flatMap_span hdata (fun _ ↦ lt_of_mem_dataNumbers),
    flatMap_span haddress (fun _ ↦ lt_of_mem_addressNumbers)]
  rfl

theorem registers_eq (l : RegisterList) :
    l.registers = ((List.range 16).filter l.selects).map .ofIndex := by
  have hrange : List.range 16 = List.range 8 ++ (List.range 8).map (8 + ·) :=
    List.range_add (n := 8) (m := 8)
  have hdata : l.dataNumbers.map Register.data = l.dataNumbers.map .ofIndex := by
    refine List.map_congr_left (fun n hn ↦ ?_)
    exact (Register.ofIndex_of_lt (lt_of_mem_dataNumbers hn)).symm
  have haddress : Register.address = Register.ofIndex ∘ (8 + ·) :=
    funext (fun n ↦ (Register.ofIndex_add n).symm)
  rw [registers, hdata, haddress, hrange, List.filter_append, List.filter_map, List.map_append,
    List.map_map]
  rfl

theorem selects_eq_of_text_eq (h : l.text = l'.text) (i : Nat) (hi : i < 16) :
    l.selects i = l'.selects i := by
  have hmem (k : RegisterList) : k.selects i = true ↔ Register.ofIndex i ∈ k.registers := by
    simp only [registers_eq, List.mem_map, List.mem_filter, List.mem_range]
    constructor
    · intro hs
      exact ⟨i, ⟨hi, hs⟩, rfl⟩
    · rintro ⟨j, ⟨-, hs⟩, he⟩
      rwa [← Register.ofIndex_inj he]
  have hranges : l.ranges = l'.ranges := by
    apply Option.some.inj
    rw [← readRanges?_text, ← readRanges?_text, h]
  rw [Bool.eq_iff_iff, hmem, hmem, ← flatMap_span_ranges, ← flatMap_span_ranges, hranges]

/-- Once the order of the bits is known, the text tells the mask. -/
theorem text_inj (hr : l.reversed = l'.reversed) (h : l.text = l'.text) : l = l' := by
  have hbit (i : Nat) (hi : i < 16) : l.mask.toNat.testBit i = l'.mask.toNat.testBit i := by
    have hs := selects_eq_of_text_eq h (if l.reversed then 15 - i else i) (by split <;> omega)
    simp only [selects, ← hr] at hs
    split at hs
    · rwa [Nat.sub_sub_self (by omega)] at hs
    · exact hs
  have hm : l.mask = l'.mask := by
    apply UInt16.toNat_inj.mp
    apply Nat.eq_of_testBit_eq
    intro i
    by_cases hi : i < 16
    · exact hbit i hi
    · have hp : 2 ^ 16 ≤ 2 ^ i := Nat.pow_le_pow_right (by decide) (by omega)
      rw [Nat.testBit_lt_two_pow (Nat.lt_of_lt_of_le l.mask.toNat_lt hp),
        Nat.testBit_lt_two_pow (Nat.lt_of_lt_of_le l'.mask.toNat_lt hp)]
  cases l
  cases l'
  rw [RegisterList.mk.injEq]
  exact ⟨hm, hr⟩

theorem head_text (l : RegisterList) :
    l.text.toList.head? = none ∨ l.text.toList.head? = some 'D' ∨
      l.text.toList.head? = some 'A' := by
  have hrange (x y : Register) : (rangeText x y).toList.head? = some 'D' ∨
      (rangeText x y).toList.head? = some 'A' := by
    unfold rangeText
    cases x <;> split <;> simp [Register.text]
  rw [text_eq_ranges, String.toList_intercalate]
  rcases l.ranges with _ | ⟨r, rs⟩
  · exact .inl rfl
  · right
    have hne := rangeText_ne_nil r.1 r.2
    rcases rs with _ | ⟨q, rs⟩
    · simpa using hrange r.1 r.2
    · obtain ⟨c, cs, hc⟩ := List.exists_cons_of_ne_nil hne
      simpa [hc] using hrange r.1 r.2

theorem not_mem_text {c : Char} (hc : c.isWhitespace = true) (l : RegisterList) :
    c ∉ l.text.toList := by
  obtain ⟨halnum, hdash, hslash⟩ : c.isAlphanum = false ∧ c ≠ '-' ∧ c ≠ '/' := by
    rcases whitespace_cases hc with rfl | rfl | rfl | rfl <;> decide
  rw [text_eq_ranges, String.toList_intercalate]
  generalize l.ranges = rs
  induction rs with
  | nil => simp
  | cons r rs ih =>
    have hr := not_mem_rangeText halnum hdash r.1 r.2
    cases rs with
    | nil => simpa using hr
    | cons q rs => simpa [hr, hslash] using ih

end RegisterList

end Mc68000
