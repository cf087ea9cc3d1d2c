import Mathlib.Data.List.Nodup
import Mc68000.Proofs.TableLookup

namespace Mc68000

variable {p q : Pattern} {d e : Entry} {s t : List Entry} {w : UInt16}

theorem eq_iff_bits {x y : UInt16} : x = y ↔ ∀ i, x.toNat.testBit i = y.toNat.testBit i := by
  rw [← UInt16.toNat_inj]
  exact ⟨fun h i ↦ by rw [h], Nat.eq_of_testBit_eq⟩

namespace Pattern

/-- The value has no bits outside of the mask. -/
def Proper (p : Pattern) : Prop := p.value &&& p.mask = p.value

instance (p : Pattern) : Decidable p.Proper :=
  inferInstanceAs (Decidable (p.value &&& p.mask = p.value))

def Overlaps (p q : Pattern) : Prop := ∃ w, p.accepts w ∧ q.accepts w

/-- No place that both patterns fix has different bits in them. -/
def Agree (p q : Pattern) : Prop := (p.value ^^^ q.value) &&& p.mask &&& q.mask = 0

instance (p q : Pattern) : Decidable (p.Agree q) :=
  inferInstanceAs (Decidable ((p.value ^^^ q.value) &&& p.mask &&& q.mask = 0))

theorem Agree.symm (h : p.Agree q) : q.Agree p := by
  rw [Agree, UInt16.xor_comm, UInt16.and_assoc, UInt16.and_comm q.mask, ← UInt16.and_assoc]
  exact h

theorem Agree.accepts_or (h : p.Agree q) (hp : p.Proper) (hq : q.Proper) :
    p.accepts (p.value ||| q.value) := by
  rw [Proper, eq_iff_bits] at hp hq
  rw [Agree, eq_iff_bits] at h
  rw [accepts_iff, eq_iff_bits]
  intro i
  specialize hp i
  specialize hq i
  specialize h i
  simp only [UInt16.toNat_and, UInt16.toNat_or, UInt16.toNat_xor, Nat.testBit_and, Nat.testBit_or,
    Nat.testBit_xor] at hp hq h ⊢
  grind

theorem agree_of_accepts (hp : p.accepts w) (hq : q.accepts w) : p.Agree q := by
  rw [accepts_iff, eq_iff_bits] at hp hq
  rw [Agree, eq_iff_bits]
  intro i
  specialize hp i
  specialize hq i
  simp only [UInt16.toNat_and, UInt16.toNat_xor, Nat.testBit_and, Nat.testBit_xor] at hp hq ⊢
  grind

theorem overlaps_iff_agree (hp : p.Proper) (hq : q.Proper) : p.Overlaps q ↔ p.Agree q := by
  constructor
  · rintro ⟨w, hw, hw'⟩
    exact agree_of_accepts hw hw'
  · intro h
    refine ⟨p.value ||| q.value, h.accepts_or hp hq, ?_⟩
    rw [UInt16.or_comm]
    exact h.symm.accepts_or hq hp

end Pattern

theorem table_proper : ∀ e ∈ table, e.pattern.Proper := by
  decide

theorem nodup_table : table.Nodup := by
  decide +kernel

theorem eq_of_sublist_swap {α : Type} {a b : α} {l : List α} (hl : l.Nodup)
    (h : [a, b].Sublist l) (h' : [b, a].Sublist l) : a = b := by
  induction l with
  | nil => cases h
  | cons x l ih =>
    obtain ⟨hx, hl⟩ := List.nodup_cons.mp hl
    cases h with
    | cons _ h =>
      cases h' with
      | cons _ h' => exact ih hl h h'
      | cons_cons _ h' => exact absurd (h.subset (by simp)) hx
    | cons_cons _ h =>
      cases h' with
      | cons _ h' => exact absurd (h'.subset (by simp)) hx
      | cons_cons _ h' => rfl

/-- Every two overlapping entries of `s` stand in the same order in `t`. -/
def KeepsOverlaps (s t : List Entry) : Prop :=
  ∀ d e, d.pattern.Overlaps e.pattern → [d, e].Sublist s → [d, e].Sublist t

/-- The entries that accept a word overlap each other, so no reordering that keeps the order of
overlapping entries changes their list. -/
theorem KeepsOverlaps.filter_eq (h : KeepsOverlaps s t) (hs : s.Nodup) (hp : t.Perm s)
    (w : Opcode) :
    t.filter (fun e ↦ e.pattern.accepts w) = s.filter (fun e ↦ e.pattern.accepts w) := by
  have ht : t.Nodup := hp.nodup_iff.mpr hs
  have hnew : (t.filter (fun e ↦ e.pattern.accepts w)).Pairwise (fun d e ↦ [d, e].Sublist t) := by
    rw [List.pairwise_iff_forall_sublist]
    intro d e hde
    exact hde.trans List.filter_sublist
  have hold : (s.filter (fun e ↦ e.pattern.accepts w)).Pairwise (fun d e ↦ [d, e].Sublist t) := by
    rw [List.pairwise_iff_forall_sublist]
    intro d e hde
    have hd := (List.mem_filter.mp (hde.subset (show d ∈ [d, e] by simp))).2
    have he := (List.mem_filter.mp (hde.subset (show e ∈ [d, e] by simp))).2
    exact h d e ⟨w, hd, he⟩ (hde.trans List.filter_sublist)
  exact (hp.filter _).eq_of_pairwise (fun d e _ _ ↦ eq_of_sublist_swap ht) hnew hold

theorem keepsOverlaps_swap (h : ∀ d ∈ s, ∀ e ∈ t, ¬d.pattern.Overlaps e.pattern) :
    KeepsOverlaps (s ++ t) (t ++ s) := by
  intro d e ho hde
  obtain ⟨l, l', hl, hs, ht⟩ := List.sublist_append_iff.mp hde
  rcases l with _ | ⟨x, _ | ⟨y, l⟩⟩
  · rw [List.nil_append] at hl
    rw [← hl] at ht
    exact ht.trans (List.sublist_append_left t s)
  · obtain ⟨rfl, rfl⟩ := List.cons.inj hl
    exact absurd ho (h d (hs.subset (by simp)) e (ht.subset (by simp)))
  · simp only [List.cons_append, List.cons.injEq, List.nil_eq, List.append_eq_nil_iff] at hl
    obtain ⟨rfl, rfl, rfl, -⟩ := hl
    exact hs.trans (List.sublist_append_right t s)

/-- Only the order of overlapping entries matters: a table that is reordered without exchanging
such entries resolves every word as before. -/
theorem resolve_reordered :
    table.Nodup ∧ (∀ e ∈ table, e.pattern.value &&& e.pattern.mask = e.pattern.value) ∧
    (∀ p q : Pattern, p.value &&& p.mask = p.value → q.value &&& q.mask = q.value →
      (p.Overlaps q ↔ (p.value ^^^ q.value) &&& p.mask &&& q.mask = 0)) ∧
    ∀ t : List Entry, t.Perm table → KeepsOverlaps table t → ∀ w : Opcode,
      t.find? (fun e ↦ e.pattern.accepts w) = resolve w ∧
        ((∀ e ∈ t, e.pattern.accepts w = false) ↔ resolve w = none) := by
  refine ⟨nodup_table, table_proper, fun p q hp hq ↦ Pattern.overlaps_iff_agree hp hq, ?_⟩
  intro t hp hk w
  have hfind : t.find? (fun e ↦ e.pattern.accepts w) = resolve w := by
    rw [resolve, ← List.head?_filter, ← List.head?_filter, hk.filter_eq nodup_table hp]
  refine ⟨hfind, ?_⟩
  rw [← hfind, List.find?_eq_none]
  simp only [Bool.not_eq_true]

theorem resolve_reordered_shift :
    (table.drop 81 ++ table.take 81).head? = some ⟨⟨0xF000, 0xE000, "SHIFT"⟩, .shift⟩ ∧
      (table.drop 81 ++ table.take 81).find? (fun e ↦ e.pattern.accepts 0x0148) =
        some ⟨⟨0xF138, 0x0108, "MOVEP"⟩, .movep⟩ := by
  have hsplit : table.take 81 ++ table.drop 81 = table := List.take_append_drop 81 table
  have hapart : ∀ d ∈ table.take 81, ∀ e ∈ table.drop 81, ¬d.pattern.Agree e.pattern := by
    decide
  have hkeeps : KeepsOverlaps table (table.drop 81 ++ table.take 81) := by
    have h := keepsOverlaps_swap (s := table.take 81) (t := table.drop 81) ?_
    · rwa [hsplit] at h
    · rintro d hd e he ⟨w, hw, hw'⟩
      exact hapart d hd e he (Pattern.agree_of_accepts hw hw')
  have hperm : (table.drop 81 ++ table.take 81).Perm table :=
    List.perm_append_comm.trans (List.Perm.of_eq hsplit)
  refine ⟨rfl, ?_⟩
  rw [(resolve_reordered.2.2.2 _ hperm hkeeps 0x0148).1]
  rfl

end Mc68000
