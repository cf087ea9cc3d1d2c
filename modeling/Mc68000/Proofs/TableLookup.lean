import Mc68000.Table

namespace Mc68000

variable {p : Pattern} {e : Entry} {w mask value : UInt16}

namespace Pattern

theorem accepts_iff : p.accepts w = true ↔ w &&& p.mask = p.value := beq_iff_eq

def agrees (p : Pattern) (mask value : UInt16) : Bool := p.value &&& mask == value &&& p.mask

def demands (p : Pattern) (mask value : UInt16) : Bool :=
  p.mask &&& mask == mask && p.value &&& mask == value

theorem agrees_of_accepts (hw : w &&& mask = value) (h : p.accepts w) :
    p.agrees mask value = true := by
  rw [accepts_iff] at h
  rw [agrees, beq_iff_eq, ← h, ← hw, UInt16.and_assoc, UInt16.and_comm p.mask, UInt16.and_assoc]

theorem and_of_demands (h : p.accepts w) (hd : p.demands mask value) : w &&& mask = value := by
  rw [accepts_iff] at h
  simp only [demands, Bool.and_eq_true, beq_iff_eq] at hd
  rw [← hd.2, ← h, UInt16.and_assoc, hd.1]

end Pattern

theorem accepts_of_resolve (h : resolve w = some e) : w &&& e.pattern.mask = e.pattern.value :=
  Pattern.accepts_iff.mp (List.find?_some (p := fun d : Entry ↦ d.pattern.accepts w) h)

/-- The first entry that a weaker test lets pass is the first that accepts the word, provided that
it does accept it. -/
theorem resolve_of_find {q : Entry → Bool} (hq : table.find? q = some e)
    (h : ∀ d ∈ table, d.pattern.accepts w → q d) (he : e.pattern.accepts w) :
    resolve w = some e := by
  obtain ⟨-, before, after, ht, hb⟩ := List.find?_eq_some_iff_append.mp hq
  refine List.find?_eq_some_iff_append.mpr ⟨he, before, after, ht, ?_⟩
  intro d hd
  have hmem : d ∈ table := by
    rw [ht]
    exact List.mem_append_left _ hd
  have hd' := hb d hd
  cases ha : d.pattern.accepts w with
  | false => rfl
  | true => simp [h d hmem ha] at hd'

/-- What is known of a word rules out the entries that ask for something else, and so do bits that
it is known not to have. -/
theorem resolve_of_known {mask' value' : UInt16} (hw : w &&& mask = value)
    (hw' : w &&& mask' ≠ value') (he : e.pattern.accepts w)
    (hfirst : table.find? (fun d ↦ d.pattern.agrees mask value &&
      !d.pattern.demands mask' value') = some e) : resolve w = some e := by
  refine resolve_of_find hfirst ?_ he
  intro d _ hd
  rw [Bool.and_eq_true, Bool.not_eq_true', Bool.eq_false_iff]
  exact ⟨Pattern.agrees_of_accepts hw hd, fun h ↦ hw' (Pattern.and_of_demands hd h)⟩

theorem layout_of_resolve (h : resolve w = some e) : Opcode.layout w = e.family.layout w := by
  rw [Opcode.layout, h]

theorem layout_of_first {name : String} {F : Family} (hw : w &&& mask = value)
    (hfirst : table.find? (fun d ↦ d.pattern.agrees mask value) = some ⟨⟨mask, value, name⟩, F⟩) :
    Opcode.layout w = F.layout w :=
  layout_of_resolve (resolve_of_find hfirst (fun _ _ ↦ Pattern.agrees_of_accepts hw)
    (Pattern.accepts_iff.mpr hw))

end Mc68000
