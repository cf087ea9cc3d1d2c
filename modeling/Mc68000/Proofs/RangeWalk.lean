import Mc68000.Proofs.SlotReading
import Mc68000.Walk

namespace Mc68000

variable {bs mid rest : List UInt8} {a b c : UInt32} {i : Instruction} {is js : List Instruction}

@[simp]
theorem totalSize_nil : totalSize [] = 0 := rfl

@[simp]
theorem totalSize_cons : totalSize (i :: is) = i.size + totalSize is := rfl

theorem totalSize_append : totalSize (is ++ js) = totalSize is + totalSize js := by
  induction is with
  | nil => exact (Nat.zero_add _).symm
  | cons i is ih => rw [List.cons_append, totalSize_cons, totalSize_cons, ih, Nat.add_assoc]

/-- Instructions that stand one behind the other in the bytes from the address `a` on, with what
is left behind them and the address of that. -/
inductive Run : List UInt8 → UInt32 → List Instruction → List UInt8 → UInt32 → Prop
  | nil (bs : List UInt8) (a : UInt32) : Run bs a [] bs a
  | cons {bs rest : List UInt8} {a b : UInt32} {i : Instruction} {is : List Instruction} :
      decodeInstruction bs a = .ok i → Run (bs.drop i.size) i.nextAddress is rest b →
        Run bs a (i :: is) rest b

namespace Run

theorem trans (h : Run bs a is mid c) (h' : Run mid c js rest b) : Run bs a (is ++ js) rest b := by
  induction h with
  | nil => exact h'
  | cons hd _ ih => exact .cons hd (ih h')

theorem split (h : Run bs a (is ++ js) rest b) :
    ∃ mid c, Run bs a is mid c ∧ Run mid c js rest b := by
  induction is generalizing bs a with
  | nil => exact ⟨bs, a, .nil bs a, h⟩
  | cons i is ih =>
    cases h with
    | cons hd h =>
      obtain ⟨mid, c, h₁, h₂⟩ := ih h
      exact ⟨mid, c, .cons hd h₁, h₂⟩

theorem bytes_append (h : Run bs a is rest b) : is.flatMap Instruction.bytes ++ rest = bs := by
  induction h with
  | nil => rfl
  | cons hd _ ih =>
    rw [List.flatMap_cons, List.append_assoc, ih, bytes_eq_take hd, List.take_append_drop]

theorem length_bytes (h : Run bs a is rest b) :
    (is.flatMap Instruction.bytes).length = totalSize is := by
  induction h with
  | nil => rfl
  | cons hd _ ih =>
    rw [List.flatMap_cons, List.length_append, ih, bytes_eq_take hd, List.length_take,
      Nat.min_eq_left (size_le_length hd), totalSize_cons]

theorem bytes_eq_take (h : Run bs a is rest b) :
    is.flatMap Instruction.bytes = bs.take (totalSize is) := by
  rw [← h.bytes_append, ← h.length_bytes, List.take_left]

theorem rest_eq_drop (h : Run bs a is rest b) : rest = bs.drop (totalSize is) := by
  rw [← h.bytes_append, ← h.length_bytes, List.drop_left]

theorem totalSize_add (h : Run bs a is rest b) : totalSize is + rest.length = bs.length := by
  rw [← h.bytes_append, List.length_append, h.length_bytes]

theorem totalSize_even (h : Run bs a is rest b) : totalSize is % 2 = 0 := by
  induction h with
  | nil => rfl
  | cons hd _ ih =>
    have hs := size_even hd
    rw [totalSize_cons]
    omega

theorem address_eq (h : Run bs a is rest b) : b = a + UInt32.ofNat (totalSize is) := by
  induction h with
  | nil => exact (UInt32.add_zero _).symm
  | cons hd _ ih =>
    rw [ih, Instruction.nextAddress, Mc68000.address_eq hd, totalSize_cons, UInt32.ofNat_add,
      UInt32.add_assoc]

theorem frame (h : Run bs a is rest b) (t : List UInt8) : Run (bs ++ t) a is (rest ++ t) b := by
  induction h with
  | nil => exact .nil _ _
  | cons hd _ ih =>
    rw [← List.drop_append_of_le_length (size_le_length hd)] at ih
    exact .cons (decodeInstruction_append hd t) ih

theorem decodeInstruction_get {k : Nat} (h : Run bs a is rest b) (hk : is[k]? = some i) :
    decodeInstruction (bs.drop (totalSize (is.take k)))
      (a + UInt32.ofNat (totalSize (is.take k))) = .ok i := by
  obtain ⟨hlt, hget⟩ := List.getElem?_eq_some_iff.mp hk
  have hsplit : is.take k ++ i :: is.drop (k + 1) = is := by
    rw [← hget, ← List.drop_eq_getElem_cons hlt, List.take_append_drop]
  rw [← hsplit] at h
  obtain ⟨mid, c, h₁, h₂⟩ := h.split
  cases h₂ with
  | cons hd _ =>
    rw [h₁.rest_eq_drop, h₁.address_eq] at hd
    exact hd

end Run

def appendDecoded (is : List Instruction) :
    Except RangeError (List Instruction) → Except RangeError (List Instruction)
  | .ok js => .ok (is ++ js)
  | .error e => .error { e with decoded := is ++ e.decoded }

/-- What a walk has decoded, also if it stopped early. -/
def decodedBy : Except RangeError (List Instruction) → List Instruction
  | .ok is => is
  | .error e => e.decoded

theorem appendDecoded_nil (r : Except RangeError (List Instruction)) : appendDecoded [] r = r := by
  cases r <;> rfl

theorem consDecoded_appendDecoded (r : Except RangeError (List Instruction)) :
    consDecoded i (appendDecoded is r) = appendDecoded (i :: is) r := by
  cases r <;> rfl

theorem decodedBy_appendDecoded (r : Except RangeError (List Instruction)) :
    decodedBy (appendDecoded is r) = is ++ decodedBy r := by
  cases r <;> rfl

theorem decodeRange_nil (a : UInt32) : decodeRange [] a = .ok [] := by
  rw [decodeRange]
  rfl

theorem decodeRange_of_error {e : DecodeError} (hb : bs ≠ [])
    (h : decodeInstruction bs a = .error e) : decodeRange bs a = .error ⟨[], e⟩ := by
  rw [decodeRange, dif_neg hb]
  split
  · next j hj =>
    rw [h] at hj
    cases hj
  · next e' he =>
    rw [h] at he
    cases he
    rfl

theorem decodeRange_of_ok (h : decodeInstruction bs a = .ok i) :
    decodeRange bs a = consDecoded i (decodeRange (bs.drop i.size) i.nextAddress) := by
  have hb : bs ≠ [] := by
    rintro rfl
    cases h
  rw [decodeRange, dif_neg hb]
  split
  · next j hj =>
    rw [h] at hj
    cases hj
    rfl
  · next e' he =>
    rw [h] at he
    cases he

theorem Run.decodeRange_eq (h : Run bs a is rest b) :
    decodeRange bs a = appendDecoded is (decodeRange rest b) := by
  induction h with
  | nil => rw [appendDecoded_nil]
  | cons hd _ ih => rw [decodeRange_of_ok hd, ih, consDecoded_appendDecoded]

theorem run_decodeRange (bs : List UInt8) (a : UInt32) :
    (∃ is b, decodeRange bs a = .ok is ∧ Run bs a is [] b) ∨
      ∃ is e rest b, decodeRange bs a = .error ⟨is, e⟩ ∧ Run bs a is rest b ∧ rest ≠ [] ∧
        decodeInstruction rest b = .error e := by
  by_cases hb : bs = []
  · subst hb
    exact .inl ⟨[], a, decodeRange_nil a, .nil [] a⟩
  · cases hd : decodeInstruction bs a with
    | error e => exact .inr ⟨[], e, bs, a, decodeRange_of_error hb hd, .nil bs a, hb, hd⟩
    | ok i =>
      have hdec := length_sub_size_lt hd hb
      rw [decodeRange_of_ok hd]
      rcases run_decodeRange (bs.drop i.size) i.nextAddress with
        ⟨is, b, hr, h⟩ | ⟨is, e, rest, b, hr, h, hn, he⟩
      · exact .inl ⟨i :: is, b, by rw [hr]; rfl, .cons hd h⟩
      · exact .inr ⟨i :: is, e, rest, b, by rw [hr]; rfl, .cons hd h, hn, he⟩
termination_by bs.length

theorem run_of_ok (h : decodeRange bs a = .ok is) :
    Run bs a is [] (a + UInt32.ofNat bs.length) := by
  rcases run_decodeRange bs a with ⟨js, b, hr, hrun⟩ | ⟨js, e, rest, b, hr, -⟩
  · rw [h] at hr
    cases hr
    have hb := hrun.address_eq
    rw [← hrun.totalSize_add, List.length_nil, Nat.add_zero, ← hb]
    exact hrun
  · rw [h] at hr
    cases hr

theorem run_of_error {e : RangeError} (h : decodeRange bs a = .error e) :
    Run bs a e.decoded (bs.drop e.consumed) (a + UInt32.ofNat e.consumed) ∧
      bs.drop e.consumed ≠ [] ∧
      decodeInstruction (bs.drop e.consumed) (a + UInt32.ofNat e.consumed) = .error e.error := by
  rcases run_decodeRange bs a with ⟨js, b, hr, -⟩ | ⟨js, e', rest, b, hr, hrun, hn, he⟩
  · rw [h] at hr
    cases hr
  · rw [h] at hr
    cases hr
    have hrest := hrun.rest_eq_drop
    have hb := hrun.address_eq
    subst hrest hb
    exact ⟨hrun, hn, he⟩

theorem run_decodedBy (bs : List UInt8) (a : UInt32) :
    ∃ rest b, Run bs a (decodedBy (decodeRange bs a)) rest b := by
  cases h : decodeRange bs a with
  | ok is => exact ⟨_, _, run_of_ok h⟩
  | error e => exact ⟨_, _, (run_of_error h).1⟩

theorem opcode_eq_none_iff {e : DecodeError} (hb : bs ≠ [])
    (h : decodeInstruction bs a = .error e) : e.opcode = none ↔ bs.length = 1 := by
  rw [eq_of_error h]
  rcases bs with _ | ⟨hi, _ | ⟨lo, rest⟩⟩
  · exact absurd rfl hb
  · exact ⟨fun _ ↦ rfl, fun _ ↦ rfl⟩
  · exact ⟨nofun, fun hl ↦ by simp at hl⟩

/-- A walk loses no byte, repeats none and gives each instruction its own address. -/
theorem decodeRange_lossless (bs : List UInt8) (start : UInt32) :
    let ds := decodedBy (decodeRange bs start)
    ds.flatMap Instruction.bytes = bs.take (totalSize ds) ∧
    (∀ k i, ds[k]? = some i → i.address = start + UInt32.ofNat (totalSize (ds.take k)) ∧
      decodeInstruction (bs.drop (totalSize (ds.take k))) i.address = .ok i ∧
      ∀ j, ds[k + 1]? = some j → i.nextAddress = j.address) ∧
    (∀ is, decodeRange bs start = .ok is → totalSize is = bs.length ∧ bs.length % 2 = 0) ∧
    ∀ e, decodeRange bs start = .error e → e.consumed < bs.length ∧
      decodeInstruction (bs.drop e.consumed) (start + UInt32.ofNat e.consumed) = .error e.error ∧
      (e.error.opcode = none ↔ bs.length - e.consumed = 1) := by
  intro ds
  obtain ⟨rest, b, hrun⟩ := run_decodedBy bs start
  have haddress {k : Nat} {i : Instruction} (hk : ds[k]? = some i) :
      i.address = start + UInt32.ofNat (totalSize (ds.take k)) :=
    address_eq (hrun.decodeInstruction_get hk)
  refine ⟨hrun.bytes_eq_take, ?_, ?_, ?_⟩
  · intro k i hk
    refine ⟨haddress hk, ?_, ?_⟩
    · rw [haddress hk]
      exact hrun.decodeInstruction_get hk
    · intro j hj
      have htake : ds.take (k + 1) = ds.take k ++ [i] := by
        rw [List.take_add_one, hk]
        rfl
      rw [Instruction.nextAddress, haddress hj, haddress hk, htake, totalSize_append,
        UInt32.ofNat_add, UInt32.add_assoc]
      rfl
  · intro is h
    have hr := run_of_ok h
    have hsum : totalSize is = bs.length := by simpa using hr.totalSize_add
    exact ⟨hsum, hsum ▸ hr.totalSize_even⟩
  · intro e h
    obtain ⟨-, hn, he⟩ := run_of_error h
    have hlt : e.consumed < bs.length := by
      apply Nat.lt_of_not_le
      intro hle
      exact hn (List.drop_eq_nil_of_le hle)
    refine ⟨hlt, he, ?_⟩
    rw [opcode_eq_none_iff hn he, List.length_drop]

theorem decodeRange_lossless_nop :
    decodeRange [0x4E, 0x71, 0x4E] 0xFFFFFFFE =
        .error ⟨[⟨0xFFFFFFFE, 0x4E71, "NOP", "", 2, [0x4E, 0x71]⟩],
          ⟨0, none, .insufficientData 2 1⟩⟩ ∧
      decodeInstruction [0x4E] 0 = .error ⟨0, none, .insufficientData 2 1⟩ := by
  have hd : decodeInstruction [0x4E, 0x71, 0x4E] 0xFFFFFFFE =
      .ok ⟨0xFFFFFFFE, 0x4E71, "NOP", "", 2, [0x4E, 0x71]⟩ := rfl
  have he : decodeRange [0x4E] 0 = .error ⟨[], ⟨0, none, .insufficientData 2 1⟩⟩ :=
    decodeRange_of_error nofun rfl
  have hr := (decodeRange_of_ok hd).trans (congrArg (consDecoded _) he)
  exact ⟨hr, ((decodeRange_lossless _ _).2.2.2 _ hr).2.1⟩

theorem decodeRange_append {t : List UInt8} (h : decodeRange bs a = .ok is) :
    decodeRange (bs ++ t) a = appendDecoded is (decodeRange t (a + UInt32.ofNat bs.length)) :=
  ((run_of_ok h).frame t).decodeRange_eq

theorem decodedBy_prefix (bs t : List UInt8) (a : UInt32) :
    decodedBy (decodeRange bs a) <+: decodedBy (decodeRange (bs ++ t) a) := by
  obtain ⟨rest, b, hrun⟩ := run_decodedBy bs a
  rw [(hrun.frame t).decodeRange_eq, decodedBy_appendDecoded]
  exact List.prefix_append _ _

theorem run_flatten {chunks : List (List UInt8)} {iss : List (List Instruction)}
    (hlen : iss.length = chunks.length)
    (h : ∀ k bs is, chunks[k]? = some bs → iss[k]? = some is →
      decodeRange bs (a + UInt32.ofNat (chunks.take k).flatten.length) = .ok is) :
    Run chunks.flatten a iss.flatten [] (a + UInt32.ofNat chunks.flatten.length) := by
  induction chunks generalizing iss a with
  | nil =>
    cases List.eq_nil_of_length_eq_zero hlen
    simpa using Run.nil [] a
  | cons bs chunks ih =>
    obtain ⟨is, iss, rfl⟩ := List.exists_cons_of_length_eq_add_one hlen
    have hhead : decodeRange bs a = .ok is := by simpa using h 0 bs is rfl rfl
    have htail := ih (a := a + UInt32.ofNat bs.length) (by simpa using hlen) (by
      intro k bs' is' hk hk'
      have hrange := h (k + 1) bs' is' hk hk'
      rw [List.take_succ_cons, List.flatten_cons, List.length_append, UInt32.ofNat_add,
        ← UInt32.add_assoc] at hrange
      exact hrange)
    have hrun := ((run_of_ok hhead).frame chunks.flatten).trans htail
    rw [UInt32.add_assoc, ← UInt32.ofNat_add, ← List.length_append] at hrun
    exact hrun

/-- Decoding composes over concatenation, of two byte strings and of any number of chunks. -/
theorem decodeRange_composes :
    (∀ bs t a is, decodeRange bs a = .ok is →
      (∀ js, decodeRange t (a + UInt32.ofNat bs.length) = .ok js →
        decodeRange (bs ++ t) a = .ok (is ++ js)) ∧
      ∀ js e, decodeRange t (a + UInt32.ofNat bs.length) = .error ⟨js, e⟩ →
        decodeRange (bs ++ t) a = .error ⟨is ++ js, e⟩) ∧
    (∀ bs t a, decodedBy (decodeRange bs a) <+: decodedBy (decodeRange (bs ++ t) a)) ∧
    ∀ (chunks : List (List UInt8)) (iss : List (List Instruction)) (last : List UInt8) (a : UInt32),
      iss.length = chunks.length →
      (∀ k bs is, chunks[k]? = some bs → iss[k]? = some is →
        decodeRange bs (a + UInt32.ofNat (chunks.take k).flatten.length) = .ok is) →
      decodeRange (chunks ++ [last]).flatten a =
        appendDecoded iss.flatten
          (decodeRange last (a + UInt32.ofNat chunks.flatten.length)) := by
  refine ⟨?_, decodedBy_prefix, ?_⟩
  · intro bs t a is h
    refine ⟨?_, ?_⟩
    · intro js hj
      rw [decodeRange_append h, hj]
      rfl
    · intro js e hj
      rw [decodeRange_append h, hj]
      rfl
  · intro chunks iss last a hlen h
    have hflat : (chunks ++ [last]).flatten = chunks.flatten ++ last := by simp
    rw [hflat]
    exact ((run_flatten hlen h).frame last).decodeRange_eq

theorem decodeRange_composes_nop :
    decodeRange [0x4E, 0x71, 0x4E, 0x75] 0xFFFFFFFE =
        .ok [⟨0xFFFFFFFE, 0x4E71, "NOP", "", 2, [0x4E, 0x71]⟩,
          ⟨0, 0x4E75, "RTS", "", 2, [0x4E, 0x75]⟩] ∧
      decodeRange [0x4E, 0x71, 0x4E, 0x75] 0xFFFFFFFE =
        appendDecoded [⟨0xFFFFFFFE, 0x4E71, "NOP", "", 2, [0x4E, 0x71]⟩]
          (decodeRange [0x4E, 0x75] 0) := by
  have hn : decodeRange [0x4E, 0x71] 0xFFFFFFFE =
      .ok [⟨0xFFFFFFFE, 0x4E71, "NOP", "", 2, [0x4E, 0x71]⟩] :=
    (decodeRange_of_ok rfl).trans (congrArg (consDecoded _) (decodeRange_nil 0))
  have hr : decodeRange [0x4E, 0x75] 0 = .ok [⟨0, 0x4E75, "RTS", "", 2, [0x4E, 0x75]⟩] :=
    (decodeRange_of_ok rfl).trans (congrArg (consDecoded _) (decodeRange_nil 2))
  refine ⟨(decodeRange_composes.1 _ _ _ _ hn).1 _ hr, ?_⟩
  refine decodeRange_composes.2.2 [[0x4E, 0x71]] [[⟨_, _, _, _, _, _⟩]] [0x4E, 0x75] _ rfl ?_
  intro k bs is hk hk'
  cases k with
  | zero =>
    cases hk
    cases hk'
    exact hn
  | succ k => cases hk

end Mc68000
