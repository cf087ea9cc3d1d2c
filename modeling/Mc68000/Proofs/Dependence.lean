import Mc68000.Proofs.IgnoredBits
import Mc68000.Proofs.LayoutShape
import Mc68000.Proofs.NumeralReading

namespace Mc68000

open Layout

section OwnBytes

variable {bytes : List UInt8} {address : UInt32} {i : Instruction}

theorem Layout.operandsAt_take {σs : List Slot} {pc : UInt32} {bs : List UInt8} {os : List Operand}
    (h : operandsAt σs pc bs = some os) : operandsAt σs pc (bs.take (2 * extent σs)) = some os := by
  obtain ⟨hn, hl⟩ := (exists_operandsAt_iff σs pc bs).mp ⟨os, h⟩
  have hlen : 2 * extent σs ≤ (bs.take (2 * extent σs)).length := by
    rw [List.length_take]
    omega
  obtain ⟨os', h'⟩ := (exists_operandsAt_iff σs pc _).mpr ⟨hn, hlen⟩
  have happ := operandsAt_append h' (bs.drop (2 * extent σs))
  rw [List.take_append_drop, h] at happ
  rw [h', happ]

theorem decodeInstruction_bytes (h : decodeInstruction bytes address = .ok i) :
    decodeInstruction i.bytes address = .ok i := by
  obtain ⟨hi, lo, rest, l, os, rfl, hl, ho, rfl⟩ := decodeInstruction_eq_ok_iff.mp h
  have hb : (hi :: lo :: rest).take (2 + 2 * extent l.slots) =
      hi :: lo :: rest.take (2 * extent l.slots) := by
    rw [Nat.add_comm 2, List.take_succ_cons, List.take_succ_cons]
  refine decodeInstruction_eq_ok_iff.mpr
    ⟨hi, lo, rest.take (2 * extent l.slots), l, os, hb, hl, operandsAt_take ho, ?_⟩
  simp only [Layout.instruction, List.take_take, Nat.min_self]

/-- An instruction is made from its own bytes and from nothing behind them. -/
theorem decodeInstruction_own_bytes (h : decodeInstruction bytes address = .ok i) :
    i.address = address ∧
    (∃ hi lo rest, bytes = hi :: lo :: rest ∧ i.opcode.toNat = hi.toNat * 256 + lo.toNat) ∧
    i.size ≤ bytes.length ∧ i.bytes = bytes.take i.size ∧
    ∀ t, decodeInstruction (i.bytes ++ t) address = .ok i := by
  have hopcode : ∃ hi lo rest, bytes = hi :: lo :: rest ∧
      i.opcode.toNat = hi.toNat * 256 + lo.toNat := by
    obtain ⟨hi, lo, rest, l, os, rfl, -, -, rfl⟩ := decodeInstruction_eq_ok_iff.mp h
    refine ⟨hi, lo, rest, rfl, ?_⟩
    rw [← Nat.shiftLeft_eq hi.toNat 8]
    exact toNat_joinBytes hi lo
  exact ⟨address_eq h, hopcode, size_le_length h, bytes_eq_take h,
    decodeInstruction_append (decodeInstruction_bytes h)⟩

theorem decodeInstruction_own_bytes_jsr :
    decodeInstruction [0x4E, 0xAE, 0xFD, 0xD8, 0x4E, 0x71] 0x400 =
        .ok ⟨0x400, 0x4EAE, "JSR", "(-552,A6)", 4, [0x4E, 0xAE, 0xFD, 0xD8]⟩ ∧
      ∀ t, decodeInstruction ([0x4E, 0xAE, 0xFD, 0xD8] ++ t) 0x400 =
        .ok ⟨0x400, 0x4EAE, "JSR", "(-552,A6)", 4, [0x4E, 0xAE, 0xFD, 0xD8]⟩ := by
  have hd : decodeInstruction [0x4E, 0xAE, 0xFD, 0xD8, 0x4E, 0x71] 0x400 =
      .ok ⟨0x400, 0x4EAE, "JSR", "(-552,A6)", 4, [0x4E, 0xAE, 0xFD, 0xD8]⟩ := rfl
  exact ⟨hd, (decodeInstruction_own_bytes hd).2.2.2.2⟩

end OwnBytes

variable {α β γ δ : Type} {d : UInt32}

/-- The same place in the same bytes, which stand `d` further on. -/
def Cursor.moved (c : Cursor) (d : UInt32) : Cursor := { c with address := c.address + d }

theorem Cursor.pc_moved (c : Cursor) (d : UInt32) : (c.moved d).pc = c.pc + d := by
  change c.address + d + UInt32.ofNat c.position = c.address + UInt32.ofNat c.position + d
  ac_rfl

namespace Decoder

variable {R : α → β → Prop} {S : γ → δ → Prop} {m : Decoder α} {m' : Decoder β}
  {f : α → Decoder γ} {g : β → Decoder δ}

/-- Two decoders do the same at places that lie `d` apart, and their results are related. -/
def Moves (d : UInt32) (R : α → β → Prop) (m : Decoder α) (m' : Decoder β) : Prop :=
  ∀ c, (∃ a b c₁, m c = .ok a c₁ ∧ m' (c.moved d) = .ok b (c₁.moved d) ∧ R a b) ∨
    ∃ e c₁, m c = .error e c₁ ∧ m' (c.moved d) = .error e (c₁.moved d)

theorem moves_pure {a : α} {b : β} (h : R a b) : Moves d R (pure a) (pure b) :=
  fun c ↦ .inl ⟨a, b, c, rfl, rfl, h⟩

theorem moves_get : Moves d (fun c c' ↦ c' = c.moved d) get get :=
  fun c ↦ .inl ⟨c, c.moved d, c, rfl, rfl, rfl⟩

theorem moves_throw (e : Fault) : Moves d R (throw e) (throw e) := fun c ↦ .inr ⟨e, c, rfl, rfl⟩

theorem Moves.bind (hm : Moves d R m m') (hf : ∀ a b, R a b → Moves d S (f a) (g b)) :
    Moves d S (m >>= f) (m' >>= g) := by
  intro c
  simp only [Bind.bind, EStateM.bind]
  rcases hm c with ⟨a, b, c₁, h, h', hr⟩ | ⟨e, c₁, h, h'⟩
  · rw [h, h']
    exact hf a b hr c₁
  · rw [h, h']
    exact .inr ⟨e, c₁, rfl, rfl⟩

theorem moves_mapM {as : List α} {h : α → Decoder β} (hm : ∀ a ∈ as, Moves d Eq (h a) (h a)) :
    Moves d Eq (as.mapM h) (as.mapM h) := by
  induction as with
  | nil => exact moves_pure rfl
  | cons a as ih =>
    rw [List.mapM_cons]
    refine (hm a List.mem_cons_self).bind ?_
    rintro b _ rfl
    refine (ih fun a' ha' ↦ hm a' (List.mem_cons_of_mem _ ha')).bind ?_
    rintro bs _ rfl
    exact moves_pure rfl

theorem moves_take (x : Extension α) : Moves d Eq (take x) (take x) := by
  intro c
  have hrest : (c.moved d).rest = c.rest := rfl
  simp only [take, hrest]
  cases x.read c.rest with
  | some a => exact .inl ⟨a, a, _, rfl, rfl, rfl⟩
  | none => exact .inr ⟨_, c, rfl, rfl⟩

theorem moves_effectiveAddress (mode reg : Nat) (size : Size) :
    Moves d Eq (effectiveAddress mode reg size) (effectiveAddress mode reg size) := by
  intro c
  have hrest : (c.moved d).rest = c.rest := rfl
  simp only [effectiveAddress_eq, hrest]
  cases EffectiveAddress.decode c.rest mode reg size with
  | ok p => exact .inl ⟨p.1, p.1, _, rfl, rfl, rfl⟩
  | error f => exact .inr ⟨_, c, rfl, rfl⟩

end Decoder

open Decoder

namespace Slot

theorem moves_decode {σ : Slot} (h : σ.relative = false) : Moves d Eq σ.decode σ.decode := by
  have hread {α : Type} {m : Decoder α} (hm : Moves d Eq m m) (k : α → Operand) :
      Moves d Eq (m >>= fun a ↦ pure (k a)) (m >>= fun a ↦ pure (k a)) := by
    refine hm.bind ?_
    rintro a _ rfl
    exact moves_pure rfl
  cases σ with
  | fixed o => exact moves_pure rfl
  | address mode reg size => exact hread (moves_effectiveAddress mode reg size) _
  | nearTarget | wordTarget | longTarget => cases h
  | _ => exact hread (moves_take _) _

theorem moves_target {σ : Slot} (h : σ.relative = true) :
    Moves d (fun o o' ↦ ∃ t k, o = .target t k ∧ o' = .target (t + d) k) σ.decode σ.decode := by
  have hshift (c : Cursor) (e : UInt32) : (c.moved d).pc + e = c.pc + e + d := by
    rw [c.pc_moved]
    ac_rfl
  cases σ with
  | nearTarget e =>
    refine moves_get.bind ?_
    rintro c _ rfl
    exact moves_pure ⟨_, _, rfl, by rw [hshift]⟩
  | wordTarget =>
    refine moves_get.bind ?_
    rintro c _ rfl
    refine (moves_take _).bind ?_
    rintro w _ rfl
    exact moves_pure ⟨_, _, rfl, by rw [hshift]⟩
  | longTarget =>
    refine moves_get.bind ?_
    rintro c _ rfl
    refine (moves_take _).bind ?_
    rintro e _ rfl
    exact moves_pure ⟨_, _, rfl, by rw [hshift]⟩
  | _ => cases h

end Slot

/-- What becomes of a statement when its instruction is moved: nothing, or its last operand is a
target and is moved with it. -/
inductive Statement.Moved (d : UInt32) : Bool → Statement → Statement → Prop
  | same (s : Statement) : Moved d false s s
  | target (m : Mnemonic) (os : List Operand) (t : UInt32) (k : Nat) :
      Moved d true ⟨m, os ++ [.target t k]⟩ ⟨m, os ++ [.target (t + d) k]⟩

structure Fields.Moved (d : UInt32) (b : Bool) (x x' : Fields) : Prop where
  statement : Statement.Moved d b x.statement x'.statement
  length : x.length = x'.length

theorem Decoder.moves_finish {b : Bool} {s s' : Statement} (h : Statement.Moved d b s s') :
    Moves d (Fields.Moved d b) (finish s) (finish s') := by
  refine moves_get.bind ?_
  rintro c _ rfl
  exact moves_pure ⟨h, rfl⟩

theorem Layout.moves_fields {b : Bool} {s s' : Statement} (l : Layout) (h : Statement.Moved d b s s') :
    Moves d (Fields.Moved d b) (if l.isData then pure ⟨s, 2⟩ else finish s)
      (if l.isData then pure ⟨s', 2⟩ else finish s') := by
  split
  · exact moves_pure ⟨h, rfl⟩
  · exact moves_finish h

theorem Layout.Absolute.moves_decode {l : Layout} (h : l.Absolute) :
    Moves d (Fields.Moved d false) l.decode l.decode := by
  refine (moves_mapM fun σ hσ ↦ Slot.moves_decode (h.absolute σ hσ)).bind ?_
  rintro os _ rfl
  exact l.moves_fields (.same _)

theorem Layout.Relative.moves_decode {l : Layout} {lead : List Slot} {σ : Slot}
    (h : l.Relative lead σ) : Moves d (Fields.Moved d true) l.decode l.decode := by
  unfold Layout.decode
  rw [h.slots, h.swapped, List.mapM_append]
  refine Moves.bind (R := fun os os' ↦ ∃ ps t k, os = ps ++ [.target t k] ∧
    os' = ps ++ [.target (t + d) k]) ?_ ?_
  · refine (moves_mapM fun ρ hρ ↦ Slot.moves_decode (h.absolute ρ hρ)).bind ?_
    rintro ps _ rfl
    rw [List.mapM_cons, List.mapM_nil]
    refine Moves.bind (R := fun os os' ↦ ∃ t k, os = [.target t k] ∧ os' = [.target (t + d) k])
      ((Slot.moves_target h.relative).bind ?_) ?_
    · rintro _ _ ⟨t, k, rfl, rfl⟩
      exact moves_pure ⟨t, k, rfl, rfl⟩
    · rintro _ _ ⟨t, k, rfl, rfl⟩
      exact moves_pure ⟨ps, t, k, rfl, rfl⟩
  · rintro _ _ ⟨ps, t, k, rfl, rfl⟩
    exact l.moves_fields (.target l.mnemonic ps t k)

/-- Whether the table takes the word for a branch, with a condition or with a counter. -/
def Opcode.branches (w : Opcode) : Bool :=
  (resolve w).any (fun e ↦ e.pattern.name ∈ ["Bcc", "DBcc"])

theorem table_branches :
    ∀ e ∈ table, e.family.branches = decide (e.pattern.name ∈ ["Bcc", "DBcc"]) := by
  decide

theorem Family.moves_decode {F : Family} {b : Bool} (hb : F.branches = b) (w : Opcode) :
    Moves d (Fields.Moved d b) (F.decode w) (F.decode w) := by
  unfold Family.decode
  cases hl : F.layout w with
  | error f => exact moves_throw f
  | ok l =>
    cases b with
    | false => exact (Family.absolute_of_layout hb hl).moves_decode
    | true =>
      obtain ⟨lead, σ, hr⟩ := Family.relative_of_layout hb hl
      exact hr.moves_decode

theorem Opcode.moves_decode (w : Opcode) :
    Moves d (Fields.Moved d w.branches) w.decode w.decode := by
  unfold Opcode.decode Opcode.layout Opcode.branches
  cases he : resolve w with
  | none => exact (absolute_dataWord w).moves_decode
  | some e => exact Family.moves_decode (table_branches e (List.mem_of_find?_eq_some he)) w

theorem joinOperands_concat (ts : List String) :
    ∃ lead, ∀ t, joinOperands (ts ++ [t]) = lead ++ t := by
  induction ts with
  | nil => exact ⟨"", fun t ↦ by simp [joinOperands]⟩
  | cons u ts ih =>
    obtain ⟨lead, hlead⟩ := ih
    refine ⟨u ++ ", " ++ lead, fun t ↦ ?_⟩
    have hne : ts ++ [t] ≠ [] := List.append_ne_nil_of_right_ne_nil _ (List.cons_ne_nil _ _)
    rw [List.cons_append, joinOperands, String.intercalate_cons_of_ne_nil hne, ← joinOperands,
      hlead]
    exact String.append_assoc.symm

theorem Statement.Moved.operandText {s s' : Statement} (h : Moved d true s s') :
    ∃ lead t k, s.operandText = lead ++ Literal.address t k ∧
      s'.operandText = lead ++ Literal.address (t + d) k := by
  cases h with
  | target m os t k =>
    obtain ⟨lead, hlead⟩ := joinOperands_concat (os.map Operand.text)
    have htext (u : UInt32) : (Statement.mk m (os ++ [.target u k])).operandText =
        lead ++ Literal.address u k := by
      rw [Statement.operandText, List.map_append]
      exact hlead _
    exact ⟨lead, t, k, htext t, htext (t + d)⟩

theorem Statement.Moved.mnemonic_eq {b : Bool} {s s' : Statement} (h : Moved d b s s') :
    s.mnemonic = s'.mnemonic := by
  cases h <;> rfl

def Statement.instruction (s : Statement) (w : Opcode) (address : UInt32) (bytes : List UInt8)
    (n : Nat) : Instruction where
  address := address
  opcode := w
  mnemonic := s.mnemonic.text
  operands := s.operandText
  size := n
  bytes := bytes.take n

theorem decodeInstruction_moved (bytes : List UInt8) (a a' : UInt32) :
    (∃ w f, decodeInstruction bytes a = .error ⟨a, w, f⟩ ∧
      decodeInstruction bytes a' = .error ⟨a', w, f⟩) ∨
    ∃ w s s' n, decodeInstruction bytes a = .ok (s.instruction w a bytes n) ∧
      decodeInstruction bytes a' = .ok (s'.instruction w a' bytes n) ∧
      Statement.Moved (a' - a) w.branches s s' := by
  rcases bytes with _ | ⟨hi, _ | ⟨lo, rest⟩⟩
  · exact .inl ⟨none, _, rfl, rfl⟩
  · exact .inl ⟨none, _, rfl, rfl⟩
  · have hc : (Cursor.start (hi :: lo :: rest) a).moved (a' - a) =
        Cursor.start (hi :: lo :: rest) a' := by
      simp only [Cursor.moved, Cursor.start, Cursor.mk.injEq]
      grind
    have hm := Opcode.moves_decode (d := a' - a) (joinBytes hi lo)
      (Cursor.start (hi :: lo :: rest) a)
    rw [hc] at hm
    simp only [decodeInstruction, EStateM.run]
    rcases hm with ⟨x, x', c, h, h', hs, hlen⟩ | ⟨f, c, h, h'⟩
    · rw [h, h']
      by_cases hle : x.length ≤ (hi :: lo :: rest).length
      · simp only [← hlen, bytesUpTo_of_le hle]
        exact .inr ⟨_, x.statement, x'.statement, x.length, rfl, rfl, hs⟩
      · simp only [← hlen, bytesUpTo, hle, if_false]
        exact .inl ⟨_, _, rfl, rfl⟩
    · rw [h, h']
      exact .inl ⟨_, f, rfl, rfl⟩

/-- Of an instruction that is moved nothing changes but its target, and that moves with it. -/
theorem decodeInstruction_relocates (bytes : List UInt8) (a a' : UInt32) :
    (∃ e e', decodeInstruction bytes a = .error e ∧ decodeInstruction bytes a' = .error e' ∧
      e.fault = e'.fault ∧ e.opcode = e'.opcode) ∨
    ∃ i i', decodeInstruction bytes a = .ok i ∧ decodeInstruction bytes a' = .ok i' ∧
      i.opcode = i'.opcode ∧ i.mnemonic = i'.mnemonic ∧ i.size = i'.size ∧ i.bytes = i'.bytes ∧
      if Opcode.branches i.opcode then
        ∃ lead t t' k, i.operands = lead ++ Literal.address t k ∧
          i'.operands = lead ++ Literal.address t' k ∧
          Numeral.read (Literal.address t k) = .ok t ∧
          Numeral.read (Literal.address t' k) = .ok t' ∧ t' - t = a' - a
      else i.operands = i'.operands := by
  rcases decodeInstruction_moved bytes a a' with ⟨w, f, he, he'⟩ | ⟨w, s, s', n, hd, hd', hs⟩
  · exact .inl ⟨_, _, he, he', rfl, rfl⟩
  · refine .inr ⟨_, _, hd, hd', rfl, congrArg Mnemonic.text hs.mnemonic_eq, rfl, rfl, ?_⟩
    change if w.branches = true then _ else s.operandText = s'.operandText
    cases hb : w.branches with
    | false =>
      rw [hb] at hs
      cases hs
      rfl
    | true =>
      rw [hb] at hs
      obtain ⟨lead, t, k, ht, ht'⟩ := hs.operandText
      exact ⟨lead, t, t + (a' - a), k, ht, ht', Literal.read_address t k,
        Literal.read_address _ k, by grind⟩

example :
    decodeInstruction [0x51, 0xC8, 0xFF, 0xFE] 0xFFFFFFFE =
        .ok ⟨0xFFFFFFFE, 0x51C8, "DBF", "D0, $FFFFFFFE", 4, [0x51, 0xC8, 0xFF, 0xFE]⟩ ∧
      decodeInstruction [0x51, 0xC8, 0xFF, 0xFE] 2 =
        .ok ⟨2, 0x51C8, "DBF", "D0, $0002", 4, [0x51, 0xC8, 0xFF, 0xFE]⟩ :=
  ⟨rfl, rfl⟩

end Mc68000
