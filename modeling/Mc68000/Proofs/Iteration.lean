import Mc68000.Proofs.RangeWalk

namespace Mc68000

/-- The results of a walk one by one: what it decoded, and then the error if it stopped early. -/
def outcomes : Except RangeError (List Instruction) → List (Except DecodeError Instruction)
  | .ok is => is.map .ok
  | .error e => e.decoded.map .ok ++ [.error e.error]

theorem outcomes_consDecoded (i : Instruction) (r : Except RangeError (List Instruction)) :
    outcomes (consDecoded i r) = .ok i :: outcomes r := by
  cases r <;> rfl

theorem length_outcomes_le (r : Except RangeError (List Instruction)) :
    (outcomes r).length ≤ (decodedBy r).length + 1 := by
  cases r with
  | ok is => simp [outcomes, decodedBy]
  | error e => simp [outcomes, decodedBy]

theorem filterMap_outcomes (r : Except RangeError (List Instruction)) :
    (outcomes r).filterMap Except.toOption = decodedBy r := by
  have hok (is : List Instruction) :
      (is.map (Except.ok (ε := DecodeError))).filterMap Except.toOption = is := by
    rw [List.filterMap_map]
    exact List.filterMap_some
  cases r with
  | ok is => exact hok is
  | error e =>
    rw [outcomes, List.filterMap_append, hok]
    exact List.append_nil _

theorem Run.two_mul_length_le {bs rest : List UInt8} {a b : UInt32} {is : List Instruction}
    (h : Run bs a is rest b) : 2 * is.length ≤ totalSize is := by
  induction h with
  | nil => exact Nat.le_refl 0
  | cons hd _ ih =>
    have hs := two_le_size hd
    rw [List.length_cons, totalSize_cons]
    omega

namespace Walker

variable {k : Walker}

/-- What a walker is still going to return. -/
def pending (k : Walker) : List (Except DecodeError Instruction) :=
  if k.failed then [] else outcomes (decodeRange k.rest (k.start + UInt32.ofNat k.offset))

theorem next_cases (k : Walker) :
    (k.next = (none, k) ∧ k.pending = []) ∨
    (∃ i k', k.next = (some (.ok i), k') ∧ k.pending = .ok i :: k'.pending ∧
      k'.offset = k.offset + i.size ∧ k'.offset + k'.rest.length = k.offset + k.rest.length) ∨
    ∃ e k', k.next = (some (.error e), k') ∧ k.pending = [.error e] ∧ k'.pending = [] ∧
      k'.offset = k.offset ∧ k'.rest = k.rest := by
  obtain ⟨rest, start, offset, failed⟩ := k
  cases failed with
  | true => exact .inl ⟨by simp [next], by simp [pending]⟩
  | false =>
    by_cases hr : rest = []
    · subst hr
      refine .inl ⟨by simp [next], ?_⟩
      simp [pending, decodeRange_nil, outcomes]
    · cases hd : decodeInstruction rest (start + UInt32.ofNat offset) with
      | ok i =>
        have hl := size_le_length hd
        refine .inr (.inl ⟨i, ⟨rest.drop i.size, start, offset + i.size, false⟩, ?_, ?_, rfl, ?_⟩)
        · simp [next, hr, hd]
        · have ha : i.nextAddress = start + UInt32.ofNat (offset + i.size) := by
            rw [Instruction.nextAddress, address_eq hd, UInt32.ofNat_add, UInt32.add_assoc]
          simp [pending, decodeRange_of_ok hd, outcomes_consDecoded, ha]
        · simp only [List.length_drop]
          omega
      | error e =>
        refine .inr (.inr ⟨e, ⟨rest, start, offset, true⟩, ?_, ?_, rfl, rfl, rfl⟩)
        · simp [next, hr, hd]
        · simp [pending, decodeRange_of_error hr hd, outcomes]

inductive Call
  | next
  | offset
  deriving DecidableEq

inductive Answer
  | item (r : Option (Except DecodeError Instruction))
  | offset (n : Nat)

def answer (k : Walker) : Call → Answer × Walker
  | .next => (.item k.next.1, k.next.2)
  | .offset => (.offset k.offset, k)

def run : List Call → Walker → List Answer × Walker
  | [], k => ([], k)
  | q :: qs, k => ((k.answer q).1 :: (run qs (k.answer q).2).1, (run qs (k.answer q).2).2)

def items (as : List Answer) : List (Option (Except DecodeError Instruction)) :=
  as.filterMap (fun | .item r => some r | .offset _ => none)

def returned (as : List Answer) : List (Except DecodeError Instruction) := (items as).filterMap id

def instructions (as : List Answer) : List Instruction := (returned as).filterMap Except.toOption

theorem items_append (as bs : List Answer) : items (as ++ bs) = items as ++ items bs :=
  List.filterMap_append

theorem returned_append (as bs : List Answer) :
    returned (as ++ bs) = returned as ++ returned bs := by
  rw [returned, items_append, List.filterMap_append]
  rfl

theorem instructions_append (as bs : List Answer) :
    instructions (as ++ bs) = instructions as ++ instructions bs := by
  rw [instructions, returned_append, List.filterMap_append]
  rfl

/-- The answers account for the way of a walker from `k` to `k'`. -/
structure Accounts (k : Walker) (as : List Answer) (k' : Walker) : Prop where
  offset : k'.offset = k.offset + totalSize (instructions as)
  room : k'.offset + k'.rest.length = k.offset + k.rest.length
  pending : k.pending = returned as ++ k'.pending

theorem Accounts.trans {k k' k'' : Walker} {as bs : List Answer} (h : Accounts k as k')
    (h' : Accounts k' bs k'') : Accounts k (as ++ bs) k'' where
  offset := by rw [h'.offset, h.offset, instructions_append, totalSize_append, Nat.add_assoc]
  room := h'.room.trans h.room
  pending := by rw [h.pending, h'.pending, returned_append, List.append_assoc]

theorem accounts_answer (k : Walker) (q : Call) :
    Accounts k [(k.answer q).1] (k.answer q).2 := by
  cases q with
  | offset => exact ⟨rfl, rfl, rfl⟩
  | next =>
    unfold answer
    rcases k.next_cases with
      ⟨hn, hp⟩ | ⟨i, k', hn, hp, ho, hr⟩ | ⟨e, k', hn, hp, hp', ho, hr⟩
    · rw [hn]
      exact ⟨rfl, rfl, rfl⟩
    · rw [hn]
      exact ⟨ho, hr, hp⟩
    · rw [hn]
      exact ⟨ho, by rw [ho, hr], by rw [hp, hp']; rfl⟩

theorem accounts_run (qs : List Call) (k : Walker) : Accounts k (run qs k).1 (run qs k).2 := by
  induction qs generalizing k with
  | nil => exact ⟨rfl, rfl, rfl⟩
  | cons q qs ih => exact (accounts_answer k q).trans (ih (k.answer q).2)

theorem items_run (qs : List Call) (k : Walker) :
    items (run qs k).1 = (List.range (qs.count .next)).map (fun j ↦ k.pending[j]?) := by
  induction qs generalizing k with
  | nil => rfl
  | cons q qs ih =>
    cases q with
    | offset => simpa [run, answer, items] using ih k
    | next =>
      have hstep : k.next.1 = k.pending.head? ∧ k.next.2.pending = k.pending.tail := by
        rcases k.next_cases with
          ⟨hn, hp⟩ | ⟨i, k', hn, hp, -⟩ | ⟨e, k', hn, hp, hp', -⟩
        · rw [hn, hp]
          exact ⟨rfl, rfl⟩
        · rw [hn, hp]
          exact ⟨rfl, rfl⟩
        · rw [hn, hp]
          exact ⟨rfl, hp'⟩
      change k.next.1 :: items (run qs k.next.2).1 = _
      rw [ih, hstep.1, hstep.2, List.count_cons_self, List.range_succ_eq_map, List.map_cons,
        List.map_map, List.head?_eq_getElem?]
      simp only [List.getElem?_tail]
      rfl

theorem run_of_pending_nil (h : k.pending = []) (qs : List Call) : (run qs k).2 = k := by
  have hn : k.next = (none, k) := by
    rcases k.next_cases with ⟨hn, -⟩ | ⟨i, k', -, hp, -⟩ | ⟨e, k', -, hp, -⟩
    · exact hn
    · rw [h] at hp
      cases hp
    · rw [h] at hp
      cases hp
  induction qs with
  | nil => rfl
  | cons q qs ih =>
    cases q with
    | offset => exact ih
    | next =>
      simp only [run, answer, hn]
      exact ih

theorem pending_run_of_end {qs : List Call} (h : ∃ x ∈ items (run qs k).1, ∀ i, x ≠ some (.ok i)) :
    (run qs k).2.pending = [] := by
  obtain ⟨x, hx, hi⟩ := h
  induction qs generalizing k with
  | nil => cases hx
  | cons q qs ih =>
    cases q with
    | offset => exact ih hx
    | next =>
      change x ∈ k.next.1 :: items (run qs k.next.2).1 at hx
      change (run qs k.next.2).2.pending = []
      rcases List.mem_cons.mp hx with rfl | hx
      · have hp : k.next.2.pending = [] := by
          rcases k.next_cases with ⟨hn, hp⟩ | ⟨i, k', hn, -⟩ | ⟨e, k', hn, -, hp', -⟩
          · rw [hn]
            exact hp
          · rw [hn] at hi
            exact absurd rfl (hi i)
          · rw [hn]
            exact hp'
        rw [run_of_pending_nil hp, hp]
      · exact ih hx

theorem take_answers (qs : List Call) (k : Walker) (j : Nat) :
    (run (qs.take j) k).1 = (run qs k).1.take j := by
  induction qs generalizing k j with
  | nil => simp [run]
  | cons q qs ih =>
    cases j with
    | zero => rfl
    | succ j => exact congrArg _ (ih _ j)

theorem offset_of_answer {qs : List Call} {j n : Nat}
    (h : (run qs k).1[j]? = some (.offset n)) : n = (run (qs.take j) k).2.offset := by
  induction qs generalizing k j with
  | nil => cases h
  | cons q qs ih =>
    cases j with
    | zero =>
      cases q with
      | offset =>
        cases h
        rfl
      | next => cases h
    | succ j => exact ih h

end Walker

open Walker

theorem pending_ofBytes (bytes : List UInt8) (start : UInt32) :
    (ofBytes bytes start).pending = outcomes (decodeRange bytes start) := by
  have ha : start + UInt32.ofNat 0 = start := UInt32.add_zero start
  simp only [pending, ofBytes, ha, Bool.false_eq_true, if_false]

theorem length_outcomes_decodeRange (bytes : List UInt8) (start : UInt32) :
    (outcomes (decodeRange bytes start)).length ≤ bytes.length / 2 + 1 := by
  obtain ⟨rest, b, hrun⟩ := run_decodedBy bytes start
  have hlen := length_outcomes_le (decodeRange bytes start)
  have htwo := hrun.two_mul_length_le
  have hsum := hrun.totalSize_add
  omega

/-- A walker returns what the walk over the whole range finds, one item a call, and its offset
counts the bytes of what it has returned. -/
theorem walker_refines_decodeRange (bytes : List UInt8) (start : UInt32) (qs : List Call) :
    let as := (run qs (ofBytes bytes start)).1
    let k := (run qs (ofBytes bytes start)).2
    items as = (List.range (qs.count .next)).map
      (fun j ↦ (outcomes (decodeRange bytes start))[j]?) ∧
    (∀ j n, as[j]? = some (.offset n) →
      n = totalSize (instructions (as.take j)) ∧ n ≤ bytes.length) ∧
    k.offset = totalSize (instructions as) ∧ k.offset ≤ bytes.length ∧
    (∀ qs', k.offset ≤ (run qs' k).2.offset) ∧
    ((∃ x ∈ items as, ∀ i, x ≠ some (.ok i)) → (∀ qs', (run qs' k).2.offset = k.offset) ∧
      ∀ e, decodeRange bytes start = .error e → k.offset = e.consumed) ∧
    (returned as).length ≤ bytes.length / 2 + 1 := by
  intro as k
  have hoffset (qs : List Call) : (run qs (ofBytes bytes start)).2.offset =
      totalSize (instructions (run qs (ofBytes bytes start)).1) := by
    simpa [ofBytes] using (accounts_run qs (ofBytes bytes start)).offset
  have hroom (qs : List Call) : (run qs (ofBytes bytes start)).2.offset ≤ bytes.length := by
    have hr := (accounts_run qs (ofBytes bytes start)).room
    simp only [ofBytes, Nat.zero_add] at hr
    exact hr ▸ Nat.le_add_right _ _
  have hpending := (accounts_run qs (ofBytes bytes start)).pending
  rw [pending_ofBytes] at hpending
  refine ⟨?_, ?_, hoffset qs, hroom qs, ?_, ?_, ?_⟩
  · rw [← pending_ofBytes]
    exact items_run qs _
  · intro j n h
    rw [offset_of_answer h, ← take_answers]
    exact ⟨hoffset _, hroom _⟩
  · intro qs'
    rw [(accounts_run qs' k).offset]
    exact Nat.le_add_right _ _
  · intro hend
    have hp : k.pending = [] := pending_run_of_end hend
    refine ⟨fun qs' ↦ by rw [run_of_pending_nil hp], ?_⟩
    intro e he
    have hall : instructions as = e.decoded := by
      have hr : returned as = outcomes (decodeRange bytes start) := by
        rw [hpending, show (run qs (ofBytes bytes start)).2.pending = [] from hp, List.append_nil]
      rw [instructions, hr, filterMap_outcomes, he]
      rfl
    rw [hoffset qs, hall]
    rfl
  · have hlen := length_outcomes_decodeRange bytes start
    rw [hpending, List.length_append] at hlen
    exact Nat.le_trans (Nat.le_add_right _ _) hlen

theorem walker_refines_decodeRange_nop :
    (∃ x ∈ items (run [.next, .next] (ofBytes [0x4E, 0x71, 0x4E] 0)).1, ∀ i, x ≠ some (.ok i)) ∧
      ∀ qs', (run qs' (run [.next, .next] (ofBytes [0x4E, 0x71, 0x4E] 0)).2).2.offset = 2 := by
  have hend : ∃ x ∈ items (run [.next, .next] (ofBytes [0x4E, 0x71, 0x4E] 0)).1,
      ∀ i, x ≠ some (.ok i) :=
    ⟨some (.error ⟨2, none, .insufficientData 2 1⟩), List.mem_cons_of_mem _ List.mem_cons_self,
      nofun⟩
  obtain ⟨-, -, -, -, -, h, -⟩ := walker_refines_decodeRange [0x4E, 0x71, 0x4E] 0 [.next, .next]
  exact ⟨hend, fun qs' ↦ (h hend).1 qs'⟩

end Mc68000
