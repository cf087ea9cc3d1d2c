import Mc68000.Proofs.AddressCodec

namespace Mc68000.Cursor

inductive Request
  | word
  | long
  | immediate (size : Size)
  | address (mode reg : Nat) (size : Size)
  | operand (mode reg : Nat) (size : Size)
  deriving DecidableEq

inductive Reading
  | word (w : UInt16)
  | long (l : UInt32)
  | address (a : EffectiveAddress)
  | text (t : String)
  deriving DecidableEq

namespace Request

def decode : Request → Decoder Reading
  | word => return .word (← Decoder.word)
  | long => return .long (← Decoder.long)
  | immediate s => return .long (← Decoder.immediate s)
  | address m r s => return .address (← Decoder.effectiveAddress m r s)
  | operand m r s => return .text (← Decoder.effectiveAddress m r s).text

def wholeAddress? (m r : Nat) (s : Size) (bs : List UInt8) : Option EffectiveAddress :=
  match EffectiveAddress.decode bs m r s with
  | .ok (a, n) => if bs.length = 2 * n then some a else none
  | .error _ => none

/-- What a request reads from bytes that are its own, no more and no fewer. -/
def ofBytes? : Request → List UInt8 → Option Reading
  | word, [a, b] => some (.word (joinBytes a b))
  | long, [a, b, c, d] => some (.long (joinWords (joinBytes a b) (joinBytes c d)))
  | immediate .byte, [_, b] => some (.long b.toUInt32)
  | immediate .word, [a, b] => some (.long (joinBytes a b).toUInt32)
  | immediate .long, [a, b, c, d] => some (.long (joinWords (joinBytes a b) (joinBytes c d)))
  | address m r s, bs => (wholeAddress? m r s bs).map .address
  | operand m r s, bs => (wholeAddress? m r s bs).map (fun a ↦ .text a.text)
  | _, _ => none

end Request

/-- The answer to a request; a fault is an answer as well, and the cursor goes on behind it. -/
def answer (c : Cursor) (q : Request) : Except Fault Reading × Cursor :=
  match q.decode c with
  | .ok v c' => (.ok v, c')
  | .error f c' => (.error f, c')

def run : List Request → Cursor → List (Except Fault Reading) × Cursor
  | [], c => ([], c)
  | q :: qs, c => ((c.answer q).1 :: (run qs (c.answer q).2).1, (run qs (c.answer q).2).2)

/-- The bytes that each request took for its answer. A fault takes none. -/
inductive Takes : List Request → List (Except Fault Reading) → List (List UInt8) → Prop
  | nil : Takes [] [] []
  | read {q : Request} {v : Reading} {bs : List UInt8} {qs : List Request}
      {rs : List (Except Fault Reading)} {bss : List (List UInt8)} :
      q.ofBytes? bs = some v → Takes qs rs bss → Takes (q :: qs) (.ok v :: rs) (bs :: bss)
  | fault {q : Request} {f : Fault} {qs : List Request} {rs : List (Except Fault Reading)}
      {bss : List (List UInt8)} :
      Takes qs rs bss → Takes (q :: qs) (.error f :: rs) ([] :: bss)

namespace Request

variable {α : Type} {m r : Nat} {s : Size} {a : EffectiveAddress} {bs : List UInt8}
  {x : Extension EffectiveAddress}

theorem ofBytes?_word {w : UInt16} (h : (Extension.word id).read bs = some w) :
    word.ofBytes? (bs.take 2) = some (.word w) := by
  obtain ⟨a, b, t, rfl, rfl⟩ := Extension.exists_of_read_word h
  rfl

theorem ofBytes?_long {l : UInt32} (h : (Extension.long id).read bs = some l) :
    long.ofBytes? (bs.take 4) = some (.long l) := by
  obtain ⟨a, b, c, d, t, rfl, rfl⟩ := Extension.exists_of_read_long h
  rfl

theorem ofNat_joinBytes_mod (a b : UInt8) :
    UInt32.ofNat ((joinBytes a b).toNat % 0x100) = b.toUInt32 := by
  apply UInt32.toNat_inj.mp
  have hb := b.toNat_lt
  rw [toNat_joinBytes, UInt32.toNat_ofNat', UInt8.toNat_toUInt32]
  omega

theorem ofBytes?_immediate {v : UInt32} (h : s.immediate.read bs = some v) :
    (immediate s).ofBytes? (bs.take (2 * s.immediate.words)) = some (.long v) := by
  cases s with
  | byte =>
    obtain ⟨a, b, t, rfl, rfl⟩ := Extension.exists_of_read_word h
    exact congrArg (fun v ↦ some (Reading.long v)) (ofNat_joinBytes_mod a b).symm
  | word =>
    obtain ⟨a, b, t, rfl, rfl⟩ := Extension.exists_of_read_word h
    rfl
  | long =>
    obtain ⟨a, b, c, d, t, rfl, rfl⟩ := Extension.exists_of_read_long h
    rfl

theorem wholeAddress?_take (hx : EffectiveAddress.form? m r s = some x)
    (h : x.read bs = some a) : wholeAddress? m r s (bs.take (2 * x.words)) = some a := by
  have hd : EffectiveAddress.decode (bs.take (2 * x.words)) m r s = .ok (a, x.words) :=
    EffectiveAddress.decode_eq_ok_iff.mpr ⟨x, hx, by rw [x.read_take, h], rfl⟩
  have hl : (bs.take (2 * x.words)).length = 2 * x.words :=
    List.length_take_of_le (Extension.words_le_of_read h)
  rw [wholeAddress?, hd]
  exact if_pos hl

end Request

open Request

/-- A cursor answers from the bytes right behind it and goes on behind those, or it stays where it
is and the fault belongs to that place. -/
def Answers (c : Cursor) (q : Request) : Prop :=
  (∃ v n, c.answer q = (.ok v, c.advance n) ∧ 2 * n ≤ c.rest.length ∧
    q.ofBytes? (c.rest.take (2 * n)) = some v) ∨
  ∃ f, c.answer q = (.error f, c) ∧ f.Fits c

theorem answers_of_take {α : Type} {c : Cursor} {q : Request} {x : Extension α} {k : α → Reading}
    (hq : q.decode = Decoder.take x >>= fun a ↦ pure (k a))
    (hk : ∀ a, x.read c.rest = some a → q.ofBytes? (c.rest.take (2 * x.words)) = some (k a)) :
    c.Answers q := by
  unfold Answers answer
  rw [hq]
  simp only [bind, EStateM.bind]
  rcases Decoder.take_cases x c with ⟨a, h, hr⟩ | ⟨f, h, hf⟩
  · rw [h]
    exact .inl ⟨k a, x.words, rfl, Extension.words_le_of_read hr, hk a hr⟩
  · rw [h]
    exact .inr ⟨f, rfl, hf⟩

theorem answers_of_effectiveAddress {c : Cursor} {q : Request} {m r : Nat} {s : Size}
    {k : EffectiveAddress → Reading}
    (hq : q.decode = Decoder.effectiveAddress m r s >>= fun a ↦ pure (k a))
    (hk : ∀ bs, q.ofBytes? bs = (wholeAddress? m r s bs).map k) : c.Answers q := by
  unfold Answers answer
  rw [hq]
  simp only [bind, EStateM.bind]
  rcases Decoder.effectiveAddress_cases m r s c with ⟨x, a, hx, h, hr⟩ | ⟨f, h, hf⟩
  · rw [h]
    refine .inl ⟨k a, x.words, rfl, Extension.words_le_of_read hr, ?_⟩
    rw [hk, wholeAddress?_take hx hr, Option.map_some]
  · rw [h]
    exact .inr ⟨f, rfl, hf⟩

theorem answers (c : Cursor) (q : Request) : c.Answers q := by
  cases q with
  | word => exact answers_of_take rfl (fun _ ↦ ofBytes?_word)
  | long => exact answers_of_take rfl (fun _ ↦ ofBytes?_long)
  | immediate s => exact answers_of_take rfl (fun _ ↦ ofBytes?_immediate)
  | address m r s => exact answers_of_effectiveAddress rfl (fun _ ↦ rfl)
  | operand m r s => exact answers_of_effectiveAddress rfl (fun _ ↦ rfl)

theorem takes_run (qs : List Request) (c : Cursor) :
    ∃ n chunks, (run qs c).2 = c.advance n ∧ 2 * n ≤ c.rest.length ∧
      Takes qs (run qs c).1 chunks ∧ chunks.flatten = c.rest.take (2 * n) := by
  induction qs generalizing c with
  | nil => exact ⟨0, [], rfl, Nat.zero_le _, .nil, rfl⟩
  | cons q qs ih =>
    rcases c.answers q with ⟨v, n, ha, hn, hv⟩ | ⟨f, ha, -⟩
    · obtain ⟨k, chunks, hc, hk, ht, hf⟩ := ih (c.advance n)
      rw [rest_advance] at hk hf
      rw [List.length_drop] at hk
      simp only [run, ha]
      refine ⟨n + k, c.rest.take (2 * n) :: chunks, ?_, by omega, .read hv ht, ?_⟩
      · rw [hc, advance_advance]
      · rw [List.flatten_cons, hf, Nat.mul_add, List.take_add]
    · obtain ⟨k, chunks, hc, hk, ht, hf⟩ := ih c
      simp only [run, ha]
      exact ⟨k, [] :: chunks, hc, hk, .fault ht, hf⟩

theorem effectiveAddress_immediate {c : Cursor} (hc : c.position ≤ c.bytes.length) (s : Size) :
    Decoder.effectiveAddress 7 4 s c =
      ((EffectiveAddress.immediate · s) <$> Decoder.immediate s) c := by
  rw [Slot.decode_address hc, Decoder.immediate, Decoder.map_take]
  rfl

/-- A client that starts behind the opcode reads word after word up to where the cursor stands, and
nothing moves the cursor but what is read. -/
theorem run_accounts_for_bytes (bytes : List UInt8) (address : UInt32) (qs : List Request) :
    let c := (run qs (start bytes address)).2
    (2 ≤ bytes.length →
      c.position % 2 = 0 ∧ 2 ≤ c.position ∧ c.position ≤ bytes.length ∧
      c.pc = address + UInt32.ofNat c.position ∧
      (∃ chunks, Takes qs (run qs (start bytes address)).1 chunks ∧
        chunks.flatten = (bytes.take c.position).drop 2) ∧
      (∀ q f, (c.answer q).1 = .error f → (c.answer q).2 = c ∧
        ((∃ reg, 5 ≤ reg ∧ reg ≤ 7 ∧ f = .invalidMode 7 reg) ∨
          ∃ needed, (needed = c.position + 2 ∨ needed = c.position + 4) ∧
            f = .insufficientData needed bytes.length)) ∧
      ∀ s, Decoder.effectiveAddress 7 4 s c =
        ((EffectiveAddress.immediate · s) <$> Decoder.immediate s) c) ∧
    (bytes.length < 2 → c.position = 2) := by
  obtain ⟨n, chunks, hc, hn, ht, hf⟩ := takes_run qs (start bytes address)
  have hrest : (start bytes address).rest = bytes.drop 2 := rfl
  rw [hrest] at hn hf
  rw [List.length_drop] at hn
  have hpos : ((start bytes address).advance n).position = 2 + 2 * n := position_advance _ n
  dsimp only
  rw [hc, hpos]
  refine ⟨?_, fun hshort ↦ by omega⟩
  intro hlen
  have hle : 2 + 2 * n ≤ bytes.length := by omega
  refine ⟨by omega, by omega, hle, ?_, ⟨chunks, ht, ?_⟩, ?_, ?_⟩
  · rw [pc, hpos]
    rfl
  · rw [hf, List.drop_take, Nat.add_sub_cancel_left]
  · intro q f hq
    rcases ((start bytes address).advance n).answers q with ⟨v, k, ha, -⟩ | ⟨f', ha, hfit⟩
    · rw [ha] at hq
      cases hq
    · rw [ha] at hq ⊢
      cases hq
      refine ⟨rfl, hfit.imp_right ?_⟩
      rintro ⟨needed, available, rfl, hneed, -, hav⟩
      rw [hpos] at hneed hav
      exact ⟨needed, hneed, congrArg _ (hav hle)⟩
  · exact effectiveAddress_immediate (by rw [hpos]; exact hle)

theorem run_accounts_for_index :
    let qs : List Request := [.word, .long, .address 6 5 .word, .operand 7 5 .byte]
    let bytes : List UInt8 := [0x4E, 0x71, 0x12, 0x34, 0xA0, 0xFE, 0x00]
    (run qs (start bytes 0)).1 = [.ok (.word 0x1234), .error (.insufficientData 8 7),
        .ok (.address (.indexed 5 ⟨.address 2, .word, -2⟩)), .error (.invalidMode 7 5)] ∧
      (run qs (start bytes 0)).2.position = 6 ∧
      (∃ chunks, Takes qs (run qs (start bytes 0)).1 chunks ∧
        chunks.flatten = [0x12, 0x34, 0xA0, 0xFE]) ∧
      (run qs (start [0x4E] 0)).2.position = 2 := by
  intro qs bytes
  have hword : (start bytes 0).answer .word = (.ok (.word 0x1234), ⟨bytes, 0, 1⟩) := rfl
  have hlack : (⟨bytes, 0, 1⟩ : Cursor).answer .long =
      (.error (.insufficientData 8 7), ⟨bytes, 0, 1⟩) := rfl
  have hindex : (⟨bytes, 0, 1⟩ : Cursor).answer (.address 6 5 .word) =
      (.ok (.address (.indexed 5 ⟨.address 2, .word, -2⟩)), ⟨bytes, 0, 2⟩) := rfl
  have hmode : (⟨bytes, 0, 2⟩ : Cursor).answer (.operand 7 5 .byte) =
      (.error (.invalidMode 7 5), ⟨bytes, 0, 2⟩) := rfl
  have hrun : run qs (start bytes 0) = ([.ok (.word 0x1234), .error (.insufficientData 8 7),
      .ok (.address (.indexed 5 ⟨.address 2, .word, -2⟩)), .error (.invalidMode 7 5)],
      ⟨bytes, 0, 2⟩) := by
    simp only [qs, run, hword, hlack, hindex, hmode]
  have hlong := (run_accounts_for_bytes bytes 0 qs).1 (by decide)
  have hshort := (run_accounts_for_bytes [0x4E] 0 qs).2 (by decide)
  rw [hrun] at hlong ⊢
  exact ⟨rfl, rfl, hlong.2.2.2.2.1, hshort⟩

end Mc68000.Cursor
