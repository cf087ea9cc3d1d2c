import Mc68000.Size

namespace Mc68000

variable {α β : Type}

def joinBytes (hi lo : UInt8) : UInt16 := UInt16.ofNat (hi.toNat <<< 8 + lo.toNat)

def joinWords (hi lo : UInt16) : UInt32 := UInt32.ofNat (hi.toNat <<< 16 + lo.toNat)

/-- A value that hangs on the extension words that follow: on none, on one word or on one long
word. Words are stored high byte first. -/
inductive Extension (α : Type)
  | absent (a : α)
  | word (f : UInt16 → α)
  | long (f : UInt32 → α)

namespace Extension

def words : Extension α → Nat
  | absent _ => 0
  | word _ => 1
  | long _ => 2

def map (g : α → β) : Extension α → Extension β
  | absent a => absent (g a)
  | word f => word (fun w ↦ g (f w))
  | long f => long (fun l ↦ g (f l))

def read : Extension α → List UInt8 → Option α
  | absent a, _ => some a
  | word f, a :: b :: _ => some (f (joinBytes a b))
  | long f, a :: b :: c :: d :: _ => some (f (joinWords (joinBytes a b) (joinBytes c d)))
  | _, _ => none

@[simp]
theorem words_map (g : α → β) (x : Extension α) : (x.map g).words = x.words := by
  cases x <;> rfl

theorem read_map (g : α → β) (x : Extension α) (bs : List UInt8) :
    (x.map g).read bs = (x.read bs).map g := by
  cases x with
  | absent a => rfl
  | word f => rcases bs with _ | ⟨a, _ | ⟨b, bs⟩⟩ <;> rfl
  | long f => rcases bs with _ | ⟨a, _ | ⟨b, _ | ⟨c, _ | ⟨d, bs⟩⟩⟩⟩ <;> rfl

theorem read_eq_none_iff (x : Extension α) (bs : List UInt8) :
    x.read bs = none ↔ bs.length < 2 * x.words := by
  cases x with
  | absent a => simp [read, words]
  | word f => rcases bs with _ | ⟨a, _ | ⟨b, bs⟩⟩ <;> simp [read, words]
  | long f =>
    rcases bs with _ | ⟨a, _ | ⟨b, _ | ⟨c, _ | ⟨d, bs⟩⟩⟩⟩ <;> simp [read, words]

theorem exists_of_read_word {f : UInt16 → α} {bs : List UInt8} {v : α}
    (h : (word f).read bs = some v) : ∃ a b t, bs = a :: b :: t ∧ f (joinBytes a b) = v := by
  rcases bs with _ | ⟨a, _ | ⟨b, t⟩⟩
  · cases h
  · cases h
  · exact ⟨a, b, t, rfl, Option.some.inj h⟩

theorem exists_of_read_long {f : UInt32 → α} {bs : List UInt8} {v : α}
    (h : (long f).read bs = some v) :
    ∃ a b c d t, bs = a :: b :: c :: d :: t ∧
      f (joinWords (joinBytes a b) (joinBytes c d)) = v := by
  rcases bs with _ | ⟨a, _ | ⟨b, _ | ⟨c, _ | ⟨d, t⟩⟩⟩⟩
  · cases h
  · cases h
  · cases h
  · cases h
  · exact ⟨a, b, c, d, t, rfl, Option.some.inj h⟩

theorem words_le_of_read {x : Extension α} {bs : List UInt8} {a : α} (h : x.read bs = some a) :
    2 * x.words ≤ bs.length := by
  rw [← Nat.not_lt, ← x.read_eq_none_iff, h]
  exact nofun

theorem read_append {x : Extension α} {bs : List UInt8} {a : α} (h : x.read bs = some a)
    (t : List UInt8) : x.read (bs ++ t) = some a := by
  cases x with
  | absent a => exact h
  | word f =>
    obtain ⟨_, _, _, rfl, rfl⟩ := exists_of_read_word h
    rfl
  | long f =>
    obtain ⟨_, _, _, _, _, rfl, rfl⟩ := exists_of_read_long h
    rfl

end Extension

/-- An immediate of this size. Of the word that holds a byte only the low half counts. -/
def Size.immediate : Size → Extension UInt32
  | byte => .word (fun w ↦ UInt32.ofNat (w.toNat % 0x100))
  | word => .word UInt16.toUInt32
  | long => .long id

@[simp]
theorem Size.words_immediate (s : Size) : s.immediate.words = s.words := by
  cases s <;> rfl

end Mc68000
