import Mc68000.EffectiveAddress.Encode
import Mc68000.Proofs.IgnoredBits

namespace Mc68000

variable {α : Type} {a : EffectiveAddress} {s : Size} {x : Index}

theorem joinBytes_split (w : UInt16) :
    joinBytes (UInt8.ofNat (w.toNat >>> 8)) (UInt8.ofNat w.toNat) = w := by
  apply UInt16.toNat_inj.mp
  have hw := w.toNat_lt
  rw [toNat_joinBytes, UInt8.toNat_ofNat', UInt8.toNat_ofNat']
  omega

theorem joinWords_split (l : UInt32) :
    joinWords (UInt16.ofNat (l.toNat >>> 16)) (UInt16.ofNat l.toNat) = l := by
  apply UInt32.toNat_inj.mp
  have hl := l.toNat_lt
  rw [toNat_joinWords, UInt16.toNat_ofNat', UInt16.toNat_ofNat']
  omega

def bytesOfWords (ws : List UInt16) : List UInt8 := ws.flatMap splitWord

theorem bytesOfWords_append (ws us : List UInt16) :
    bytesOfWords (ws ++ us) = bytesOfWords ws ++ bytesOfWords us := List.flatMap_append

theorem length_bytesOfWords (ws : List UInt16) : (bytesOfWords ws).length = 2 * ws.length := by
  induction ws with
  | nil => rfl
  | cons w ws ih =>
    rw [bytesOfWords, List.flatMap_cons, List.length_append, ← bytesOfWords, ih, List.length_cons]
    change 2 + _ = _
    omega

namespace Extension

theorem read_splitWord (f : UInt16 → α) (w : UInt16) (t : List UInt8) :
    (word f).read (bytesOfWords [w] ++ t) = some (f w) := by
  change some (f (joinBytes _ _)) = _
  rw [joinBytes_split]

theorem read_splitLong (f : UInt32 → α) (l : UInt32) (t : List UInt8) :
    (long f).read (bytesOfWords (splitLong l) ++ t) = some (f l) := by
  change some (f (joinWords (joinBytes _ _) (joinBytes _ _))) = _
  rw [joinBytes_split, joinBytes_split, joinWords_split]

/-- The words of an extension that takes the value `v`. -/
structure Writes (x : Extension α) (v : α) (ws : List UInt16) : Prop where
  length : ws.length = x.words
  read : ∀ t, x.read (bytesOfWords ws ++ t) = some v

theorem writes_absent (v : α) : (absent v).Writes v [] := ⟨rfl, fun _ ↦ rfl⟩

theorem writes_word {f : UInt16 → α} {w : UInt16} {v : α} (h : f w = v) :
    (word f).Writes v [w] := by
  refine ⟨rfl, fun t ↦ ?_⟩
  rw [read_splitWord, h]

theorem writes_long (f : UInt32 → α) (l : UInt32) : (long f).Writes (f l) (splitLong l) :=
  ⟨rfl, fun t ↦ read_splitLong f l t⟩

theorem Writes.map {β : Type} {x : Extension α} {v : α} {ws : List UInt16} (h : x.Writes v ws)
    (g : α → β) : (x.map g).Writes (g v) ws where
  length := by rw [h.length, words_map]
  read t := by rw [read_map, h.read, Option.map_some]

end Extension

open Extension

theorem Size.writes_immediate {v : UInt32} (h : v.toNat < 1 <<< (8 * s.bytes)) :
    s.immediate.Writes v (EffectiveAddress.immediate v s).extensionWords := by
  cases s with
  | byte =>
    apply writes_word
    apply UInt32.toNat_inj.mp
    rw [UInt32.toNat_ofNat', UInt32.toNat_toUInt16]
    simp only [bytes] at h
    omega
  | word =>
    apply writes_word
    apply UInt32.toNat_inj.mp
    rw [UInt16.toNat_toUInt32, UInt32.toNat_toUInt16]
    simp only [bytes] at h
    omega
  | long => exact writes_long id v

namespace Index

theorem ofWord_eq {k n b : Nat} {d : Int8} (hk : k < 2) (hn : n < 8) (hb : b < 2) :
    ofWord (UInt16.ofNat (k <<< 15 + n <<< 12 + b * 0x800 + d.toUInt8.toNat)) =
      ⟨if k = 1 then .address n else .data n, if b = 1 then .long else .word, d⟩ := by
  have hd := d.toUInt8.toNat_lt
  generalize hw : UInt16.ofNat (k <<< 15 + n <<< 12 + b * 0x800 + d.toUInt8.toNat) = w
  have hv : w.toNat = k * 0x8000 + n * 0x1000 + b * 0x800 + d.toUInt8.toNat := by
    rw [← hw, UInt16.toNat_ofNat']
    omega
  have hlow : w.toUInt8 = d.toUInt8 := by
    apply UInt8.toNat_inj.mp
    rw [UInt16.toNat_toUInt8]
    omega
  have h15 : w.toNat / 2 ^ 15 % 2 = k := by omega
  have h12 : (w.toNat >>> 12) % 8 = n := by omega
  have h11 : w.toNat / 2 ^ 11 % 2 = b := by omega
  simp only [ofWord, Nat.testBit_eq_decide_div_mod_eq, decide_eq_true_eq, h15, h12, h11, hlow,
    Int8.toInt8_toUInt8]

theorem ofWord_toWord (h : x.WellFormed) : ofWord x.toWord = x := by
  obtain ⟨r, s, d⟩ := x
  obtain ⟨hr, hs⟩ := h
  cases s with
  | byte => exact absurd rfl hs
  | word =>
    cases r with
    | data n => exact ofWord_eq (k := 0) (b := 0) (by decide) hr (by decide)
    | address n => exact ofWord_eq (k := 1) (b := 0) (by decide) hr (by decide)
  | long =>
    cases r with
    | data n => exact ofWord_eq (k := 0) (b := 1) (by decide) hr (by decide)
    | address n => exact ofWord_eq (k := 1) (b := 1) (by decide) hr (by decide)

end Index

namespace EffectiveAddress

theorem mode_lt (a : EffectiveAddress) : a.mode < 8 := by
  cases a <;> simp [mode]

theorem WellFormed.reg_lt (h : a.WellFormed s) : a.reg < 8 := by
  cases a with
  | indexed n x => exact h.1
  | pcIndexed x | immediate v u => simp [reg]
  | _ => exact h

theorem WellFormed.writes_form (h : a.WellFormed s) :
    ∃ x, form? a.mode a.reg s = some x ∧ x.Writes a a.extensionWords := by
  have hm := Nat.mod_eq_of_lt a.mode_lt
  have hr := Nat.mod_eq_of_lt h.reg_lt
  unfold form?
  rw [hm, hr]
  cases a with
  | displacement n d => exact ⟨_, rfl, writes_word (by simp [reg])⟩
  | indexed n x => exact ⟨_, rfl, writes_word (by rw [Index.ofWord_toWord h.2]; rfl)⟩
  | absoluteShort v => exact ⟨_, rfl, writes_word rfl⟩
  | absoluteLong v => exact ⟨_, rfl, writes_long _ v⟩
  | pcDisplacement d => exact ⟨_, rfl, writes_word (by simp)⟩
  | pcIndexed x => exact ⟨_, rfl, writes_word (by rw [Index.ofWord_toWord h])⟩
  | immediate v u =>
    obtain ⟨rfl, hv⟩ := h
    exact ⟨_, rfl, (Size.writes_immediate hv).map _⟩
  | _ => exact ⟨_, rfl, writes_absent _⟩

end EffectiveAddress

end Mc68000
