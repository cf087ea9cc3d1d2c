import Mathlib.Data.List.Forall2
import Mc68000.Proofs.Outcome
import Mc68000.Proofs.TableLabel

namespace Mc68000

open Numeral

variable {i : Instruction} {is : List Instruction}

section Terminated

variable {c : Char} {ls : List (List Char)}

theorem intercalate_concat_nil (c : Char) (ls : List (List Char)) :
    [c].intercalate (ls ++ [[]]) = ls.flatMap (fun l ↦ l ++ [c]) := by
  induction ls with
  | nil => rfl
  | cons l ls ih =>
    rw [List.cons_append, List.intercalate_cons_of_ne_nil (by simp), ih, List.flatMap_cons]

theorem intercalate_concat (h : ls ≠ []) :
    [c].intercalate ls ++ [c] = ls.flatMap (fun l ↦ l ++ [c]) := by
  induction ls with
  | nil => exact absurd rfl h
  | cons l ls ih =>
    by_cases hls : ls = []
    · simp [hls]
    · rw [List.intercalate_cons_of_ne_nil hls, List.append_assoc, ih hls, List.flatMap_cons]

theorem splitOn_flatMap (h : ∀ l ∈ ls, c ∉ l) :
    (ls.flatMap (fun l ↦ l ++ [c])).splitOn c = ls ++ [[]] := by
  rw [← intercalate_concat_nil]
  apply List.splitOn_intercalate
  · intro l hl
    rcases List.mem_append.mp hl with hl | hl
    · exact h l hl
    · rw [List.mem_singleton.mp hl]
      exact List.not_mem_nil
  · simp

end Terminated

/-- The lines of a text, each of which ends in a line feed. -/
def linesOf (t : String) : List (List Char) := (t.toList.splitOn '\n').dropLast

def addressOf (l : List Char) : Nat := value 16 (l.take 8)

def bytesOf (l : List Char) : List UInt8 :=
  ((((l.drop 10).take 30).splitOn ' ').filter (· ≠ [])).map (fun p ↦ UInt8.ofNat (value 16 p))

theorem linesOf_unlines {ls : List String} (h : ∀ l ∈ ls, '\n' ∉ l.toList) :
    linesOf (unlines ls) = ls.map String.toList := by
  have hl : (unlines ls).toList = (ls.map String.toList).flatMap (fun l ↦ l ++ ['\n']) := by
    rw [unlines, String.toList_join, List.flatMap_map, List.flatMap_map]
    simp
  rw [linesOf, hl, splitOn_flatMap (by simpa using h), List.dropLast_concat]

/-- The characters are the upper-case hexadecimal digits of a number, `width` of them. -/
structure HexDigits (width n : Nat) (cs : List Char) : Prop where
  length : cs.length = width
  digit : ∀ c ∈ cs, c ∈ "0123456789ABCDEF".toList
  value : Numeral.value 16 cs = n

theorem hexDigits_hex {width n : Nat} (hw : 0 < width) (hn : n < 1 <<< (4 * width)) :
    HexDigits width n (hex width n).toList where
  length := length_hex_of_lt hw hn
  digit := by
    intro c hc
    obtain ⟨d, hd, rfl⟩ := exists_of_mem_padded (by decide) hc
    exact mem_hexDigits d hd
  value := value_padded (by decide) (by decide) width n

def pair (b : UInt8) : List Char := (hex 2 b.toNat).toList

theorem hexDigits_pair (b : UInt8) : HexDigits 2 b.toNat (pair b) :=
  hexDigits_hex (by decide) b.toNat_lt

theorem HexDigits.not_mem {width n : Nat} {cs : List Char} {c : Char} (h : HexDigits width n cs)
    (hc : c ∉ "0123456789ABCDEF".toList) : c ∉ cs :=
  fun hmem ↦ hc (h.digit c hmem)

def column (bytes : List UInt8) : List Char := (leftAligned hexColumnWidth (hexBytes bytes)).toList

section Column

variable {bytes : List UInt8}

theorem toList_hexBytes (bytes : List UInt8) :
    (hexBytes bytes).toList = [' '].intercalate (bytes.map pair) := by
  rw [hexBytes, String.toList_intercalate, List.map_map]
  rfl

theorem length_hexBytes (h : bytes ≠ []) : (hexBytes bytes).toList.length + 1 = 3 * bytes.length := by
  have hsum : ((bytes.map pair).flatMap (fun p ↦ p ++ [' '])).length = 3 * bytes.length := by
    clear h
    induction bytes with
    | nil => rfl
    | cons b bytes ih =>
      have hb := (hexDigits_pair b).length
      rw [List.map_cons, List.flatMap_cons, List.length_append, ih, List.length_append, hb]
      simp only [List.length_cons, List.length_nil]
      omega
  rw [← hsum, ← intercalate_concat (by simpa using h), toList_hexBytes, List.length_append]
  rfl

theorem column_eq (bytes : List UInt8) : column bytes =
    [' '].intercalate (bytes.map pair) ++
      List.replicate (30 - (hexBytes bytes).toList.length) ' ' := by
  rw [column, leftAligned, String.toList_ofList, List.rightpad, toList_hexBytes]
  rfl

theorem column_eq_flatMap (h : bytes ≠ []) (hl : bytes.length ≤ 10) : column bytes =
    (bytes.map pair ++ List.replicate (30 - 3 * bytes.length) []).flatMap (fun p ↦ p ++ [' ']) := by
  have hlen := length_hexBytes h
  have hpad : 30 - (hexBytes bytes).toList.length = 30 - 3 * bytes.length + 1 := by omega
  rw [column_eq, hpad, List.replicate_succ, List.append_cons,
    intercalate_concat (by simpa using h), List.flatMap_append, List.flatMap_replicate]
  simp

theorem length_column (h : bytes ≠ []) (hl : bytes.length ≤ 10) : (column bytes).length = 30 := by
  have hlen := length_hexBytes h
  rw [column_eq, List.length_append, List.length_replicate, ← toList_hexBytes]
  omega

theorem not_mem_part {c : Char} {k : Nat} {p : List Char} (hc : c ∉ "0123456789ABCDEF".toList)
    (hp : p ∈ bytes.map pair ++ List.replicate k []) : c ∉ p := by
  rcases List.mem_append.mp hp with hp | hp
  · obtain ⟨b, -, rfl⟩ := List.mem_map.mp hp
    exact (hexDigits_pair b).not_mem hc
  · rw [List.eq_of_mem_replicate hp]
    exact List.not_mem_nil

theorem read_column (h : bytes ≠ []) (hl : bytes.length ≤ 10) :
    (((column bytes).splitOn ' ').filter (· ≠ [])).map (fun p ↦ UInt8.ofNat (value 16 p)) =
      bytes := by
  have hpair (b : UInt8) : pair b ≠ [] := by
    intro he
    have hlen := (hexDigits_pair b).length
    rw [he] at hlen
    cases hlen
  have hvalue (b : UInt8) : UInt8.ofNat (value 16 (pair b)) = b := by
    rw [(hexDigits_pair b).value, UInt8.ofNat_toNat]
  rw [column_eq_flatMap h hl, splitOn_flatMap (fun p ↦ not_mem_part (by decide)),
    List.filter_append, List.filter_append, List.filter_replicate]
  simp [List.filter_map, hpair, hvalue, Function.comp_def]

end Column

namespace Instruction

theorem toList_line (i : Instruction) : (i.line true).toList =
    (hex 8 i.address.toNat).toList ++ ([' ', ' '] ++ (column i.bytes ++ i.assembly.toList)) := by
  simp [line, column]

theorem hexDigits_address (i : Instruction) :
    HexDigits 8 i.address.toNat (hex 8 i.address.toNat).toList :=
  hexDigits_hex (by decide) i.address.toNat_lt

theorem addressOf_line (i : Instruction) : addressOf (i.line true).toList = i.address.toNat := by
  have hd := i.hexDigits_address
  rw [addressOf, toList_line, List.take_left' hd.length, hd.value]

theorem drop_line (i : Instruction) :
    (i.line true).toList.drop 10 = column i.bytes ++ i.assembly.toList := by
  have hd := i.hexDigits_address.length
  rw [toList_line, ← List.append_assoc]
  exact List.drop_left' (by rw [List.length_append, hd]; rfl)

theorem bytesOf_line (h : i.bytes ≠ []) (hl : i.bytes.length ≤ 10) :
    bytesOf (i.line true).toList = i.bytes := by
  rw [bytesOf, drop_line, List.take_left' (length_column h hl), read_column h hl]

theorem cut_line (h : i.bytes ≠ []) (hl : i.bytes.length ≤ 10) :
    (i.line true).toList.take 10 ++ (i.line true).toList.drop 40 = (i.line false).toList := by
  have hd := i.hexDigits_address.length
  have hdrop : (i.line true).toList.drop 40 = i.assembly.toList := by
    rw [show 40 = 10 + 30 from rfl, ← List.drop_drop, drop_line]
    exact List.drop_left' (length_column h hl)
  have htake : (i.line true).toList.take 10 = (hex 8 i.address.toNat).toList ++ [' ', ' '] := by
    rw [toList_line, ← List.append_assoc]
    exact List.take_left' (by rw [List.length_append, hd]; rfl)
  rw [htake, hdrop]
  simp [line]

theorem Decoded.length_bytes (h : i.Decoded) : i.bytes ≠ [] ∧ i.bytes.length ≤ 10 := by
  obtain ⟨bytes, address, hd⟩ := h
  have htwo := two_le_size hd
  have hbytes := bytes_eq_take hd
  have hlen := size_le_length hd
  have hten : i.size ≤ 10 := by
    obtain ⟨hi, lo, rest, l, os, -, hl, -, rfl⟩ := decodeInstruction_eq_ok_iff.mp hd
    have harity := (Opcode.faithful hl).arity
    have hextent := Layout.extent_le l.slots
    change 2 + 2 * Layout.extent l.slots ≤ 10
    omega
  have hsize : i.bytes.length = i.size := by
    rw [hbytes, List.length_take, Nat.min_eq_left hlen]
  refine ⟨?_, by omega⟩
  intro he
  rw [he] at hsize
  simp only [List.length_nil] at hsize
  omega

theorem not_mem_joinOperands {c : Char} {ts : List String} (hs : c ∉ ", ".toList)
    (h : ∀ t ∈ ts, c ∉ t.toList) : c ∉ (joinOperands ts).toList := by
  rw [joinOperands, String.toList_intercalate]
  induction ts with
  | nil => exact List.not_mem_nil
  | cons t ts ih =>
    have ht := h t List.mem_cons_self
    have hts := ih (fun u hu ↦ h u (List.mem_cons_of_mem _ hu))
    by_cases he : ts = []
    · simpa [he] using ht
    · rw [List.map_cons, List.intercalate_cons_of_ne_nil (by simpa using he)]
      simp only [List.mem_append, not_or]
      exact ⟨⟨ht, hs⟩, hts⟩

theorem Decoded.not_mem_assembly (h : i.Decoded) : '\n' ∉ i.assembly.toList := by
  obtain ⟨bytes, address, hd⟩ := h
  obtain ⟨hi, lo, rest, l, os, -, -, -, rfl⟩ := decodeInstruction_eq_ok_iff.mp hd
  have hm : '\n' ∉ l.mnemonic.text.toList := l.mnemonic.not_mem_text (by decide)
  have ho : '\n' ∉ (l.statement os).operandText.toList := by
    apply not_mem_joinOperands (by decide)
    intro t ht
    obtain ⟨o, -, rfl⟩ := List.mem_map.mp ht
    exact o.not_mem_text (by decide)
  rw [assembly]
  split
  · exact hm
  · simpa [Layout.instruction] using ⟨hm, ho⟩

theorem Decoded.not_mem_line (h : i.Decoded) : '\n' ∉ (i.line true).toList := by
  obtain ⟨hne, hl⟩ := h.length_bytes
  have haddress : '\n' ∉ (hex 8 i.address.toNat).toList := i.hexDigits_address.not_mem (by decide)
  have hcolumn : '\n' ∉ column i.bytes := by
    rw [column_eq_flatMap hne hl]
    intro hmem
    obtain ⟨p, hp, hc⟩ := List.mem_flatMap.mp hmem
    rcases List.mem_append.mp hc with hc | hc
    · exact not_mem_part (by decide) hp hc
    · exact absurd (List.mem_singleton.mp hc) (by decide)
  rw [toList_line]
  simp only [List.mem_append, not_or]
  exact ⟨haddress, by decide, hcolumn, h.not_mem_assembly⟩

end Instruction

/-- A line that shows an instruction: the digits of its address, two blanks, the digits of its
bytes in a column of fixed width, and its source text. Without the column it is the short line. -/
structure Shows (i : Instruction) (l : List Char) : Prop where
  unbroken : '\n' ∉ l
  columns : ∃ digits pairs blanks,
    l = digits ++ ([' ', ' '] ++ ([' '].intercalate pairs ++ List.replicate blanks ' ' ++
      i.assembly.toList)) ∧
    HexDigits 8 i.address.toNat digits ∧
    List.Forall₂ (fun b p ↦ HexDigits 2 b.toNat p) i.bytes pairs ∧
    ([' '].intercalate pairs ++ List.replicate blanks ' ').length = 30 ∧ 0 < blanks
  short : l.take 10 ++ l.drop 40 = (i.line false).toList

theorem Instruction.Decoded.shows (h : i.Decoded) : Shows i (i.line true).toList := by
  obtain ⟨hne, hl⟩ := h.length_bytes
  refine ⟨h.not_mem_line, ?_, cut_line hne hl⟩
  refine ⟨_, i.bytes.map pair, 30 - (hexBytes i.bytes).toList.length, ?_, i.hexDigits_address,
    ?_, ?_, ?_⟩
  · rw [toList_line, column_eq]
  · rw [List.forall₂_map_right_iff, List.forall₂_same]
    exact fun b _ ↦ hexDigits_pair b
  · rw [← column_eq]
    exact length_column hne hl
  · have hlen := length_hexBytes hne
    omega

theorem linesOf_listing (h : ∀ i ∈ is, i.Decoded) :
    linesOf (listing is true) = is.map (fun i ↦ (i.line true).toList) := by
  rw [listing, linesOf_unlines, List.map_map]
  · rfl
  · intro l hl
    obtain ⟨i, hi, rfl⟩ := List.mem_map.mp hl
    exact (h i hi).not_mem_line

theorem flatMap_bytesOf (h : ∀ i ∈ is, i.Decoded) :
    (is.map (fun i ↦ (i.line true).toList)).flatMap bytesOf = is.flatMap Instruction.bytes := by
  rw [List.flatMap_map]
  refine congrArg List.flatten (List.map_congr_left (fun i hi ↦ ?_))
  obtain ⟨hne, hl⟩ := (h i hi).length_bytes
  exact Instruction.bytesOf_line hne hl

/-- The text of a listing tells the bytes that were decoded and the address of each line, and its
columns stand where they do in every line. -/
theorem listing_lossless (data : List UInt8) (base : UInt32) :
    (∀ i ∈ decodedBy (decodeRange data base), Shows i (i.line true).toList) ∧
    let ds := decodedBy (decodeRange data base)
    let lines := linesOf (listing ds true)
    lines = ds.map (fun i ↦ (i.line true).toList) ∧
    lines.flatMap bytesOf = data.take (totalSize ds) ∧
    ∀ k l, lines[k]? = some l →
      addressOf l = (base.toNat + ((lines.take k).flatMap bytesOf).length) % 0x100000000 := by
  obtain ⟨rest, b, hrun⟩ := run_decodedBy data base
  have hdecoded := hrun.decoded
  refine ⟨fun i hi ↦ (hdecoded i hi).shows, ?_⟩
  intro ds lines
  change Run data base ds rest b at hrun
  have hlines : lines = ds.map (fun i ↦ (i.line true).toList) := linesOf_listing hdecoded
  refine ⟨hlines, ?_, ?_⟩
  · rw [hlines, flatMap_bytesOf hdecoded]
    exact hrun.bytes_eq_take
  · intro k l hk
    rw [hlines, List.getElem?_map, Option.map_eq_some_iff] at hk
    obtain ⟨i, hi, rfl⟩ := hk
    have haddress : i.address = base + UInt32.ofNat (totalSize (ds.take k)) :=
      address_eq (hrun.decodeInstruction_get hi)
    have hearlier : ((lines.take k).flatMap bytesOf).length = totalSize (ds.take k) := by
      rw [hlines, ← List.map_take, flatMap_bytesOf (fun j hj ↦ hdecoded j (List.mem_of_mem_take hj))]
      rw [← List.take_append_drop k ds] at hrun
      obtain ⟨mid, c, hfront, -⟩ := hrun.split
      exact hfront.length_bytes
    rw [hearlier, Instruction.addressOf_line, haddress, UInt32.toNat_add, UInt32.toNat_ofNat',
      Nat.add_mod_mod]

theorem listing_lossless_wrapped :
    decodedBy (decodeRange [0x4E, 0x71, 0x4E, 0x75, 0x4E] 0xFFFFFFFE) =
        [⟨0xFFFFFFFE, 0x4E71, "NOP", "", 2, [0x4E, 0x71]⟩,
          ⟨0, 0x4E75, "RTS", "", 2, [0x4E, 0x75]⟩] ∧
      Shows ⟨0, 0x4E75, "RTS", "", 2, [0x4E, 0x75]⟩
        "00000000  4E 75                         RTS".toList ∧
      addressOf "00000000  4E 75                         RTS".toList =
        (0xFFFFFFFE + 2) % 0x100000000 := by
  have hds : decodedBy (decodeRange [0x4E, 0x71, 0x4E, 0x75, 0x4E] 0xFFFFFFFE) =
      [⟨0xFFFFFFFE, 0x4E71, "NOP", "", 2, [0x4E, 0x71]⟩,
        ⟨0, 0x4E75, "RTS", "", 2, [0x4E, 0x75]⟩] := by
    have hnop : decodeInstruction [0x4E, 0x71, 0x4E, 0x75, 0x4E] 0xFFFFFFFE =
        .ok ⟨0xFFFFFFFE, 0x4E71, "NOP", "", 2, [0x4E, 0x71]⟩ := rfl
    have hrts : decodeInstruction [0x4E, 0x75, 0x4E] 0 =
        .ok ⟨0, 0x4E75, "RTS", "", 2, [0x4E, 0x75]⟩ := rfl
    have hend : decodeRange [0x4E] 2 = .error ⟨[], ⟨2, none, .insufficientData 2 1⟩⟩ :=
      decodeRange_of_error nofun rfl
    have hrest := (decodeRange_of_ok hrts).trans (congrArg (consDecoded _) hend)
    have hall := (decodeRange_of_ok hnop).trans (congrArg (consDecoded _) hrest)
    rw [hall]
    rfl
  have h := listing_lossless [0x4E, 0x71, 0x4E, 0x75, 0x4E] 0xFFFFFFFE
  rw [hds] at h
  obtain ⟨hshows, hlines, -, haddress⟩ := h
  refine ⟨hds, ?_, ?_⟩
  · exact hshows ⟨0, 0x4E75, "RTS", "", 2, [0x4E, 0x75]⟩ (by simp)
  · rw [haddress 1 _ (by rw [hlines]; rfl), hlines]
    rfl

end Mc68000
