import Mc68000.Proofs.CommandRun
import Mc68000.Proofs.LiteralText

namespace Mc68000

open Numeral Command

namespace Json

variable {α β : Type} {write : α → String} {left right : String} {depth : Nat}

def Behind (r : List Char) : Prop := r.head? = some ',' ∨ r.head? = some '\n'

/-- A value in front of such a text tells itself and where it ends. -/
def Delimited (write : α → String) : Prop :=
  ∀ ⦃a b r s⦄, Behind r → Behind s → (write a).toList ++ r = (write b).toList ++ s → a = b ∧ r = s

theorem Delimited.comp (hw : Delimited write) {f : β → α} (hf : Function.Injective f) :
    Delimited (fun b ↦ write (f b)) := by
  intro a b r s hr hs h
  obtain ⟨hab, hrs⟩ := hw hr hs h
  exact ⟨hf hab, hrs⟩

theorem Behind.takeWhile_eq {r : List Char} (h : Behind r) :
    r.takeWhile Char.isAlphanum = [] := by
  cases r with
  | nil => simp
  | cons c r =>
    have hc : c = ',' ∨ c = '\n' := by simpa [Behind] using h
    rcases hc with rfl | rfl <;> simp

theorem delimited_decimal : Delimited decimal := by
  intro n m r s hr hs h
  have hfront {k : Nat} {t : List Char} (ht : Behind t) :
      ((decimal k).toList ++ t).takeWhile Char.isAlphanum = (decimal k).toList := by
    have hk : ∀ c ∈ (decimal k).toList, c.isAlphanum = true :=
      fun c hc ↦ isAlphanum_of_mem_padded (by decide) (by decide) hc
    rw [List.takeWhile_append_of_pos hk, ht.takeWhile_eq, List.append_nil]
  have hd := congrArg (List.takeWhile Char.isAlphanum) h
  rw [hfront hr, hfront hs, String.toList_inj] at hd
  rw [hd] at h
  exact ⟨decimal_inj hd, List.append_cancel_left h⟩

section Strings

def unmark : Char → Char
  | 'b' => '\x08'
  | 'f' => '\x0C'
  | 'n' => '\n'
  | 'r' => '\r'
  | 't' => '\t'
  | c => c

def unescape? : List Char → Option (Char × List Char)
  -- The two digits that are skipped are zeros: only control characters are written by number.
  | '\\' :: 'u' :: _ :: _ :: x :: y :: r => some (Char.ofNat (value 16 [x, y]), r)
  | '\\' :: m :: r => some (unmark m, r)
  | '"' :: _ => none
  | c :: r => some (c, r)
  | [] => none

theorem control_digits : ∀ n < 0x20,
    ((Nat.toDigits 16 n).leftpad 2 '0').length = 2 ∧
      value 16 ((Nat.toDigits 16 n).leftpad 2 '0') = n := by
  decide

theorem unescape?_escape (c : Char) (r : List Char) :
    unescape? ((escape c).toList ++ r) = some (c, r) := by
  have hnat {n : Nat} (h : c.toNat = n) : c = Char.ofNat n := by rw [← h, Char.ofNat_toNat]
  unfold escape
  split_ifs with hquote hslash hback hfeed hline hreturn htab hcontrol
  · simp [hquote, unescape?, unmark]
  · simp [hslash, unescape?, unmark]
  · simp [hnat hback, unescape?, unmark]
  · simp [hnat hfeed, unescape?, unmark]
  · simp [hline, unescape?, unmark]
  · simp [hreturn, unescape?, unmark]
  · simp [htab, unescape?, unmark]
  · obtain ⟨hlen, hval⟩ := control_digits c.toNat hcontrol
    obtain ⟨x, y, hxy⟩ := List.length_eq_two.mp hlen
    rw [hxy] at hval ⊢
    simp [unescape?, hval]
  · simp [unescape?, hslash]

def escaped (cs : List Char) : List Char := cs.flatMap (fun c ↦ (escape c).toList)

theorem escaped_inj {cs ds r s : List Char}
    (h : escaped cs ++ '"' :: r = escaped ds ++ '"' :: s) : cs = ds ∧ r = s := by
  have hnil (t : List Char) : unescape? (escaped [] ++ '"' :: t) = none := by
    simp [escaped, unescape?]
  have hcons (c : Char) (es t : List Char) :
      unescape? (escaped (c :: es) ++ '"' :: t) = some (c, escaped es ++ '"' :: t) := by
    rw [escaped, List.flatMap_cons, List.append_assoc, unescape?_escape, escaped]
  induction cs generalizing ds with
  | nil =>
    have hread := congrArg unescape? h
    cases ds with
    | nil => simpa [escaped] using h
    | cons d ds =>
      rw [hnil, hcons] at hread
      cases hread
  | cons c cs ih =>
    have hread := congrArg unescape? h
    cases ds with
    | nil =>
      rw [hnil, hcons] at hread
      cases hread
    | cons d ds =>
      rw [hcons, hcons, Option.some.injEq, Prod.mk.injEq] at hread
      obtain ⟨hcd, hrest⟩ := hread
      obtain ⟨hcs, hrs⟩ := ih hrest
      exact ⟨by rw [hcd, hcs], hrs⟩

theorem toList_string (s : String) : (string s).toList = '"' :: (escaped s.toList ++ ['"']) := by
  simp [string, escaped, String.toList_join, List.flatMap_map]

theorem delimited_string : Delimited string := by
  intro s t r u _ _ h
  simp only [toList_string, List.cons_append, List.append_assoc, List.cons.injEq, true_and,
    List.nil_append] at h
  obtain ⟨hst, hru⟩ := escaped_inj h
  exact ⟨String.toList_inj.mp hst, hru⟩

end Strings

section Blocks

def blockTail (right : String) (depth : Nat) : List String → List Char
  | [] => (newline depth).toList ++ right.toList
  | t :: ts => ',' :: ((newline (depth + 1)).toList ++ (t.toList ++ blockTail right depth ts))

theorem behind_blockTail (ts : List String) (r : List Char) :
    Behind (blockTail right depth ts ++ r) := by
  cases ts with
  | nil => simp [Behind, blockTail, newline]
  | cons t ts => simp [Behind, blockTail]

theorem toList_block_cons (left right : String) (depth : Nat) (t : String) (ts : List String) :
    (block left right depth (t :: ts)).toList =
      left.toList ++ ((newline (depth + 1)).toList ++ (t.toList ++ blockTail right depth ts)) := by
  have hitems : (("," ++ newline (depth + 1)).intercalate (t :: ts)).toList ++
      ((newline depth).toList ++ right.toList) = t.toList ++ blockTail right depth ts := by
    induction ts generalizing t with
    | nil => simp [blockTail]
    | cons u ts ih => simp [String.intercalate_cons_cons, blockTail, ← ih u]
  simp [block, ← hitems]

theorem Delimited.blockTail_cons (hw : Delimited write) {a b : α} {ts us : List String}
    {r s : List Char} (h : blockTail right depth (write a :: ts) ++ r =
      blockTail right depth (write b :: us) ++ s) :
    a = b ∧ blockTail right depth ts ++ r = blockTail right depth us ++ s := by
  simp only [blockTail, List.cons_append, List.append_assoc, List.cons.injEq, true_and] at h
  exact hw (behind_blockTail ts r) (behind_blockTail us s) (List.append_cancel_left h)

theorem Delimited.block_cons (hw : Delimited write) {a b : α} {ts us : List String}
    {r s : List Char} (h : (block left right depth (write a :: ts)).toList ++ r =
      (block left right depth (write b :: us)).toList ++ s) :
    a = b ∧ blockTail right depth ts ++ r = blockTail right depth us ++ s := by
  simp only [toList_block_cons, List.append_assoc] at h
  exact hw (behind_blockTail ts r) (behind_blockTail us s)
    (List.append_cancel_left (List.append_cancel_left h))

/-- The comma before an item and the line that ends a block begin differently, so the texts tell
how many items there are. -/
theorem Delimited.blockTail_inj (hw : Delimited write) {as bs : List α} {r s : List Char}
    (h : blockTail right depth (as.map write) ++ r = blockTail right depth (bs.map write) ++ s) :
    as = bs ∧ r = s := by
  induction as generalizing bs with
  | nil =>
    cases bs with
    | nil => exact ⟨rfl, List.append_cancel_left h⟩
    | cons b bs => simp [blockTail, newline] at h
  | cons a as ih =>
    cases bs with
    | nil => simp [blockTail, newline] at h
    | cons b bs =>
      obtain ⟨hab, htail⟩ := hw.blockTail_cons h
      obtain ⟨hlist, hrs⟩ := ih htail
      exact ⟨by rw [hab, hlist], hrs⟩

theorem Delimited.array (hw : Delimited write) (depth : Nat) :
    Delimited (fun as : List α ↦ array depth (as.map write)) := by
  intro as bs r s _ _ h
  have hempty {b : α} {bs : List α} {r s : List Char} :
      (Json.array depth []).toList ++ r ≠ (Json.array depth ((b :: bs).map write)).toList ++ s := by
    simp [Json.array, newline, block]
  cases as with
  | nil =>
    cases bs with
    | nil => exact ⟨rfl, List.append_cancel_left h⟩
    | cons b bs => exact absurd h hempty
  | cons a as =>
    cases bs with
    | nil => exact absurd h.symm hempty
    | cons b bs =>
      obtain ⟨hab, htail⟩ := hw.block_cons h
      obtain ⟨hlist, hrs⟩ := hw.blockTail_inj htail
      exact ⟨by rw [hab, hlist], hrs⟩

theorem Delimited.field (hw : Delimited write) (key : String) :
    Delimited (fun a ↦ string key ++ ": " ++ write a) := by
  intro a b r s hr hs h
  simp only [String.toList_append, List.append_assoc] at h
  exact hw hr hs (List.append_cancel_left (List.append_cancel_left h))

end Blocks

theorem delimited_instruction (depth : Nat) : Delimited (instruction depth) := by
  intro i j r s _ _ h
  cases i
  cases j
  simp only [instruction, object, List.map_cons, List.map_nil] at h
  have hbyte : Delimited (fun b : UInt8 ↦ decimal b.toNat) :=
    delimited_decimal.comp (fun _ _ ↦ UInt8.toNat_inj.mp)
  obtain ⟨haddress, h⟩ := (delimited_decimal.field "address").block_cons h
  obtain ⟨hopcode, h⟩ := (delimited_decimal.field "opcode").blockTail_cons h
  obtain ⟨hmnemonic, h⟩ := (delimited_string.field "mnemonic").blockTail_cons h
  obtain ⟨hoperands, h⟩ := (delimited_string.field "operands").blockTail_cons h
  obtain ⟨hsize, h⟩ := (delimited_decimal.field "size").blockTail_cons h
  obtain ⟨hbytes, h⟩ := ((hbyte.array (depth + 1)).field "raw_bytes").blockTail_cons h
  rw [Instruction.mk.injEq]
  exact ⟨⟨UInt32.toNat_inj.mp haddress, UInt16.toNat_inj.mp hopcode, hmnemonic, hoperands, hsize,
    hbytes⟩, List.append_cancel_left h⟩

theorem instructions_inj {is js : List Instruction} (h : instructions is = instructions js) :
    is = js := by
  have hend : Behind ['\n'] := .inr rfl
  have hl := congrArg (fun t ↦ t.toList ++ ['\n']) h
  exact ((delimited_instruction 1).array 0 hend hend hl).1

end Json

/-- The text that a run has put out, wherever it went. -/
def Command.Outcome.text (e : Outcome) : String :=
  match e.written with
  | some (_, t) => t
  | none => e.stdout

namespace Command.Options

variable {o : Options} {v : Volume}

/-- The instructions that a run puts out, if it gets as far as that. -/
def emitted? (o : Options) (v : Volume) : Option (List Instruction) :=
  match v.read o.input, o.output.bind v.obstacle with
  | .ok data, none =>
    if o.offset.toNat ≤ data.length then
      some (decodedBy (decodeRange (o.window data) o.base))
    else none
  | _, _ => none

theorem text_deliver (o : Options) (r : Report) : (o.deliver r).text = r.text := by
  cases ho : o.output <;> simp [Outcome.text, deliver, ho]

theorem run_unreadable {reason : String} (hr : v.read o.input = .error reason) :
    ∃ message, o.run v = fail message := by
  simp only [run, hr, prepare]
  exact ⟨_, rfl⟩

theorem text_run (o : Options) (v : Volume) :
    (o.run v).text = ((o.emitted? v).map o.render).getD "" := by
  cases hr : v.read o.input with
  | error reason =>
    obtain ⟨message, hm⟩ := run_unreadable hr
    simp [emitted?, hr, hm, fail, Outcome.text]
  | ok data =>
    by_cases hk : o.offset.toNat ≤ data.length
    · rcases o.writable_or v with hw | ⟨path, reason, ho, hp⟩
      · have hn : o.output.bind v.obstacle = none := by simpa [Writable] using hw
        rw [run_of_writable hr hk hw, text_deliver, report_eq]
        simp [emitted?, hr, hn, hk]
      · rw [run_of_obstacle hr hk ho hp]
        simp [emitted?, hr, ho, hp, abandon, Outcome.text]
    · obtain ⟨message, hm⟩ := run_past_end hr (Nat.lt_of_not_le hk)
      rw [hm]
      cases hn : o.output.bind v.obstacle <;>
        simp [emitted?, hr, hn, hk, fail, Outcome.text]

theorem render_of_json (hj : o.json = true) (is : List Instruction) :
    o.render is = Json.instructions is ++ "\n" := by
  simp only [render, hj, if_true]

end Command.Options

/-- The JSON form tells every field of every instruction, and so does what the program puts out in
that form. -/
theorem json_lossless :
    (∀ is js : List Instruction, Json.instructions is = Json.instructions js → is = js) ∧
    ∀ (o o' : Options) (v v' : Volume), o.json = true → o'.json = true →
      (o.run v).text = (o'.run v').text → o.emitted? v = o'.emitted? v' := by
  refine ⟨fun is js ↦ Json.instructions_inj, ?_⟩
  intro o o' v v' hj hj' h
  rw [Options.text_run, Options.text_run] at h
  cases hi : o.emitted? v with
  | none =>
    cases hi' : o'.emitted? v' with
    | none => rfl
    | some js => simp [hi, hi', Options.render_of_json hj'] at h
  | some is =>
    cases hi' : o'.emitted? v' with
    | none => simp [hi, hi', Options.render_of_json hj] at h
    | some js =>
      have hjson : Json.instructions is = Json.instructions js := by
        simpa [hi, hi', Options.render_of_json hj, Options.render_of_json hj'] using h
      rw [Json.instructions_inj hjson]

theorem json_lossless_rts :
    let o : Options := ⟨"code", 2, 2, none, none, true, true, false⟩
    let o' : Options := ⟨"tail", 2, 0, some 2, some "list", false, true, true⟩
    let v := Volume.ofFile "code" [0x4E, 0x71, 0x4E, 0x75]
    let v' := Volume.ofFile "tail" [0x4E, 0x75, 0x4E]
    Json.instructions [⟨0, 0, "\n", "\"", 0, []⟩] ≠ Json.instructions [⟨0, 0, "\\n", "\"", 0, []⟩] ∧
      (o.run v).text = (o'.run v').text ∧
      o.emitted? v = some [⟨2, 0x4E75, "RTS", "", 2, [0x4E, 0x75]⟩] := by
  intro o o' v v'
  have htext : (o.run v).text = (o'.run v').text := rfl
  have hrts : decodeInstruction [0x4E, 0x75] 2 = .ok ⟨2, 0x4E75, "RTS", "", 2, [0x4E, 0x75]⟩ := rfl
  have hwalk := (decodeRange_of_ok hrts).trans (congrArg (consDecoded _) (decodeRange_nil _))
  have hemitted : o'.emitted? v' = some (decodedBy (decodeRange [0x4E, 0x75] 2)) := rfl
  rw [hwalk] at hemitted
  exact ⟨fun h ↦ absurd (json_lossless.1 _ _ h) (by decide), htext,
    (json_lossless.2 o o' v v' rfl rfl htext).trans hemitted⟩

end Mc68000
