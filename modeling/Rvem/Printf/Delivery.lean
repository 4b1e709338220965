import Rvem.Printf.Printing

/-!
# What a gadget makes of a text

A gadget counts every character and keeps the first `max_chars` of them.  A buffer is
written up to there and not beyond; the rest of its array stays as it was.  A function
gets every character.  The terminator comes behind the text or, if that is too long, at
the last place of the buffer, and an array that is too short for either is written out
of bounds.
-/

namespace Rvem.Delivery

open Rvem.Arch
open Rvem.Gadget
open Rvem.Printing
open Rvem.Library.Transcript

/-- One of the three that the comment on `output_gadget_t` asks for, where `count`
characters have room in the array, or as many as are kept. -/
structure Room (gadget : OutputGadget) (count : ℕ) : Prop where
  start : gadget.pos = 0
  array : gadget.function = false → gadget.maxChars ≠ 0 → ∃ chars,
    gadget.buffer = some chars ∧ min gadget.maxChars count ≤ chars.length

/-- An array behind the first `most` characters of a text. -/
def written (most : ℕ) (text chars : List Byte) : List Byte :=
  text.take most ++ chars.drop (min text.length most)

/-- The gadget behind a text. -/
def delivered (gadget : OutputGadget) (text : List Byte) : OutputGadget :=
  { gadget with
    pos := BitVec.ofNat 32 text.length
    called := if gadget.function then gadget.called ++ text.take gadget.maxChars
      else gadget.called
    buffer := if gadget.function then gadget.buffer
      else gadget.buffer.map (written gadget.maxChars text) }

theorem delivered_nil {gadget : OutputGadget} (hstart : gadget.pos = 0) :
    delivered gadget [] = gadget := by
  obtain ⟨function, called, buffer, pos, maxChars⟩ := gadget
  cases hstart
  cases function with
  | true => simp [delivered]
  | false =>
      cases buffer with
      | none => rfl
      | some chars => simp [delivered, written]

theorem written_full {most : ℕ} {text : List Byte} (hfull : most ≤ text.length) (c : Byte)
    (chars : List Byte) : written most (text ++ [c]) chars = written most text chars := by
  rw [written, written, List.take_append_of_le_length hfull, List.length_append]
  congr 2
  omega

theorem length_written {most : ℕ} {text chars : List Byte}
    (hroom : min most text.length ≤ chars.length) :
    (written most text chars).length = chars.length := by
  rw [written, List.length_append, List.length_take, List.length_drop]
  omega

/-- Storing the next character of a text continues the array written so far. -/
theorem storeChar_written {most : ℕ} {text chars : List Byte} (hmost : text.length < most)
    (hroom : text.length < chars.length) (c : Byte) :
    storeChar (some (written most text chars)) text.length c =
      some (written most (text ++ [c]) chars) := by
  have hwritten : written most text chars = text ++ chars.drop text.length := by
    rw [written, List.take_of_length_le hmost.le, min_eq_left hmost.le]
  have hnext :
      written most (text ++ [c]) chars = text ++ c :: chars.drop (text.length + 1) := by
    have hlength : (text ++ [c]).length = text.length + 1 := by simp
    rw [written, List.take_of_length_le (by omega), min_eq_left (by omega), hlength,
      List.append_assoc]
    rfl
  have hinside : text.length < (text ++ chars.drop text.length).length := by
    rw [List.length_append, List.length_drop]
    omega
  rw [hwritten, hnext, storeChar]
  change (if text.length < (text ++ chars.drop text.length).length then _ else _) = _
  rw [if_pos hinside, List.set_append_right _ _ le_rfl, Nat.sub_self,
    List.drop_eq_getElem_cons hroom]
  rfl

/-- A character more. -/
theorem putchar_delivered {gadget : OutputGadget} {count : ℕ} (hroom : Room gadget count)
    {text : List Byte} (hcount : text.length < count) (hwrap : text.length < 2 ^ 32)
    (c : Byte) :
    putcharViaGadget c (delivered gadget text) =
      some ((), delivered gadget (text ++ [c])) := by
  have hpos : (BitVec.ofNat 32 text.length).toNat = text.length := by
    rw [BitVec.toNat_ofNat, Nat.mod_eq_of_lt hwrap]
  have hnext :
      BitVec.ofNat 32 (text ++ [c]).length = BitVec.ofNat 32 text.length + 1 := by
    rw [List.length_append, List.length_singleton, BitVec.ofNat_add]
    rfl
  rw [putcharViaGadget]
  change (if gadget.maxChars ≤ (BitVec.ofNat 32 text.length).toNat then _ else _) = _
  rw [hpos]
  by_cases hfull : gadget.maxChars ≤ text.length
  · have hsame : written gadget.maxChars (text ++ [c]) = written gadget.maxChars text :=
      funext fun chars => written_full hfull c chars
    rw [if_pos hfull, delivered, delivered, hnext, List.take_append_of_le_length hfull,
      hsame]
    rfl
  · have hmost : text.length < gadget.maxChars := by omega
    have htake :
        (text ++ [c]).take gadget.maxChars = text.take gadget.maxChars ++ [c] := by
      rw [List.take_of_length_le (by simpa using hmost), List.take_of_length_le hmost.le]
    rw [if_neg hfull]
    cases hfunction : gadget.function with
    | true =>
        simp only [delivered, hfunction, if_true, hnext, htake, ← List.append_assoc]
        rfl
    | false =>
        obtain ⟨chars, hbuffer, hlength⟩ := hroom.array hfunction (by omega)
        simp only [delivered, hfunction, Bool.false_eq_true, if_false, hbuffer,
          Option.map_some]
        rw [hpos, storeChar_written hmost (by omega), hnext]
        rfl

/-- A gadget with room takes a text character by character. -/
theorem putAll_delivered {gadget : OutputGadget} {count : ℕ} (hroom : Room gadget count)
    (done text : List Byte) (hcount : (done ++ text).length ≤ count)
    (hwrap : (done ++ text).length ≤ 2 ^ 32) :
    putAll putcharViaGadget text (delivered gadget done) =
      some ((), delivered gadget (done ++ text)) := by
  induction text generalizing done with
  | nil => rw [List.append_nil, putAll_nil]; rfl
  | cons c text ih =>
      have hlength : (done ++ c :: text).length = done.length + (text.length + 1) := by
        simp
      have hput := putchar_delivered hroom (by omega : done.length < count) (by omega) c
      change (putcharViaGadget c (delivered gadget done) >>= fun found =>
        putAll putcharViaGadget text found.2) = _
      rw [hput]
      change putAll putcharViaGadget text (delivered gadget (done ++ [c])) = _
      rw [ih (done ++ [c]) (by simpa using hcount) (by simpa using hwrap),
        List.append_assoc]
      rfl

/-! ## The terminator -/

/-- An array behind a text of which `most - 1` characters are kept, and the terminator. -/
def terminated (most : ℕ) (text chars : List Byte) : List Byte :=
  text.take (most - 1) ++ 0 :: chars.drop (min text.length (most - 1) + 1)

theorem storeChar_terminator {most : ℕ} {text chars : List Byte} (hmost : 0 < most)
    (hroom : min most (text.length + 1) ≤ chars.length) :
    storeChar (some (written most text chars))
      (if text.length < most then text.length else most - 1) 0 =
        some (terminated most text chars) := by
  by_cases hshort : text.length < most
  · have hstored := storeChar_written hshort (by omega : text.length < chars.length) 0
    have hterminated : written most (text ++ [0]) chars = terminated most text chars := by
      rw [written, terminated, List.take_of_length_le (by simpa using hshort),
        List.take_of_length_le (by omega), List.length_append, List.length_singleton,
        min_eq_left (by omega), min_eq_left (by omega), List.append_assoc]
      rfl
    rw [if_pos hshort, hstored, hterminated]
  · -- the terminator replaces the last character that is kept
    obtain ⟨last, rfl⟩ : ∃ last, most = last + 1 := ⟨most - 1, by omega⟩
    have hlength : (written (last + 1) text chars).length = chars.length :=
      length_written (by omega)
    have hwritten : written (last + 1) text chars =
        text.take last ++ text[last] :: chars.drop (last + 1) := by
      rw [written, min_eq_right (by omega), List.take_succ_eq_append_getElem (by omega),
        List.append_assoc]
      rfl
    have htake : (text.take last).length = last := by
      rw [List.length_take]
      omega
    rw [if_neg hshort, Nat.add_sub_cancel, terminated, Nat.add_sub_cancel, storeChar]
    change (if last < (written (last + 1) text chars).length then _ else _) = _
    rw [if_pos (by omega), hwritten, List.set_append_right _ _ (by omega), htake,
      Nat.sub_self, min_eq_right (by omega)]
    rfl

/-- The gadget behind a text and its terminator. -/
def terminatedGadget (gadget : OutputGadget) (text : List Byte) : OutputGadget :=
  if gadget.function ∨ gadget.maxChars = 0 then delivered gadget text
  else { delivered gadget text with
    buffer := gadget.buffer.map (terminated gadget.maxChars text) }

theorem append_delivered {gadget : OutputGadget} {text : List Byte}
    (hroom : Room gadget (text.length + 1)) (hwrap : text.length < 2 ^ 32) :
    appendTerminationWithGadget (delivered gadget text) =
      some ((), terminatedGadget gadget text) := by
  have hpos : (BitVec.ofNat 32 text.length).toNat = text.length := by
    rw [BitVec.toNat_ofNat, Nat.mod_eq_of_lt hwrap]
  rw [appendTerminationWithGadget, terminatedGadget]
  change (if gadget.function ∨ gadget.maxChars = 0 then _ else _) = _
  split
  · rfl
  · next hwrites =>
    obtain ⟨hfunction, hmost⟩ := not_or.mp hwrites
    replace hfunction := Bool.eq_false_iff.mpr hfunction
    obtain ⟨chars, hbuffer, hlength⟩ := hroom.array hfunction hmost
    simp only [delivered, hfunction, hbuffer, Bool.false_eq_true, if_false,
      Option.map_some, hpos]
    rw [if_neg (Option.some_ne_none _), storeChar_terminator (by omega) hlength]
    rfl

/-! ## Where the array ends -/

/-- The character behind the end of the array. -/
theorem putchar_outside {gadget : OutputGadget} {chars text : List Byte}
    (hfunction : gadget.function = false) (hbuffer : gadget.buffer = some chars)
    (hend : text.length = chars.length) (hmost : text.length < gadget.maxChars)
    (hwrap : text.length < 2 ^ 32) (c : Byte) :
    putcharViaGadget c (delivered gadget text) = none := by
  have hpos : (BitVec.ofNat 32 text.length).toNat = text.length := by
    rw [BitVec.toNat_ofNat, Nat.mod_eq_of_lt hwrap]
  have hlength : (written gadget.maxChars text chars).length = chars.length :=
    length_written (by omega)
  rw [putcharViaGadget]
  simp only [delivered, hfunction, hbuffer, Bool.false_eq_true, if_false, Option.map_some,
    hpos]
  rw [if_neg (by omega), storeChar]
  change ((if text.length < (written _ text chars).length then _ else none) >>= _) = none
  rw [if_neg (by omega)]
  rfl

/-- A terminator behind the end of the array is stored out of bounds. -/
theorem append_outside {gadget : OutputGadget} {chars text : List Byte}
    (hfunction : gadget.function = false) (hbuffer : gadget.buffer = some chars)
    (hend : text.length = chars.length) (hmost : text.length < gadget.maxChars)
    (hwrap : text.length < 2 ^ 32) :
    appendTerminationWithGadget (delivered gadget text) = none := by
  have hpos : (BitVec.ofNat 32 text.length).toNat = text.length := by
    rw [BitVec.toNat_ofNat, Nat.mod_eq_of_lt hwrap]
  have hlength : (written gadget.maxChars text chars).length = chars.length :=
    length_written (by omega)
  rw [appendTerminationWithGadget]
  simp only [delivered, hfunction, hbuffer, Bool.false_eq_true, if_false, Option.map_some,
    hpos, false_or]
  rw [if_neg (by omega), if_neg (Option.some_ne_none _), if_pos hmost, storeChar]
  change ((if text.length < (written _ text chars).length then _ else none) >>= _) = none
  rw [if_neg (by omega)]
  rfl

/-- A text that the array has no room for: it is left, by a character or by the
terminator. -/
theorem overflow (gadget : OutputGadget) (text : List Byte) {chars : List Byte}
    (hstart : gadget.pos = 0)
    (hfunction : gadget.function = false) (hbuffer : gadget.buffer = some chars)
    (hshort : chars.length < min gadget.maxChars (text.length + 1))
    (hwrap : text.length < 2 ^ 32) :
    (do putAll putcharViaGadget text; appendTerminationWithGadget) gadget = none := by
  have hroom : Room gadget chars.length := ⟨hstart, fun _ _ => ⟨chars, hbuffer, by omega⟩⟩
  have hput := putAll_delivered hroom [] (text.take chars.length) (by simp)
    (by simp; omega)
  have htake : (text.take chars.length).length = chars.length := by
    rw [List.length_take]
    omega
  rw [delivered_nil hstart, List.nil_append] at hput
  by_cases hinside : chars.length < text.length
  · have hsplit : text = text.take chars.length ++
        (text[chars.length] :: text.drop (chars.length + 1)) := by
      rw [← List.drop_eq_getElem_cons hinside, List.take_append_drop]
    have houtside := putchar_outside hfunction hbuffer htake (by omega) (by omega)
      text[chars.length]
    generalize text[chars.length] = c at hsplit houtside
    rw [hsplit, putAll_append]
    change ((putAll putcharViaGadget (text.take chars.length) gadget >>= fun found =>
      (putcharViaGadget c found.2 >>= _)) >>= _) = none
    rw [hput]
    change ((putcharViaGadget c _ >>= _) >>= _) = none
    rw [houtside]
    rfl
  · rw [List.take_of_length_le (by omega)] at hput htake
    change (putAll putcharViaGadget text gadget >>= fun found =>
      appendTerminationWithGadget found.2) = none
    rw [hput]
    exact append_outside hfunction hbuffer htake (by omega) hwrap

end Rvem.Delivery
