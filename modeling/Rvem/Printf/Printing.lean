import Rvem.Printf.PrintInteger
import Rvem.Printf.Text

/-!
# Programs that print a text

A program that prints does the same to every gadget: it prints one text.  What
`out_rev_` makes of a field is such a text.  Printing one text and then another prints
them in a row, which is all that the conversions need of programs.  The field of a
conversion is padded on the side its flags ask for.
-/

namespace Rvem.Printing

open Rvem.Arch
open Rvem.Gadget
open Rvem.PrintInteger
open Rvem.Text (justify)
open Rvem.Library
open Rvem.Library.Transcript

/-- The program prints `text` on every gadget. -/
def Prints {A : Type} (program : Print A) (text : List Byte) (result : A) : Prop :=
  Writes putcharViaGadget program (some (text, result))

theorem prints_return {A : Type} (result : A) : Prints (return result) [] result :=
  writes_pure result

theorem prints_putchar (c : Byte) : Prints (putcharViaGadget c) [c] () :=
  writes_put c

/-- Two programs in a row print their texts one behind the other. -/
theorem Prints.append {A B : Type} {program : Print A} {next : A → Print B}
    {text rest : List Byte} {value : A} {result : B}
    (hprogram : Prints program text value) (hnext : Prints (next value) rest result) :
    Prints (program >>= next) (text ++ rest) result :=
  Writes.append hprogram hnext

theorem Prints.andThen {A B : Type} {program : Print A} {next : Print B}
    {text rest : List Byte} {value : A} {result : B}
    (hprogram : Prints program text value) (hnext : Prints next rest result) :
    Prints (do let _ ← program; next) (text ++ rest) result :=
  hprogram.append hnext

theorem prints_putSpaces (count : ℕ) :
    Prints (putSpaces count) (List.replicate count (ch ' ')) () := by
  induction count with
  | zero => exact prints_return ()
  | succ count ih => exact (prints_putchar (ch ' ')).andThen ih

theorem prints_putReversed {buf : List Byte} {len : ℕ} (hlen : len ≤ buf.length) :
    Prints (putReversed buf len) (buf.take len).reverse () := by
  induction len with
  | zero => exact prints_return ()
  | succ len ih =>
      have hindex : buf[len]? = some buf[len] := List.getElem?_eq_getElem hlen
      have htake :
          (buf.take (len + 1)).reverse = [buf[len]] ++ (buf.take len).reverse := by
        rw [List.take_succ_eq_append_getElem hlen, List.reverse_append]
        rfl
      rw [htake, putReversed, hindex]
      change Prints (do putcharViaGadget buf[len]; putReversed buf len) _ ()
      exact (prints_putchar buf[len]).andThen (ih (by omega))

/-- `pos` counts the characters, also those that are dropped. -/
theorem putcharViaGadget_pos {c : Byte} {gadget after : OutputGadget}
    (hput : putcharViaGadget c gadget = some ((), after)) :
    after.pos = gadget.pos + 1 := by
  simp only [putcharViaGadget] at hput
  split at hput
  · cases hput
    rfl
  · split at hput
    · cases hput
      rfl
    · cases hstore : storeChar gadget.buffer gadget.pos.toNat c with
      | none =>
          rw [hstore] at hput
          cases hput
      | some chars =>
          rw [hstore] at hput
          cases hput
          rfl

theorem putAll_pos {text : List Byte} {gadget after : OutputGadget}
    (hput : putAll putcharViaGadget text gadget = some ((), after)) :
    after.pos = gadget.pos + BitVec.ofNat 32 text.length := by
  induction text generalizing gadget with
  | nil =>
      cases hput
      simp
  | cons c text ih =>
      change (putcharViaGadget c gadget >>= fun found =>
        putAll putcharViaGadget text found.2) = some ((), after) at hput
      obtain ⟨⟨_, middle⟩, hc, hrest⟩ := Option.bind_eq_some_iff.mp hput
      rw [ih hrest, putcharViaGadget_pos hc, List.length_cons, Nat.add_comm,
        BitVec.ofNat_add, BitVec.add_assoc]
      rfl

/-- What `out_rev_` makes of the body of a field. -/
def field (flags : Flags) (width : ℕ) (body : List Byte) : List Byte :=
  if flags.zeropad && !flags.left then body else justify flags.left width body

/-- The loop over the unsigned difference pads what the buffer leaves of the width. -/
theorem outRev_left (buf : List Byte) (width : ℕ) {flags : Flags}
    (hleft : flags.left = true) :
    outRev buf buf.length width flags =
      (do putReversed buf buf.length; putSpaces (width - buf.length % 2 ^ 32)) := by
  have hbuf : putReversed buf buf.length =
      (do putAll putcharViaGadget (buf.take buf.length).reverse; return ()) :=
    prints_putReversed (le_refl buf.length)
  rw [List.take_length] at hbuf
  funext gadget
  simp only [outRev, hleft, Bool.not_true, Bool.false_and, Bool.false_eq_true, if_false,
    if_true, hbuf, bind_assoc, pure_bind]
  change (putAll putcharViaGadget buf.reverse gadget >>= fun found =>
      putSpaces (width - (found.2.pos - gadget.pos).toNat) found.2) =
    putAll putcharViaGadget buf.reverse gadget >>= fun found =>
      putSpaces (width - buf.length % 2 ^ 32) found.2
  cases hput : putAll putcharViaGadget buf.reverse gadget with
  | none => rfl
  | some found =>
      obtain ⟨_, after⟩ := found
      have hpos : after.pos - gadget.pos = BitVec.ofNat 32 buf.length := by
        rw [putAll_pos hput, List.length_reverse, BitVec.add_comm, BitVec.add_sub_cancel]
      change putSpaces (width - (after.pos - gadget.pos).toNat) after = _
      rw [hpos, BitVec.toNat_ofNat]
      rfl

/-- `out_rev_` prints the buffer backwards, with spaces up to the width on the side that
the flags ask for. -/
theorem prints_outRev {buf : List Byte} (hlen : buf.length < 2 ^ 32) (width : ℕ)
    (flags : Flags) :
    Prints (outRev buf buf.length width flags) (field flags width buf.reverse) () := by
  have hbuf := prints_putReversed (le_refl buf.length)
  rw [List.take_length] at hbuf
  have hspaces := prints_putSpaces (width - buf.length)
  cases hleft : flags.left with
  | true =>
      rw [outRev_left buf width hleft, Nat.mod_eq_of_lt hlen]
      simpa [field, justify, hleft] using hbuf.andThen hspaces
  | false =>
      cases hzero : flags.zeropad with
      | true => simpa [outRev, field, hleft, hzero] using hbuf
      | false => simpa [outRev, field, justify, hleft, hzero] using hspaces.andThen hbuf

end Rvem.Printing
