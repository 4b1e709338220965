import Mathlib

/-!
# Programs that write to a device

A program that only ever puts items on a device does the same to every device: it puts
one text, item after item.  `Writes` says which text that is.  A program that is
undefined is undefined on every device.  What a device makes of a text is then a matter
of `putAll` alone.
-/

namespace Rvem.Library.Transcript

variable {S A B C : Type} {put : A → StateT S Option Unit}

/-- The items of `text` one after the other. -/
def putAll (put : A → StateT S Option Unit) : List A → StateT S Option Unit
  | [] => pure ()
  | a :: text => do
      put a
      putAll put text

@[simp]
theorem putAll_nil : putAll put [] = pure () := rfl

theorem putAll_append (left right : List A) :
    putAll put (left ++ right) = (do putAll put left; putAll put right) := by
  induction left with
  | nil => rw [List.nil_append, putAll_nil, pure_bind]
  | cons a left ih => rw [List.cons_append, putAll, putAll, ih, bind_assoc]

theorem putAll_singleton (a : A) : putAll put [a] = put a :=
  bind_pure (put a)

/-- Undefined on every device. -/
def undefined : StateT S Option B := StateT.lift none

theorem bind_undefined (run : StateT S Option B) :
    (run >>= fun _ => (undefined : StateT S Option C)) = undefined := by
  funext s
  change (run s >>= fun _ => none) = none
  cases run s with
  | none => rfl
  | some result => rfl

theorem undefined_bind (next : B → StateT S Option C) :
    ((undefined : StateT S Option B) >>= next) = undefined := rfl

/-- On every device, `run` puts the text of `written` and returns its value; if `written`
is `none`, it is undefined. -/
def Writes (put : A → StateT S Option Unit) (run : StateT S Option B) :
    Option (List A × B) → Prop
  | some (text, value) => run = do putAll put text; return value
  | none => run = undefined

theorem writes_pure (value : B) : Writes put (pure value) (some ([], value)) := rfl

/-- Putting one element writes it. -/
theorem writes_put (a : A) : Writes put (put a) (some ([a], ())) := by
  rw [Writes, putAll_singleton]
  exact (bind_pure (put a)).symm

theorem writes_undefined : Writes put (undefined : StateT S Option B) none := rfl

/-- A value that does not depend on the device. -/
theorem writes_lift (found : Option B) :
    Writes put (StateT.lift found) (found.map fun value => ([], value)) := by
  cases found with
  | none => exact writes_undefined
  | some value => exact writes_pure value

/-- Two programs in a row write their texts one behind the other. -/
theorem Writes.append {run : StateT S Option B} {next : B → StateT S Option C}
    {text rest : List A} {value : B} {result : C}
    (hrun : Writes put run (some (text, value)))
    (hnext : Writes put (next value) (some (rest, result))) :
    Writes put (run >>= next) (some (text ++ rest, result)) := by
  have hrun : run = do putAll put text; return value := hrun
  have hnext : next value = do putAll put rest; return result := hnext
  rw [Writes, hrun, bind_assoc, putAll_append, bind_assoc]
  simp only [pure_bind]
  rw [hnext]

/-- A program that puts `text` before one that may be undefined. -/
theorem Writes.continue {run : StateT S Option B} {next : B → StateT S Option C}
    {text : List A} {value : B} {continued : Option (List A × C)}
    (hrun : Writes put run (some (text, value)))
    (hnext : Writes put (next value) continued) :
    Writes put (run >>= next)
      (continued.map fun found => (text ++ found.1, found.2)) := by
  cases continued with
  | none =>
      have hrun : run = do putAll put text; return value := hrun
      have hnext : next value = undefined := hnext
      rw [hrun, bind_assoc]
      simp only [pure_bind]
      rw [hnext, bind_undefined]
      rfl
  | some found => exact hrun.append hnext

/-- The text and value of one program after the other. -/
def andThen (written : Option (List A × B)) (continued : B → Option (List A × C)) :
    Option (List A × C) := do
  let (text, value) ← written
  let (rest, result) ← continued value
  return (text ++ rest, result)

/-- A program and what follows it, where either may be undefined. -/
theorem Writes.bind {run : StateT S Option B} {next : B → StateT S Option C}
    {written : Option (List A × B)} {continued : B → Option (List A × C)}
    (hrun : Writes put run written)
    (hnext : ∀ value, Writes put (next value) (continued value)) :
    Writes put (run >>= next) (andThen written continued) := by
  cases written with
  | none =>
      rw [show run = undefined from hrun]
      exact undefined_bind next
  | some found =>
      obtain ⟨text, value⟩ := found
      have hcontinued := hrun.continue (hnext value)
      change Writes put _
        (continued value >>= fun found => some (text ++ found.1, found.2))
      cases hvalue : continued value with
      | none => rwa [hvalue] at hcontinued
      | some result => rwa [hvalue] at hcontinued

end Rvem.Library.Transcript
