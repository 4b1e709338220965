import Mathlib

/-!
# Fixed-size arrays with checked indices

A C array of `n` elements is a function on `Fin n`.  Evaluating an index that is
not below `n` is undefined behaviour; both accessors return `none` there, so a
computation built from them is defined exactly when all its indices are.
-/

namespace Rvem.Library.CArray

variable {A : Type*} {n : ℕ}

/-- `values[position]` as an rvalue. -/
def index (values : Fin n → A) (position : ℕ) : Option A :=
  if h : position < n then some (values ⟨position, h⟩) else none

/-- `values[position] = value`. -/
def store (values : Fin n → A) (position : ℕ) (value : A) :
    Option (Fin n → A) :=
  if h : position < n then some (Function.update values ⟨position, h⟩ value)
  else none

theorem index_eq_some (values : Fin n → A) {position : ℕ}
    (hposition : position < n) :
    index values position = some (values ⟨position, hposition⟩) :=
  dif_pos hposition

theorem store_eq_some (values : Fin n → A) {position : ℕ} (value : A)
    (hposition : position < n) :
    store values position value =
      some (Function.update values ⟨position, hposition⟩ value) :=
  dif_pos hposition

end Rvem.Library.CArray
