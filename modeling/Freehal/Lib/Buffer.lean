import Mathlib.Data.List.Basic

/-!
# Appending to a buffer

`strcat` into a buffer of a fixed size. Calls that append one after another succeed when the whole
text has room.
-/

namespace Freehal.Lib

variable {α β : Type} {size : Nat}

/-- With the null character at the end. -/
def strcat (size : Nat) (buffer text : List α) : Option (List α) :=
  if buffer.length + text.length + 1 ≤ size then some (buffer ++ text) else none

/-- The contents of a buffer, if they have room in it. -/
def fits (size : Nat) (buffer : List α) : Option (List α) :=
  if buffer.length + 1 ≤ size then some buffer else none

theorem fits_of_le {buffer : List α} (h : buffer.length + 1 ≤ size) :
    fits size buffer = some buffer := if_pos h

theorem isSome_fits {buffer : List α} : (fits size buffer).isSome ↔ buffer.length + 1 ≤ size := by
  unfold fits
  split <;> simp [*]

/-- What the call appends is `text`. -/
def Appends (size : Nat) (f : List α → Option (List α)) (text : List α) : Prop :=
  ∀ buffer, (fits size buffer).bind f = fits size (buffer ++ text)

theorem appends_some : Appends size (some : List α → Option (List α)) [] := by
  intro buffer
  rw [Option.bind_fun_some, List.append_nil]

theorem appends_strcat (text : List α) : Appends size (strcat size · text) text := by
  intro buffer
  by_cases hfits : buffer.length + 1 ≤ size
  · rw [fits_of_le hfits, Option.bind_some, strcat, fits, List.length_append]
  · rw [fits, if_neg hfits, fits, if_neg (by rw [List.length_append]; omega)]
    rfl

variable {f g : List α → Option (List α)} {s t : List α}

theorem Appends.bind (hf : Appends size f s) (hg : Appends size g t) :
    Appends size (fun buffer => (f buffer).bind g) (s ++ t) := by
  intro buffer
  rw [← Option.bind_assoc, hf, hg, List.append_assoc]

theorem appends_foldlM {step : List α → β → Option (List α)} {text : β → List α} {l : List β}
    (h : ∀ x ∈ l, Appends size (step · x) (text x)) :
    Appends size (fun buffer => l.foldlM step buffer) (l.flatMap text) := by
  induction l with
  | nil => exact appends_some
  | cons x l ih =>
      have hrest := ih fun y hy => h y (List.mem_cons_of_mem _ hy)
      exact (h x List.mem_cons_self).bind hrest

/-- A buffer with room for a null character holds the whole text exactly when it has room. -/
theorem Appends.from_nil (h : Appends size f t) (hsize : 1 ≤ size) : f [] = fits size t := by
  have hnil := h []
  rwa [fits_of_le (by simpa using hsize)] at hnil

end Freehal.Lib
