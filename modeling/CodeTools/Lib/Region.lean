import Mathlib.Tactic.Common

/-!
# Ranges of memory

Memory is a function of flat addresses. A copy into a range can be seen in that
range only.
-/

namespace region

/-- The addresses from `start` on, `size` of them. -/
structure Range where
  start : Nat
  size : Nat
deriving DecidableEq, Repr

namespace Range

variable {r s t : Range}

def Apart (r s : Range) : Prop := r.start + r.size ≤ s.start ∨ s.start + s.size ≤ r.start

instance : Decidable (Apart r s) := inferInstanceAs (Decidable (_ ∨ _))

/-- The range lies in another. -/
def Within (r s : Range) : Prop := s.start ≤ r.start ∧ r.start + r.size ≤ s.start + s.size

theorem Apart.symm (hapart : Apart r s) : Apart s r := Or.symm hapart

theorem Apart.of_within (hapart : Apart s t) (hwithin : Within r s) : Apart r t := by
  unfold Apart Within at *
  omega

/-- A range with addresses is not apart from itself. -/
theorem Apart.ne (hapart : Apart r s) (hsize : 0 < r.size) : r ≠ s := by
  rintro rfl
  unfold Apart at hapart
  omega

end Range

/-- `memcpy` of `m` bytes -/
def memcpy {β : Type} (memory : Nat → β) (dst src m : Nat) : Nat → β :=
  fun a => if dst ≤ a ∧ a < dst + m then memory (src + (a - dst)) else memory a

/-- The bytes of a range. -/
def bytes {β : Type} (memory : Nat → β) (r : Range) : List β :=
  (List.range r.size).map fun i => memory (r.start + i)

theorem bytes_memcpy {β : Type} (memory : Nat → β) (dst src m : Nat) :
    bytes (memcpy memory dst src m) ⟨dst, m⟩ = bytes memory ⟨src, m⟩ := by
  apply List.map_congr_left
  intro i hi
  simp [memcpy, List.mem_range.mp hi]

theorem bytes_memcpy_apart {β : Type} (memory : Nat → β) {dst src m : Nat} {r : Range}
    (hapart : Range.Apart ⟨dst, m⟩ r) : bytes (memcpy memory dst src m) r = bytes memory r := by
  apply List.map_congr_left
  intro i hi
  have hlt := List.mem_range.mp hi
  unfold Range.Apart at hapart
  unfold memcpy
  rw [if_neg (by dsimp only at hapart; omega)]

end region
