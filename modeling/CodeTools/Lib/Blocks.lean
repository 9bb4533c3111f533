import Mathlib.Tactic.Common

/-!
# Decoding block by block

A decoder takes blocks of `n` items and refuses some of them. What is left of a
piece of input waits for the next piece, so it does not matter where the input is
cut into pieces.
-/

namespace blocks

variable {α β : Type*}

/-- Decode the whole blocks of `s` up to the first that is refused. The result is
    the output and what waits for more input; after a refusal nothing waits. -/
def decode (f : List α → List β × Bool) (n : Nat) (s : List α) : List β × Option (List α) :=
  if 0 < n ∧ n ≤ s.length then
    match f (s.take n) with
    | (out, true) =>
      let rest := decode f n (s.drop n)
      (out ++ rest.1, rest.2)
    | (out, false) => (out, none)
  else ([], some s)
termination_by s.length
decreasing_by
  rw [List.length_drop]
  omega

section

variable {f : List α → List β × Bool} {n : Nat} {s rest : List α} {out : List β}

theorem decode_of_lt (hlt : s.length < n) : decode f n s = ([], some s) := by
  rw [decode, if_neg (by omega)]

theorem decode_of_accepts (hn : 0 < n) (hlen : n ≤ s.length) (hf : f (s.take n) = (out, true)) :
    decode f n s = (out ++ (decode f n (s.drop n)).1, (decode f n (s.drop n)).2) := by
  rw [decode, if_pos ⟨hn, hlen⟩, hf]

theorem decode_of_refuses (hn : 0 < n) (hlen : n ≤ s.length) (hf : f (s.take n) = (out, false)) :
    decode f n s = (out, none) := by
  rw [decode, if_pos ⟨hn, hlen⟩, hf]

/-- A block at the front is decoded first. -/
theorem decode_block_append {block : List α} (hn : 0 < n) (hblock : block.length = n) (hf : f block = (out, true))
    (s : List α) : decode f n (block ++ s) = (out ++ (decode f n s).1, (decode f n s).2) := by
  have htake : (block ++ s).take n = block := List.take_left' hblock
  have hdrop : (block ++ s).drop n = s := List.drop_left' hblock
  rw [decode_of_accepts hn (by rw [List.length_append]; omega) (htake ▸ hf), hdrop]

/-- More input is decoded behind what waits, and not looked at after a refusal. -/
theorem decode_append (hn : 0 < n) (s t : List α) :
    decode f n (s ++ t) = match decode f n s with
      | (out, none) => (out, none)
      | (out, some rest) => (out ++ (decode f n (rest ++ t)).1, (decode f n (rest ++ t)).2) := by
  induction hlen : s.length using Nat.strongRecOn generalizing s with
  | ind len ih =>
    subst hlen
    by_cases hblock : n ≤ s.length
    · have htake : (s ++ t).take n = s.take n := List.take_append_of_le_length hblock
      have hdrop : (s ++ t).drop n = s.drop n ++ t := List.drop_append_of_le_length hblock
      have hlonger : n ≤ (s ++ t).length := by
        rw [List.length_append]
        omega
      cases hf : f (s.take n) with
      | mk first accepted =>
        cases accepted with
        | true =>
          rw [decode_of_accepts hn hblock hf, decode_of_accepts hn hlonger (htake ▸ hf), hdrop,
            ih (s.drop n).length (by rw [List.length_drop]; omega) (s.drop n) rfl]
          obtain ⟨more, rest⟩ := decode f n (s.drop n)
          cases rest with
          | none => rfl
          | some rest => simp only [List.append_assoc]
        | false => rw [decode_of_refuses hn hblock hf, decode_of_refuses hn hlonger (htake ▸ hf)]
    · rw [decode_of_lt (by omega : s.length < n)]
      rfl

end

end blocks
