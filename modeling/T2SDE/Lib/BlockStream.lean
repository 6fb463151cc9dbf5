import T2SDE.Lib.Memory

namespace BlockStream

open Memory

section Absorb

variable {α σ : Type} {f : σ → List α → σ} {n k : Nat} {s : σ} {xs ys : List α}

/-- The state behind so many blocks from the front of a text. -/
def absorb (f : σ → List α → σ) (n : Nat) : Nat → σ → List α → σ
  | 0, s, _ => s
  | k + 1, s, xs => absorb f n k (f s (xs.take n)) (xs.drop n)

theorem absorb_zero (s : σ) (xs : List α) : absorb f n 0 s xs = s := rfl

theorem absorb_succ (k : Nat) (s : σ) (xs : List α) :
    absorb f n (k + 1) s xs = absorb f n k (f s (xs.take n)) (xs.drop n) := rfl

/-- A text of one block. -/
theorem absorb_one (h : xs.length = n) : absorb f n 1 s xs = f s xs := by
  rw [absorb_succ, absorb_zero, List.take_of_length_le (Nat.le_of_eq h)]

theorem absorb_add (j k : Nat) (s : σ) (xs : List α) :
    absorb f n (j + k) s xs = absorb f n k (absorb f n j s xs) (xs.drop (n * j)) := by
  induction j generalizing s xs with
  | zero => rw [Nat.zero_add, absorb_zero, Nat.mul_zero, List.drop_zero]
  | succ j ih =>
    rw [Nat.add_right_comm, absorb_succ, absorb_succ, ih, List.drop_drop, Nat.mul_succ, Nat.add_comm n]

/-- Only what is in the blocks counts. -/
theorem absorb_append (hroom : n * k ≤ xs.length) (ys : List α) :
    absorb f n k s (xs ++ ys) = absorb f n k s xs := by
  induction k generalizing s xs with
  | zero => rfl
  | succ k ih =>
    rw [Nat.mul_succ] at hroom
    have hfirst : n ≤ xs.length := by omega
    have hrest : n * k ≤ (xs.drop n).length := by
      rw [List.length_drop]
      omega
    rw [absorb_succ, absorb_succ, List.take_append_of_le_length hfirst, List.drop_append_of_le_length hfirst,
      ih hrest]

end Absorb

section Buffer

variable {α σ : Type} {f : σ → List α → σ} {n i : Nat} {start s : σ} {message buffer xs ys : List α}

/-- The part of a message behind its last whole block. -/
def remainder (n : Nat) (message : List α) : List α := message.drop (n * (message.length / n))

theorem length_remainder (n : Nat) (message : List α) :
    (remainder n message).length = message.length % n := by
  rw [remainder, List.length_drop, Nat.mod_eq_sub_mul_div]

/-- The state has taken the whole blocks of a message, and the buffer begins with the rest of it. -/
structure Holds (f : σ → List α → σ) (n : Nat) (start : σ) (message : List α) (s : σ)
    (buffer : List α) : Prop where
  state : s = absorb f n (message.length / n) start message
  room : buffer.length = n
  rest : buffer.take (message.length % n) = remainder n message

theorem Holds.nil (hroom : buffer.length = n) : Holds f n start [] start buffer where
  state := by rw [List.length_nil, Nat.zero_div, absorb_zero]
  room := hroom
  rest := by rw [List.length_nil, Nat.zero_mod, List.take_zero, remainder, List.drop_nil]

/-- A text that does not fill the buffer is kept in it. -/
theorem Holds.short (h : Holds f n start message s buffer) (xs : List α)
    (hshort : message.length % n + xs.length < n) :
    Holds f n start (message ++ xs) s (overwrite buffer (message.length % n) xs) := by
  have hpos : 0 < n := by omega
  have hsplit := Nat.div_add_mod message.length n
  have hdiv : (message ++ xs).length / n = message.length / n := by
    rw [List.length_append, ← hsplit, Nat.add_assoc, Nat.mul_add_div hpos, Nat.div_eq_of_lt hshort,
      Nat.mul_add_div hpos,
      Nat.div_eq_of_lt (Nat.mod_lt _ hpos)]
  have hmod : (message ++ xs).length % n = message.length % n + xs.length := by
    rw [List.length_append]
    nth_rewrite 1 [← hsplit]
    rw [Nat.add_assoc, Nat.mul_add_mod, Nat.mod_eq_of_lt hshort]
  have hblocks : n * (message.length / n) ≤ message.length := Nat.mul_div_le _ _
  have hroom := h.room
  refine ⟨?_, ?_, ?_⟩
  · rw [hdiv, absorb_append hblocks, h.state]
  · rw [length_overwrite (by omega), hroom]
  · rw [hmod, take_overwrite (by omega), h.rest, remainder, remainder, hdiv,
      List.drop_append_of_le_length hblocks]

/-- A text that fills the buffer completes its block; the blocks behind it are taken from the text
itself, and the rest stands at the front of the buffer. -/
theorem Holds.long (h : Holds f n start message s buffer) (hpos : 0 < n) (xs : List α)
    (hlong : n ≤ message.length % n + xs.length) :
    let part := n - message.length % n
    let filled := overwrite buffer (message.length % n) (xs.take part)
    let blocks := (xs.length - part) / n
    Holds f n start (message ++ xs) (absorb f n blocks (absorb f n 1 s filled) (xs.drop part))
      (overwrite filled 0 (xs.drop (part + n * blocks))) := by
  intro part filled blocks
  have hroom := h.room
  have hsplit := Nat.div_add_mod message.length n
  have hmod := Nat.mod_lt message.length hpos
  have hpart : part = n - message.length % n := rfl
  have htake : (xs.take part).length = part := by
    rw [List.length_take]
    omega
  have hfilled : filled = remainder n message ++ xs.take part := by
    rw [← h.rest]
    exact overwrite_full (by omega)
  have hlength : filled.length = n := by
    rw [hfilled, List.length_append, length_remainder]
    omega
  have hrest : (xs.drop part).length = xs.length - part := List.length_drop
  have hbehind : n * blocks + (xs.length - part) % n = xs.length - part := Nat.div_add_mod _ _
  have hlast := Nat.mod_lt (xs.length - part) hpos
  have htotal : (message ++ xs).length = n * (message.length / n + (1 + blocks)) +
    (xs.length - part) % n := by
    have hmul : n * (message.length / n + (1 + blocks)) = n * (message.length / n) + (n + n * blocks) := by
      rw [Nat.mul_add, Nat.mul_add, Nat.mul_one]
    rw [List.length_append, hmul]
    omega
  have hdiv : (message ++ xs).length / n = message.length / n + (1 + blocks) := by
    rw [htotal, Nat.mul_add_div hpos, Nat.div_eq_of_lt (Nat.mod_lt _ hpos), Nat.add_zero]
  have hcount : (message ++ xs).length % n = (xs.length - part) % n := by
    rw [htotal, Nat.mul_add_mod, Nat.mod_mod]
  have hfront : (message ++ xs).drop (n * (message.length / n)) = filled ++ xs.drop part := by
    rw [List.drop_append_of_le_length (Nat.mul_div_le _ _), hfilled, List.append_assoc, List.take_append_drop]
    rfl
  refine ⟨?_, ?_, ?_⟩
  · have hone : (filled ++ xs.drop part).drop (n * 1) = xs.drop part := by
      rw [Nat.mul_one]
      nth_rewrite 1 [← hlength]
      exact List.drop_left
    rw [hdiv, absorb_add, absorb_append (Nat.mul_div_le _ _), ← h.state, hfront, absorb_add, hone,
      absorb_append (by omega)]
  · rw [length_overwrite, hlength]
    rw [List.length_drop]
    omega
  · have hdrop : (xs.drop (part + n * blocks)).length = (xs.length - part) % n := by
      rw [List.length_drop]
      omega
    have hcut : n * (message.length / n + (1 + blocks)) = n * (message.length / n) + (n + n * blocks) := by
      rw [Nat.mul_add, Nat.mul_add, Nat.mul_one]
    have htaken := take_overwrite (Nat.zero_le filled.length) (xs.drop (part + n * blocks))
    rw [hdrop, Nat.zero_add, List.take_zero, List.nil_append] at htaken
    rw [hcount, htaken, remainder, hdiv, hcut, ← List.drop_drop (i := n + n * blocks), hfront,
      ← List.drop_drop (i := n * blocks), ← List.drop_drop (i := n * blocks)]
    nth_rewrite 3 [← hlength]
    rw [List.drop_left]

end Buffer

end BlockStream
