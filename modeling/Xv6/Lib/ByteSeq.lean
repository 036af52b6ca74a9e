import Mathlib.Tactic.SplitIfs
import Xv6.Lib.ByteStore

/-!
# ByteSeq — sequences that grow

A sequence is written at any place up to its end, so that it never gets a hole, and it is read from any
such place.  `window` is the sequence in a range of a byte store, where a write is a `blit`.
-/

namespace ByteSeq

variable {α : Type*} {f g new : List α} {off n i : ℕ}

/-- Write `new` at `off`; the sequence grows if `new` goes past its end. -/
def write (f : List α) (off : ℕ) (new : List α) : List α :=
  f.take off ++ new ++ f.drop (off + new.length)

/-- The `n` elements at `off`, or what there is of them. -/
def read (f : List α) (off n : ℕ) : List α := (f.drop off).take n

theorem getElem?_write (h : off ≤ f.length) :
    (write f off new)[i]? = if off ≤ i ∧ i < off + new.length then new[i - off]? else f[i]? := by
  have hlen : (f.take off).length = off := by simp [h]
  rw [write, List.append_assoc]
  by_cases hlo : i < off
  · rw [if_neg (by omega), List.getElem?_append_left (by omega), List.getElem?_take_of_lt hlo]
  rw [List.getElem?_append_right (by omega), hlen]
  by_cases hhi : i < off + new.length
  · rw [if_pos (by omega), List.getElem?_append_left (by omega)]
  · rw [if_neg (by omega), List.getElem?_append_right (by omega), List.getElem?_drop]
    congr 1
    omega

end ByteSeq

namespace ByteStore

variable {m m' : ByteStore} {a b n off w i : ℕ} {src : ℕ → UInt8}

/-- The `n` bytes at `a`. -/
def window (m : ByteStore) (a n : ℕ) : List UInt8 := (List.range n).map fun i => m (a + i)

@[simp] theorem length_window : (m.window a n).length = n := by simp [window]

theorem getElem?_window : (m.window a n)[i]? = if i < n then some (m (a + i)) else none := by
  unfold window
  by_cases h : i < n
  · simp [h]
  · simp [h]

theorem window_add {k : ℕ} : m.window a (n + k) = m.window a n ++ m.window (a + n) k := by
  simp only [window, List.range_add, List.map_append, List.map_map, Function.comp_def, Nat.add_assoc]

theorem window_one : m.window a 1 = [m a] := rfl

theorem mem_window {c : UInt8} : c ∈ m.window a n ↔ ∃ i < n, m (a + i) = c := by
  simp [window]

theorem window_congr (h : ∀ i < n, m (a + i) = m' (b + i)) : m.window a n = m'.window b n :=
  List.map_congr_left fun i hi => h i (List.mem_range.mp hi)

/-- A list that has been written is there. -/
theorem window_list {c : UInt8} (l : List UInt8) :
    (m.blit a l.length fun k => l.getD k c).window a l.length = l := by
  ext1 i
  rw [getElem?_window]
  split_ifs with hi
  · rw [blit_add hi, List.getD_eq_getElem?_getD, List.getElem?_eq_getElem hi]
    rfl
  · exact (List.getElem?_eq_none (Nat.le_of_not_lt hi)).symm

/-- Bytes that are copied over a sequence, or on at its end, are written to it. -/
theorem window_blit (h : off ≤ n) :
    (m.blit off w src).window 0 (max n (off + w)) =
      ByteSeq.write (m.window 0 n) off (window src 0 w) := by
  ext1 i
  rw [ByteSeq.getElem?_write (by simpa using h), getElem?_window, getElem?_window, getElem?_window,
    length_window]
  simp only [Nat.zero_add, blit]
  by_cases hi : off ≤ i ∧ i < off + w
  · rw [if_pos (by omega), if_pos hi, if_pos hi, if_pos (by omega)]
  · rw [if_neg hi, if_neg hi]
    by_cases hn : i < n
    · rw [if_pos (by omega), if_pos hn]
    · rw [if_neg (by omega), if_neg hn]

theorem read_window : ByteSeq.read (m.window 0 n) off w = m.window off (min w (n - off)) := by
  ext1 i
  rw [ByteSeq.read, List.getElem?_take, List.getElem?_drop, getElem?_window, getElem?_window, Nat.zero_add]
  by_cases hi : i < w
  · rw [if_pos hi]
    by_cases hn : off + i < n
    · rw [if_pos hn, if_pos (by omega)]
    · rw [if_neg hn, if_neg (by omega)]
  · rw [if_neg hi, if_neg (by omega)]

end ByteStore
