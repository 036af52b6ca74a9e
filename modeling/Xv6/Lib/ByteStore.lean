import Mathlib.Data.Nat.Notation
import Mathlib.Tactic.Ring

/-!
# ByteStore — byte-addressed stores

A store maps addresses to bytes.  `blit` overwrites a range of addresses, `load` and `store` read
and write little-endian numbers, `writes` is several writes in a row.  Every lemma says which
addresses an operation depends on, so that a client can carry facts about one range across writes to
another.
-/

/-- A byte-addressed store. -/
abbrev ByteStore := ℕ → UInt8

namespace ByteStore

/-- Overwrite the `n` bytes at `a` by `src 0, …, src (n - 1)`. -/
def blit (m : ByteStore) (a n : ℕ) (src : ℕ → UInt8) : ByteStore :=
  fun x => if a ≤ x ∧ x < a + n then src (x - a) else m x

/-- Set the `n` bytes at `a` to `c`. -/
def fill (m : ByteStore) (a n : ℕ) (c : UInt8) : ByteStore := m.blit a n (fun _ => c)

/-- The little-endian number in the `n` bytes at `a`. -/
def load (m : ByteStore) (a : ℕ) : ℕ → ℕ
  | 0 => 0
  | n + 1 => (m a).toNat + 256 * load m (a + 1) n

/-- Write `v` as a little-endian number into the `n` bytes at `a`. -/
def store (m : ByteStore) (a n v : ℕ) : ByteStore :=
  m.blit a n (fun i => UInt8.ofNat (v / 256 ^ i))

/-! ## Ranges -/

variable {m m' : ByteStore} {a b n k v x : ℕ} {src : ℕ → UInt8} {c : UInt8}

theorem blit_in (h : a ≤ x) (h' : x < a + n) : m.blit a n src x = src (x - a) := by
  simp [blit, h, h']

theorem blit_add (h : k < n) : m.blit a n src (a + k) = src k := by
  rw [blit_in (by omega) (by omega), Nat.add_sub_cancel_left]

theorem blit_out (h : x < a ∨ a + n ≤ x) : m.blit a n src x = m x := by
  unfold blit
  rw [if_neg (by omega)]

theorem blit_zero : m.blit a 0 src = m := by
  funext x
  exact blit_out (by omega)

/-- The bytes that are not copied do not matter. -/
theorem blit_congr {src' : ℕ → UInt8} (h : ∀ i < n, src i = src' i) :
    m.blit a n src = m.blit a n src' := by
  funext x
  unfold blit
  split
  · exact h _ (by omega)
  · rfl

theorem fill_in (h : a ≤ x) (h' : x < a + n) : m.fill a n c x = c := blit_in h h'

theorem fill_out (h : x < a ∨ a + n ≤ x) : m.fill a n c x = m x := blit_out h

theorem store_out (h : x < a ∨ a + n ≤ x) : m.store a n v x = m x := blit_out h

/-! ## Numbers -/

/-- A load depends only on the bytes it reads. -/
theorem load_congr (h : ∀ i < n, m (a + i) = m' (b + i)) : m.load a n = m'.load b n := by
  induction n generalizing a b with
  | zero => rfl
  | succ n ih =>
    have h0 := h 0 (by omega)
    have hs : m.load (a + 1) n = m'.load (b + 1) n := ih fun i hi => by
      have := h (i + 1) (by omega)
      rwa [show a + (i + 1) = a + 1 + i by omega, show b + (i + 1) = b + 1 + i by omega] at this
    simp only [Nat.add_zero] at h0
    simp only [load, h0, hs]

theorem load_lt : m.load a n < 256 ^ n := by
  induction n generalizing a with
  | zero => simp [load]
  | succ n ih =>
    have h1 := ih (a := a + 1)
    have h2 : (m a).toNat < 256 := (m a).toNat_lt
    rw [load, pow_succ]
    omega

/-- Bytes that spell `v` load as `v`, cut to the width. -/
theorem load_of_bytes (h : ∀ i < n, m (a + i) = UInt8.ofNat (v / 256 ^ i)) :
    m.load a n = v % 256 ^ n := by
  induction n generalizing a v with
  | zero => simp [load, Nat.mod_one]
  | succ n ih =>
    have h0 : (m a).toNat = v % 256 := by
      have := h 0 (by omega)
      simp only [Nat.add_zero, pow_zero, Nat.div_one] at this
      rw [this]
      simp
    have hs : m.load (a + 1) n = v / 256 % 256 ^ n := ih fun i hi => by
      have := h (i + 1) (by omega)
      rwa [show a + (i + 1) = a + 1 + i by omega, show 256 ^ (i + 1) = 256 * 256 ^ i by ring,
        ← Nat.div_div_eq_div_mul] at this
    rw [load, h0, hs, show 256 ^ (n + 1) = 256 * 256 ^ n by ring, Nat.mod_mul]

theorem load_store : (m.store a n v).load a n = v % 256 ^ n :=
  load_of_bytes fun _ hi => blit_add hi

theorem load_blit_out (h : a + n ≤ b ∨ b + k ≤ a) : (m.blit b k src).load a n = m.load a n :=
  load_congr fun i hi => blit_out (by omega)

theorem load_store_out (h : a + n ≤ b ∨ b + k ≤ a) : (m.store b k v).load a n = m.load a n :=
  load_blit_out h

/-- A range of zero bytes loads as `0`. -/
theorem load_zero (h : ∀ i < n, m (a + i) = 0) : m.load a n = 0 := by
  rw [load_of_bytes (v := 0) (fun i hi => by rw [h i hi]; simp), Nat.zero_mod]

/-! ## Writes one after the other -/

/-- The bytes `src 0, …, src (len - 1)` for the addresses from `addr` on. -/
structure Write where
  addr : ℕ
  len : ℕ
  src : ℕ → UInt8

/-- The writes of `l`, in this order. -/
def writes (m : ByteStore) (l : List Write) : ByteStore := l.foldl (fun m w => m.blit w.addr w.len w.src) m

variable {l : List Write} {w : Write}

theorem writes_cons : m.writes (w :: l) = (m.blit w.addr w.len w.src).writes l := rfl

theorem writes_out (h : ∀ w ∈ l, x < w.addr ∨ w.addr + w.len ≤ x) : m.writes l x = m x := by
  induction l generalizing m with
  | nil => rfl
  | cons w l ih =>
    rw [writes_cons, ih fun v hv => h v (List.mem_cons_of_mem w hv), blit_out (h w List.mem_cons_self)]

/-- Each of several writes to ascending places is there in the end. -/
theorem writes_in (h : l.Pairwise fun v w => v.addr + v.len ≤ w.addr) (hw : w ∈ l) (hk : k < w.len) :
    m.writes l (w.addr + k) = w.src k := by
  induction l generalizing m with
  | nil => exact absurd hw List.not_mem_nil
  | cons v l ih =>
    obtain ⟨hv, hl⟩ := List.pairwise_cons.mp h
    rw [writes_cons]
    rcases List.mem_cons.mp hw with rfl | hw
    · rw [writes_out fun u hu => Or.inl (lt_of_lt_of_le (Nat.add_lt_add_left hk _) (hv u hu)), blit_add hk]
    · exact ih hl hw

/-- The room that a write leaves at its end stays as it was. -/
theorem writes_gap {β : Type*} {f : β → Write} {room : β → ℕ} {bs : List β} {v : β}
    (h : bs.Pairwise fun u v => (f u).addr + room u ≤ (f v).addr) (hlen : ∀ u ∈ bs, (f u).len ≤ room u)
    (hv : v ∈ bs) (hk : (f v).len ≤ k) (hk' : k < room v) :
    m.writes (bs.map f) ((f v).addr + k) = m ((f v).addr + k) := by
  induction bs generalizing m with
  | nil => exact absurd hv List.not_mem_nil
  | cons u bs ih =>
    obtain ⟨hu, hbs⟩ := List.pairwise_cons.mp h
    rw [List.map_cons, writes_cons]
    rcases List.mem_cons.mp hv with rfl | hv
    · rw [writes_out fun w hw => ?_, blit_out (Or.inr (Nat.add_le_add_left hk _))]
      obtain ⟨t, ht, rfl⟩ := List.mem_map.mp hw
      exact Or.inl (lt_of_lt_of_le (Nat.add_lt_add_left hk' _) (hu t ht))
    · have hle := hu v hv
      have hlenu := hlen u List.mem_cons_self
      rw [ih hbs (fun t ht => hlen t (List.mem_cons_of_mem u ht)) hv, blit_out (by omega)]

end ByteStore
