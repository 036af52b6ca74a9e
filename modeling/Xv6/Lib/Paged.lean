import Xv6.Lib.ByteStore

/-!
# Paged — byte sequences in pages

`flat page sz` is the sequence of bytes that the pages `page 0`, `page 1`, … of `sz` bytes make up.  A
transfer goes page by page, each time by bytes that are in one page.
-/

namespace Paged

variable {page page' : ℕ → ByteStore} {sz off n i j m : ℕ} {src : ℕ → UInt8}

/-- The bytes of the pages, one after the other. -/
def flat (page : ℕ → ByteStore) (sz i : ℕ) : UInt8 := page (i / sz) (i % sz)

/-- Bytes that do not go past the end of a page are in it. -/
theorem div_add (h : off % sz + j < sz) : (off + j) / sz = off / sz := by
  have hoff := Nat.div_add_mod off sz
  rw [← hoff, add_assoc, Nat.mul_add_div (by omega), Nat.div_eq_of_lt h, Nat.add_zero,
    Nat.mul_add_div (by omega), Nat.div_eq_of_lt (Nat.mod_lt _ (by omega)), Nat.add_zero]

theorem mod_add (h : off % sz + j < sz) : (off + j) % sz = off % sz + j := by
  have hoff := Nat.div_add_mod off sz
  rw [← hoff, add_assoc, Nat.mul_add_mod, Nat.mod_eq_of_lt h, Nat.mul_add_mod, Nat.mod_mod]

theorem flat_add (h : off % sz + j < sz) :
    flat page sz (off + j) = page (off / sz) (off % sz + j) := by
  rw [flat, div_add h, mod_add h]

/-- **Writing a chunk** into its page. -/
theorem flat_blit (hm : off % sz + m ≤ sz)
    (hpage : page' (i / sz) =
      if i / sz = off / sz then (page (i / sz)).blit (off % sz) m src else page (i / sz)) :
    flat page' sz i = if off ≤ i ∧ i < off + m then src (i - off) else flat page sz i := by
  have hi := Nat.div_add_mod i sz
  have hoff := Nat.div_add_mod off sz
  rw [flat, flat, hpage]
  by_cases hk : i / sz = off / sz
  · rw [if_pos hk]
    rw [hk] at hi
    by_cases hin : off ≤ i ∧ i < off + m
    · rw [if_pos hin, ByteStore.blit_in (by omega) (by omega)]
      congr 1
      omega
    · rw [if_neg hin, ByteStore.blit_out (by omega)]
  · rw [if_neg hk, if_neg]
    rintro ⟨h1, h2⟩
    have hj : off % sz + (i - off) < sz := by omega
    have hdiv := div_add hj
    rw [Nat.add_sub_cancel' h1] at hdiv
    exact hk hdiv

/-- Two transfers one behind the other. -/
theorem blit_blit {dst : ByteStore} {a k : ℕ} :
    (dst.blit a m src).blit (a + m) k (fun i => src (m + i)) = dst.blit a (m + k) src := by
  funext x
  by_cases h2 : a + m ≤ x ∧ x < a + m + k
  · rw [ByteStore.blit_in h2.1 h2.2, ByteStore.blit_in (by omega) (by omega)]
    congr 1
    omega
  · rw [ByteStore.blit_out (by omega)]
    by_cases h1 : a ≤ x ∧ x < a + m
    · rw [ByteStore.blit_in h1.1 h1.2, ByteStore.blit_in h1.1 (by omega)]
    · rw [ByteStore.blit_out (by omega), ByteStore.blit_out (by omega)]

end Paged
