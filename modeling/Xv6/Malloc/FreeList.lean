import Xv6.Malloc.Blocks
import Xv6.User.Umalloc

/-!
# FreeList — the free list in the memory

`Ring base m l`: from `base`, the pointers lead through the blocks of `l` and back.  The loop of `free`
stops at the block behind which the freed one belongs, and the two joins of `free` are `release`.
-/

namespace Xv6.Umalloc

open Chain

/-- The headers at `p` and `q` are disjoint. -/
def Apart (p q : ℕ) : Prop := p + 16 ≤ q ∨ q + 16 ≤ p

variable {m m' : ByteStore} {base p q v x y z n bp k fuel : ℕ} {b : ℕ × ℕ} {l l₁ l₂ : List (ℕ × ℕ)}

theorem Upto.apart {b c : ℕ × ℕ} (h : Upto b c) : Apart b.1 c.1 := .inl h.1

theorem Apart.symm (h : Apart p q) : Apart q p := Or.symm h

/-! ### Headers -/

theorem ptr_lt : ptr m p < 2 ^ 64 := ByteStore.load_lt

theorem ptr_setPtr (hv : v < 2 ^ 64) : ptr (setPtr m p v) p = v := by
  rw [ptr, setPtr, ByteStore.load_store]
  exact Nat.mod_eq_of_lt hv

theorem size_setSize : size (setSize m p v) p = v % 2 ^ 32 := ByteStore.load_store

@[simp] theorem size_setPtr_self : size (setPtr m p v) p = size m p :=
  ByteStore.load_store_out (.inr le_rfl)

@[simp] theorem ptr_setSize_self : ptr (setSize m p v) p = ptr m p :=
  ByteStore.load_store_out (.inl le_rfl)

/-- The header at `p` is the same in both memories. -/
def SameHeader (m m' : ByteStore) (p : ℕ) : Prop := ptr m' p = ptr m p ∧ size m' p = size m p

theorem sameHeader_of (h : ∀ x, p ≤ x → x < p + 16 → m' x = m x) : SameHeader m m' p :=
  ⟨ByteStore.load_congr fun i hi => h _ (by omega) (by omega),
    ByteStore.load_congr fun i hi => h _ (by omega) (by omega)⟩

/-- `x` takes `y` in if that is next to it, and else points to it. -/
def link (m : ByteStore) (x y : ℕ) : ByteStore :=
  if x + HEADER * size m x = y then
    setPtr (setSize m x (size m x + size m y)) x (ptr (setSize m x (size m x + size m y)) y)
  else setPtr m x y

theorem link_out (h : v < x ∨ x + 16 ≤ v) : link m x y v = m v := by
  rw [link]
  by_cases he : x + HEADER * size m x = y
  · rw [if_pos he, setPtr, setSize, ByteStore.store_out (by omega), ByteStore.store_out (by omega)]
  · rw [if_neg he, setPtr, ByteStore.store_out (by omega)]

theorem link_header (h : Apart x q) : SameHeader m (link m x y) q := by
  refine sameHeader_of fun v h₁ h₂ => link_out ?_
  rcases h with h | h
  · exact .inr (by omega)
  · exact .inl (by omega)

theorem setSize_out (h : v < x ∨ x + 16 ≤ v) : setSize m x y v = m v :=
  ByteStore.store_out (by omega)

theorem setPtr_out (h : v < x ∨ x + 16 ≤ v) : setPtr m x y v = m v :=
  ByteStore.store_out (by omega)

/-- In the memory, `link` is `join`. -/
theorem linked_link (h : Chain.Linked (ptr m) (size m) l z) (hl : ∀ c ∈ l, Apart x c.1)
    (hlt : first z l < 2 ^ 64) (hz : l = [] → x + 16 * size m x ≠ z) :
    Chain.Linked (ptr (link m x (first z l))) (size (link m x (first z l))) (join (x, size m x) l) z := by
  cases l with
  | nil =>
    rw [link, first, if_neg (hz rfl)]
    exact ⟨⟨ptr_setPtr hlt, size_setPtr_self⟩, trivial⟩
  | cons c l =>
    have hsame : ∀ d ∈ c :: l, SameHeader m (link m x c.1) d.1 := fun d hd => link_header (hl d hd)
    have hrest := h.congr hsame
    obtain ⟨⟨hn, hs⟩, -⟩ := h
    rw [first, join]
    by_cases he : x + 16 * size m x = c.1
    · -- the block takes over the pointer of the one it swallows
      have hptr : ptr (setSize m x (size m x + size m c.1)) c.1 = first z l := by
        rw [← hn]
        refine (sameHeader_of fun v h₁ h₂ => setSize_out ?_).1
        rcases hl c List.mem_cons_self with h | h
        · exact .inr (by omega)
        · exact .inl (by omega)
      have hlt' : first z l < 2 ^ 64 := by
        rw [← hn]
        exact ptr_lt
      rw [if_pos he]
      refine ⟨⟨?_, ?_⟩, hrest.2⟩
      · rw [link, if_pos he, hptr]
        exact ptr_setPtr hlt'
      · rw [link, if_pos he, size_setPtr_self, size_setSize, hs]
    · rw [if_neg he]
      refine ⟨⟨?_, ?_⟩, hrest⟩
      · rw [link, if_neg he]
        exact ptr_setPtr hlt
      · rw [link, if_neg he]
        exact size_setPtr_self

/-! ### The free list -/

/-- The free list consists of `base` and the blocks of `l`. -/
def Ring (base : ℕ) (m : ByteStore) (l : List (ℕ × ℕ)) : Prop :=
  Chain.Linked (ptr m) (size m) ((base, 0) :: l) base

/-- The list is in the order of its addresses, with gaps. -/
structure Ordered (base : ℕ) (l : List (ℕ × ℕ)) : Prop where
  order : ((base, 0) :: l).Pairwise Before
  pos : ∀ b ∈ l, 0 < b.2
  lt : ∀ b ∈ (base, 0) :: l, b.1 < 2 ^ 64

/-- The loop of `free` stops at `p`. -/
def Stop (m : ByteStore) (bp p : ℕ) : Prop :=
  (bp > p ∧ bp < ptr m p) ∨ (p ≥ ptr m p ∧ (bp > p ∨ bp < ptr m p))

instance : Decidable (Stop m bp p) := by
  unfold Stop
  infer_instance

theorem freeLoop_succ :
    freeLoop m bp (fuel + 1) p = if Stop m bp p then some p else freeLoop m bp fuel (ptr m p) := by
  rw [freeLoop]
  by_cases h₁ : bp > p ∧ bp < ptr m p
  · rw [if_pos h₁, if_pos (.inl h₁)]
  by_cases h₂ : p ≥ ptr m p ∧ (bp > p ∨ bp < ptr m p)
  · rw [if_neg h₁, if_pos h₂, if_pos (.inr h₂)]
  · rw [if_neg h₁, if_neg h₂, if_neg (by rintro (h | h); exacts [h₁ h, h₂ h])]

theorem freeLoop_iterate (hk : Stop m bp ((ptr m)^[k] p)) (hj : ∀ j < k, ¬ Stop m bp ((ptr m)^[j] p))
    (hf : k < fuel) : freeLoop m bp fuel p = some ((ptr m)^[k] p) := by
  induction k generalizing p fuel with
  | zero =>
    obtain ⟨f, rfl⟩ : ∃ f, fuel = f + 1 := ⟨fuel - 1, by omega⟩
    rw [freeLoop_succ]
    exact if_pos hk
  | succ k ih =>
    obtain ⟨f, rfl⟩ : ∃ f, fuel = f + 1 := ⟨fuel - 1, by omega⟩
    have h0 : ¬ Stop m bp p := hj 0 (Nat.succ_pos k)
    rw [freeLoop_succ, if_neg h0]
    exact ih hk (fun j hj' => hj (j + 1) (by omega)) (by omega)

/-- The loop stops only at the block behind which `bp` belongs. -/
theorem stop_iff {c : ℕ × ℕ} (h : Chain.Linked (ptr m) (size m) (l₁ ++ b :: l₂) base)
    (ho : (l₁ ++ b :: l₂).Pairwise Before) (hbase : base ≤ b.1) (hb : b.1 < bp)
    (hl₂ : ∀ d ∈ l₂, bp < d.1) (hc : c ∈ l₁ ++ b :: l₂) : Stop m bp c.1 ↔ c.1 = b.1 := by
  rcases List.mem_append.mp hc with hc | hc
  · -- the next block is not above `bp` either
    obtain ⟨a, d, rfl⟩ := List.append_of_mem hc
    rw [List.append_assoc, List.cons_append] at h ho
    have hn := h.next_eq
    obtain ⟨hd, ho'⟩ := List.pairwise_cons.mp (List.pairwise_append.mp ho).2.1
    have hcb := (hd b (by simp)).1
    have hle : c.1 < ptr m c.1 ∧ ptr m c.1 ≤ b.1 := by
      rw [hn]
      cases d with
      | nil => exact ⟨by rw [List.nil_append, first]; omega, le_rfl⟩
      | cons e d =>
        have h₁ := (hd e (by simp)).1
        have h₂ := ((List.pairwise_cons.mp ho').1 b (by simp)).1
        rw [List.cons_append, first]
        omega
    rw [Stop]
    omega
  rcases List.mem_cons.mp hc with rfl | hc
  · have hn := h.next_eq
    refine iff_of_true ?_ rfl
    rw [Stop, hn]
    cases l₂ with
    | nil => exact .inr ⟨hbase, .inl hb⟩
    | cons e l₂ => exact .inl ⟨hb, hl₂ e List.mem_cons_self⟩
  · -- `bp` is below, and it is not below `base`
    have hbp := hl₂ c hc
    obtain ⟨a, d, rfl⟩ := List.append_of_mem hc
    rw [← List.cons_append, ← List.append_assoc] at h ho
    have hn := h.next_eq
    obtain ⟨hd, -⟩ := List.pairwise_cons.mp (List.pairwise_append.mp ho).2.1
    have hle : ptr m c.1 = base ∨ c.1 < ptr m c.1 := by
      rw [hn]
      cases d with
      | nil => exact .inl rfl
      | cons e d =>
        have h₁ := (hd e (by simp)).1
        exact .inr (by rw [first]; omega)
    rw [Stop]
    omega

/-! ### `free` -/

/-- What `free` does to the memory and to `freep`, for the block `b` in the list `l`. -/
structure Released (base : ℕ) (b : ℕ × ℕ) (l : List (ℕ × ℕ)) (m m' : ByteStore) (p : ℕ) : Prop where
  ring : Ring base m' (release b l)
  freep : p ∈ ((base, 0) :: release b l).map Prod.fst
  frame : ∀ x, (∀ q ∈ b :: (base, 0) :: l, x < q.1 ∨ q.1 + 16 ≤ x) → m' x = m x

theorem free_eq {h : Heap} (hf : freeLoop h.mem bp fuel h.freep = some p) (ha : Apart bp p) :
    free fuel h (bp + 16) =
      some { h with mem := link (link h.mem bp (ptr h.mem p)) p bp, freep := p } := by
  have hptr (v : ℕ) : ptr (setSize h.mem bp v) p = ptr h.mem p :=
    (sameHeader_of fun x h₁ h₂ => setSize_out (by unfold Apart at ha; omega)).1
  simp only [free, Nat.add_sub_cancel, hf, Option.bind_eq_bind, Option.bind_some, hptr]
  rfl

/-- Linking the block with what follows, and then the one before with it. -/
theorem linked_free {q : ℕ × ℕ} (h : Chain.Linked (ptr m) (size m) (l₁ ++ q :: l₂) base)
    (ho : (l₁ ++ q :: l₂).Pairwise Before) (hq : Upto q (bp, size m bp))
    (hl₂ : ∀ d ∈ l₂, Upto (bp, size m bp) d) (hbase : base < bp) (hbp : bp < 2 ^ 64) :
    let m' := link (link m bp (ptr m q.1)) q.1 bp
    Chain.Linked (ptr m') (size m') (l₁ ++ join q (join (bp, size m bp) l₂)) base := by
  obtain ⟨h₁, ⟨hnq, hsq⟩, h₂⟩ := linked_append.mp h
  obtain ⟨-, ho₂, ho₁⟩ := List.pairwise_append.mp ho
  obtain ⟨hoq, -⟩ := List.pairwise_cons.mp ho₂
  have hq₁ : ∀ c ∈ l₁, c.1 + 16 ≤ q.1 := fun c hc => (ho₁ c hc q List.mem_cons_self).1
  have hqb : q.1 + 16 ≤ bp := hq.1
  -- the block and what follows
  have hm₁ : Chain.Linked (ptr (link m bp (ptr m q.1))) (size (link m bp (ptr m q.1)))
      (join (bp, size m bp) l₂) base := by
    rw [hnq]
    refine linked_link h₂ (fun c hc => (hl₂ c hc).apart) ?_ fun _ => by omega
    rw [← hnq]
    exact ptr_lt
  have hsq' : size (link m bp (ptr m q.1)) q.1 = q.2 :=
    ((link_header (.inr hqb)).2).trans hsq
  have hfirst : first base (join (bp, size m bp) l₂) = bp := first_join
  have hjoin : ∀ c ∈ join (bp, size m bp) l₂, Apart q.1 c.1 := by
    intro c hc
    rcases mem_join hc with hx | ⟨d, hd, rfl⟩
    · rw [hx]
      exact hq.apart
    · exact .inl (hoq c hd).1
  -- the one before and the block
  have hm₂ := linked_link (x := q.1) hm₁ hjoin (by rw [hfirst]; exact hbp) fun hnil => by
    have := hfirst
    rw [hnil, first] at this
    omega
  rw [hfirst, hsq'] at hm₂
  refine linked_append.mpr ⟨?_, hm₂⟩
  rw [first_join]
  refine h₁.congr fun c hc => ?_
  have hc₁ := hq₁ c hc
  have hs₁ : SameHeader m (link m bp (ptr m q.1)) c.1 := link_header (.inr (by omega))
  have hs₂ : SameHeader (link m bp (ptr m q.1)) (link (link m bp (ptr m q.1)) q.1 bp) c.1 :=
    link_header (.inr hc₁)
  exact ⟨hs₂.1.trans hs₁.1, hs₂.2.trans hs₁.2⟩

/-- **`free` is `release`.** -/
theorem free_release {h : Heap} (hr : Ring base h.mem l) (ho : Ordered base l)
    (hp : h.freep ∈ ((base, 0) :: l).map Prod.fst) (hbp : bp < 2 ^ 64) (hbase : Upto (base, 0) (bp, n))
    (hn : size h.mem bp = n) (hl : ∀ c ∈ l, Upto c (bp, n) ∨ Upto (bp, n) c) :
    ∃ K m' p, (∀ fuel ≥ K, free fuel h (bp + 16) = some { h with mem := m', freep := p }) ∧
      Released base (bp, n) l h.mem m' p := by
  have hall : ∀ d ∈ (base, 0) :: l, Upto d (bp, n) ∨ Upto (bp, n) d := by
    intro d hd
    rcases List.mem_cons.mp hd with rfl | hd
    · exact .inl hbase
    · exact hl d hd
  obtain ⟨l₁, q, l₂, he, hq, hl₂⟩ := exists_place ho.order hall hbase
  have hlt₂ : ∀ d ∈ l₂, bp < d.1 := fun d hd => by
    have := (hl₂ d hd).1
    simp only at this
    omega
  have hqbp : q.1 + 16 ≤ bp := hq.1
  have hbefore : (l₁ ++ q :: l₂).Pairwise Before := he ▸ ho.order
  have hring : Chain.Linked (ptr h.mem) (size h.mem) (l₁ ++ q :: l₂) base := he ▸ hr
  have hmem : q ∈ (base, 0) :: l := by
    rw [he]
    simp
  have hbq : base ≤ q.1 := by
    rcases List.mem_cons.mp hmem with rfl | hm
    · exact le_rfl
    · have := ((List.pairwise_cons.mp ho.order).1 q hm).1
      simp only at this
      omega
  -- the loop comes to `q`
  have hstop : ∀ c ∈ (base, 0) :: l, Stop h.mem bp c.1 ↔ c.1 = q.1 := fun c hc =>
    stop_iff hring hbefore hbq (by omega) hlt₂ (he ▸ hc)
  obtain ⟨k, hk, hj⟩ := Chain.Linked.search (P := Stop h.mem bp) hr hp (List.mem_map_of_mem hmem)
    ((hstop q hmem).mpr rfl)
  have hkq : (ptr h.mem)^[k] h.freep = q.1 := by
    obtain ⟨c, hc, hce⟩ := List.mem_map.mp (Chain.Linked.iterate_mem hr hp k)
    rw [← hce] at hk ⊢
    exact (hstop c hc).mp hk
  have hloop : ∀ fuel ≥ k + 1, freeLoop h.mem bp fuel h.freep = some q.1 := fun fuel hf => by
    rw [freeLoop_iterate hk hj (by omega), hkq]
  -- what it leaves is the list with the block released
  have hrel : (base, 0) :: release (bp, n) l = l₁ ++ join q (join (bp, n) l₂) := by
    have hb : ∀ c ∈ l, base < c.1 := fun c hc => by
      have := ((List.pairwise_cons.mp ho.order).1 c hc).1
      simp only at this
      omega
    rw [← release_base (by simp only; omega) hb, he, release_append hbefore (by simp only; omega) hlt₂]
  subst hn
  refine ⟨k + 1, _, q.1, fun fuel hf => free_eq (hloop fuel hf) (.inr hqbp), ?_, ?_, ?_⟩
  · rw [Ring, hrel]
    exact linked_free hring hbefore hq hl₂ (by omega) hbp
  · rw [hrel, List.map_append]
    refine List.mem_append_right _ ?_
    have := first_mem (z := base) (l := join q (join (bp, size h.mem bp) l₂)) (join_ne_nil)
    rwa [first_join] at this
  · intro x hx
    rw [link_out (hx q (List.mem_cons_of_mem _ hmem)), link_out (hx (bp, _) List.mem_cons_self)]

end Xv6.Umalloc
