import Xv6.Malloc.FreeList

/-!
# Take — how `malloc` finds a block

The loop of `malloc` is at `prevp` and at `p = prevp->s.ptr`.  Where a block of the list is large enough,
the loop comes to one before it is back at `freep`; where there is none, it is back and asks for more.
-/

namespace Xv6.Umalloc

open Chain

variable {m : ByteStore} {base prevp p n k fuel : ℕ} {h : Heap} {sbrk : Sbrk} {f : ℕ × ℕ}
  {l l₁ l₂ : List (ℕ × ℕ)}

/-- As long as no block is large enough and `freep` is not reached, the loop goes on. -/
theorem mallocLoop_iterate
    (hj : ∀ j < k, ¬ n ≤ size h.mem ((ptr h.mem)^[j + 1] p) ∧ (ptr h.mem)^[j + 1] p ≠ h.freep) :
    mallocLoop sbrk n (fuel + k) h p (ptr h.mem p) =
      mallocLoop sbrk n fuel h ((ptr h.mem)^[k] p) ((ptr h.mem)^[k + 1] p) := by
  induction k generalizing p with
  | zero => rfl
  | succ k ih =>
    have h₁ : ¬ n ≤ size h.mem (ptr h.mem p) := (hj 0 (Nat.succ_pos k)).1
    have h₂ : ptr h.mem p ≠ h.freep := (hj 0 (Nat.succ_pos k)).2
    have hstep : mallocLoop sbrk n (fuel + (k + 1)) h p (ptr h.mem p) =
        mallocLoop sbrk n (fuel + k) h (ptr h.mem p) (ptr h.mem (ptr h.mem p)) := by
      rw [← Nat.add_assoc, mallocLoop, if_neg h₁, if_neg h₂]
    rw [hstep]
    exact ih fun j hjk => hj (j + 1) (by omega)

/-- What `malloc` does to the heap when it takes `n` units from the block `f`. -/
structure Taken (base n : ℕ) (l₁ : List (ℕ × ℕ)) (f : ℕ × ℕ) (l₂ : List (ℕ × ℕ)) (h h' : Heap) : Prop where
  fits : n ≤ f.2
  ring : Ring base h'.mem (l₁ ++ (carve n f ++ l₂))
  freep : h'.freep ∈ ((base, 0) :: (l₁ ++ (carve n f ++ l₂))).map Prod.fst
  size : size h'.mem (carved n f).1 = n
  chunks : h'.chunks = h.chunks
  frame : ∀ x, (∀ q ∈ carved n f :: (base, 0) :: (l₁ ++ f :: l₂), x < q.1 ∨ q.1 + 16 ≤ x) →
    h'.mem x = h.mem x

/-- The branch of `malloc` that takes the block at `p`. -/
def take (n : ℕ) (h : Heap) (prevp p : ℕ) : ℕ × Heap :=
  if size h.mem p = n then
    (p + 16, { h with mem := setPtr h.mem prevp (ptr h.mem p), freep := prevp })
  else
    let m := setSize h.mem p (size h.mem p - n)
    let p := p + 16 * size m p
    (p + 16, { h with mem := setSize m p n, freep := prevp })

theorem mallocLoop_take (hn : n ≤ size h.mem p) :
    mallocLoop sbrk n (fuel + 1) h prevp p = some (take n h prevp p) := by
  rw [mallocLoop, if_pos hn, take]
  by_cases he : size h.mem p = n
  · rw [if_pos he, if_pos he]
  · rw [if_neg he, if_neg he]

/-- A block that is as large as was asked for leaves the list. -/
theorem linked_exact {a d : List (ℕ × ℕ)} {c f : ℕ × ℕ} {z : ℕ}
    (hr : Chain.Linked (ptr m) (size m) (a ++ c :: f :: d) z) (ho : (a ++ c :: f :: d).Pairwise Before) :
    let m' := setPtr m c.1 (ptr m f.1)
    Chain.Linked (ptr m') (size m') (a ++ c :: d) z := by
  obtain ⟨ha, ⟨-, hsc⟩, ⟨hnf, -⟩, hd⟩ := linked_append.mp hr
  obtain ⟨-, ho₂, ho₁⟩ := List.pairwise_append.mp ho
  obtain ⟨hoc, -⟩ := List.pairwise_cons.mp ho₂
  have hsame : ∀ q, Apart c.1 q → SameHeader m (setPtr m c.1 (ptr m f.1)) q := fun q hq =>
    sameHeader_of fun x h₁ h₂ => setPtr_out (by unfold Apart at hq; omega)
  refine linked_append.mpr ⟨ha.congr fun b hb => hsame b.1 ?_, ⟨?_, ?_⟩, hd.congr fun b hb => hsame b.1 ?_⟩
  · exact (ho₁ b hb c List.mem_cons_self).upto.apart.symm
  · rw [ptr_setPtr ptr_lt, hnf]
  · rw [size_setPtr_self, hsc]
  · exact (hoc b (List.mem_cons_of_mem f hb)).upto.apart

/-- A block that is larger keeps its place and loses its end. -/
theorem linked_split {a d : List (ℕ × ℕ)} {f : ℕ × ℕ} {z : ℕ}
    (hr : Chain.Linked (ptr m) (size m) (a ++ f :: d) z) (ho : (a ++ f :: d).Pairwise Before) (hn : 0 < n)
    (hlt : n < f.2) :
    let m' := setSize (setSize m f.1 (f.2 - n)) (f.1 + 16 * (f.2 - n)) n
    Chain.Linked (ptr m') (size m') (a ++ (f.1, f.2 - n) :: d) z := by
  obtain ⟨ha, ⟨hnf, hsf⟩, hd⟩ := linked_append.mp hr
  obtain ⟨-, ho₂, ho₁⟩ := List.pairwise_append.mp ho
  obtain ⟨hof, -⟩ := List.pairwise_cons.mp ho₂
  have hf : f.2 < 2 ^ 32 := by
    rw [← hsf]
    exact ByteStore.load_lt
  have hsame : ∀ q, Apart f.1 q → Apart (f.1 + 16 * (f.2 - n)) q →
      SameHeader m (setSize (setSize m f.1 (f.2 - n)) (f.1 + 16 * (f.2 - n)) n) q := fun q h₁ h₂ =>
    sameHeader_of fun x h h' => by
      unfold Apart at h₁ h₂
      rw [setSize_out (by omega), setSize_out (by omega)]
  have hside : SameHeader (setSize m f.1 (f.2 - n))
      (setSize (setSize m f.1 (f.2 - n)) (f.1 + 16 * (f.2 - n)) n) f.1 :=
    sameHeader_of fun x h h' => setSize_out (by omega)
  refine linked_append.mpr ⟨ha.congr fun b hb => hsame b.1 ?_ ?_, ⟨?_, ?_⟩, hd.congr fun b hb => hsame b.1 ?_ ?_⟩
  · exact (ho₁ b hb f List.mem_cons_self).upto.apart.symm
  · have := (ho₁ b hb f List.mem_cons_self).1
    exact .inr (by omega)
  · rw [hside.1, ptr_setSize_self, hnf]
  · rw [hside.2, size_setSize]
    exact Nat.mod_eq_of_lt (by omega)
  · exact (hof b hb).upto.apart
  · have := (hof b hb).2
    exact .inl (by omega)

theorem take_spec (hr : Ring base h.mem l) (ho : Ordered base l) (hn : 0 < n)
    (hprev : prevp ∈ ((base, 0) :: l).map Prod.fst) (hfit : n ≤ size h.mem (ptr h.mem prevp)) :
    ∃ l₁ f l₂, l = l₁ ++ f :: l₂ ∧ (take n h prevp (ptr h.mem prevp)).1 = (carved n f).1 + 16 ∧
      Taken base n l₁ f l₂ h (take n h prevp (ptr h.mem prevp)).2 := by
  -- the block before the one that is taken
  obtain ⟨c, hc, rfl⟩ := List.mem_map.mp hprev
  obtain ⟨a, d, he⟩ := List.append_of_mem hc
  have hring : Chain.Linked (ptr h.mem) (size h.mem) (a ++ c :: d) base := he ▸ hr
  have hbefore : (a ++ c :: d).Pairwise Before := he ▸ ho.order
  have hnext := hring.next_eq
  cases d with
  | nil =>
    have hs : size h.mem base = 0 := Chain.Linked.val_eq hr List.mem_cons_self
    rw [hnext, first, hs] at hfit
    omega
  | cons f d =>
    have hnext : ptr h.mem c.1 = f.1 := hnext
    have hsf : size h.mem f.1 = f.2 := hring.val_eq (b := f) (by simp)
    have hf : f.2 < 2 ^ 32 := by
      rw [← hsf]
      exact ByteStore.load_lt
    rw [hnext, hsf] at hfit
    obtain ⟨l₁, hl₁⟩ : ∃ l₁, ∀ t, (base, 0) :: (l₁ ++ t) = a ++ c :: t := by
      cases a with
      | nil =>
        rw [List.nil_append, List.cons.injEq] at he
        exact ⟨[], fun t => by rw [he.1, List.nil_append, List.nil_append]⟩
      | cons e a =>
        rw [List.cons_append, List.cons.injEq] at he
        exact ⟨a ++ [c], fun t => by rw [he.1]; simp⟩
    have hl : l = l₁ ++ f :: d := by
      have := hl₁ (f :: d)
      rw [← he] at this
      exact (List.cons.inj this).2.symm
    subst hl
    have hmem : ∀ t, c.1 ∈ ((base, 0) :: (l₁ ++ t)).map Prod.fst := fun t => by
      rw [hl₁]
      simp
    refine ⟨l₁, f, d, rfl, ?_⟩
    rw [hnext]
    by_cases hex : f.2 = n
    · have hg : carved n f = f := by rw [carved, hex, Nat.sub_self]; exact Prod.ext rfl hex.symm
      have hc : carve n f = [] := if_pos hex
      rw [take, if_pos (hsf.trans hex), hg]
      refine ⟨rfl, ⟨hfit, ?_, ?_, ?_, rfl, ?_⟩⟩
      · rw [hc, List.nil_append, Ring, hl₁]
        exact linked_exact hring hbefore
      · exact hmem _
      · rw [hg]
        have ha : c.1 + 16 ≤ f.1 :=
          ((List.pairwise_cons.mp (List.pairwise_append.mp hbefore).2.1).1 f List.mem_cons_self).1
        refine ((sameHeader_of fun x h₁ h₂ => setPtr_out (.inr (by omega))).2.trans hsf).trans hex
      · intro x hx
        have hcx := hx c (List.mem_cons_of_mem _ (by rw [hl₁]; simp))
        exact setPtr_out hcx
    · have hc : carve n f = [(f.1, f.2 - n)] := if_neg hex
      have hs : size (setSize h.mem f.1 (f.2 - n)) f.1 = f.2 - n := by
        rw [size_setSize]
        exact Nat.mod_eq_of_lt (by omega)
      rw [take, if_neg (by rwa [hsf]), hsf]
      simp only [hs]
      refine ⟨rfl, ⟨hfit, ?_, ?_, ?_, rfl, ?_⟩⟩
      · rw [hc, Ring]
        exact linked_split (a := (base, 0) :: l₁) hr ho.order hn (by omega)
      · exact hmem _
      · rw [carved, size_setSize]
        exact Nat.mod_eq_of_lt (by omega)
      · intro x hx
        have hfx := hx f (List.mem_cons_of_mem _ (by rw [hl₁]; simp))
        have hgx := hx (carved n f) List.mem_cons_self
        exact (setSize_out hgx).trans (setSize_out hfx)

/-- Where a block is large enough, the loop comes to one and takes it. -/
theorem mallocLoop_fit (sbrk : Sbrk) (hr : Ring base h.mem l) (ho : Ordered base l) (hn : 0 < n)
    (hp : h.freep ∈ ((base, 0) :: l).map Prod.fst) (hfit : ∃ c ∈ l, n ≤ c.2) :
    ∃ K h' l₁ f l₂, l = l₁ ++ f :: l₂ ∧ Taken base n l₁ f l₂ h h' ∧
      ∀ fuel ≥ K, mallocLoop sbrk n fuel h h.freep (ptr h.mem h.freep) =
        some ((carved n f).1 + 16, h') := by
  obtain ⟨c, hc, hcn⟩ := hfit
  have hc' : c ∈ (base, 0) :: l := List.mem_cons_of_mem _ hc
  have hsc : n ≤ size h.mem c.1 := by rwa [Chain.Linked.val_eq hr hc']
  obtain ⟨k, hk, hj⟩ := Chain.Linked.search_around (P := fun p => n ≤ size h.mem p) hr hp
    (List.mem_map_of_mem hc') hsc
  have hstop : n ≤ size h.mem (ptr h.mem ((ptr h.mem)^[k] h.freep)) := by
    rwa [← Function.iterate_succ_apply' (ptr h.mem)]
  obtain ⟨l₁, f, l₂, hl, hap, ht⟩ := take_spec hr ho hn (Chain.Linked.iterate_mem hr hp k) hstop
  refine ⟨k + 1, _, l₁, f, l₂, hl, ht, fun fuel hf => ?_⟩
  obtain ⟨g, rfl⟩ : ∃ g, fuel = g + 1 + k := ⟨fuel - 1 - k, by omega⟩
  rw [mallocLoop_iterate hj, Function.iterate_succ_apply', mallocLoop_take hstop, ← hap]

/-- Where no block is, the loop is back at `freep` and asks for more. -/
theorem mallocLoop_more (sbrk : Sbrk) (hr : Ring base h.mem l) (hn : 0 < n)
    (hp : h.freep ∈ ((base, 0) :: l).map Prod.fst) (hfit : ∀ c ∈ l, c.2 < n) :
    ∃ k, ∀ fuel, mallocLoop sbrk n (fuel + 1 + k) h h.freep (ptr h.mem h.freep) =
      match morecore fuel sbrk h n with
      | none => none
      | some (p, h) => if p = 0 then some (0, h) else mallocLoop sbrk n fuel h p (ptr h.mem p) := by
  have hsmall : ∀ p ∈ ((base, 0) :: l).map Prod.fst, ¬ n ≤ size h.mem p := by
    intro p hp
    obtain ⟨c, hc, rfl⟩ := List.mem_map.mp hp
    rw [Chain.Linked.val_eq hr hc]
    rcases List.mem_cons.mp hc with rfl | hc
    · exact Nat.not_le.mpr hn
    · exact Nat.not_le.mpr (hfit c hc)
  obtain ⟨k, hk, hj⟩ := Chain.Linked.search_around (P := fun p => p = h.freep) hr hp hp rfl
  refine ⟨k, fun fuel => ?_⟩
  rw [mallocLoop_iterate fun j hjk => ⟨hsmall _ (Chain.Linked.iterate_mem hr hp _), (hj j hjk).2⟩, mallocLoop,
    if_neg (hsmall _ (Chain.Linked.iterate_mem hr hp _))]
  exact if_pos hk

end Xv6.Umalloc
