import Xv6.Kernel.Exec
import Xv6.Mem.Fork

/-!
# Image — page tables of processes and their contents (`proc.c`, `exec.c`)

`Shape lf sz`: below `TRAPFRAME` only pages below `sz` are mapped, above it only the trapframe and
the trampoline; `Full lf sz`: all pages below `sz` are.  `Built` says this of a page table that is
under construction since the memory `s₀`; every loop of `exec` keeps it.
-/

namespace Xv6

structure Shape (lf : ℕ → Pte) (sz : ℕ) : Prop where
  le : sz ≤ TRAPFRAME
  user : ∀ v < UPAGES, (lf v).has PTE_V = true → v < pages sz
  frame : (lf UPAGES).has PTE_V = true
  trampoline : (lf (UPAGES + 1)).has PTE_V = true
  top : ∀ v, UPAGES + 2 ≤ v → v < VPAGES → (lf v).has PTE_V = false

def Full (lf : ℕ → Pte) (sz : ℕ) : Prop := ∀ v < pages sz, (lf v).has PTE_V = true

/-- No page is copy-on-write. -/
def Plain (lf : ℕ → Pte) : Prop :=
  ∀ v < UPAGES, (lf v).has PTE_V = true → (lf v).has PTE_COW = false

section

variable {lf lf' : ℕ → Pte} {sz newsz v a n : ℕ} {perm : Pte} {N : Multiset ℕ}

theorem pages_max (a b : ℕ) : pages (max a b) = max (pages a) (pages b) := by
  unfold pages
  omega

theorem pages_min (a b : ℕ) : pages (min a b) = min (pages a) (pages b) := by
  unfold pages
  omega

theorem Shape.congr (h : Shape lf sz) (hl : ∀ v < VPAGES, (lf' v).has PTE_V = (lf v).has PTE_V) :
    Shape lf' sz := by
  refine ⟨h.le, fun v hv hV => ?_, ?_, ?_, fun v hv hV => ?_⟩
  · rw [hl v (lt_trans hv (by decide))] at hV
    exact h.user v hv hV
  · rw [hl _ (by decide)]
    exact h.frame
  · rw [hl _ (by decide)]
    exact h.trampoline
  · rw [hl v hV]
    exact h.top v hv hV

theorem Full.congr (h : Full lf sz) (hsz : sz ≤ TRAPFRAME)
    (hl : ∀ v < VPAGES, (lf' v).has PTE_V = (lf v).has PTE_V) : Full lf' sz := by
  intro v hv
  rw [hl v (lt_of_lt_of_le hv ((pages_le hsz).trans (by decide)))]
  exact h v hv

theorem Plain.sameMap (h : Plain lf) (hs : SameMap lf lf') : Plain lf' := by
  intro v hv hV
  rcases hs v with he | ⟨-, he⟩
  · rw [he] at hV ⊢
    exact h v hv hV
  · rw [he]
    exact zero_has _

/-- The pages below the smaller size are left. -/
theorem Shape.clear (h : Shape lf sz) :
    Shape (clearPages lf (pages newsz) (pages sz - pages newsz)) (min sz newsz) := by
  have hle := pages_le h.le
  have hkeep : ∀ v, UPAGES ≤ v → clearPages lf (pages newsz) (pages sz - pages newsz) v = lf v := by
    intro v hv
    exact if_neg (by omega)
  refine ⟨(min_le_left _ _).trans h.le, fun v hv hV => ?_, ?_, ?_, fun v hv hv' => ?_⟩
  · rw [pages_min]
    unfold clearPages at hV
    split_ifs at hV with hin
    · rw [zero_has] at hV
      cases hV
    · have := h.user v hv hV
      omega
  · rw [hkeep _ le_rfl]
    exact h.frame
  · rw [hkeep _ (Nat.le_succ _)]
    exact h.trampoline
  · rw [hkeep v (by omega)]
    exact h.top v hv hv'

theorem Full.clear (h : Full lf sz) :
    Full (clearPages lf (pages newsz) (pages sz - pages newsz)) (min sz newsz) := by
  intro v hv
  rw [pages_min] at hv
  rw [clearPages, if_neg (by omega)]
  exact h v (by omega)

variable [Image]

/-- The entry of a fresh page is valid. -/
theorem Mapped.V (h : Mapped perm lf lf' a n N) (hv : a ≤ v) (hv' : v < a + n) :
    (lf' v).has PTE_V = true := by
  obtain ⟨p, -, -, he⟩ := h.page v hv hv'
  rw [he]
  exact has_or_self (by decide)

/-- Fresh pages up to the larger size. -/
theorem Shape.map (h : Shape lf sz) (hm : Mapped perm lf lf' (pages sz) (pages newsz - pages sz) N)
    (hle : max sz newsz ≤ TRAPFRAME) : Shape lf' (max sz newsz) := by
  have hle' := pages_le hle
  rw [pages_max] at hle'
  have hkeep : ∀ v, UPAGES ≤ v → lf' v = lf v := fun v hv => hm.same v (by omega)
  refine ⟨hle, fun v hv hV => ?_, ?_, ?_, fun v hv hv' => ?_⟩
  · rw [pages_max]
    by_cases hin : pages sz ≤ v ∧ v < pages newsz
    · omega
    · rw [hm.same v (by omega)] at hV
      have := h.user v hv hV
      omega
  · rw [hkeep _ le_rfl]
    exact h.frame
  · rw [hkeep _ (Nat.le_succ _)]
    exact h.trampoline
  · rw [hkeep v (by omega)]
    exact h.top v hv hv'

theorem Full.map (h : Full lf sz) (hm : Mapped perm lf lf' (pages sz) (pages newsz - pages sz) N) :
    Full lf' (max sz newsz) := by
  intro v hv
  rw [pages_max] at hv
  by_cases hin : pages sz ≤ v
  · exact hm.V hin (by omega)
  · rw [hm.same v (by omega)]
    exact h v (by omega)

theorem Plain.map (h : Plain lf) (hperm : UserPerm perm)
    (hm : Mapped (PTE_R ||| PTE_U ||| perm) lf lf' a n N) : Plain lf' := by
  intro v hv hV
  by_cases hin : a ≤ v ∧ v < a + n
  · obtain ⟨p, -, -, he⟩ := hm.page v hin.1 hin.2
    rw [he]
    exact userEntry_COW hperm
  · rw [hm.same v (by omega)] at hV ⊢
    exact h v hv hV

end

/-! ## Page tables of processes -/

section

variable {m m' m'' : ByteStore} {R K L : Multiset ℕ}

theorem Keeps.foot_eq (h : Keeps m m' (Xv6.foot m R K L)) :
    Xv6.foot m' R K L = Xv6.foot m R K L := by
  rw [Xv6.foot, h.left.left.tabs_eq, h.left.left.urefs_eq]

theorem Keeps.foot_trans (h : Keeps m m' (Xv6.foot m R K L))
    (h' : Keeps m' m'' (Xv6.foot m' R K L)) : Keeps m m'' (Xv6.foot m R K L) := by
  rw [h.foot_eq] at h'
  exact h.trans h'

theorem Keeps.foot_mono {K' : Multiset ℕ} (h : Keeps m m' (Xv6.foot m R K' L)) (hK : K ≤ K') :
    Keeps m m' (Xv6.foot m R K L) :=
  h.mono fun _ hp => Multiset.mem_of_le (add_le_add_left (add_le_add_right hK _) _) hp

end

variable [Image] {s s₀ s' : Phys} {r sz : ℕ} {R K L : Multiset ℕ}

/-- **`proc_freepagetable`** gives back a page table with all that it maps below `sz`. -/
theorem Heap.proc_freepagetable (h : Heap s (r ::ₘ R) K L) (hsz : sz ≤ TRAPFRAME)
    (hf : Xv6.proc_freepagetable r sz s = .ok s') :
    Heap s' R K L ∧ Keeps s.mem s'.mem (foot s.mem R K L) := by
  obtain ⟨s₁, h1, hf⟩ := bind_ok hf
  obtain ⟨s₂, h2, hf⟩ := bind_ok hf
  obtain ⟨h₁, hk₁, -⟩ := h.unmapTop (by decide) (by decide) h1
  obtain ⟨h₂, hk₂, -⟩ := h₁.unmapTop (by decide) (by decide) h2
  obtain ⟨h₃, hk₃, -⟩ := h₂.uvmfree hsz hf
  exact ⟨h₃, (hk₁.foot_trans hk₂).foot_trans hk₃⟩

/-- **`proc_pagetable`** makes a page table with trapframe and trampoline, or none. -/
theorem Heap.proc_pagetable {trapframe pt : ℕ} (h : Heap s R K L)
    (hp : Xv6.proc_pagetable trapframe s = .ok (pt, s')) :
    Keeps s.mem s'.mem (foot s.mem R K L) ∧ ((pt = 0 ∧ Heap s' R K L) ∨
      (pt ≠ 0 ∧ Heap s' (pt ::ₘ R) K L ∧ Shape (leaf s'.mem pt) 0)) := by
  unfold Xv6.proc_pagetable at hp
  cases hc : Xv6.uvmcreate s with
  | mk o s₁ =>
    rw [hc] at hp
    rcases h.uvmcreate hc with ⟨rfl, rfl, -⟩ | ⟨r, rfl, hok, h₁, hk₁, hz⟩
    · cases hp
      exact ⟨Keeps.refl _ _, Or.inl ⟨rfl, h⟩⟩
    · dsimp only at hp
      obtain ⟨⟨r₁, s₂⟩, hm₁, hp⟩ := bind_ok hp
      obtain ⟨h₂, hk₂, hc₂⟩ := h₁.mapTop (by decide) (by decide) (by decide) (by decide) (by decide) hm₁
      have hk₂ := hk₁.foot_trans hk₂
      rcases hc₂ with ⟨rfl, -⟩ | ⟨rfl, -, hl₂⟩
      · simp only [Int.reduceNeg, Left.neg_neg_iff, zero_lt_one, if_true] at hp
        obtain ⟨s₃, hu, hp⟩ := bind_ok hp
        cases hp
        obtain ⟨h₃, hk₃, -⟩ := h₂.uvmfree (Nat.zero_le _) hu
        exact ⟨hk₂.foot_trans hk₃, Or.inl ⟨rfl, h₃⟩⟩
      · simp only [lt_self_iff_false, if_false] at hp
        obtain ⟨⟨r₂, s₃⟩, hm₂, hp⟩ := bind_ok hp
        obtain ⟨h₃, hk₃, hc₃⟩ :=
          h₂.mapTop (by decide) (by decide) (by decide) (by decide) (by decide) hm₂
        have hk₃ := hk₂.foot_trans hk₃
        rcases hc₃ with ⟨rfl, -⟩ | ⟨rfl, -, hl₃⟩
        · simp only [Int.reduceNeg, Left.neg_neg_iff, zero_lt_one, if_true] at hp
          obtain ⟨s₄, hu, hp⟩ := bind_ok hp
          obtain ⟨s₅, hu', hp⟩ := bind_ok hp
          cases hp
          obtain ⟨h₄, hk₄, -⟩ := h₃.unmapTop (by decide) (by decide) hu
          obtain ⟨h₅, hk₅, -⟩ := h₄.uvmfree (Nat.zero_le _) hu'
          exact ⟨(hk₃.foot_trans hk₄).foot_trans hk₅, Or.inl ⟨rfl, h₅⟩⟩
        · simp only [lt_self_iff_false, if_false] at hp
          cases hp
          refine ⟨hk₃, Or.inr ⟨hok.pos.ne', h₃, ?_⟩⟩
          have hleaf : ∀ v < VPAGES, leaf s'.mem pt v = if v = UPAGES then
              PA2PTE trapframe ||| (PTE_R ||| PTE_W) ||| PTE_V else if v = UPAGES + 1 then
              PA2PTE Image.trampoline ||| (PTE_R ||| PTE_X) ||| PTE_V else 0#64 := by
            intro v hv
            rw [hl₃ v hv, Function.update_apply, show TRAPFRAME / 4096 = UPAGES from rfl]
            split_ifs with h1 h2
            · rfl
            · rw [hl₂ v hv, Function.update_apply]
              exact if_pos h2
            · rw [hl₂ v hv, Function.update_apply, hz v]
              exact if_neg h2
          refine ⟨Nat.zero_le _, fun v hv hV => ?_, ?_, ?_, fun v hv hv' => ?_⟩
          · rw [hleaf v (lt_trans hv (by decide)), if_neg (by omega), if_neg (by omega), zero_has] at hV
            cases hV
          · rw [hleaf UPAGES (by decide), if_pos rfl]
            exact has_or_self (by decide)
          · rw [hleaf (UPAGES + 1) (by decide), if_neg (by decide), if_pos rfl]
            exact has_or_self (by decide)
          · rw [hleaf v hv', if_neg (by omega), if_neg (by omega), zero_has]

/-! ## Arguments of `exec` -/

section

omit [Image]

variable {src : ℕ → UInt8} {bytes : List UInt8} {n max : ℕ}

theorem takeString_length {null : Bool} (h : takeString src n = (bytes, null)) :
    bytes.length + (if null then 1 else 0) ≤ n ∧ (null = false → bytes.length = n) := by
  induction n generalizing src bytes with
  | zero =>
    cases h
    exact ⟨le_rfl, fun _ => rfl⟩
  | succ n ih =>
    unfold takeString at h
    split_ifs at h with h0
    · cases h
      exact ⟨by simp, fun hn => by cases hn⟩
    · cases ht : takeString (fun i => src (i + 1)) n with
      | mk rest null' =>
        rw [ht] at h
        cases h
        obtain ⟨h1, h2⟩ := ih ht
        refine ⟨?_, fun hn => ?_⟩
        · rw [List.length_cons]
          omega
        · rw [List.length_cons, h2 hn]

theorem copyinstrLoop_length {pagetable rounds srcva : ℕ} {s : Phys}
    (h : copyinstrLoop pagetable s rounds srcva max = (bytes, true)) : bytes.length < max := by
  induction rounds generalizing srcva max bytes with
  | zero => cases h
  | succ rounds ih =>
    unfold copyinstrLoop at h
    dsimp only at h
    split_ifs at h
    · cases h
    · cases h
    · split at h
      · rename_i bytes' ht
        cases h
        have := (takeString_length ht).1
        simp only [if_true] at this
        omega
      · rename_i bytes' ht
        cases hr : copyinstrLoop pagetable s rounds (PGROUNDDOWN srcva + PGSIZE)
            (max - min (PGSIZE - (srcva - PGROUNDDOWN srcva)) max) with
        | mk rest null =>
          rw [hr] at h
          cases h
          have h1 := (takeString_length ht).2 rfl
          have h2 := ih hr
          rw [List.length_append]
          dsimp only at h2 ⊢
          omega

/-- A string that `copyinstr` has found fits with its NUL. -/
theorem copyinstr_length {pagetable srcva : ℕ} {s : Phys}
    (h : copyinstr pagetable srcva max s = some bytes) : bytes.length < max := by
  unfold copyinstr at h
  split at h
  · rename_i bytes' hl
    cases h
    exact copyinstrLoop_length hl
  · cases h

end

/-- The pages of the arguments. -/
abbrev argPages (argv : List (ℕ × List UInt8)) : Multiset ℕ :=
  ((argv.map Prod.fst : List ℕ) : Multiset ℕ)

theorem Heap.fetchArgs {p : Proc} {uargv n i : ℕ} {ok : Bool} {argv : List (ℕ × List UInt8)}
    (h : Heap s R K L) (hf : Xv6.fetchArgs p uargv n i s = (ok, argv, s')) :
    Heap s' R (argPages argv + K) L ∧ Keeps s.mem s'.mem (foot s.mem R K L) := by
  induction n generalizing s K i argv with
  | zero =>
    cases hf
    exact ⟨by simpa [argPages] using h, Keeps.refl _ _⟩
  | succ n ih =>
    unfold Xv6.fetchArgs at hf
    split at hf
    · cases hf
      exact ⟨by simpa [argPages] using h, Keeps.refl _ _⟩
    · split_ifs at hf
      · cases hf
        exact ⟨by simpa [argPages] using h, Keeps.refl _ _⟩
      · split at hf
        · rename_i s₁ hk
          cases hf
          rcases h.kalloc hk with ⟨-, rfl, -⟩ | ⟨p, hp, -⟩
          · exact ⟨by simpa [argPages] using h, Keeps.refl _ _⟩
          · cases hp
        · rename_i page s₁ hk
          rcases h.kalloc hk with ⟨hp, -⟩ | ⟨q, hq, -, -, h₁, hk₁⟩
          · cases hp
          · cases hq
            split at hf
            · cases hf
              exact ⟨by simpa [argPages] using h₁, hk₁⟩
            · rename_i str hs
              have hlen := copyinstr_length hs
              obtain ⟨h₂, hk₂⟩ := h₁.memmove_page (n := str.length + 1)
                 hlen
              cases hr : Xv6.fetchArgs p uargv n (i + 1)
                  (s₁.memmove page (str.length + 1) fun k => str.getD k 0) with
              | mk ok' x =>
                obtain ⟨argv', t⟩ := x
                rw [hr] at hf
                cases hf
                obtain ⟨h₃, hk₃⟩ := ih h₂ hr
                refine ⟨?_, ?_⟩
                · rw [argPages, List.map_cons, ← Multiset.cons_coe, Multiset.cons_add,
                    ← Multiset.add_cons]
                  exact h₃
                · exact (hk₁.foot_trans hk₂).foot_trans (hk₃.foot_mono (Multiset.le_cons_self K page))

theorem Heap.freePages {pages : List ℕ} (h : Heap s R ((pages : Multiset ℕ) + K) L)
    (hf : Xv6.freePages pages s = .ok s') :
    Heap s' R K L ∧ Keeps s.mem s'.mem (foot s.mem R K L) := by
  induction pages generalizing s with
  | nil =>
    cases hf
    exact ⟨by simpa [argPages] using h, Keeps.refl _ _⟩
  | cons page pages ih =>
    obtain ⟨s₁, hk, hf⟩ := bind_ok hf
    rw [← Multiset.cons_coe, Multiset.cons_add] at h
    obtain ⟨h₁, hk₁⟩ := h.kfree hk
    obtain ⟨h₂, hk₂⟩ := ih h₁ hf
    exact ⟨h₂, (hk₁.foot_mono (Multiset.le_add_left K _)).foot_trans hk₂⟩

/-- The pages of the arguments can be freed. -/
theorem Heap.freePages_total {pages : List ℕ} (h : Heap s R ((pages : Multiset ℕ) + K) L) :
    ∃ s', Xv6.freePages pages s = .ok s' := by
  induction pages generalizing s with
  | nil => exact ⟨s, rfl⟩
  | cons page pages ih =>
    rw [← Multiset.cons_coe, Multiset.cons_add] at h
    have hA := h.owns.alloc
    rw [Multiset.add_cons, Multiset.cons_add] at hA
    obtain ⟨s₁, hk, -⟩ := kfree_spec hA
    obtain ⟨s', hs'⟩ := ih (h.kfree hk).1
    refine ⟨s', ?_⟩
    unfold Xv6.freePages
    rw [hk, ok_bind, hs']

/-! ## Building an image -/

/-- The page table `r`, made since `s₀`, maps a process of size `sz` and shares no page. -/
structure Built (s₀ s : Phys) (r sz : ℕ) (R K L : Multiset ℕ) : Prop where
  heap : Heap s (r ::ₘ R) K L
  keeps : Keeps s₀.mem s.mem (foot s₀.mem R K L)
  shape : Shape (leaf s.mem r) sz
  full : Full (leaf s.mem r) sz
  plain : Plain (leaf s.mem r)

section

variable {src : ℕ → UInt8} {n va newsz : ℕ} {perm : Pte} {lf : ℕ → Pte} {res : ℤ}

/-- A new page table is an image without pages. -/
theorem Heap.emptyImage {trapframe pt : ℕ} (h : Heap s R K L)
    (hp : Xv6.proc_pagetable trapframe s = .ok (pt, s')) (h0 : pt ≠ 0) : Built s s' pt 0 R K L := by
  obtain ⟨hk, ⟨hz, -⟩ | ⟨-, h₁, hsh⟩⟩ := h.proc_pagetable hp
  · exact absurd hz h0
  · exact ⟨h₁, hk, hsh, fun v hv => absurd hv (by simp [pages]), fun v hv hV =>
      absurd (hsh.user v hv hV) (by simp [pages])⟩

/-- A change of contents or of permissions. -/
theorem Built.next (h : Built s₀ s r sz R K L) (hh : Heap s' (r ::ₘ R) K L)
    (hk : Keeps s.mem s'.mem (foot s.mem R K L))
    (hV : ∀ v < VPAGES, (leaf s'.mem r v).has PTE_V = (leaf s.mem r v).has PTE_V)
    (hC : Plain (leaf s'.mem r)) : Built s₀ s' r sz R K L :=
  ⟨hh, h.keeps.foot_trans hk, h.shape.congr hV, h.full.congr h.shape.le hV, hC⟩

omit [Image] in
theorem Plain.congr {lf' : ℕ → Pte} (h : Plain lf) (hl : ∀ v < VPAGES, lf' v = lf v) : Plain lf' := by
  intro v hv
  rw [hl v (lt_trans hv (by decide))]
  exact h v hv

omit [Image] in
theorem Plain.uncowed {lf' : ℕ → Pte} (h : Plain lf) (hu : Uncowed lf lf') : Plain lf' := by
  intro v hv hV
  rcases hu v with he | ⟨-, -, -, p, he⟩
  · rw [he] at hV ⊢
    exact h v hv hV
  · rw [he]
    exact uncowed_COW

theorem Built.uvmalloc {res : ℕ} (h : Built s₀ s r sz R K L) (hperm : UserPerm perm)
    (hu : Xv6.uvmalloc r sz newsz perm s = .ok (res, s')) :
    (res = 0 ∧ Built s₀ s' r sz R K L) ∨ (res ≠ 0 ∧ Built s₀ s' r res R K L) := by
  obtain ⟨hh, hk, -, hc⟩ := h.heap.uvmalloc hperm h.shape.le (Or.inl h.shape.frame) hu
  have hk := h.keeps.foot_trans hk
  cases hc with
  | done lf' N hleaf hres hle hmap hzero =>
    have hle : max sz newsz ≤ TRAPFRAME := hres ▸ hle
    have hV : ∀ v < VPAGES, (leaf s'.mem r v).has PTE_V = (lf' v).has PTE_V := fun v hv => by
      rw [hleaf v hv]
    have hB : Built s₀ s' r (max sz newsz) R K L :=
      ⟨hh, hk, (h.shape.map hmap hle).congr hV, (h.full.map hmap).congr hle hV,
        (h.plain.map hperm hmap).congr hleaf⟩
    by_cases h0 : res = 0
    · have hsz : max sz newsz = sz := by omega
      rw [hsz] at hB
      exact Or.inl ⟨h0, hB⟩
    · exact Or.inr ⟨h0, hres ▸ hB⟩
  | failed lf' hleaf hres hsame =>
    have hV : ∀ v < VPAGES, (leaf s'.mem r v).has PTE_V = (leaf s.mem r v).has PTE_V := fun v hv => by
      rw [hleaf v hv, hsame.V]
    exact Or.inl ⟨hres, hh, hk, h.shape.congr hV, h.full.congr h.shape.le hV,
      (h.plain.sameMap hsame).congr hleaf⟩

/-- A write to the page that `walkaddr` has found. -/
theorem Built.write (h : Built s₀ s r sz R K L) (h0 : walkaddr r va s ≠ 0) (hn : n ≤ 4096) :
    Built s₀ (s.memmove (walkaddr r va s) n src) r sz R K L := by
  have hS := h.heap.space
  obtain ⟨hva, hV, hU, he⟩ := walkaddr_spec hS.tree h0
  have hv : va / 4096 < UPAGES := by
    by_contra hge
    rw [hS.user.top _ (not_lt.mp hge) (pageNumber_lt hva)] at hU
    cases hU
  have hn' : 0 + n ≤ 4096 := by omega
  obtain ⟨hS', hk, -⟩ := poke_spec hS hv hV (h.plain _ hv hV) hn' src
  rw [Nat.add_zero] at hS' hk
  rw [he]
  have hk' : Keeps s.mem (s.memmove (PTE2PA (leaf s.mem r (va / 4096))) n src).mem
      (foot s.mem R K L) := hk
  refine h.next (h.heap.put_own hk'.left.left hS' fun _ _ hp => hp) hk' (fun v hv => ?_)
    (h.plain.congr hS'.tree.leaf)
  rw [hS'.tree.leaf v hv]

theorem Built.copyout {dstva len : ℕ} (h : Built s₀ s r sz R K L)
    (hc : Xv6.copyout r dstva src len s = .ok (res, s')) : Built s₀ s' r sz R K L := by
  obtain ⟨lf', n, hW, -⟩ := copyout_spec h.heap.space hc
  obtain ⟨hh, hk⟩ := hW.poked.heap h.heap hW.space
  refine h.next hh hk (fun v hv => ?_) ((h.plain.uncowed hW.poked.uncowed).congr hW.space.tree.leaf)
  rw [hW.space.tree.leaf v hv]
  exact hW.poked.uncowed.V v

theorem Built.uvmclear (h : Built s₀ s r sz R K L) (hc : Xv6.uvmclear r va s = .ok s') :
    Built s₀ s' r sz R K L := by
  obtain ⟨hh, hk, -, hl⟩ := h.heap.uvmclear hc
  have hhas : ∀ f, f &&& ~~~PTE_U = f → ∀ v < VPAGES,
      (leaf s'.mem r v).has f = (leaf s.mem r v).has f := by
    intro f hf v hv
    rw [hl v hv, Function.update_apply]
    split_ifs with he
    · rw [he, guard_has hf]
    · rfl
  refine h.next hh hk (hhas PTE_V (by decide)) fun v hv hV => ?_
  have hv' : v < VPAGES := lt_trans hv (by decide)
  rw [hhas PTE_V (by decide) v hv'] at hV
  rw [hhas PTE_COW (by decide) v hv']
  exact h.plain v hv hV

theorem Built.loadseg {ip : Inode} {offset len rounds i : ℕ} (h : Built s₀ s r sz R K L)
    (hl : loadsegLoop r va ip offset len rounds i s = .ok (res, s')) : Built s₀ s' r sz R K L := by
  induction rounds generalizing s i with
  | zero =>
    cases hl
    exact h
  | succ rounds ih =>
    unfold loadsegLoop at hl
    dsimp only at hl
    split_ifs at hl with h0 hn hd hd
    · cases hl
      refine h.write h0 ((ip.length_le _ _).trans ?_)
      simp only [PGSIZE] at hn
      omega
    · refine ih (h.write h0 ((ip.length_le _ _).trans ?_)) hl
      simp only [PGSIZE] at hn
      omega
    · cases hl
      exact h.write h0 (ip.length_le _ _)
    · exact ih (h.write h0 (ip.length_le _ _)) hl

omit [Image] in
theorem userPerm_flags2perm (flags : ℕ) : UserPerm (flags2perm flags) := by
  unfold flags2perm
  split_ifs <;> decide

theorem Built.loadLoop {ip : Inode} {off : ℕ} {ok : Bool} (h : Built s₀ s r sz R K L)
    (hl : Xv6.loadLoop r ip n off sz s = .ok (ok, newsz, s')) : Built s₀ s' r newsz R K L := by
  induction n generalizing s off sz with
  | zero =>
    cases hl
    exact h
  | succ n ih =>
    unfold Xv6.loadLoop at hl
    dsimp only at hl
    split_ifs at hl
    · cases hl
      exact h
    · exact ih h hl
    · cases hl
      exact h
    · obtain ⟨⟨sz1, s₁⟩, hu, hl⟩ := bind_ok hl
      rcases h.uvmalloc (userPerm_flags2perm _) hu with ⟨rfl, h₁⟩ | ⟨h0, h₁⟩
      · simp only [if_true] at hl
        cases hl
        exact h₁
      · simp only [h0, if_false] at hl
        obtain ⟨⟨r₁, s₂⟩, hs, hl⟩ := bind_ok hl
        have h₂ := h₁.loadseg hs
        dsimp only at hl
        split_ifs at hl
        · cases hl
          exact h₂
        · exact ih h₂ hl

theorem Built.pushLoop {stackbase sp : ℕ} {argv : List (List UInt8)} {ustack : List ℕ}
    {o : Option (ℕ × List ℕ)} (h : Built s₀ s r sz R K L)
    (hp : Xv6.pushLoop r stackbase argv sp ustack s = .ok (o, s')) : Built s₀ s' r sz R K L := by
  induction argv generalizing s sp ustack with
  | nil =>
    cases hp
    exact h
  | cons arg argv ih =>
    unfold Xv6.pushLoop at hp
    dsimp only at hp
    split_ifs at hp
    · cases hp
      exact h
    · cases hp
      exact h
    · obtain ⟨⟨r₁, s₁⟩, hc, hp⟩ := bind_ok hp
      have h₁ := h.copyout hc
      dsimp only at hp
      split_ifs at hp
      · cases hp
        exact h₁
      · exact ih h₁ hp

/-- The size rounded up to a page boundary. -/
theorem Built.roundup (h : Built s₀ s r sz R K L) : Built s₀ s r (PGROUNDUP sz) R K L := by
  have hle : sz ≤ 274877898752 := h.shape.le
  have he : PGROUNDUP sz = pages sz * 4096 := PGROUNDUP_eq (by omega)
  have hp : pages (PGROUNDUP sz) = pages sz := by
    rw [he]
    unfold pages
    omega
  refine ⟨h.heap, h.keeps, ⟨?_, fun v hv hV => ?_, h.shape.frame, h.shape.trampoline, h.shape.top⟩,
    fun v hv => h.full v (hp ▸ hv), h.plain⟩
  · rw [he]
    show _ ≤ 274877898752
    unfold pages
    omega
  · rw [hp]
    exact h.shape.user v hv hV

theorem Built.setupStack {argv : List (List UInt8)} {o : Option ℕ} (h : Built s₀ s r sz R K L)
    (hs : Xv6.setupStack r sz argv s = .ok (o, newsz, s')) : Built s₀ s' r newsz R K L := by
  have h := h.roundup
  unfold Xv6.setupStack at hs
  dsimp only at hs
  obtain ⟨⟨sz1, s₁⟩, hu, hs⟩ := bind_ok hs
  rcases h.uvmalloc (by decide) hu with ⟨rfl, h₁⟩ | ⟨h0, h₁⟩
  · simp only [if_true] at hs
    cases hs
    exact h₁
  · simp only [h0, if_false] at hs
    obtain ⟨s₂, hc, hs⟩ := bind_ok hs
    obtain ⟨⟨o₁, s₃⟩, hp, hs⟩ := bind_ok hs
    have h₃ := (h₁.uvmclear hc).pushLoop hp
    cases o₁ with
    | none =>
      cases hs
      exact h₃
    | some x =>
      dsimp only at hs
      split_ifs at hs
      · cases hs
        exact h₃
      · obtain ⟨⟨r₁, s₄⟩, hc, hs⟩ := bind_ok hs
        have h₄ := h₃.copyout hc
        dsimp only at hs
        split_ifs at hs
        all_goals
          cases hs
          exact h₄

/-- **Building an image** takes pages for it only; without a page table it takes none. -/
theorem Heap.buildImage {trapframe pt : ℕ} {ip : Inode} {argv : List (List UInt8)} {o : Option ℕ}
    (h : Heap s R K L) (hb : Xv6.buildImage trapframe ip argv s = .ok (o, pt, sz, s')) :
    (pt = 0 ∧ o = none ∧ Heap s' R K L ∧ Keeps s.mem s'.mem (foot s.mem R K L)) ∨
      (pt ≠ 0 ∧ Built s s' pt sz R K L) := by
  unfold Xv6.buildImage at hb
  dsimp only at hb
  split_ifs at hb
  · cases hb
    exact Or.inl ⟨rfl, rfl, h, Keeps.refl _ _⟩
  · obtain ⟨⟨pt₁, s₁⟩, hp, hb⟩ := bind_ok hb
    obtain ⟨hk₁, ⟨rfl, h₁⟩ | ⟨h0, -⟩⟩ := h.proc_pagetable hp
    · simp only [if_true] at hb
      cases hb
      exact Or.inl ⟨rfl, rfl, h₁, hk₁⟩
    · simp only [h0, if_false] at hb
      have hB := h.emptyImage hp h0
      obtain ⟨⟨ok, sz₁, s₂⟩, hl, hb⟩ := bind_ok hb
      have hB := hB.loadLoop hl
      dsimp only at hb
      split_ifs at hb
      · cases hb
        exact Or.inr ⟨h0, hB⟩
      · obtain ⟨⟨o₁, sz₂, s₃⟩, hs, hb⟩ := bind_ok hb
        cases hb
        exact Or.inr ⟨h0, hB.setupStack hs⟩

end

end Xv6
