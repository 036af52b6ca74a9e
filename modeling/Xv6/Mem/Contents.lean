import Xv6.Lib.Paged
import Xv6.Mem.Image
import Xv6.Mem.Resize

/-!
# Contents — the bytes of an image that `exec` builds

`Shows s r sz m`: the pages below `sz` of the page table `r` hold the bytes of `m`, which is zero
elsewhere.  Growing the image leaves `m` as it is, and each write is a `blit` on it; so the memory of a
new image is a sequence of writes to zeros.
-/

namespace Xv6

/-- The memory of the image is `m`, which is zero outside of the image. -/
structure Shows (s : Phys) (r sz : ℕ) (m : ByteStore) : Prop where
  byte : ∀ a < pages sz * 4096, userByte s.mem (leaf s.mem r) a = m a
  rest : ∀ a, pages sz * 4096 ≤ a → m a = 0

variable [Image] {s s₀ s' : Phys} {r sz newsz va n res : ℕ} {R K L : Multiset ℕ} {m : ByteStore}
  {src : ℕ → UInt8} {perm : Pte}

omit [Image] in
/-- Every image holds some bytes. -/
theorem exists_shows (s : Phys) (r sz : ℕ) : ∃ m, Shows s r sz m := by
  refine ⟨fun a => if a < pages sz * 4096 then userByte s.mem (leaf s.mem r) a else 0,
    fun a ha => (if_pos ha).symm, fun a ha => if_neg (not_lt.mpr ha)⟩

omit [Image] in
theorem shows_empty : Shows s r 0 fun _ => 0 := by
  refine ⟨fun a ha => absurd ha ?_, fun _ _ => rfl⟩
  simp [pages]

omit [Image] in
theorem Shows.unique {m' : ByteStore} (h : Shows s r sz m) (h' : Shows s r sz m') : m = m' := by
  funext a
  by_cases ha : a < pages sz * 4096
  · rw [← h.byte a ha, h'.byte a ha]
  · rw [h.rest a (not_lt.mp ha), h'.rest a (not_lt.mp ha)]

omit [Image] in
/-- The same pages with the same bytes. -/
theorem Shows.congr (h : Shows s r sz m) (hp : pages newsz = pages sz)
    (hb : ∀ a < pages sz * 4096, userByte s'.mem (leaf s'.mem r) a = userByte s.mem (leaf s.mem r) a) :
    Shows s' r newsz m := by
  refine ⟨fun a ha => ?_, fun a ha => h.rest a (by rwa [← hp])⟩
  rw [hp] at ha
  rw [hb a ha, h.byte a ha]

omit [Image] in
theorem Shows.roundup (h : Shows s r sz m) (hle : sz ≤ TRAPFRAME) : Shows s r (PGROUNDUP sz) m := by
  have hle' : sz ≤ 274877898752 := hle
  refine h.congr ?_ fun _ _ => rfl
  rw [PGROUNDUP_eq (by omega)]
  unfold pages
  omega

omit [Image] in
theorem userEntry_U {p : ℕ} : (userEntry perm p).has PTE_U = true := by
  unfold userEntry
  rw [has_or_of_disjoint (by decide), has_PA2PTE (by decide), BitVec.or_comm _ perm, ← BitVec.or_assoc]
  exact has_or_self (by decide)

theorem Built.lt_upages {a : ℕ} (h : Built s₀ s r sz R K L) (ha : a < pages sz * 4096) :
    a / 4096 < pages sz ∧ a / 4096 < UPAGES := by
  have hle : sz ≤ 274877898752 := h.shape.le
  have hv : a / 4096 < pages sz := by omega
  refine ⟨hv, hv.trans_le ?_⟩
  show pages sz ≤ 67108862
  unfold pages
  omega

/-- The pages of an image up to a larger size hold zeros. -/
theorem Built.uvmalloc_shows (h : Built s₀ s r sz R K L) (hm : Shows s r sz m) (hperm : UserPerm perm)
    (hu : Xv6.uvmalloc r sz newsz perm s = .ok (res, s')) (h0 : res ≠ 0) :
    res = max sz newsz ∧ Shows s' r res m ∧
      ∀ v, pages sz ≤ v → v < pages res → (leaf s'.mem r v).has PTE_U = true := by
  obtain ⟨-, -, hk, hc⟩ := h.heap.uvmalloc hperm h.shape.le (Or.inl h.shape.frame) hu
  cases hc with
  | failed lf' hleaf hres hsame => exact absurd hres h0
  | done lf' N hleaf hres hle hmap hzero =>
    have hpages : pages res = max (pages sz) (pages newsz) := by rw [hres, pages_max]
    have hU : pages res ≤ UPAGES := pages_le hle
    refine ⟨hres, ⟨fun a ha => ?_, fun a ha => hm.rest a ?_⟩, fun v h1 h2 => ?_⟩
    · have hv : a / 4096 < UPAGES := by omega
      have hl := hleaf (a / 4096) (lt_trans hv (by decide))
      by_cases hold : a < pages sz * 4096
      · rw [← hm.byte a hold]
        unfold userByte
        rw [hl, hmap.same _ (by omega)]
        exact hk _ (mem_leafRefs.mpr ⟨_, hv, h.full _ (by omega), rfl⟩) _ (Nat.mod_lt _ (by decide))
      · obtain ⟨p, hp, hok, he⟩ := hmap.page (a / 4096) (by omega) (by omega)
        have hpa : PTE2PA (lf' (a / 4096)) = p := by
          rw [he]
          exact PTE2PA_userEntry hperm hok
        unfold userByte
        rw [hl, hpa, hm.rest a (not_lt.mp hold)]
        exact hzero p hp _ (Nat.mod_lt _ (by decide))
    · refine le_trans (Nat.mul_le_mul_right _ ?_) ha
      rw [hpages]
      exact le_max_left _ _
    · obtain ⟨p, -, -, he⟩ := hmap.page v h1 (by omega)
      rw [hleaf v (lt_trans (h2.trans_le hU) (by decide)), he]
      exact userEntry_U

omit [Image] in
/-- A write to the pages of the image. -/
theorem Shows.blit (h : Shows s r sz m) (hle : va + n ≤ pages sz * 4096)
    (hb : ∀ a < pages sz * 4096, userByte s'.mem (leaf s'.mem r) a =
      if va ≤ a ∧ a < va + n then src (a - va) else userByte s.mem (leaf s.mem r) a) :
    Shows s' r sz (m.blit va n src) := by
  refine ⟨fun a ha => ?_, fun a ha => ?_⟩
  · rw [hb a ha]
    by_cases hin : va ≤ a ∧ a < va + n
    · rw [if_pos hin, ByteStore.blit_in hin.1 hin.2]
    · rw [if_neg hin, ByteStore.blit_out (by omega), h.byte a ha]
  · rw [ByteStore.blit_out (by omega)]
    exact h.rest a ha

/-- A write to the page that `walkaddr` has found. -/
theorem Built.write_shows (h : Built s₀ s r sz R K L) (hm : Shows s r sz m) (h0 : walkaddr r va s ≠ 0)
    (hva : va % 4096 = 0) (hn : n ≤ 4096) :
    Shows (s.memmove (walkaddr r va s) n src) r sz (m.blit va n src) := by
  have hS := h.heap.space
  obtain ⟨hlt, hV, hU, he⟩ := walkaddr_spec hS.tree h0
  have hv : va / 4096 < UPAGES := by
    by_contra hge
    rw [hS.user.top _ (not_lt.mp hge) (pageNumber_lt hlt)] at hU
    cases hU
  have hin := h.shape.user _ hv hV
  have hn' : 0 + n ≤ 4096 := by omega
  obtain ⟨hS', -, hb⟩ := poke_spec hS hv hV (h.plain _ hv hV) hn' src
  rw [Nat.add_zero] at hS' hb
  rw [Nat.add_zero, Nat.div_mul_cancel (Nat.dvd_of_mod_eq_zero hva)] at hb
  rw [he]
  refine hm.blit (by omega) fun a ha => ?_
  obtain ⟨ha₁, ha₂⟩ := h.lt_upages ha
  rw [← hb a ha₂ (h.full _ ha₁)]
  unfold userByte
  rw [hS'.tree.leaf _ (lt_trans ha₂ (by decide))]

theorem Built.copyout_shows {len : ℕ} {res : ℤ} (h : Built s₀ s r sz R K L) (hm : Shows s r sz m)
    (hc : Xv6.copyout r va src len s = .ok (res, s')) (h0 : res = 0) :
    Shows s' r sz (m.blit va len src) := by
  obtain ⟨lf', n, hW, -, hn⟩ := copyout_spec h.heap.space hc
  obtain rfl := hn h0
  have hle : va + n ≤ pages sz * 4096 ∨ n = 0 := by
    by_cases hn0 : n = 0
    · exact Or.inr hn0
    · obtain ⟨hv, hV, -⟩ := hW.user (va + n - 1) (by omega) (by omega)
      have := h.shape.user _ hv hV
      omega
  have hb : ∀ a < pages sz * 4096, userByte s'.mem (leaf s'.mem r) a =
      if va ≤ a ∧ a < va + n then src (a - va) else userByte s.mem (leaf s.mem r) a := by
    intro a ha
    obtain ⟨ha₁, ha₂⟩ := h.lt_upages ha
    rw [← hW.byte a ha₂ (h.full _ ha₁)]
    unfold userByte
    rw [hW.space.tree.leaf _ (lt_trans ha₂ (by decide))]
  rcases hle with hle | rfl
  · exact hm.blit hle hb
  · rw [ByteStore.blit_zero]
    refine hm.congr rfl fun a ha => ?_
    rw [hb a ha, if_neg (by omega)]

/-- The guard page keeps its bytes. -/
theorem Built.uvmclear_shows (h : Built s₀ s r sz R K L) (hm : Shows s r sz m)
    (hc : Xv6.uvmclear r va s = .ok s') : Shows s' r sz m := by
  obtain ⟨-, -, hk, hl⟩ := h.heap.uvmclear hc
  refine hm.congr rfl fun a ha => ?_
  obtain ⟨ha₁, ha₂⟩ := h.lt_upages ha
  have hpa : PTE2PA (leaf s'.mem r (a / 4096)) = PTE2PA (leaf s.mem r (a / 4096)) := by
    rw [hl _ (lt_trans ha₂ (by decide)), Function.update_apply]
    split_ifs with he
    · rw [he, PTE2PA_and_not (by decide)]
    · rfl
  unfold userByte
  rw [hpa]
  exact hk _ (mem_leafRefs.mpr ⟨_, ha₂, h.full _ ha₁, rfl⟩) _ (Nat.mod_lt _ (by decide))

end Xv6
