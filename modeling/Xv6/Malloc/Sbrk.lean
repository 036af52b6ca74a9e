import Xv6.Malloc.Program
import Xv6.Proc.Table
import Xv6.User.Sbrk

/-!
# Sbrk — which requests are safe

With the system call under it, `malloc` does what it does with any other `sbrk`, up to a fault; but what the
kernel adds is the request cut to an `int`.  From `2 ^ 31` bytes on that is not what `morecore` has asked for.
-/

namespace Xv6.Umalloc

variable {base n nbytes fuel sz p q ap : ℕ} {avail : ℕ → Bool} {h h' : Heap} {s : Process}
  {l : List (ℕ × ℕ)} {r : Option ℕ}

/-! ### The kernel -/

theorem uvmalloc_size [Image] {pt oldsz newsz res : ℕ} {x : Pte} {s s' : Phys}
    (h : uvmalloc pt oldsz newsz x s = .ok (res, s')) :
    if newsz < oldsz then res = oldsz else res = newsz ∨ res = 0 := by
  unfold uvmalloc at h
  split_ifs at h ⊢ with hlt
  · cases h
    rfl
  · dsimp only at h
    split at h
    · cases h
    · cases h
      exact Or.inl rfl
    · cases h
      exact Or.inr rfl

theorem uvmdealloc_size [Image] {pt oldsz newsz res : ℕ} {s s' : Phys}
    (h : uvmdealloc pt oldsz newsz s = .ok (res, s')) : res = if oldsz ≤ newsz then oldsz else newsz := by
  unfold uvmdealloc at h
  split_ifs at h ⊢ with hle hpages
  · cases h
    rfl
  · dsimp only at h
    split at h
    · cases h
    · cases h
      rfl
  · cases h
    rfl

/-- `growproc` changes the size as this model says. -/
theorem growproc_size [Image] {S T : Sys} {i : Fin NPROC} {n r : ℤ}
    (h : Xv6.growproc i n S = .ok (r, T)) : ∃ avail,
      (r = 0 ∧ Process.growproc avail (S.proc i).sz n = some (T.proc i).sz) ∨
      (r = -1 ∧ Process.growproc avail (S.proc i).sz n = none ∧ (T.proc i).sz = (S.proc i).sz) := by
  unfold Xv6.growproc at h
  dsimp only at h
  by_cases hpos : 0 < n
  · rw [if_pos hpos] at h
    obtain ⟨⟨res, s⟩, hu, h⟩ := bind_ok h
    have hres := uvmalloc_size hu
    refine ⟨fun _ => decide (res ≠ 0), ?_⟩
    unfold Process.growproc
    dsimp only at h ⊢
    have hval : (if addInt (S.proc i).sz n < (S.proc i).sz then (S.proc i).sz
        else if decide (res ≠ 0) = true then addInt (S.proc i).sz n else 0) = res := by
      by_cases hlt : addInt (S.proc i).sz n < (S.proc i).sz
      · rw [if_pos hlt] at hres ⊢
        exact hres.symm
      · rw [if_neg hlt] at hres ⊢
        by_cases h0 : res = 0
        · rw [if_neg (by simpa using h0), h0]
        · rw [if_pos (by simpa using h0), hres.resolve_right h0]
    rw [if_pos hpos, hval]
    by_cases h0 : res = 0
    · rw [if_pos h0] at h ⊢
      cases h
      exact Or.inr ⟨rfl, rfl, rfl⟩
    · rw [if_neg h0] at h ⊢
      cases h
      exact Or.inl ⟨rfl, by rw [Sys.set_self]⟩
  · rw [if_neg hpos] at h
    refine ⟨fun _ => true, Or.inl ?_⟩
    unfold Process.growproc
    dsimp only
    rw [if_neg hpos]
    by_cases hneg : n < 0
    · rw [if_pos hneg] at h ⊢
      obtain ⟨⟨res, s⟩, hu, h⟩ := bind_ok h
      cases h
      rw [Sys.set_self, uvmdealloc_size hu]
      exact ⟨rfl, rfl⟩
    · rw [if_neg hneg] at h ⊢
      cases h
      exact ⟨rfl, rfl⟩

/-! ### The loop -/

theorem free_chunks (hf : free fuel h ap = some h') : h'.chunks = h.chunks := by
  unfold free at hf
  simp only [Option.bind_eq_bind, Option.bind_eq_some_iff] at hf
  obtain ⟨p, -, hf⟩ := hf
  rw [← Option.some.inj hf]

/-- The heap with what `sbrk` has given, before it is freed. -/
def entered (h : Heap) (p nu : ℕ) : Heap :=
  { h with mem := setSize h.mem p nu, chunks := (p, nu * HEADER) :: h.chunks }

theorem morecore_cases {sbrk : Sbrk} (hm : morecore fuel sbrk h n = some (p, h')) :
    (p = 0 ∧ h' = h ∧ sbrk h.chunks (more n * HEADER) = none) ∨
    ∃ q, sbrk h.chunks (more n * HEADER) = some q ∧
      free fuel (entered h q (more n)) (q + HEADER) = some h' ∧ p = h'.freep := by
  unfold morecore at hm
  rw [← more] at hm
  dsimp only at hm
  cases hs : sbrk h.chunks (more n * HEADER) with
  | none =>
    rw [hs] at hm
    cases hm
    exact Or.inl ⟨rfl, rfl, rfl⟩
  | some q =>
    rw [hs] at hm
    simp only [Option.bind_eq_bind, Option.bind_eq_some_iff] at hm
    obtain ⟨h₁, hf, hm⟩ := hm
    cases hm
    exact Or.inr ⟨q, rfl, hf, rfl⟩

section

variable {sz' : ℕ}

theorem Process.morecore_eq :
    Process.morecore fuel avail ⟨h, sz⟩ n =
      Process.enter fuel ⟨h, sz⟩ (more n) (Process.sbrk avail sz (more n * HEADER)) := by
  unfold Process.morecore
  rw [← more]

theorem Process.morecore_none (hs : Process.sbrk avail sz (more n * HEADER) = (none, sz')) :
    Process.morecore fuel avail ⟨h, sz⟩ n = .ok (0, ⟨h, sz'⟩) := by
  rw [Process.morecore_eq, hs]
  rfl

theorem Process.morecore_fault (hs : Process.sbrk avail sz (more n * HEADER) = (some q, sz'))
    (hf : Process.mapped sz' (q + 11) = false) :
    Process.morecore fuel avail ⟨h, sz⟩ n = .error (.fault sz') := by
  rw [Process.morecore_eq, hs, Process.enter, hf]
  rfl

theorem Process.morecore_free (hs : Process.sbrk avail sz (more n * HEADER) = (some q, sz'))
    (hf : Process.mapped sz' (q + 11) = true)
    (hfree : free fuel (entered h q (more n)) (q + HEADER) = some h') :
    Process.morecore fuel avail ⟨h, sz⟩ n = .ok (h'.freep, ⟨h', sz'⟩) := by
  unfold entered at hfree
  rw [Process.morecore_eq, hs, Process.enter, if_pos hf]
  dsimp only
  rw [hfree]

end

/-- The two loops go along the list in the same way, up to a block that is large enough or to the call of
`morecore`. -/
theorem mallocLoop_cases {sbrk : Sbrk} (hl : mallocLoop sbrk n fuel h p q = some (ap, h')) :
    (h'.chunks = h.chunks ∧
      ∀ avail sz, Process.mallocLoop avail n fuel ⟨h, sz⟩ p q = .ok (ap, ⟨h', sz⟩)) ∨
    ∃ k < fuel, ∃ a h₁, morecore k sbrk h n = some (a, h₁) ∧
      (if a = 0 then ap = 0 ∧ h' = h₁ else mallocLoop sbrk n k h₁ a (ptr h₁.mem a) = some (ap, h')) ∧
      ∀ avail sz, Process.mallocLoop avail n fuel ⟨h, sz⟩ p q =
        (Process.morecore k avail ⟨h, sz⟩ n).bind fun r =>
          if r.1 = 0 then .ok (0, r.2) else Process.mallocLoop avail n k r.2 r.1 (ptr r.2.mem r.1) := by
  induction fuel generalizing p q with
  | zero => cases hl
  | succ fuel ih =>
    rw [mallocLoop] at hl
    simp only [Process.mallocLoop]
    by_cases hfit : size h.mem q ≥ n
    · simp only [if_pos hfit] at hl ⊢
      refine Or.inl ?_
      by_cases heq : size h.mem q = n
      · simp only [if_pos heq] at hl ⊢
        cases hl
        exact ⟨rfl, fun _ _ => rfl⟩
      · simp only [if_neg heq] at hl ⊢
        cases hl
        exact ⟨rfl, fun _ _ => rfl⟩
    simp only [if_neg hfit] at hl ⊢
    by_cases hq : q = h.freep
    · simp only [if_pos hq] at hl ⊢
      cases hm : morecore fuel sbrk h n with
      | none =>
        rw [hm] at hl
        cases hl
      | some r =>
        obtain ⟨a, h₁⟩ := r
        rw [hm] at hl
        dsimp only at hl
        refine Or.inr ⟨fuel, Nat.lt_succ_self _, a, h₁, hm, ?_, fun _ _ => rfl⟩
        split_ifs at hl ⊢
        · cases hl
          exact ⟨rfl, rfl⟩
        · exact hl
    · simp only [if_neg hq] at hl ⊢
      refine (ih hl).imp_right ?_
      rintro ⟨k, hk, hrest⟩
      exact ⟨k, Nat.lt_succ_of_lt hk, hrest⟩

/-- `morecore` adds at most one block. -/
theorem morecore_chunks {sbrk : Sbrk} {k : ℕ} (hm : morecore k sbrk h n = some (p, h')) :
    h'.chunks = h.chunks ∧ p = 0 ∨ h'.chunks.length = h.chunks.length + 1 := by
  obtain ⟨hp, rfl, -⟩ | ⟨c, -, hf, -⟩ := morecore_cases hm
  · exact Or.inl ⟨rfl, hp⟩
  · refine Or.inr ?_
    rw [free_chunks hf, entered, List.length_cons]

theorem mallocLoop_chunks {sbrk : Sbrk} (hl : mallocLoop sbrk n fuel h p q = some (ap, h')) :
    h.chunks.length ≤ h'.chunks.length := by
  induction fuel using Nat.strong_induction_on generalizing h p q with
  | _ fuel ih =>
    obtain ⟨hcs, -⟩ | ⟨k, hk, a, h₁, hm, hl, -⟩ := mallocLoop_cases hl
    · rw [hcs]
    · have hlen : h.chunks.length ≤ h₁.chunks.length := by
        obtain ⟨hcs, -⟩ | hcs := morecore_chunks hm
        · rw [hcs]
        · omega
      split_ifs at hl
      · rwa [hl.2]
      · exact hlen.trans (ih k hk hl)

/-- Where the list has a block, the system call does not matter. -/
theorem Process.mallocLoop_kept {sbrk : Sbrk} (hl : Umalloc.mallocLoop sbrk n fuel h p q = some (ap, h'))
    (hap : ap ≠ 0) (hlen : h'.chunks.length ≤ h.chunks.length) :
    Process.mallocLoop avail n fuel ⟨h, sz⟩ p q = .ok (ap, ⟨h', sz⟩) := by
  obtain ⟨-, hloop⟩ | ⟨k, -, a, h₁, hm, hl, -⟩ := mallocLoop_cases hl
  · exact hloop avail sz
  · -- the block that is added does not go away
    split_ifs at hl with ha
    · exact absurd hl.1 hap
    · have hlen₁ := mallocLoop_chunks hl
      obtain ⟨-, h0⟩ | hcs := morecore_chunks hm
      · exact absurd h0 ha
      · omega

/-- The call of `morecore` fails, if there is one. -/
theorem Process.mallocLoop_none {sbrk : Sbrk} (hs : Process.sbrk avail sz (more n * HEADER) = (none, sz))
    (hsb : sbrk h.chunks (more n * HEADER) = none)
    (hl : Umalloc.mallocLoop sbrk n fuel h p q = some (ap, h')) :
    Process.mallocLoop avail n fuel ⟨h, sz⟩ p q = .ok (ap, ⟨h', sz⟩) := by
  obtain ⟨-, hloop⟩ | ⟨k, -, a, h₁, hm, hafter, hloop⟩ := mallocLoop_cases hl
  · exact hloop avail sz
  · rw [hloop, Process.morecore_none hs]
    obtain ⟨rfl, rfl, -⟩ | ⟨c, hc, -⟩ := morecore_cases hm
    · rw [if_pos rfl] at hafter
      obtain ⟨rfl, rfl⟩ := hafter
      rfl
    · rw [hsb] at hc
      cases hc

/-- The call of `morecore` adds a block, unless its store faults. -/
theorem Process.mallocLoop_some {sbrk : Sbrk} {a sz' : ℕ}
    (hs : Process.sbrk avail sz (more n * HEADER) = (some a, sz'))
    (hsb : sbrk h.chunks (more n * HEADER) = some a)
    (hl : Umalloc.mallocLoop sbrk n fuel h p q = some (ap, h')) (hap : ap ≠ 0)
    (hlen : h'.chunks.length = h.chunks.length + 1) :
    Process.mallocLoop avail n fuel ⟨h, sz⟩ p q =
      if Process.mapped sz' (a + 11) then .ok (ap, ⟨h', sz'⟩) else .error (.fault sz') := by
  obtain ⟨hcs, -⟩ | ⟨k, -, b, h₁, hm, hl, hloop⟩ := mallocLoop_cases hl
  · rw [hcs] at hlen
    omega
  rw [hloop]
  split_ifs at hl with h0
  · exact absurd hl.1 hap
  obtain ⟨h0', -⟩ | ⟨c, hc, hf, rfl⟩ := morecore_cases hm
  · exact absurd h0' h0
  rw [hsb] at hc
  cases hc
  by_cases hmap : Process.mapped sz' (a + 11) = true
  · rw [if_pos hmap, Process.morecore_free hs hmap hf]
    change (if h₁.freep = 0 then _ else _) = _
    rw [if_neg h0]
    refine Process.mallocLoop_kept hl hap ?_
    rw [free_chunks hf, entered, List.length_cons, hlen]
  · rw [if_neg hmap, Process.morecore_fault hs (Bool.eq_false_of_not_eq_true hmap)]
    rfl

/-! ### What `sbrk` answers -/

theorem addInt_of_le {k : ℤ} (h : 0 ≤ sz + k) (h' : sz + k < 2 ^ 64) : addInt sz k = (sz + k).toNat := by
  rw [addInt, Int.emod_eq_of_lt h h']

/-- A growth that fits into an `int`. -/
theorem sbrk_grow {k : ℕ} (hk : int32 n = k) (hpos : 0 < k) (hsz : sz + k < 2 ^ 64) :
    Process.sbrk avail sz n = if avail (sz + k) then (some sz, sz + k) else (none, sz) := by
  have hadd : addInt sz (k : ℤ) = sz + k := by
    rw [addInt_of_le (by omega) (by omega)]
    omega
  rw [Process.sbrk, hk, Process.growproc]
  dsimp only
  rw [hadd, if_pos (show (0 : ℤ) < k by omega), if_neg (show ¬ sz + k < sz by omega)]
  by_cases hav : avail (sz + k) = true
  · rw [if_pos hav, if_neg (by omega), if_pos hav]
    rfl
  · rw [if_neg hav, if_pos rfl, if_neg hav]
    rfl

/-- What does not grow. -/
theorem sbrk_shrink {k : ℕ} (hk : int32 n = -k) (hk' : k < 2 ^ 32) (hsz : sz < 2 ^ 63) :
    Process.sbrk avail sz n = (some sz, if k ≤ sz then sz - k else sz) := by
  rw [Process.sbrk, hk, Process.growproc]
  dsimp only
  rw [if_neg (by omega)]
  by_cases h0 : k = 0
  · rw [if_neg (by omega), h0, if_pos (Nat.zero_le _)]
    rfl
  rw [if_pos (by omega)]
  by_cases hle : k ≤ sz
  · have hadd : addInt sz (-k : ℤ) = sz - k := by
      rw [addInt_of_le (by omega) (by omega)]
      omega
    rw [hadd, if_neg (by omega), if_pos hle]
    rfl
  · have hadd : sz ≤ addInt sz (-k : ℤ) := by
      rw [addInt]
      omega
    rw [if_pos hadd, if_neg hle]
    rfl

theorem mapped_iff {a : ℕ} (hsz : sz < 2 ^ 63) :
    Process.mapped sz a = true ↔ a < (sz + 4095) / 4096 * 4096 := by
  have hpg : PGSIZE = 4096 := rfl
  rw [Process.mapped, decide_eq_true_eq, PGROUNDUP, uint64, Nat.mod_eq_of_lt (by omega)]
  rfl

/-! ### Requests -/

/-- A heap in order, in a process that is not larger than the physical memory. -/
structure HeapState (base : ℕ) (s : Process) (live l : List (ℕ × ℕ)) : Prop where
  holds : Holds base ⟨s.toHeap, live⟩ l
  base_le : base + 16 ≤ s.sz
  chunks : ∀ c ∈ s.chunks, c.1 + c.2 ≤ s.sz
  sz_le : s.sz ≤ PHYSTOP - KERNBASE

/-- `nbytes` bytes at `ap` that lie below `sz` and in no block in use. -/
def Fresh (live : List (ℕ × ℕ)) (ap nbytes sz : ℕ) : Prop :=
  ap + nbytes ≤ sz ∧ ∀ b ∈ live, ap + nbytes ≤ b.1 ∨ b.1 + b.2 ≤ ap

/-- A call of `malloc` does no harm: it does not shrink the process, it enters no block that is larger than
what `sbrk` has added, and what it returns is memory of the process and in no block in use. -/
def Safe (s : Process) (live : List (ℕ × ℕ)) (nbytes : ℕ) : Except Halt (ℕ × Process) → Prop
  | .error .fuel => False
  | .error (.fault sz) => s.sz ≤ sz
  | .ok (ap, t) => s.sz ≤ t.sz ∧ (∀ c, t.chunks = c :: s.chunks → c.2 ≤ t.sz - s.sz) ∧
      (ap ≠ 0 → Fresh live ap nbytes t.sz)

/-- The bytes that `morecore` asks for. -/
def request (nbytes : ℕ) : ℕ := more (nunits nbytes) * 16

/-- The free list has a block; or the request fits into an `int`; or it is cut to a small positive one that
the kernel refuses; or it is cut to one that changes nothing, and the first write is behind the process, so
that the call does not return. -/
def Harmless (avail : ℕ → Bool) (s : Process) (l : List (ℕ × ℕ)) (nbytes : ℕ) : Prop :=
  (∃ b ∈ l, nunits nbytes ≤ b.2) ∨ request nbytes < 2 ^ 31 ∨
    (2 ^ 32 < request nbytes ∧ avail (s.sz + (request nbytes - 2 ^ 32)) = false) ∨
    (request nbytes ≤ 2 ^ 32 ∧ (request nbytes = 2 ^ 32 ∨ s.sz < 2 ^ 32 - request nbytes) ∧
      Process.mapped s.sz (s.sz + 11) = false)

theorem request_bounds (hn : nbytes < 2 ^ 32) :
    65536 ≤ request nbytes ∧ request nbytes ≤ 2 ^ 32 + 16 ∧ nunits nbytes < 2 ^ 32 := by
  unfold request more nunits
  rw [HEADER]
  split_ifs <;> omega

theorem request_mod : request nbytes % 16 = 0 := Nat.mul_mod_left _ _

/-- How the kernel takes a request. -/
theorem sbrk_request {k : ℕ} (hk : 65536 ≤ k) (hk' : k ≤ 2 ^ 32 + 16) (hsz : sz ≤ PHYSTOP - KERNBASE) :
    (k < 2 ^ 31 ∧ Process.sbrk avail sz k = if avail (sz + k) then (some sz, sz + k) else (none, sz)) ∨
    (2 ^ 31 ≤ k ∧ k ≤ 2 ^ 32 ∧
      Process.sbrk avail sz k = (some sz, if 2 ^ 32 - k ≤ sz then sz - (2 ^ 32 - k) else sz)) ∨
    (2 ^ 32 < k ∧ Process.sbrk avail sz k =
      if avail (sz + (k - 2 ^ 32)) then (some sz, sz + (k - 2 ^ 32)) else (none, sz)) := by
  have hphys : PHYSTOP - KERNBASE = 134217728 := rfl
  by_cases h31 : k < 2 ^ 31
  · refine Or.inl ⟨h31, sbrk_grow ?_ (by omega) (by omega)⟩
    rw [int32]
    omega
  by_cases h32 : k ≤ 2 ^ 32
  · refine Or.inr (Or.inl ⟨by omega, h32, sbrk_shrink ?_ (by omega) (by omega)⟩)
    rw [int32]
    omega
  · refine Or.inr (Or.inr ⟨by omega, sbrk_grow ?_ (by omega) (by omega)⟩)
    rw [int32]
    omega

theorem sbrk_answer {k : ℕ} {r : Option ℕ} {sz' : ℕ} (h : Process.sbrk avail sz k = (r, sz')) :
    (r = none ∧ sz' = sz) ∨ r = some sz := by
  unfold Process.sbrk at h
  cases hg : Process.growproc avail sz (int32 k) with
  | none =>
    rw [hg] at h
    obtain ⟨rfl, rfl⟩ := Prod.mk.inj h
    exact Or.inl ⟨rfl, rfl⟩
  | some newsz =>
    rw [hg] at h
    obtain ⟨rfl, -⟩ := Prod.mk.inj h
    exact Or.inr rfl

/-- The size after an answer that is not an error. -/
theorem sbrk_some {k sz' a : ℕ} (hk : 65536 ≤ k) (hk' : k ≤ 2 ^ 32 + 16) (hsz : sz ≤ PHYSTOP - KERNBASE)
    (h : Process.sbrk avail sz k = (some a, sz')) :
    (k < 2 ^ 31 ∧ sz' = sz + k) ∨
    (2 ^ 31 ≤ k ∧ k ≤ 2 ^ 32 ∧ sz' = if 2 ^ 32 - k ≤ sz then sz - (2 ^ 32 - k) else sz) ∨
    (2 ^ 32 < k ∧ avail (sz + (k - 2 ^ 32)) = true ∧ sz' = sz + (k - 2 ^ 32)) := by
  have hcase := @sbrk_request sz avail k hk hk' hsz
  rw [h] at hcase
  rcases hcase with ⟨hlt, h⟩ | ⟨hlo, hhi, h⟩ | ⟨hlt, h⟩
  · split_ifs at h
    · exact Or.inl ⟨hlt, (Prod.mk.inj h).2⟩
    · cases h
  · exact Or.inr (Or.inl ⟨hlo, hhi, (Prod.mk.inj h).2⟩)
  · split_ifs at h with hav
    · exact Or.inr (Or.inr ⟨hlt, hav, (Prod.mk.inj h).2⟩)
    · cases h

/-- A block ends where the process does, at the latest. -/
theorem Sound.below {out : List (ℕ × ℕ)} {b : ℕ × ℕ} (hs : Sound base h l out) (hb : b ∈ l ++ out)
    (hpos : 0 < b.2) (hc : ∀ c ∈ h.chunks, c.1 + c.2 ≤ sz) : b.1 + 16 * b.2 ≤ sz := by
  have hin : Tiles.Within (bytes b) (b.1 + 16 * b.2 - 1) := by
    simp only [bytes, Tiles.Within]
    omega
  have hcov : 0 < Tiles.cover h.chunks (b.1 + 16 * b.2 - 1) := by
    rw [← hs.cover]
    exact Tiles.cover_pos.mpr ⟨_, List.mem_map_of_mem hb, hin⟩
  obtain ⟨c, hcm, hcx⟩ := Tiles.cover_pos.mp hcov
  have hle := hc c hcm
  have hlt := hcx.2
  omega

/-- What has been taken is memory of the process, and apart from the blocks in use. -/
theorem Sound.apart {live : List (ℕ × ℕ)} (hs : Sound base h l (((ap, nbytes) :: live).map block))
    (hap : 16 ≤ ap) (hlive : ∀ b ∈ live, 16 ≤ b.1) (hc : ∀ c ∈ h.chunks, c.1 + c.2 ≤ sz) :
    Fresh live ap nbytes sz := by
  have hle := @le_nunits nbytes
  constructor
  · have hend := hs.below (b := block (ap, nbytes)) (List.mem_append_right _ List.mem_cons_self) nunits_pos hc
    simp only [block] at hend
    omega
  · intro b hb
    have hdis := (List.pairwise_cons.mp (List.pairwise_append.mp hs.disjoint).2.1).1 (block b)
      (List.mem_map_of_mem hb)
    have hup := upto_of_disjoint (b := block (ap, nbytes)) (c := block b) nunits_pos nunits_pos hdis
    have hb16 := hlive b hb
    have hleb := @le_nunits b.2
    simp only [Upto, block] at hup
    omega

/-- The sizes fit: a header can describe all of the memory. -/
theorem HeapState.room {live : List (ℕ × ℕ)} (hs : HeapState base s live l) (hn : nbytes < 2 ^ 32) :
    Room ((s.sz, more (nunits nbytes)) :: l) := by
  have hphys : PHYSTOP - KERNBASE = 134217728 := rfl
  have hsz := hs.sz_le
  have hq := (request_bounds hn).2.1
  unfold request at hq
  refine room_of_span (a := 0) (w := s.sz + more (nunits nbytes)) (fun b hb => ⟨Nat.zero_le _, ?_⟩) (by omega)
  rcases List.mem_cons.mp hb with rfl | hb
  · simp only
    omega
  · rcases hs.holds with ⟨-, -, -, rfl⟩ | hsound
    · exact absurd hb List.not_mem_nil
    · have := hsound.below (List.mem_append_left _ hb) (hsound.ordered.pos b hb) hs.chunks
      omega

/-- How a call of `malloc` ends, if `sbrk` answers `r` and leaves a size of `sz'`. -/
inductive Ends (s : Process) (live l : List (ℕ × ℕ)) (nbytes : ℕ) (r : Option ℕ) (sz' : ℕ) :
    Except Halt (ℕ × Process) → Prop where
  | failed (h' : Heap) (hr : r = none) (hc : h'.chunks = s.chunks) :
    Ends s live l nbytes r sz' (.ok (0, ⟨h', s.sz⟩))
  | taken (ap : ℕ) (h' : Heap) (hfit : ∃ b ∈ l, nunits nbytes ≤ b.2) (hc : h'.chunks = s.chunks)
      (hap : Fresh live ap nbytes s.sz) : Ends s live l nbytes r sz' (.ok (ap, ⟨h', s.sz⟩))
  | grown (ap : ℕ) (h' : Heap) (hfit : ¬ ∃ b ∈ l, nunits nbytes ≤ b.2) (hr : r = some s.sz)
      (hc : h'.chunks = (s.sz, request nbytes) :: s.chunks)
      (hmap : Process.mapped sz' (s.sz + 11) = true)
      (hap : s.sz + request nbytes ≤ sz' → Fresh live ap nbytes sz') :
      Ends s live l nbytes r sz' (.ok (ap, ⟨h', sz'⟩))
  | faulted (hfit : ¬ ∃ b ∈ l, nunits nbytes ≤ b.2) (hr : r = some s.sz)
      (hmap : Process.mapped sz' (s.sz + 11) = false) : Ends s live l nbytes r sz' (.error (.fault sz'))

theorem HeapState.malloc {live : List (ℕ × ℕ)} {r : Option ℕ} {sz' : ℕ} (hbase : 0 < base)
    (hs : HeapState base s live l) (hn : nbytes < 2 ^ 32)
    (hsb : Process.sbrk avail s.sz (request nbytes) = (r, sz')) :
    ∃ K x, (∀ fuel ≥ K, Process.malloc base fuel avail s nbytes = x) ∧ Ends s live l nbytes r sz' x := by
  obtain ⟨hq, hq', hnu⟩ := request_bounds hn
  have hphys : PHYSTOP - KERNBASE = 134217728 := rfl
  have hsz := hs.sz_le
  have hbase_le := hs.base_le
  obtain ⟨K, ap, h', hK, -, hfit, hres⟩ := @Holds.malloc base nbytes
    (fun _ m => (Process.sbrk avail s.sz m).1) _ l hs.holds hbase (by omega) hnu fun p hp => by
      change (Process.sbrk avail s.sz (request nbytes)).1 = some p at hp
      rw [hsb] at hp
      rcases sbrk_answer hsb with ⟨hr, -⟩ | hr
      · rw [hr] at hp
        cases hp
      · rw [hr] at hp
        cases hp
        unfold request at hq'
        exact ⟨hs.base_le, hs.chunks, by omega, hs.room hn⟩
  have hcs₀ := (hs.holds.started hbase (by omega)).2.1
  dsimp only at hcs₀ hres hfit
  have hnew : ∀ fuel, Process.malloc base fuel avail s nbytes = Process.mallocLoop avail (nunits nbytes) fuel
      ⟨if s.freep = 0 then initBase base s.toHeap else s.toHeap, s.sz⟩ _ _ := fun _ => rfl
  change ∀ fuel ≥ K, Umalloc.mallocLoop _ _ _ (if s.freep = 0 then initBase base s.toHeap else s.toHeap) _ _ =
    some (ap, h') at hK
  generalize (if s.freep = 0 then initBase base s.toHeap else s.toHeap) = h₀ at hcs₀ hnew hK
  change _ ∨ ∃ l₁ f l₂, _ ∧ _ ∧ ap = (carved (nunits nbytes) f).1 + 16 ∧ _ at hres
  have hlive : ∀ b ∈ live, 16 ≤ b.1 := fun b hb => (hs.holds.live hb).1
  rcases hres with ⟨hap, hcs, hnone, -⟩ | ⟨l₁, f, l₂, hg, hf, hap, hs'⟩
  · -- `sbrk` fails
    change (Process.sbrk avail s.sz (request nbytes)).1 = none at hnone
    have hsz' := sbrk_answer hsb
    rw [hsb] at hnone
    dsimp only at hnone
    rw [hnone] at hsb hsz'
    rw [hsz'.elim (fun h => h.2) fun h => by cases h] at hsb
    refine ⟨K, _, fun fuel hf => ?_, .failed h' hnone hcs⟩
    rw [hnew, ← hap]
    refine Process.mallocLoop_none hsb ?_ (hK fuel hf)
    change (Process.sbrk avail s.sz (request nbytes)).1 = none
    rw [hsb]
  · have hap0 : ap ≠ 0 := by omega
    rcases hg with ⟨hcs, hl⟩ | ⟨p, hp, hcs, hl⟩
    · refine ⟨K, _, fun fuel hf => ?_, .taken ap h' ⟨f, hl ▸ List.mem_append_right _ List.mem_cons_self, hf⟩ hcs
        (hs'.apart (by omega) hlive (hcs ▸ hs.chunks))⟩
      rw [hnew]
      exact Process.mallocLoop_kept (hK fuel hf) hap0 (by rw [hcs, hcs₀])
    · change (Process.sbrk avail s.sz (request nbytes)).1 = some p at hp
      have hr : r = some s.sz := by
        rcases sbrk_answer hsb with ⟨hr, -⟩ | hr
        · rw [hsb, hr] at hp
          cases hp
        · exact hr
      rw [hsb, hr] at hp
      obtain rfl := Option.some.inj hp
      rw [hr] at hsb
      have hnofit : ¬ ∃ b ∈ l, nunits nbytes ≤ b.2 := fun h => by
        have hlen := congrArg List.length (hcs.symm.trans (hfit h))
        rw [List.length_cons] at hlen
        omega
      have hloop : ∀ fuel ≥ K, Process.malloc base fuel avail s nbytes =
          if Process.mapped sz' (s.sz + 11) then .ok (ap, ⟨h', sz'⟩)
          else .error (.fault sz') := fun fuel hf => by
        rw [hnew]
        refine Process.mallocLoop_some hsb ?_ (hK fuel hf) hap0 (by rw [hcs, hcs₀, List.length_cons])
        change (Process.sbrk avail s.sz (request nbytes)).1 = some s.sz
        rw [hsb]
      by_cases hmap : Process.mapped sz' (s.sz + 11) = true
      · refine ⟨K, _, fun fuel hf => (hloop fuel hf).trans (if_pos hmap),
          .grown ap h' hnofit hr hcs hmap fun hgrow => hs'.apart (by omega) hlive fun c hc => ?_⟩
        rw [hcs] at hc
        rcases List.mem_cons.mp hc with rfl | hc
        · exact hgrow
        · have := hs.chunks c hc
          omega
      · exact ⟨K, _, fun fuel hf => (hloop fuel hf).trans (if_neg hmap),
          .faulted hnofit hr (Bool.eq_false_of_not_eq_true hmap)⟩

/-- **Which requests are safe**: in every heap, for every request and whatever `sbrk` answers, `malloc` ends,
and it does no harm just if the request is harmless. -/
theorem malloc_safe_iff {live : List (ℕ × ℕ)} (hbase : 0 < base) (hs : HeapState base s live l)
    (hn : nbytes < 2 ^ 32) :
    ∃ K x, (∀ fuel ≥ K, Process.malloc base fuel avail s nbytes = x) ∧ (∀ e, x = .error e → e ≠ .fuel) ∧
      (Safe s live nbytes x ↔ Harmless avail s l nbytes) := by
  obtain ⟨hq, hq', -⟩ := request_bounds hn
  have hmod := @request_mod nbytes
  have hphys : PHYSTOP - KERNBASE = 134217728 := rfl
  have hsz := hs.sz_le
  cases hsb : Process.sbrk avail s.sz (request nbytes) with
  | mk r sz' =>
  obtain ⟨K, x, hK, hx⟩ := hs.malloc hbase hn hsb
  have hcase := @sbrk_request s.sz avail (request nbytes) hq hq' hs.sz_le
  rw [hsb] at hcase
  refine ⟨K, x, hK, ?_, ?_⟩
  · rintro e rfl
    cases hx
    exact nofun
  · cases hx with
    | failed h' hr hc =>
      refine iff_of_true ⟨le_rfl, fun c h => ?_, fun h => absurd rfl h⟩ ?_
      · have hlen := congrArg List.length (hc.symm.trans h)
        rw [List.length_cons] at hlen
        omega
      · rcases hcase with ⟨hlt, -⟩ | ⟨-, -, h⟩ | ⟨hlt, h⟩
        · exact Or.inr (Or.inl hlt)
        · rw [hr] at h
          cases h
        · refine Or.inr (Or.inr (Or.inl ⟨hlt, ?_⟩))
          by_contra hav
          rw [if_pos (Bool.eq_true_of_not_eq_false hav), hr] at h
          cases h
    | taken ap h' hfit hc hap =>
      refine iff_of_true ⟨le_rfl, fun c h => ?_, fun _ => hap⟩ (Or.inl hfit)
      have hlen := congrArg List.length (hc.symm.trans h)
      rw [List.length_cons] at hlen
      omega
    | grown ap h' hfit hr hc hmap hap =>
      rw [hr] at hsb
      rcases sbrk_some hq hq' hs.sz_le hsb with ⟨hlt, hsz'⟩ | ⟨hlo, hhi, hsz'⟩ | ⟨hlt, hav, hsz'⟩
      · refine iff_of_true ⟨by simp only; omega, fun c h => ?_, fun _ => hap hsz'.ge⟩ (Or.inr (Or.inl hlt))
        rw [hc] at h
        rw [← (List.cons.inj h).1]
        simp only
        omega
      · refine iff_of_false (fun h => ?_) ?_
        · have hle := h.2.1 _ hc
          simp only at hle
          split_ifs at hsz' <;> omega
        · rintro (h | h | ⟨h, -⟩ | ⟨-, hsame, h⟩)
          · exact hfit h
          · omega
          · omega
          · have hsame' : sz' = s.sz := by split_ifs at hsz' <;> omega
            rw [hsame', h] at hmap
            cases hmap
      · refine iff_of_false (fun h => ?_) ?_
        · have hle := h.2.1 _ hc
          simp only at hle
          omega
        · rintro (h | h | ⟨-, h⟩ | ⟨h, -⟩)
          · exact hfit h
          · omega
          · rw [hav] at h
            cases h
          · omega
    | faulted hfit hr hmap =>
      rw [hr] at hsb
      have hunmapped : sz' < 2 ^ 63 → ¬ s.sz + 11 < (sz' + 4095) / 4096 * 4096 := fun hlt h => by
        rw [(mapped_iff hlt).mpr h] at hmap
        cases hmap
      rcases sbrk_some hq hq' hs.sz_le hsb with ⟨hlt, hsz'⟩ | ⟨hlo, hhi, hsz'⟩ | ⟨hlt, hav, hsz'⟩
      · omega
      · change s.sz ≤ sz' ↔ _
        constructor
        · intro hle
          have hsame : sz' = s.sz := by split_ifs at hsz' <;> omega
          rw [hsame] at hmap
          refine Or.inr (Or.inr (Or.inr ⟨hhi, ?_, hmap⟩))
          split_ifs at hsz' <;> omega
        · rintro (h | h | ⟨h, -⟩ | ⟨-, hsame, h⟩)
          · exact absurd h hfit
          · omega
          · omega
          · split_ifs at hsz' <;> omega
      · omega

/-- A process of two pages that has not called `malloc` yet. -/
def fresh : Process := ⟨⟨fun _ => 0, 0, []⟩, 8192⟩

theorem fresh_state : HeapState 16 fresh [] [] :=
  ⟨.inl ⟨rfl, rfl, rfl, rfl⟩, by decide, fun c hc => absurd hc List.not_mem_nil, by decide⟩

theorem malloc_safe_iff_first :
    ∃ K x, (∀ fuel ≥ K, Process.malloc 16 fuel (fun _ => true) fresh 100 = x) ∧ Safe fresh [] 100 x := by
  obtain ⟨K, x, hK, -, hsafe⟩ := @malloc_safe_iff 16 100 (fun _ => true) fresh [] []
    (by decide) fresh_state (by decide)
  have hrequest : request 100 = 65536 := by simp [request, more, nunits, HEADER]
  exact ⟨K, x, hK, hsafe.mpr (Or.inr (Or.inl (by rw [hrequest]; decide)))⟩

/-- The largest request: the process grows by 16 bytes, and a block of `2 ^ 32 + 16` is entered. -/
theorem malloc_largest : ∃ K ap t, (∀ fuel ≥ K, Process.malloc 16 fuel (fun _ => true) fresh 4294967295 =
    .ok (ap, t)) ∧ t.sz = fresh.sz + 16 ∧ t.chunks = [(8192, 4294967312)] ∧
      ¬ Safe fresh [] 4294967295 (.ok (ap, t)) := by
  have hrequest : request 4294967295 = 4294967312 := by simp [request, more, nunits, HEADER]
  cases hsb : Process.sbrk (fun _ => true) fresh.sz (request 4294967295) with
  | mk r sz' =>
  obtain ⟨K, x, hK, hx⟩ := fresh_state.malloc (by decide) (by decide) hsb
  have hsz : r = some 8192 ∧ sz' = 8208 := by
    have hcase := @sbrk_grow 4294967312 8192 (fun _ => true) 16 (by decide) (by decide) (by decide)
    rw [hrequest] at hsb
    exact Prod.mk.inj (hsb.symm.trans hcase)
  cases hx with
  | failed h' hr hc =>
    rw [hsz.1] at hr
    cases hr
  | taken ap h' hfit hc hap =>
    obtain ⟨b, hb, -⟩ := hfit
    exact absurd hb List.not_mem_nil
  | grown ap h' hfit hr hc hmap hap =>
    rw [hrequest] at hc
    refine ⟨K, ap, _, hK, hsz.2, hc, fun hsafe => ?_⟩
    have hle : 4294967312 ≤ sz' - 8192 := hsafe.2.1 _ hc
    omega
  | faulted hfit hr hmap =>
    rw [hsz.2] at hmap
    exact absurd hmap (by decide)

end Xv6.Umalloc
