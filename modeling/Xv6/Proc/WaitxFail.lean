import Xv6.Mem.Links
import Xv6.Mem.View
import Xv6.Proc.NoLeak

/-!
# WaitxFail — what a `waitx` that fails has done

`wait` copies the status out before it frees the child.  `waitx` does the same, but `sys_waitx` copies the
two times out afterwards, and it does so whatever `waitx` has returned.

* `WaitxSound`: a call that returns -1 has reaped no child and written nothing but the status word, and
  one that returns a pid has delivered that child's times.
* `WaitxCond`: the states in which that is so (`sys_waitx_sound_iff`).
-/

namespace Xv6

def Sys.ZombieChild (S : Sys) (i j : Fin NPROC) : Prop :=
  (S.proc j).parent = some i ∧ (S.proc j).state = .ZOMBIE

def Sys.Childless (S : Sys) (i : Fin NPROC) : Prop := ∀ j, (S.proc j).parent ≠ some i

instance (S : Sys) (i : Fin NPROC) : Decidable (S.Childless i) :=
  inferInstanceAs (Decidable (∀ j, (S.proc j).parent ≠ some i))

/-- The address `a` is in the status word. -/
def InStatus (addr a : ℕ) : Prop := addr ≠ 0 ∧ addr ≤ a ∧ a < addr + 4

/-- The words at `a` and `b` do not overlap. -/
def ApartWords (a b : ℕ) : Prop := a + 4 ≤ b ∨ b + 4 ≤ a

/-- The addresses that `sys_waitx` writes the times to after `waitx` has left the state `S`. -/
inductive TimesCopied [Image] (i : Fin NPROC) (addr1 addr2 wtime rtime : ℕ) (S : Sys) : ℕ → Prop
  | wtime (k : ℕ)
      (hk : k < copyoutCount (S.proc i).pagetable addr1 (intBytes wtime) 4 S.phys) :
      TimesCopied i addr1 addr2 wtime rtime S (addr1 + k)
  | rtime (s : Phys) (k : ℕ)
      (hc : copyout (S.proc i).pagetable addr1 (intBytes wtime) 4 S.phys = .ok (0, s))
      (hk : k < copyoutCount (S.proc i).pagetable addr2 (intBytes rtime) 4 s) :
      TimesCopied i addr1 addr2 wtime rtime S (addr2 + k)

/-- The addresses that `sys_waitx` writes the times to. -/
def TimesWritten [Image] (i : Fin NPROC) (addr addr1 addr2 wtime rtime : ℕ) (S : Sys) (a : ℕ) : Prop :=
  ∃ ret wt rt S₁, waitx i addr wtime rtime S = .ok (some ((ret, wt, rt), S₁)) ∧
    TimesCopied i addr1 addr2 wt rt S₁ a

/-- A call of `sys_waitx` that returns `r` in the state `T`. -/
structure WaitxSound [Image] (i : Fin NPROC) (addr addr1 addr2 wtime rtime : ℕ) (S : Sys) (r : ℤ)
    (T : Sys) : Prop where
  zombies : r = -1 → ∀ j, S.ZombieChild i j → T.proc j = S.proc j
  written : r = -1 → ∀ a, TimesWritten i addr addr1 addr2 wtime rtime S a → InStatus addr a
  byte : r = -1 → ∀ a, a / 4096 < UPAGES → (S.map i (a / 4096)).has PTE_V = true → ¬ InStatus addr a →
    T.byte i a = S.byte i a
  others : r = -1 → ∀ j ≠ i, Kept S T j
  childless : r = -1 → S.Childless i → ∀ a, ¬ TimesWritten i addr addr1 addr2 wtime rtime S a
  reaped : r ≠ -1 → ∃ j, S.ZombieChild i j ∧ (S.proc j).pid = r ∧ (T.proc j).state = .UNUSED ∧
    (ApartWords addr1 addr2 → ∀ k < 4, T.byte i (addr1 + k) = intBytes (S.proc j).waited k ∧
      T.byte i (addr2 + k) = intBytes (S.proc j).rtime k)

/-- The addresses that two words copied to `addr1` and `addr2` reach: the second is copied if the first
is complete. -/
def CowView.Reaches (c : CowView) (addr1 addr2 a : ℕ) : Prop :=
  (∃ k < (c.write addr1 4).1, a = addr1 + k) ∨
    ((c.write addr1 4).1 = 4 ∧ ∃ k < ((c.write addr1 4).2.write addr2 4).1, a = addr2 + k)

/-- All bytes of the word at `va` are mapped for user code. -/
def UserWord (lf : ℕ → Pte) (va : ℕ) : Prop := ∀ k < 4, UserPage lf (va + k)

instance (lf : ℕ → Pte) (va : ℕ) : Decidable (UserWord lf va) :=
  inferInstanceAs (Decidable (∀ k < 4, UserPage lf (va + k)))

/-- What the memory of process `i` lets `copyout` do. -/
def Sys.view (S : Sys) (i : Fin NPROC) : CowView := S.phys.view (S.map i)

/-- With a child whose status can be written, that has a pid and both words are mapped; otherwise the
times reach no address that is not in the status word, and none at all without children. -/
def WaitxCond (i : Fin NPROC) (addr addr1 addr2 : ℕ) (S : Sys) : Prop :=
  match zombieChild i S with
  | some j =>
    if addr = 0 ∨ ((S.view i).write addr 4).1 = 4 then
      (S.proc j).pid ≠ -1 ∧ UserWord (S.map i) addr1 ∧ UserWord (S.map i) addr2
    else ∀ a, ((S.view i).write addr 4).2.Reaches addr1 addr2 a → InStatus addr a
  | none => ∀ a, (S.view i).Reaches addr1 addr2 a → InStatus addr a ∧ ¬ S.Childless i

/-- Both words are reached to their ends. -/
def CowView.Full (c : CowView) (addr1 addr2 : ℕ) : Prop :=
  (c.write addr1 4).1 = 4 ∧ ((c.write addr1 4).2.write addr2 4).1 = 4

/-! ## The two copies -/

section

variable [Image] {s s' s₁ : Phys} {r addr addr1 addr2 wtime rtime : ℕ} {T K X : Multiset ℕ} {lf : ℕ → Pte}
  {c : CowView} {res ret r₁ : ℤ} {S : Sys} {i : Fin NPROC}

/-- **The times are copied** to the addresses that the view reaches. -/
theorem times_spec (hS : Space s r T lf K X) (hc : Seen s lf (leafRefs UPAGES lf + X) c)
    (h₁ : copyout r addr1 (intBytes wtime) 4 s = .ok (r₁, s₁))
    (h₂ : (r₁ < 0 ∧ res = -1 ∧ s' = s₁) ∨ ¬ r₁ < 0 ∧ ∃ r₂, copyout r addr2 (intBytes rtime) 4 s₁ =
      .ok (r₂, s') ∧ res = if r₂ < 0 then -1 else ret) :
    ∃ lf', Space s' r T lf' K X ∧ Poked s s' lf lf' K X ∧
      (∀ a, a / 4096 < UPAGES → (lf (a / 4096)).has PTE_V = true → ¬ c.Reaches addr1 addr2 a →
        userByte s'.mem lf' a = userByte s.mem lf a) ∧
      ((c.Full addr1 addr2 ∧ res = ret ∧ (ApartWords addr1 addr2 → ∀ k < 4,
          userByte s'.mem lf' (addr1 + k) = intBytes wtime k ∧
          userByte s'.mem lf' (addr2 + k) = intBytes rtime k)) ∨
        ¬ c.Full addr1 addr2 ∧ res = -1) := by
  obtain ⟨t, lf₁, hx₁, -, hW₁, hc₁⟩ := copyout_view addr1 4 (intBytes wtime) hS hc
  rw [hx₁] at h₁
  cases h₁
  by_cases hfull : (c.write addr1 4).1 = 4
  · rw [if_pos hfull] at h₂
    obtain ⟨h0, -⟩ | ⟨-, r₂, h₂, hres⟩ := h₂
    · exact absurd h0 (by decide)
    obtain ⟨t', lf₂, hx₂, -, hW₂, -⟩ := copyout_view addr2 4 (intBytes rtime) hW₁.space hc₁
    rw [hx₂] at h₂
    cases h₂
    refine ⟨lf₂, hW₂.space, hW₁.poked.trans hW₂.poked, fun a ha hV hno => ?_, ?_⟩
    · have h1 : ¬ (addr1 ≤ a ∧ a < addr1 + (c.write addr1 4).1) := fun hin =>
        hno (Or.inl ⟨a - addr1, by omega, by omega⟩)
      have h2 : ¬ (addr2 ≤ a ∧ a < addr2 + ((c.write addr1 4).2.write addr2 4).1) := fun hin =>
        hno (Or.inr ⟨hfull, a - addr2, by omega, by omega⟩)
      rw [hW₂.byte a ha ((hW₁.poked.uncowed.V _).trans hV), if_neg h2, hW₁.byte a ha hV, if_neg h1]
    · by_cases hfull' : ((c.write addr1 4).2.write addr2 4).1 = 4
      · refine Or.inl ⟨⟨hfull, hfull'⟩, ?_, fun hap k hk => ?_⟩
        · rw [hres, if_pos hfull', if_neg (by decide)]
        rw [hfull] at hW₁
        rw [hfull'] at hW₂
        obtain ⟨hlt₁, hV₁, -⟩ := hW₁.user (addr1 + k) (by omega) (by omega)
        obtain ⟨hlt₂, hV₂, -⟩ := hW₂.user (addr2 + k) (by omega) (by omega)
        unfold ApartWords at hap
        constructor
        · rw [hW₂.byte _ hlt₁ ((hW₁.poked.uncowed.V _).trans hV₁), if_neg (by omega),
            hW₁.byte _ hlt₁ hV₁, if_pos (by omega), Nat.add_sub_cancel_left]
        · rw [hW₂.byte _ hlt₂ hV₂, if_pos (by omega), Nat.add_sub_cancel_left]
      · refine Or.inr ⟨fun hf => hfull' hf.2, ?_⟩
        rw [hres, if_neg hfull', if_pos (by decide)]
  · rw [if_neg hfull] at h₂
    obtain ⟨-, rfl, rfl⟩ | ⟨h0, -⟩ := h₂
    swap
    · exact absurd (by decide) h0
    refine ⟨lf₁, hW₁.space, hW₁.poked, fun a ha hV hno => ?_, Or.inr ⟨fun hf => hfull hf.1, rfl⟩⟩
    rw [hW₁.byte a ha hV, if_neg fun hin => hno (Or.inl ⟨a - addr1, by omega, by omega⟩)]

theorem timesCopied_iff {a : ℕ} (hS : Space S.phys (S.proc i).pagetable T lf K X)
    (hc : Seen S.phys lf (leafRefs UPAGES lf + X) c) :
    TimesCopied i addr1 addr2 wtime rtime S a ↔ c.Reaches addr1 addr2 a := by
  obtain ⟨t, lf₁, hx₁, hn₁, hW₁, hc₁⟩ := copyout_view addr1 4 (intBytes wtime) hS hc
  obtain ⟨-, -, -, hn₂, -, -⟩ := copyout_view addr2 4 (intBytes rtime) hW₁.space hc₁
  constructor
  · rintro (⟨k, hk⟩ | ⟨s, k, hx, hk⟩)
    · rw [hn₁] at hk
      exact Or.inl ⟨k, hk, rfl⟩
    · rw [hx₁] at hx
      by_cases hfull : (c.write addr1 4).1 = 4
      · rw [if_pos hfull] at hx
        cases hx
        rw [hn₂] at hk
        exact Or.inr ⟨hfull, k, hk, rfl⟩
      · rw [if_neg hfull] at hx
        cases hx
  · rintro (⟨k, hk, rfl⟩ | ⟨hfull, k, hk, rfl⟩)
    · rw [← hn₁] at hk
      exact .wtime k hk
    · rw [← hn₂] at hk
      rw [if_pos hfull] at hx₁
      exact .rtime t k hx₁ hk

omit [Image] in
/-- With room both words are written wherever user code has memory. -/
theorem full_iff (hfree : 4 ≤ c.free) :
    c.Full addr1 addr2 ↔ UserWord c.pte addr1 ∧ UserWord c.pte addr2 := by
  have hle : c.free ≤ (c.write addr1 4).2.free + 2 := CowView.free_write (by decide)
  unfold CowView.Full
  rw [CowView.write_full (by omega) (by decide), CowView.write_full (by omega) (by decide)]
  exact and_congr Iff.rfl (forall₂_congr fun _ _ => CowView.write_userPage)

/-- The bytes that the page table shows. -/
theorem Space.byte_leaf {a : ℕ} (h : Space s r T lf K X) (ha : a / 4096 < UPAGES) :
    userByte s.mem (leaf s.mem r) a = userByte s.mem lf a := by
  unfold userByte
  rw [h.tree.leaf _ (lt_trans ha (by decide))]

end

/-! ## The three ends of `waitx` -/

/-- The owned pages besides the page table of process `i`. -/
abbrev Sys.rest (S : Sys) (i : Fin NPROC) : Multiset ℕ :=
  tabs S.phys.mem (S.rootsBut i) + (S.held + ((S.proc i).trapframe ::ₘ S.framesBut i))

/-- The references to user pages besides those of process `i`. -/
abbrev Sys.otherRefs (S : Sys) (i : Fin NPROC) (L : Multiset ℕ) : Multiset ℕ :=
  urefs S.phys.mem (S.rootsBut i) + L

section

variable [Image] {S T S₁ : Sys} {i j : Fin NPROC} {addr addr1 addr2 wtime rtime wt rt : ℕ} {r r₁ : ℤ}
  {L : Multiset ℕ} {s s' s₁ : Phys} {lf : ℕ → Pte} {c : CowView}

/-- `waitx` has failed: the result is -1 in any case. -/
theorem failed_sound_iff (h : MemOk L S) (hl : S.Live i)
    (hP : Poked S.phys s (S.map i) lf (S.rest i) (S.otherRefs i L))
    (hS : Space s (S.proc i).pagetable (tables S.phys.mem (S.proc i).pagetable) lf (S.rest i)
      (S.otherRefs i L))
    (hb : ∀ a, a / 4096 < UPAGES → (S.map i (a / 4096)).has PTE_V = true → ¬ InStatus addr a →
      userByte s.mem lf a = S.byte i a)
    (hc : Seen s lf (leafRefs UPAGES lf + S.otherRefs i L) c)
    (hw : waitx i addr wtime rtime S = .ok (some ((-1, wt, rt), { S with phys := s })))
    (h₁ : copyout (S.proc i).pagetable addr1 (intBytes wt) 4 s = .ok (r₁, s₁))
    (h₂ : (r₁ < 0 ∧ r = -1 ∧ s' = s₁) ∨ ¬ r₁ < 0 ∧ ∃ r₂, copyout (S.proc i).pagetable addr2
      (intBytes rt) 4 s₁ = .ok (r₂, s') ∧ r = if r₂ < 0 then -1 else -1) :
    WaitxSound i addr addr1 addr2 wtime rtime S r { S with phys := s' } ↔
      ∀ a, c.Reaches addr1 addr2 a → InStatus addr a ∧ ¬ S.Childless i := by
  obtain ⟨lf', hS', hP', hbyte, hres⟩ := times_spec hS hc h₁ h₂
  obtain rfl : r = -1 := by
    obtain ⟨-, hr, -⟩ | ⟨-, hr⟩ := hres
    · exact hr
    · exact hr
  have hwritten : ∀ a, TimesWritten i addr addr1 addr2 wtime rtime S a ↔ c.Reaches addr1 addr2 a := by
    intro a
    rw [← timesCopied_iff (S := { S with phys := s }) hS hc]
    constructor
    · rintro ⟨ret, wt', rt', S₁, hx, ha⟩
      rw [hw] at hx
      cases hx
      exact ha
    · intro ha
      exact ⟨_, _, _, _, hw, ha⟩
  constructor
  · intro hs a ha
    exact ⟨hs.written rfl a ((hwritten a).mpr ha),
      fun hno => hs.childless rfl hno a ((hwritten a).mpr ha)⟩
  · intro hcond
    obtain ⟨-, -, hkept⟩ := h.poked hl (hP.trans hP') hS'
    refine ⟨fun _ j _ => rfl, fun _ a ha => (hcond a ((hwritten a).mp ha)).1, fun _ a ha hV hno => ?_,
      fun _ => hkept, fun _ hno a ha => (hcond a ((hwritten a).mp ha)).2 hno, fun hne => absurd rfl hne⟩
    have hV' := (hP.uncowed.V _).trans hV
    rw [← hb a ha hV hno, ← hbyte a ha hV' fun hr => hno (hcond a hr).1]
    exact hS'.byte_leaf ha

/-- `waitx` has reaped child `j`: the pages it gives back suffice for both words. -/
theorem reaped_sound_iff (hi : (S.proc i).state = .RUNNING) (hj : S.ZombieChild i j)
    (h : MemOk L { S with phys := s })
    (hmap : ∀ a, UserPage (leaf s.mem (S.proc i).pagetable) a ↔ UserPage (S.map i) a)
    (hf : freeproc j { S with phys := s } = .ok S₁)
    (h₁ : copyout (S₁.proc i).pagetable addr1 (intBytes (S.proc j).waited) 4 S₁.phys = .ok (r₁, s₁))
    (h₂ : (r₁ < 0 ∧ r = -1 ∧ s' = s₁) ∨ ¬ r₁ < 0 ∧ ∃ r₂, copyout (S₁.proc i).pagetable addr2
      (intBytes (S.proc j).rtime) 4 s₁ = .ok (r₂, s') ∧ r = if r₂ < 0 then -1 else (S.proc j).pid) :
    WaitxSound i addr addr1 addr2 wtime rtime S r { S₁ with phys := s' } ↔
      (S.proc j).pid ≠ -1 ∧ UserWord (S.map i) addr1 ∧ UserWord (S.map i) addr2 := by
  have hij : i ≠ j := by
    rintro rfl
    rw [hj.2] at hi
    cases hi
  have hlj : Sys.Live { S with phys := s } j := fun hu => by
    rw [show (S.proc j).state = .ZOMBIE from hj.2] at hu
    cases hu
  have hl : Sys.Live { S with phys := s } i := fun hu => by
    rw [show (S.proc i).state = .RUNNING from hi] at hu
    cases hu
  have hroom := h.freeproc_room hlj hf
  obtain ⟨hM, -, hkept⟩ := h.freeproc hlj hf
  have hself : S₁.proc i = S.proc i := by
    obtain ⟨_, _, -, -, rfl⟩ := freeproc_ok hf
    exact Sys.set_ne hij
  have hfreed : (S₁.proc j).state = .UNUSED := by
    obtain ⟨_, _, -, -, rfl⟩ := freeproc_ok hf
    rw [Sys.set_self]
    rfl
  have hl₁ : S₁.Live i := by
    unfold Sys.Live
    rw [hself]
    exact hl
  -- user code has the same pages
  have hpage : ∀ a, UserPage (S₁.map i) a ↔ UserPage (S.map i) a := by
    intro a
    rw [← hmap a]
    have hm := (hkept i hij).map hl
    refine and_congr_right fun ha => ?_
    obtain ⟨hV, he⟩ := hm _ (pageNumber_lt ha)
    constructor
    · rintro ⟨h1, h2⟩
      rw [hV] at h1
      rw [he h1] at h2
      exact ⟨h1, h2⟩
    · rintro ⟨h1, h2⟩
      rw [hV, he h1]
      exact ⟨h1, h2⟩
  have hword : ∀ va, UserWord (S₁.map i) va ↔ UserWord (S.map i) va := fun va =>
    forall₂_congr fun k _ => hpage (va + k)
  have hS := (hM.open hl₁).space
  have hfull : (S₁.view i).Full addr1 addr2 ↔ UserWord (S.map i) addr1 ∧ UserWord (S.map i) addr2 := by
    rw [← hword, ← hword]
    exact full_iff hroom
  obtain ⟨lf', hS', -, -, hres⟩ := times_spec hS hS.seen h₁ h₂
  constructor
  · intro hs
    -- otherwise the result is -1, and the child is gone
    have hr : r ≠ -1 := fun hr => by
      have := congrArg (fun p => p.state) (hs.zombies hr j hj)
      dsimp only at this
      rw [hfreed, hj.2] at this
      cases this
    obtain ⟨hF, hr', -⟩ | ⟨-, hr'⟩ := hres
    · exact ⟨hr' ▸ hr, hfull.mp hF⟩
    · exact absurd hr' hr
  · rintro ⟨hpid, hwords⟩
    obtain ⟨-, rfl, hbytes⟩ | ⟨hF, -⟩ := hres
    swap
    · exact absurd (hfull.mpr hwords) hF
    refine ⟨fun hr => absurd hr hpid, fun hr => absurd hr hpid, fun hr => absurd hr hpid,
      fun hr => absurd hr hpid, fun hr => absurd hr hpid, fun _ => ⟨j, hj, rfl, hfreed, fun hap k hk => ?_⟩⟩
    have hlt : ∀ {va}, UserWord (S.map i) va → (va + k) / 4096 < UPAGES := fun hva =>
      hS.lt_upages ((hpage _).mpr (hva k hk))
    obtain ⟨hb₁, hb₂⟩ := hbytes hap k hk
    exact ⟨(hS'.byte_leaf (hlt hwords.1)).trans hb₁, (hS'.byte_leaf (hlt hwords.2)).trans hb₂⟩

omit [Image] in
theorem zombieChild_some (hj : zombieChild i S = some j) : S.ZombieChild i j := by
  simpa [Sys.ZombieChild] using findProc_some hj

/-- The status has been copied out in full, if it was asked for. -/
theorem status_copied {x : ℤ} {s : Phys} (h : MemOk L S) (hl : S.Live i)
    (hc : addr ≠ 0 ∧ ¬ r₁ < 0 ∧ copyout (S.proc i).pagetable addr (intBytes x) 4 S.phys = .ok (r₁, s) ∨
      addr = 0 ∧ s = S.phys) :
    (addr = 0 ∨ ((S.view i).write addr 4).1 = 4) ∧ MemOk L { S with phys := s } ∧
      ∀ a, UserPage (leaf s.mem (S.proc i).pagetable) a ↔ UserPage (S.map i) a := by
  obtain ⟨-, hr, hc⟩ | ⟨h0, rfl⟩ := hc
  · have hS := (h.open hl).space
    obtain ⟨t, lf, hx, -, hW, -⟩ := copyout_view addr 4 (intBytes x) hS hS.seen
    rw [hx] at hc
    by_cases hfull : ((S.view i).write addr 4).1 = 4
    · cases hc
      obtain ⟨hM, -, -⟩ := h.poked hl hW.poked hW.space
      refine ⟨Or.inr hfull, hM, fun a => ?_⟩
      rw [← UserPage.congr hW.poked.uncowed]
      refine and_congr_right fun ha => ?_
      rw [hW.space.tree.leaf _ (pageNumber_lt ha)]
    · have hfull' : ¬ ((S.phys.view (S.map i)).write addr 4).1 = 4 := hfull
      rw [if_neg hfull'] at hc
      cases hc
      exact absurd (by decide) hr
  · exact ⟨Or.inl h0, h, fun _ => Iff.rfl⟩

/-- **When a failed `waitx` has no effect.** -/
theorem sys_waitx_sound_iff (h : MemOk L S) (hi : (S.proc i).state = .RUNNING)
    (hw : sys_waitx i addr addr1 addr2 wtime rtime S = .ok (some (r, T))) :
    WaitxSound i addr addr1 addr2 wtime rtime S r T ↔ WaitxCond i addr addr1 addr2 S := by
  have hl : S.Live i := fun hu => by
    rw [hi] at hu
    cases hu
  have hS := (h.open hl).space
  obtain ⟨hx, -⟩ | ⟨ret, S₁, r₁, s, hround, hwx, hc₁, hx⟩ := sys_waitx_ok hw
  · cases hx
  obtain ⟨s', rfl, h₂⟩ : ∃ s', T = { S₁ with phys := s' } ∧
      ((r₁ < 0 ∧ r = -1 ∧ s' = s) ∨ ¬ r₁ < 0 ∧ ∃ r₂, copyout (S₁.proc i).pagetable addr2
        (intBytes (S.waitTimes i wtime rtime).2) 4 s = .ok (r₂, s') ∧
          r = if r₂ < 0 then -1 else ret) := by
    obtain ⟨h0, hx⟩ | ⟨h0, r₂, s', hc₂, hx⟩ := hx
    · cases hx
      exact ⟨s, rfl, Or.inl ⟨h0, rfl, rfl⟩⟩
    · cases hx
      exact ⟨s', rfl, Or.inr ⟨h0, r₂, hc₂, rfl⟩⟩
  unfold WaitxCond
  cases hround with
  | bad j r' s₀ hj h0 hr hc =>
    have hno : ¬ S.Childless i := fun hno => hno j (zombieChild_some hj).1
    obtain ⟨t, lf, hx, -, hW, hseen⟩ := copyout_view addr 4 (intBytes (S.proc j).xstate) hS hS.seen
    have hfull : ¬ ((S.view i).write addr 4).1 = 4 := fun hfull => by
      have hfull' : ((S.phys.view (S.map i)).write addr 4).1 = 4 := hfull
      rw [hx, if_pos hfull'] at hc
      cases hc
      exact absurd hr (by decide)
    obtain rfl : t = s₀ := by
      rw [hx] at hc
      exact congrArg Prod.snd (Except.ok.inj hc)
    have hle : ((S.phys.view (S.map i)).write addr 4).1 ≤ 4 := CowView.write_le
    rw [hj]
    dsimp only
    rw [if_neg (not_or.mpr ⟨h0, hfull⟩), failed_sound_iff h hl hW.poked hW.space ?_ hseen hwx hc₁ h₂]
    · exact forall₂_congr fun a _ => and_iff_left hno
    · intro a ha hV hna
      rw [hW.byte a ha hV, if_neg fun hin =>
        hna ⟨h0, hin.1, lt_of_lt_of_le hin.2 (Nat.add_le_add_left hle _)⟩]
  | none hz =>
    rw [hz]
    exact failed_sound_iff h hl (Poked.refl _ _ _ _) hS (fun _ _ _ _ => rfl) hS.seen hwx hc₁ h₂
  | reaped j r' s₀ T₀ hj hc hf =>
    obtain ⟨hcopied, hM, hmap⟩ := status_copied h hl hc
    have htimes : S.waitTimes i wtime rtime = ((S.proc j).waited, (S.proc j).rtime) := by
      unfold Sys.waitTimes
      rw [hj]
    rw [htimes] at hc₁ h₂
    rw [hj]
    dsimp only
    rw [if_pos hcopied]
    exact reaped_sound_iff hi (zombieChild_some hj) hM hmap hf hc₁ h₂

/-- A child is freed if its status could be copied out. -/
theorem sys_waitx_reaped {j : Fin NPROC} (h : MemOk L S) (hl : S.Live i) (hz : zombieChild i S = some j)
    (hst : addr = 0 ∨ ((S.view i).write addr 4).1 = 4)
    (hw : sys_waitx i addr addr1 addr2 wtime rtime S = .ok (some (r, T))) : T.proc j = (S.proc j).free := by
  obtain ⟨hx, -⟩ | ⟨ret, S₁, r₁, s, hround, -, -, hx⟩ := sys_waitx_ok hw
  · cases hx
  have hT : T.proc = S₁.proc := by
    obtain ⟨-, hx⟩ | ⟨-, r₂, s', -, hx⟩ := hx
    · cases hx
      rfl
    · cases hx
      rfl
  rw [hT]
  cases hround with
  | bad j' r' s₀ hj h0 hr hc =>
    rw [hz] at hj
    cases hj
    have hS := (h.open hl).space
    obtain ⟨t, lf, hx, -⟩ := copyout_view addr 4 (intBytes (S.proc j).xstate) hS hS.seen
    have hfull : ((S.phys.view (S.map i)).write addr 4).1 = 4 := hst.resolve_left h0
    rw [hx, if_pos hfull] at hc
    cases hc
    exact absurd hr (by decide)
  | none hn =>
    rw [hz] at hn
    cases hn
  | reaped j' r' s₀ T₀ hj hc hf =>
    rw [hz] at hj
    cases hj
    obtain ⟨s₁, s₂, -, -, rfl⟩ := freeproc_ok hf
    exact Function.update_self _ _ _

/-! ## A call that returns -/

omit [Image] in
/-- A page table that is kept. -/
theorem Linked.kept {j : Fin NPROC} {m : ByteStore} {R : Multiset ℕ} (hr : (S.proc j).pagetable ∈ R)
    (hk : Keeps S.phys.mem m (tabs S.phys.mem R)) (hl : Linked S.phys.mem (S.proc j).pagetable) :
    Linked m (S.proc j).pagetable ∧ leaf m (S.proc j).pagetable = S.map j := by
  have htab : Keeps S.phys.mem m (tables S.phys.mem (S.proc j).pagetable) := hk.mono fun p hp =>
    Multiset.mem_of_le (tables_le hr) hp
  refine ⟨linkedAt_congr hl htab, ?_⟩
  funext v
  exact leafAt_congr htab

/-- A process with all its pages can be freed. -/
theorem MemOk.freeproc_total {j : Fin NPROC} (h : MemOk L S) (hj : S.Live j)
    (hl : Linked S.phys.mem (S.proc j).pagetable) (hfull : Full (S.map j) (S.proc j).sz) :
    ∃ T, Xv6.freeproc j S = .ok T := by
  have hheap := h.open hj
  rw [Multiset.add_cons] at hheap
  have ho := hheap.owns
  rw [Multiset.add_cons] at ho
  obtain ⟨s, hs⟩ := ho.kfree_own_total
  obtain ⟨h₁, hk⟩ := hheap.kfree hs
  obtain ⟨hl₁, hleaf⟩ := Linked.kept (Multiset.mem_cons_self _ _) hk.left.left hl
  have hshape := (h.slot j).shape hj
  unfold Sys.map at hleaf hfull
  rw [← hleaf] at hshape hfull
  obtain ⟨s', hs'⟩ := h₁.proc_freepagetable_total hl₁ hshape hfull
  unfold Xv6.freeproc
  dsimp only
  rw [if_pos ((h.slot j).frame hj), hs, ok_bind, if_pos ((h.slot j).table hj), hs', ok_bind]
  exact ⟨_, rfl⟩

/-- **`sys_waitx` returns** when a child has exited whose page table can be freed. -/
theorem sys_waitx_returns {j : Fin NPROC} (h : MemOk L S) (hi : (S.proc i).state = .RUNNING)
    (hz : zombieChild i S = some j) (hl : Linked S.phys.mem (S.proc j).pagetable)
    (hfull : Full (S.map j) (S.proc j).sz) :
    ∃ r T, sys_waitx i addr addr1 addr2 wtime rtime S = .ok (some (r, T)) := by
  have hli : S.Live i := fun hu => by
    rw [hi] at hu
    cases hu
  have hzj := (zombieChild_some hz).2
  have hij : j ≠ i := by
    rintro rfl
    rw [hi] at hzj
    cases hzj
  have hlj : S.Live j := fun hu => by
    rw [hzj] at hu
    cases hu
  have htimes : ∀ {U : Sys} (ret : ℤ) (wt rt : ℕ), MemOk L U → U.Live i →
      ∃ r T, (do
        let x ← copyout (U.proc i).pagetable addr1 (intBytes wt) 4 U.phys
        if x.1 < 0 then return some (-1, { U with phys := x.2 })
        else
          let y ← copyout (U.proc i).pagetable addr2 (intBytes rt) 4 x.2
          if y.1 < 0 then return some (-1, { U with phys := y.2 })
          else return some (ret, { U with phys := y.2 }) : Except Panic (Option (ℤ × Sys))) =
        .ok (some (r, T)) := by
    intro U ret wt rt hU hlU
    obtain ⟨r₁, s₁, hc₁, -⟩ := copyout_total addr1 4 (intBytes wt) (hU.open hlU).space
    have hU₁ := (hU.copyout hlU hc₁).1
    obtain ⟨r₂, s₂, hc₂, -⟩ := copyout_total addr2 4 (intBytes rt) (hU₁.open hlU).space
    rw [hc₁, ok_bind]
    dsimp only
    split_ifs
    · exact ⟨_, _, rfl⟩
    · rw [show copyout (U.proc i).pagetable addr2 (intBytes rt) 4 s₁ = .ok (r₂, s₂) from hc₂, ok_bind]
      dsimp only
      split_ifs
      · exact ⟨_, _, rfl⟩
      · exact ⟨_, _, rfl⟩
  have hround : ∃ r U, waitRound i addr S = .ok (some (r, U)) ∧ MemOk L U ∧ U.Live i := by
    have hstatus : ∃ r s, (if addr ≠ 0 then
          copyout (S.proc i).pagetable addr (intBytes (S.proc j).xstate) 4 S.phys
        else .ok (0, S.phys) : Except Panic (ℤ × Phys)) = .ok (r, s) ∧ MemOk L { S with phys := s } ∧
        Keeps S.phys.mem s.mem (tabs S.phys.mem (S.rootsBut i)) := by
      split_ifs
      · have hS := (h.open hli).space
        obtain ⟨s, lf, hx, -, hW, -⟩ := copyout_view addr 4 (intBytes (S.proc j).xstate) hS hS.seen
        exact ⟨_, s, hx, (h.copyout hli hx).1, hW.poked.keeps.left.left⟩
      · exact ⟨0, S.phys, rfl, h, Keeps.refl _ _⟩
    obtain ⟨r, s, hc, hM, hk⟩ := hstatus
    obtain ⟨hl', hleaf⟩ := Linked.kept (Sys.mem_rootsBut hij ((h.slot j).table hlj)) hk hl
    obtain ⟨U, hf⟩ := hM.freeproc_total hlj hl' (by
      show Full (leaf s.mem (S.proc j).pagetable) _
      rw [hleaf]
      exact hfull)
    obtain ⟨hU, -, hkept⟩ := hM.freeproc hlj hf
    unfold waitRound
    rw [hz]
    dsimp only
    rw [hc, ok_bind]
    dsimp only
    split_ifs
    · exact ⟨_, _, rfl, hM, hli⟩
    · rw [hf, ok_bind]
      exact ⟨_, _, rfl, hU, (hkept i hij.symm).live.mpr hli⟩
  obtain ⟨r, U, hw, hU, hlU⟩ := hround
  unfold sys_waitx waitx
  dsimp only
  rw [hw, ok_bind]
  exact htimes r _ _ hU hlU

end

/-! ## Two calls of the first process -/

/-- It has a child that has exited, which was charged one tick and waited for two; the call returns the
child's pid and delivers both times. -/
theorem waitx_sound_child : ∃ S T, @Runs.Steps _ _ _ (@Sys.step smallImage) (@Fits smallImage)
      (Sys.boot smallPhys) S ∧ (S.proc 0).state = .RUNNING ∧ S.ZombieChild 0 1 ∧
    ((S.proc 1).pid, (S.proc 1).waited, (S.proc 1).rtime) = (2, 2, 1) ∧
    @sys_waitx smallImage 0 64 128 192 7 9 S = .ok (some (2, T)) ∧
    @WaitxSound smallImage 0 64 128 192 7 9 S 2 T ∧ (T.proc 1).state = .UNUSED ∧
    T.byte 0 128 = 2 ∧ T.byte 0 192 = 1 := by
  let _ := smallImage
  obtain ⟨S, hS, hrun, hz, hchild, hone, hst, ha, hb, hlinks, hV, hpages⟩ := Runs.Steps.of_any
    (P := fun S e => forkReturns S e = true)
    (Q := fun S : Sys => (S.proc 0).state = .RUNNING ∧ zombieChild 0 S = some 1 ∧
      ((S.proc 1).pid, (S.proc 1).waited, (S.proc 1).rtime) = (2, 2, 1) ∧
      (∀ j, (S.proc j).parent = some 0 → j = 1) ∧ ((S.view 0).write 64 4).1 = 4 ∧ UserWord (S.map 0) 128 ∧
      UserWord (S.map 0) 192 ∧ linksOk S.phys.mem 2 (S.proc 1).pagetable = true ∧
      (S.map 1 0).has PTE_V = true ∧ pages (S.proc 1).sz = 1)
    [.userinit, .run 0, .call 0 .fork, .clockintr none, .clockintr none, .run 1, .clockintr none,
      .call 1 (.exit 5)]
    (by decide +kernel : (Runs.exec Sys.step (fun S e => forkReturns S e = true) (Sys.boot smallPhys)
      _).any _ = true)
  have hfits : Runs.Steps Sys.step Fits (Sys.boot smallPhys) S := hS.mono fun _ _ => forkReturns_fits
  have h := (MemOk.of_kinit small_kinit).run hfits
  have hl : S.Live 0 := fun hu => by
    rw [hrun] at hu
    cases hu
  obtain ⟨hpid, hwt, hrt⟩ : (S.proc 1).pid = 2 ∧ (S.proc 1).waited = 2 ∧ (S.proc 1).rtime = 1 := by
    simpa using hchild
  obtain ⟨r, T, hx⟩ : ∃ r T, sys_waitx 0 64 128 192 7 9 S = .ok (some (r, T)) :=
    sys_waitx_returns h hrun hz (linksOk_linked hlinks) fun v hv => by
      rw [hpages, Nat.lt_one_iff] at hv
      rw [hv]
      exact hV
  have hs := (sys_waitx_sound_iff h hrun hx).mpr (by
    unfold WaitxCond
    rw [hz]
    dsimp only
    rw [if_pos (Or.inr hst)]
    exact ⟨by rw [hpid]; decide, ha, hb⟩)
  have hfree := sys_waitx_reaped h hl hz (Or.inr hst) hx
  have hr : r ≠ -1 := fun hr => by
    have hsame := hs.zombies hr 1 (zombieChild_some hz)
    rw [hfree] at hsame
    have hstate := congrArg (fun p : Proc => p.state) hsame
    rw [(zombieChild_some hz).2] at hstate
    cases hstate
  obtain ⟨j, hj, hjr, hju, hbytes⟩ := hs.reaped hr
  obtain rfl := hone j hj.1
  obtain rfl : r = 2 := hjr.symm.trans hpid
  obtain ⟨hb₁, hb₂⟩ := hbytes (Or.inl (by decide)) 0 (by decide)
  rw [hwt] at hb₁
  rw [hrt] at hb₂
  exact ⟨S, T, hfits, hrun, hj, hchild, hx, hs, hju, hb₁, hb₂⟩

/-- It has no child; its call fails and overwrites a byte of its program with what was on the kernel stack. -/
theorem waitx_writes_stack : ∃ S T,
    @Runs.Steps _ _ _ (@Sys.step smallImage) (fun _ _ => True) (Sys.boot smallPhys) S ∧
      (S.proc 0).state = .RUNNING ∧ S.Childless 0 ∧
      @sys_waitx smallImage 0 0 0 4 7 9 S = .ok (some (-1, T)) ∧ S.byte 0 0 ≠ 7 ∧ T.byte 0 0 = 7 ∧
      ¬ @WaitxSound smallImage 0 0 0 4 7 9 S (-1) T := by
  let _ := smallImage
  obtain ⟨S, hS, hrun, hno, hb, hV, h⟩ := Runs.Steps.of_any (P := fun _ _ => True)
    (Q := fun S : Sys => (S.proc 0).state = .RUNNING ∧ S.Childless 0 ∧ S.byte 0 0 ≠ 7 ∧
      (S.map 0 0).has PTE_V = true ∧
      Runs.okWith (fun z => z.any fun w => w.1 == -1 && w.2.byte 0 0 == 7) (sys_waitx 0 0 0 4 7 9 S) = true)
    [.userinit, .run 0]
    (by decide +kernel : (Runs.exec Sys.step (fun _ _ => True) (Sys.boot smallPhys) _).any _ = true)
  obtain ⟨z, hx, hz⟩ := Runs.okWith_iff.mp h
  obtain ⟨⟨r, T⟩, rfl, hr⟩ := (Option.any_eq_true _ _).mp hz
  rw [Bool.and_eq_true, beq_iff_eq, beq_iff_eq] at hr
  obtain ⟨rfl, hb'⟩ := hr
  refine ⟨S, T, hS, hrun, hno, hx, hb, hb', fun hs => hb ?_⟩
  rw [← hs.byte rfl 0 (by decide) hV fun h0 => h0.1 rfl]
  exact hb'

end Xv6
