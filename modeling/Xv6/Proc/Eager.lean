import Xv6.Proc.NoLeak

/-!
# Eager — copy-on-write refines copying at once

The reference machine has one array of bytes for each process: `fork` copies it, `sbrk` clears the new
pages, and a store or a system call writes to the array of one process.  No two arrays share a byte.

It has no page permissions: the kernel decides which calls and stores succeed.

* `cow_refines_eager`: every run of the kernel is matched step by step by a run of the reference machine, and
  after every step every process reads the bytes of its own array.
-/

namespace Xv6

/-- The reference machine: the memory of each process is its own. -/
abbrev Mems := Fin NPROC → ℕ → UInt8

def Upd.apply (M : Mems) : Upd → Mems
  | .copy i j => Function.update M j (M i)
  | .write i dstva n bytes =>
    Function.update M i fun a => if dstva ≤ a ∧ a < dstva + n then bytes (a - dstva) else M i a
  | .zero i v => Function.update M i fun a => if v ≤ a / 4096 then 0 else M i a
  | .load i image => Function.update M i image

/-- The process whose memory an update changes. -/
def Upd.owner : Upd → Fin NPROC
  | .copy _ j => j
  | .write i _ _ _ | .zero i _ | .load i _ => i

def applyAll (M : Mems) (us : List Upd) : Mems := us.foldl Upd.apply M

/-- All pages of process `i` are there and hold the bytes of `m`. -/
def Reads (S : Sys) (i : Fin NPROC) (m : ℕ → UInt8) : Prop := S.Live i → ∀ a, a / 4096 < UPAGES →
  a / 4096 < pages (S.proc i).sz → (S.map i (a / 4096)).has PTE_V = true ∧ S.byte i a = m a

/-- Every process reads the bytes of its own array. -/
def Agrees (S : Sys) (M : Mems) : Prop := ∀ i, Reads S i (M i)

section

variable {S T : Sys} {i j : Fin NPROC} {M : Mems} {m : ℕ → UInt8} {us : List Upd}

/-- **No update touches the memory of a process that is not its owner.** -/
theorem Upd.apply_other {u : Upd} (hj : j ≠ u.owner) : u.apply M j = M j := by
  cases u <;> exact Function.update_of_ne hj _ _

theorem Reads.kept (h : Reads S j m) (hk : Kept S T j) : Reads T j m := by
  intro hl a ha hsz
  have hl' := hk.live.mp hl
  rw [hk.sz hl'] at hsz
  obtain ⟨hV, hb⟩ := h hl' a ha hsz
  refine ⟨?_, (hk.byte hl' a ha hV).trans hb⟩
  rw [(hk.map hl' _ (lt_trans ha (by decide))).1]
  exact hV

/-- One process is updated, and reads its new array; all others keep their memory. -/
theorem Agrees.own {u : Upd} (h : Agrees S M) (hu : u.owner = i) (hi : Reads T i (u.apply M i))
    (ho : ∀ j ≠ i, Kept S T j) : Agrees T (applyAll M [u]) := by
  intro j
  show Reads T j (u.apply M j)
  by_cases hj : j = i
  · rw [hj]
    exact hi
  · rw [u.apply_other (hu ▸ hj)]
    exact (h j).kept (ho j hj)

/-- One process is changed, but reads the same array. -/
theorem Agrees.self (h : Agrees S M) (hi : Reads T i (M i)) (ho : ∀ j ≠ i, Kept S T j) : Agrees T M := by
  intro j
  by_cases hj : j = i
  · rw [hj]
    exact hi
  · exact (h j).kept (ho j hj)

/-- A copy-on-write mark changes no byte. -/
theorem Reads.cowed {k : ℕ} (h : Reads S i m) (hi : S.Live i)
    (hb : Became T i (mapPages cowed (S.map i) (S.map i) 0 k) (S.proc i).sz) (hs : SameBytes S T i) :
    Reads T i m := by
  intro _ a ha hsz
  rw [hb.sz] at hsz
  obtain ⟨hV, he⟩ := h hi a ha hsz
  refine ⟨?_, (hs a ha hV).trans he⟩
  rw [hb.map _ (lt_trans ha (by decide))]
  unfold mapPages
  split_ifs
  · rw [cowed_V]
    exact hV
  · exact hV

variable [Image]

/-- **An effect is simulated**: after it, all processes read what the reference machine holds. -/
theorem Effect.agrees (he : Effect S T us) : ∀ {M}, Agrees S M → Agrees T (applyAll M us) := by
  induction he with
  | kept hk => exact fun h j => (h j).kept (hk j)
  | @made S T i hm =>
    refine fun h => Agrees.self h (i := i) (fun _ a _ hsz => ?_) hm.kept
    rw [hm.sz] at hsz
    exact absurd hsz (Nat.not_lt_zero _)
  | freed hi ho => exact fun h => h.self (fun hl => absurd hl hi) ho
  | cowed hi hb hs ho => exact fun h => h.self ((h _).cowed hi hb hs) ho
  | @forked S T i j hij hi hj hp hb hl hsz hc hcb ho =>
    -- the child reads the pages of the parent, which keeps them
    intro M h k
    show Reads T k (Function.update M j (M i) k)
    by_cases hk : k = j
    · subst hk
      rw [Function.update_self]
      intro _ a ha hlt
      rw [hsz] at hlt
      obtain ⟨hV, hshared⟩ := hc _ hlt
      refine ⟨?_, (hcb a hlt).trans (h i hi a ha hlt).2⟩
      rw [hshared]
      exact shared_V
    · rw [Function.update_of_ne hk]
      by_cases hki : k = i
      · rw [hki]
        exact (h i).cowed hi hp hb
      · exact (h k).kept (ho k hki hk)
  | @wrote S T i dstva n bytes lf hi hb hu hw hr ho =>
    refine fun h => h.own (i := i) (u := .write i dstva n bytes) rfl (fun _ a ha hsz => ?_) ho
    rw [hb.sz] at hsz
    obtain ⟨hV, he⟩ := h i hi a ha hsz
    refine ⟨?_, ?_⟩
    · rw [hb.map _ (lt_trans ha (by decide)), hu.V]
      exact hV
    · rw [Upd.apply, Function.update_self, hw a ha hV, he]
  | @grown S T i newsz lf N hi hb hm hs hz ho =>
    refine fun h => h.own (i := i) (u := .zero i (pages (S.proc i).sz)) rfl (fun _ a ha hsz => ?_) ho
    rw [hb.sz, pages_max] at hsz
    rw [hb.map _ (lt_trans ha (by decide)), Upd.apply, Function.update_self]
    by_cases hold : a / 4096 < pages (S.proc i).sz
    · obtain ⟨hV, he⟩ := h i hi a ha hold
      rw [hm.same _ (Or.inl hold), hs a ha hV, if_neg (not_le.mpr hold)]
      exact ⟨hV, he⟩
    · -- a new page
      have hnew : a / 4096 < pages newsz := by omega
      obtain ⟨p, -, -, he⟩ := hm.page (a / 4096) (by omega) (by omega)
      rw [he, hz a (by omega) hnew, if_pos (by omega)]
      exact ⟨has_or_self (by decide), rfl⟩
  | @shrunk S T i newsz hi hb hs ho =>
    refine fun h => h.self (i := i) (fun _ a ha hsz => ?_) ho
    rw [hb.sz] at hsz
    have hold : a / 4096 < pages (S.proc i).sz ∧ a / 4096 < pages newsz := by
      rw [pages_min] at hsz
      omega
    obtain ⟨hV, he⟩ := h i hi a ha hold.1
    refine ⟨?_, (hs a hsz hV).trans he⟩
    rw [hb.map _ (lt_trans ha (by decide))]
    unfold clearPages
    rw [if_neg (by omega)]
    exact hV
  | @loaded S T i hl =>
    refine fun h => h.own (i := i) (u := .load i (T.byte i)) rfl (fun _ a ha hsz => ⟨hl.full _ hsz, ?_⟩) hl.kept
    rw [Upd.apply, Function.update_self]
  | trans _ _ ih ih' =>
    intro M h
    unfold applyAll
    rw [List.foldl_append]
    exact ih' (ih h)

/-- A step of both machines with the event `e`: a call that succeeds has done all that it should, another one
a part. -/
def EagerStep (e : Event) (x y : Sys × Mems) : Prop := ∃ us, x.1.step e = some (.ok y.1) ∧
  Partly us (e.upds x.1 y.1) ∧ (x.1.Succeeds e → us = e.upds x.1 y.1) ∧ y.2 = applyAll x.2 us

omit [Image] in
theorem Partly.owner {us us' : List Upd} (h : Partly us us') (hn : ∀ u ∈ us', u.owner ≠ j) :
    ∀ u ∈ us, u.owner ≠ j := by
  induction h with
  | nil => exact fun u hu => absurd hu List.not_mem_nil
  | skip _ ih => exact ih fun u hu => hn u (List.mem_cons_of_mem _ hu)
  | whole _ ih =>
    intro u hu
    rcases List.mem_cons.mp hu with rfl | hu
    · exact hn u List.mem_cons_self
    · exact ih (fun u hu => hn u (List.mem_cons_of_mem _ hu)) u hu
  | @short i dstva n m bytes us us' _ _ ih =>
    intro u hu
    rcases List.mem_cons.mp hu with rfl | hu
    · exact hn (.write i dstva m bytes) List.mem_cons_self
    · exact ih (fun u hu => hn u (List.mem_cons_of_mem _ hu)) u hu

omit [Image] in
theorem applyAll_other (hn : ∀ u ∈ us, u.owner ≠ j) : applyAll M us j = M j := by
  induction us generalizing M with
  | nil => rfl
  | cons u us ih =>
    show applyAll (u.apply M) us j = M j
    rw [ih fun u hu => hn u (List.mem_cons_of_mem _ hu), u.apply_other (hn u List.mem_cons_self).symm]

/-- **A step changes the arrays of the processes that its event is about**, and no other one. -/
theorem EagerStep.other {e : Event} {x y : Sys × Mems} (h : EagerStep e x y)
    (hn : ∀ u ∈ e.upds x.1 y.1, u.owner ≠ j) : y.2 j = x.2 j := by
  obtain ⟨us, -, hp, -, hy⟩ := h
  rw [hy, applyAll_other (hp.owner hn)]

/-- No `fork` overflows a counter, and the first process gets its page. -/
def NoOverflow (S : Sys) (e : Event) : Prop := Roomy S e ∧ Boots S e

/-- `copyin` returns bytes of the process's own array. -/
theorem MemOk.copyin_reads {L : Multiset ℕ} {srcva len : ℕ} {bytes : List UInt8} (h : MemOk L S)
    (hr : Reads S i m) (hi : S.Live i)
    (hc : copyin (S.proc i).pagetable srcva len S.phys = some bytes) :
    bytes = (List.range len).map fun k => m (srcva + k) := by
  have hsp := (h.open hi).space
  have hall : ∀ a, srcva ≤ a → a < srcva + len → UserPage (S.map i) a := by
    intro a h1 h2
    by_contra hn
    rw [(copyin_eq srcva len hsp).2 ⟨a, h1, h2, hn⟩] at hc
    cases hc
  rw [(copyin_eq srcva len hsp).1 hall] at hc
  rw [← Option.some.inj hc]
  refine List.map_congr_left fun k hk => ?_
  have hu := hall (srcva + k) (by omega) (by have := List.mem_range.mp hk; omega)
  have hlt := hsp.lt_upages hu
  exact (hr hi _ hlt (((h.slot i).shape hi).user _ hlt hu.2.1)).2

/-- **Copy-on-write refines copying at once**: every run of the kernel, with calls that succeed and calls that
fail, is matched step by step by a run of the reference machine, in which an event changes the arrays of its own
processes only.  After every step all pages of every process are there, and the process reads the bytes of its
array; so it never sees a store of another process made after their `fork`.  The arrays have no page permissions:
how much a call that fails has written is taken from the run of the kernel. -/
theorem cow_refines_eager {mem : ByteStore} {s : Phys} {n : ℕ} {es : ℕ → Event} {ss : ℕ → Sys}
    (hs : kinit mem = .ok s) (h0 : ss 0 = Sys.boot s) (hrun : Runs.Path Sys.step NoOverflow n es ss)
    (M₀ : Mems) : ∃ M : ℕ → Mems, M 0 = M₀ ∧
      (∀ k < n, EagerStep (es k) (ss k, M k) (ss (k + 1), M (k + 1)) ∧
        ∀ j, (∀ u ∈ (es k).upds (ss k) (ss (k + 1)), u.owner ≠ j) → M (k + 1) j = M k j) ∧
      ∀ k ≤ n, ∀ i, (ss k).Live i →
        (∀ a, a / 4096 < pages ((ss k).proc i).sz →
          ((ss k).map i (a / 4096)).has PTE_V = true ∧ (ss k).byte i a = M k i a) ∧
        ∀ srcva len bytes, copyin ((ss k).proc i).pagetable srcva len (ss k).phys = some bytes →
          bytes = (List.range len).map fun l => M k i (srcva + l) := by
  have hinit : (∃ L, MemOk L (ss 0)) ∧ Agrees (ss 0) M₀ := by
    rw [h0]
    exact ⟨⟨0, .of_kinit hs⟩, fun i hl => absurd rfl hl⟩
  obtain ⟨M, hM₀, hstep, hR⟩ := hrun.simulate (R := fun S M => (∃ L, MemOk L S) ∧ Agrees S M)
    (T := EagerStep) hinit (by
      rintro S e T M ⟨⟨L, h⟩, hA⟩ ⟨hroom, hboots⟩ ht
      obtain ⟨⟨L', h', -⟩, heff⟩ := h.step hroom ht
      obtain ⟨us, he, hp, hsucc⟩ := heff hboots
      exact ⟨applyAll M us, ⟨us, ht, hp, hsucc, rfl⟩, ⟨L', h'⟩, he.agrees hA⟩)
  refine ⟨M, hM₀, fun k hk => ⟨hstep k hk, fun j hn => (hstep k hk).other hn⟩, fun k hk i hl => ?_⟩
  obtain ⟨⟨L, hM⟩, hA⟩ := hR k hk
  refine ⟨fun a ha => ?_, fun srcva len bytes => hM.copyin_reads (hA i) hl⟩
  exact hA i hl a (lt_of_lt_of_le ha (pages_le ((hM.slot i).shape hl).le)) ha

/-! ## On a small machine -/

/-- The test for `NoOverflow` as long as no count has been taken for nothing. -/
def bootsOrForks (S : Sys) (e : Event) : Bool := forkReturns S e && match e with
  | .userinit => Runs.okWith (fun T => T.held == S.held) (userinit S)
  | _ => true

theorem bootsOrForks_ok {e : Event} (h : bootsOrForks S e = true) : Fits S e ∧ Boots S e := by
  obtain ⟨hf, hb⟩ := Bool.and_eq_true_iff.mp h
  refine ⟨forkReturns_fits hf, ?_⟩
  cases e with
  | userinit =>
    intro T hT
    simpa [hT, Runs.okWith] using hb
  | _ => exact trivial

end

/-- The first process forks, and its child stores a byte. -/
def forkStore : List Event := [.userinit, .run 0, .call 0 .fork, .run 1, .call 1 (.store 0 7)]

/-- The parent does not see the byte. -/
theorem cow_refines_eager_fork : ∃ ss : ℕ → Sys, ss 0 = Sys.boot smallPhys ∧
    @Runs.Path _ _ _ (@Sys.step smallImage) (@NoOverflow smallImage) 5 (fun k => forkStore.getD k .userinit) ss ∧
    (ss 5).byte 0 0 = 0x17 ∧ (ss 5).byte 1 0 = 7 ∧
    ∀ M₀, ∃ M : ℕ → Mems, M 0 = M₀ ∧ M 5 0 = M 4 0 ∧ M 5 0 0 = 0x17 ∧ M 5 1 0 = 7 := by
  let _ := smallImage
  have hex : (Runs.exec Sys.step (fun S e => bootsOrForks S e = true) (Sys.boot smallPhys) forkStore).any
      (fun S => decide (S.byte 0 0 = 0x17 ∧ S.byte 1 0 = 7 ∧ (S.proc 0).state ≠ .UNUSED ∧
        (S.proc 1).state ≠ .UNUSED ∧ 0 < pages (S.proc 0).sz ∧ 0 < pages (S.proc 1).sz)) = true := by
    decide +kernel
  obtain ⟨S, hS, hQ⟩ := (Option.any_eq_true _ _).mp hex
  obtain ⟨hb0, hb1, hl0, hl1, hp0, hp1⟩ := of_decide_eq_true hQ
  obtain ⟨ss, h0, h5, hpath⟩ := Runs.Path.of_exec .userinit hS
  subst h5
  have hrun : Runs.Path Sys.step NoOverflow 5 (fun k => forkStore.getD k .userinit) ss :=
    hpath.mono fun k hk hP => by
      have hfits : Runs.Steps Sys.step Fits (Sys.boot smallPhys) (ss k) :=
        h0 ▸ (hpath.steps hk.le).mono fun _ _ h => (bootsOrForks_ok h).1
      exact ⟨((MemOk.of_kinit small_kinit).run hfits).roomy (hpath k hk).2, (bootsOrForks_ok hP).2⟩
  refine ⟨ss, h0, hrun, hb0, hb1, fun M₀ => ?_⟩
  obtain ⟨M, hM₀, hstep, hA⟩ := cow_refines_eager small_kinit h0 hrun M₀
  refine ⟨M, hM₀, (hstep 4 (by decide)).2 0 fun u hu => ?_, ?_, ?_⟩
  · obtain rfl := List.mem_singleton.mp hu
    decide
  · exact ((hA 5 le_rfl 0 hl0).1 0 hp0).2.symm.trans hb0
  · exact ((hA 5 le_rfl 1 hl1).1 0 hp1).2.symm.trans hb1

end Xv6
