import Xv6.Fs.Owners
import Xv6.Kernel.ExecFile
import Xv6.Proc.ExecArgs
import Xv6.Proc.NoLeak

/-!
# ExecFail — a failed `exec` changes nothing

* `Volume.exec_memory`: with the inode, `exec` does to the memory what it does without.
* `sys_exec_fails`: where it fails, the processes, the pages in use and their counters, the free pages,
  and the references and locks of all inodes are as before.
-/

namespace Xv6

open Volume

variable [Image] {sb : superblock} {cwd ip : Fin NINODE} {S T : Sys} {V V' W : Volume} {i : Fin NPROC}
  {L R K : Multiset ℕ} {s s' : Phys} {argv : List (List UInt8)} {path : List UInt8} {r : ℤ}
  {upath uargv : ℕ}

/-- Nothing is different but the order and the contents of the free pages. -/
structure Unchanged (S T : Sys) : Prop where
  rest : T = { S with phys := T.phys }
  free : T.phys.freelist.Perm S.phys.freelist
  count : ∀ p, okPage p → T.phys.pte_count (p / PGSIZE) = S.phys.pte_count (p / PGSIZE)
  page : ∀ p, okPage p → p ∉ S.phys.freelist → PageEq S.phys.mem T.phys.mem p
  map : ∀ j, S.Live j → T.map j = S.map j
  byte : ∀ j, S.Live j → SameBytes S T j
  trapframe : ∀ j, S.Live j → PageEq S.phys.mem T.phys.mem (S.proc j).trapframe

/-! ## The two models of `exec` -/

theorem buildImage_eq (trapframe : ℕ) (ip : Inode) (argv : List (List UInt8)) (s : Phys) :
    buildImage trapframe ip argv s = do
      let (ok, pagetable, sz, s) ← loadElf trapframe ip s
      if ok = false then return (none, pagetable, sz, s)
      else
        let (o, sz, s) ← setupStack pagetable sz argv s
        return (o, pagetable, sz, s) := by
  unfold buildImage loadElf
  dsimp only
  split_ifs
  · rfl
  · cases proc_pagetable trapframe s with
    | error e => rfl
    | ok x =>
      obtain ⟨pagetable, s₁⟩ := x
      simp only [ok_bind]
      split_ifs
      · rfl
      · cases loadLoop pagetable ip (field (ip.readi 0 64) 56 2) (uint32 (field (ip.readi 0 64) 32 8)) 0 s₁ with
        | error e => rfl
        | ok x => rfl

/-- **`exec` with the inode** is `exec` on what is in it, and gives back the inode. -/
theorem Volume.exec_memory (he : V.exec sb cwd i path argv S = .ok (r, T, W)) :
    Took i [] [] V W ∧ ∃ namei, Xv6.exec i path argv namei S = .ok (r, T) := by
  obtain ⟨⟨found, V₁⟩, hn, he⟩ := bind_ok he
  have h₁ := (Took.refl i V).namei hn
  cases found with
  | none =>
    cases he
    exact ⟨h₁, fun _ => none, rfl⟩
  | some ip =>
    obtain ⟨V₂, hl, he⟩ := bind_ok he
    obtain ⟨h₂, -⟩ := h₁.ilock hl
    obtain ⟨⟨ok, pagetable, sz, s⟩, hload, he⟩ := bind_ok he
    dsimp only at he
    split_ifs at he with hok
    · obtain ⟨s', hfree, he⟩ := bind_ok he
      obtain ⟨V₃, hp, he⟩ := bind_ok he
      cases he
      refine ⟨h₂.iunlockput hp, fun _ => some (V₂.contents sb ip), ?_⟩
      have hb : buildImage (S.proc i).trapframe (V₂.contents sb ip) argv S.phys =
          .ok (none, pagetable, sz, s) := by
        rw [buildImage_eq, hload, ok_bind]
        dsimp only
        rw [if_pos hok]
        rfl
      unfold freeImage at hfree
      unfold Xv6.exec
      dsimp only
      rw [hb, ok_bind]
      dsimp only
      rw [hfree]
      rfl
    · obtain ⟨V₃, hp, he⟩ := bind_ok he
      obtain ⟨⟨o, sz', s₁⟩, hs, he⟩ := bind_ok he
      have hb : buildImage (S.proc i).trapframe (V₂.contents sb ip) argv S.phys =
          .ok (o, pagetable, sz', s₁) := by
        rw [buildImage_eq, hload, ok_bind]
        dsimp only
        rw [if_neg hok, hs]
        rfl
      have hcopy : Xv6.exec i path argv (fun _ => some (V₂.contents sb ip)) S = .ok (r, T) ∧ W = V₃ := by
        unfold Xv6.exec
        dsimp only
        rw [hb, ok_bind]
        cases o with
        | none =>
          obtain ⟨s', hfree, he⟩ := bind_ok he
          cases he
          unfold freeImage at hfree
          dsimp only
          rw [hfree]
          exact ⟨rfl, rfl⟩
        | some sp =>
          obtain ⟨s', hfree, he⟩ := bind_ok he
          cases he
          dsimp only at hfree ⊢
          rw [hfree]
          exact ⟨rfl, rfl⟩
      obtain ⟨hcopy, rfl⟩ := hcopy
      exact ⟨h₂.iunlockput hp, _, hcopy⟩

theorem Volume.sys_exec_memory (he : V.sys_exec sb cwd i upath uargv S = .ok (r, T, W)) :
    Took i [] [] V W ∧ ∃ namei, Xv6.sys_exec i upath uargv namei S = .ok (r, T) := by
  unfold Volume.sys_exec at he
  unfold Xv6.sys_exec
  cases hc : copyinstr (S.proc i).pagetable upath MAXPATH S.phys with
  | none =>
    rw [hc] at he
    cases he
    exact ⟨Took.refl i V, fun _ => none, rfl⟩
  | some path =>
    rw [hc] at he
    dsimp only at he ⊢
    obtain ⟨⟨r', S', V'⟩, hx, he⟩ := bind_ok he
    obtain ⟨s', hp, he⟩ := bind_ok he
    cases he
    split_ifs at hx with hok
    · obtain ⟨hT, namei, hm⟩ := Volume.exec_memory hx
      refine ⟨hT, namei, ?_⟩
      rw [if_pos hok, hm, ok_bind]
      dsimp only
      rw [hp]
      rfl
    · cases hx
      refine ⟨Took.refl i V, fun _ => none, ?_⟩
      rw [if_neg hok, ok_bind]
      dsimp only
      rw [hp]
      rfl

/-! ## The memory -/

/-- A failed `exec` gives back all pages. -/
theorem Exec.fails (he : Exec i argv S T r) (hr : r = -1) (h : Heap S.phys R K L) :
    ∃ s, T = { S with phys := s } ∧ Heap s R K L ∧ Keeps S.phys.mem s.mem (foot S.phys.mem R K L) := by
  cases he with
  | noFile hT => exact ⟨S.phys, hT, h, Keeps.refl _ _⟩
  | failed ip pagetable sz s s' hb hf hT => exact ⟨s', hT, h.giveUp hb hf⟩
  | done ip sp pagetable sz entry name s s' hb hf hT => omega

/-- So does a failed `sys_exec`, with the pages of the arguments. -/
theorem MemOk.sys_exec_undone {namei : List UInt8 → Option Inode} (h : MemOk L S)
    (he : Xv6.sys_exec i upath uargv namei S = .ok (-1, T)) :
    ∃ s, T = { S with phys := s } ∧ Heap s S.roots (S.held + S.frames) L ∧
      Keeps S.phys.mem s.mem (foot S.phys.mem S.roots (S.held + S.frames) L) := by
  obtain ⟨-, rfl⟩ | ⟨ok, argv, s, S', s', hfetch, hexec, hfree, hT⟩ := sys_exec_ok he
  · exact ⟨T.phys, rfl, h.heap, Keeps.refl _ _⟩
  obtain ⟨h₁, hk₁⟩ := h.heap.fetchArgs hfetch
  -- the pages of the arguments are in other hands while `exec` runs
  obtain ⟨s₂, hS', h₂, hk₂⟩ : ∃ s₂, S' = { S with phys := s₂ } ∧
      Heap s₂ S.roots (argPages argv + (S.held + S.frames)) L ∧
      Keeps s.mem s₂.mem (foot s.mem S.roots (argPages argv + (S.held + S.frames)) L) := by
    rcases hexec with ⟨-, rfl⟩ | hx
    · exact ⟨s, rfl, h₁, Keeps.refl _ _⟩
    · exact hx.fails rfl h₁
  subst hS'
  obtain ⟨h₃, hk₃⟩ := h₂.freePages hfree
  have hk₂ := hk₂.foot_mono (Multiset.le_add_left (S.held + S.frames) (argPages argv))
  exact ⟨s', hT, h₃, (hk₁.foot_trans hk₂).foot_trans hk₃⟩

/-- The pages in use have kept their contents and their references. -/
theorem MemOk.unchanged (h : MemOk L S) (h' : Heap s S.roots (S.held + S.frames) L)
    (hk : Keeps S.phys.mem s.mem (foot S.phys.mem S.roots (S.held + S.frames) L)) :
    Unchanged S { S with phys := s } := by
  have ha : Alloc S.phys (foot S.phys.mem S.roots (S.held + S.frames) L) := h.heap.owns.alloc
  have ha' : Alloc s (foot S.phys.mem S.roots (S.held + S.frames) L) := by
    have := h'.owns.alloc
    rwa [hk.left.left.tabs_eq, hk.left.left.urefs_eq] at this
  have hin : ∀ p, okPage p → p ∉ S.phys.freelist → p ∈ foot S.phys.mem S.roots (S.held + S.frames) L := by
    intro p hok hp
    by_contra hnot
    exact hp ((ha.free_iff p).mpr ⟨hok, hnot⟩)
  have hroot : ∀ j, S.Live j → (S.proc j).pagetable ∈ S.roots := fun j hj =>
    Sys.mem_roots ((h.slot j).table hj)
  refine ⟨rfl, ha.free_perm ha', fun p hok => ?_, fun p hok hp => hk p (hin p hok hp), fun j hj => ?_,
    fun j hj a hlt hV => ?_, fun j hj => hk _ ?_⟩
  · exact (ha'.count_ok hok).trans (ha.count_ok hok).symm
  · exact hk.left.left.leaf_eq (hroot j hj)
  · exact hk.left.left.userByte_eq hk.right.left (hroot j hj) hlt hV
  · exact Multiset.mem_add.mpr (Or.inl (Multiset.mem_add.mpr (Or.inr
      (Multiset.mem_add.mpr (Or.inr (Sys.mem_frames ((h.slot j).frame hj)))))))

/-! ## The inode -/

/-- The inode of the program is locked by nobody. -/
theorem Volume.exec_unlocked (he : V.exec sb cwd i path argv S = .ok (r, T, W))
    (hn : V.namei sb i cwd path = .ok (some ip, V')) : (W.inode ip).lock = none := by
  have hT := (Volume.exec_memory he).1
  obtain ⟨⟨found, V₁⟩, hn₁, he⟩ := bind_ok he
  rw [hn] at hn₁
  cases hn₁
  obtain ⟨V₂, hl, -⟩ := bind_ok he
  obtain ⟨-, hlock, -⟩ := ilock_ok hl
  have h₁ := ((Took.refl i V).namei hn).lock ip
  rw [if_neg List.not_mem_nil] at h₁
  rw [hT.lock, if_neg List.not_mem_nil, ← h₁, hlock]

/-- **A failed `exec` changes nothing.** -/
theorem sys_exec_fails (h : MemOk L S) (he : V.sys_exec sb cwd i upath uargv S = .ok (-1, T, W)) :
    Unchanged S T ∧ (∀ ip, (W.inode ip).ref = (V.inode ip).ref ∧ (W.inode ip).lock = (V.inode ip).lock ∧
        (0 < (V.inode ip).ref →
          (W.inode ip).dev = (V.inode ip).dev ∧ (W.inode ip).inum = (V.inode ip).inum)) ∧
      ∀ path, copyinstr (S.proc i).pagetable upath MAXPATH S.phys = some path →
        (fetchArgs (S.proc i) uargv MAXARG 0 S.phys).1 = true →
        ∀ ip V', V.namei sb i cwd path = .ok (some ip, V') → (W.inode ip).lock = none := by
  obtain ⟨hT, namei, hm⟩ := Volume.sys_exec_memory he
  refine ⟨?_, fun ip => ⟨hT.ref ip, ?_, hT.same ip⟩, fun path hc hok ip V' hn => ?_⟩
  · obtain ⟨s, rfl, h', hk⟩ := h.sys_exec_undone hm
    exact h.unchanged h' hk
  · rw [hT.lock, if_neg List.not_mem_nil]
  · unfold Volume.sys_exec at he
    rw [hc] at he
    dsimp only at he
    obtain ⟨⟨r', S', V₁⟩, hx, he⟩ := bind_ok he
    obtain ⟨s', -, he⟩ := bind_ok he
    cases he
    rw [if_pos hok] at hx
    exact Volume.exec_unlocked hx hn

/-! ## A file that is cut off -/

/-- A file whose segments cannot be loaded is given up. -/
theorem MemOk.sys_exec_gives_up {V₁ V₂ : Volume} {s₁ s₂ : Phys} {args : List (ℕ × List UInt8)}
    {pagetable sz : ℕ} (h : MemOk L S) (hc : copyinstr (S.proc i).pagetable upath MAXPATH S.phys = some path)
    (hargs : fetchArgs (S.proc i) uargv MAXARG 0 S.phys = (true, args, s₁))
    (hn : V.namei sb i cwd path = .ok (some ip, V₁)) (hl : V₁.ilock sb i ip = .ok V₂)
    (hload : loadElf (S.proc i).trapframe (V₂.contents sb ip) s₁ = .ok (false, pagetable, sz, s₂))
    (hput : V₂.iunlockput sb i ip = .ok W) : ∃ T, V.sys_exec sb cwd i upath uargv S = .ok (-1, T, W) := by
  obtain ⟨h₁, -⟩ := h.heap.fetchArgs hargs
  have hb : buildImage (S.proc i).trapframe (V₂.contents sb ip) (args.map Prod.snd) s₁ =
      .ok (none, pagetable, sz, s₂) := by
    rw [buildImage_eq, hload, ok_bind]
    rfl
  obtain ⟨s₃, hfree⟩ : ∃ s₃, freeImage pagetable sz s₂ = .ok s₃ := by
    unfold freeImage
    rcases h₁.buildImage hb with ⟨h0, -⟩ | ⟨h0, hB⟩
    · rw [if_neg (not_not.mpr h0)]
      exact ⟨s₂, rfl⟩
    · rw [if_pos h0]
      exact hB.proc_freepagetable_total (h₁.buildImage_linked hb h0)
  obtain ⟨s₄, hpages⟩ := (h₁.giveUp hb hfree).1.freePages_total
  have hexec : V.exec sb cwd i path (args.map Prod.snd) { S with phys := s₁ } =
      .ok (-1, { S with phys := s₃ }, W) := by
    unfold Volume.exec
    rw [hn, ok_bind]
    dsimp only
    rw [hl, ok_bind, hload, ok_bind]
    dsimp only
    rw [if_pos rfl, hfree, ok_bind, hput, ok_bind]
    rfl
  refine ⟨{ S with phys := s₄ }, ?_⟩
  unfold Volume.sys_exec
  rw [hc]
  dsimp only
  rw [hargs]
  dsimp only
  rw [if_pos rfl, hexec, ok_bind]
  dsimp only
  rw [hpages]
  rfl

/-- An executable whose first segment is a page of zeros, and which ends before its second program header. -/
def cutElf : List UInt8 :=
  [0x7F, 0x45, 0x4C, 0x46] ++ List.replicate 28 0 ++ [64] ++ List.replicate 23 0 ++ [2] ++
    List.replicate 7 0 ++ [1, 0, 0, 0, 7] ++ List.replicate 35 0 ++ [8] ++ List.replicate 15 0

/-- `exec` of the path and the arguments at these addresses takes seven pages before it fails to load a
segment of the inode. -/
def loadsCut (sb : superblock) (cwd ip : Fin NINODE) (i : Fin NPROC) (upath uargv : ℕ) (path : List UInt8)
    (S : Sys) (V : Volume) : Bool :=
  (fetchArgs (S.proc i) uargv MAXARG 0 S.phys).1 &&
    copyinstr (S.proc i).pagetable upath MAXPATH S.phys == some path &&
    Runs.okWith (fun x => x.1 == some ip && Runs.okWith (fun V =>
      Runs.okWith (fun y => y.1 == false && y.2.2.2.freelist.length + 7 == S.phys.freelist.length)
        (loadElf (S.proc i).trapframe (V.contents sb ip) (fetchArgs (S.proc i) uargv MAXARG 0 S.phys).2.2) &&
      Runs.okWith (fun _ => true) (V.iunlockput sb i ip)) (x.2.ilock sb i ip))
    (V.namei sb i cwd path)

theorem MemOk.sys_exec_cut (h : MemOk L S) (hcut : loadsCut sb cwd ip i upath uargv path S V = true) :
    ∃ T W, V.sys_exec sb cwd i upath uargv S = .ok (-1, T, W) := by
  unfold loadsCut at hcut
  cases hargs : fetchArgs (S.proc i) uargv MAXARG 0 S.phys with
  | mk ok x =>
    obtain ⟨args, s⟩ := x
    rw [hargs] at hcut
    simp only [Bool.and_eq_true, beq_iff_eq] at hcut
    obtain ⟨⟨rfl, hc⟩, hn⟩ := hcut
    obtain ⟨⟨o, V₁⟩, hn, hx⟩ := Runs.okWith_iff.mp hn
    simp only [Bool.and_eq_true, beq_iff_eq] at hx
    obtain ⟨rfl, hl⟩ := hx
    obtain ⟨V₂, hl, hx⟩ := Runs.okWith_iff.mp hl
    simp only [Bool.and_eq_true] at hx
    obtain ⟨hload, hput⟩ := hx
    obtain ⟨⟨ok, pagetable, sz, s₂⟩, hload, hy⟩ := Runs.okWith_iff.mp hload
    simp only [Bool.and_eq_true, beq_iff_eq] at hy
    obtain ⟨rfl, -⟩ := hy
    obtain ⟨W, hput, -⟩ := Runs.okWith_iff.mp hput
    obtain ⟨T, hT⟩ := h.sys_exec_gives_up hc hargs hn hl hload hput
    exact ⟨T, W, hT⟩

omit [Image] in
/-- The file `/init` is cut off, and the first process executes it. -/
theorem sys_exec_fails_init : ∃ S V T W,
    @Runs.Steps _ _ _ (@Sys.step smallImage) (@Fits smallImage) (Sys.boot smallPhys) S ∧
      Runs.Steps (step mkfsSb) (Known mkfsSb) rootVolume V ∧
      @loadsCut smallImage mkfsSb 0 1 0 36 43 [47, 105, 110, 105, 116] S V = true ∧
      @Volume.sys_exec smallImage mkfsSb 0 0 36 43 S V = .ok (-1, T, W) ∧
      @Unchanged smallImage S T ∧ ∀ ip, (W.inode ip).ref = (V.inode ip).ref := by
  let _ := smallImage
  obtain ⟨S, hS, hV⟩ := Runs.Steps.of_any (P := fun S e => forkReturns S e = true)
    (Q := fun S : Sys => (Runs.exec (step mkfsSb) (Known mkfsSb) rootVolume
      [.ialloc T_FILE, .ilock 7 1, .relink 7 1 0 0 1, .writei 7 1 (fun k => cutElf[k]?) 0 120, .iunlock 7 1,
        .ilock 7 0, .dirlink 7 0 (fun i => [105, 110, 105, 116].getD i 0) 2, .iunlock 7 0, .iput 7 1]).any
        (loadsCut mkfsSb 0 1 0 36 43 [47, 105, 110, 105, 116] S) = true)
    [.userinit, .run 0]
    (by decide +kernel : (Runs.exec Sys.step (fun S e => forkReturns S e = true) (Sys.boot smallPhys)
      _).any _ = true)
  obtain ⟨V, hV, hcut⟩ := (Option.any_eq_true _ _).mp hV
  have hF := hS.mono fun _ _ => forkReturns_fits
  have h := (MemOk.of_kinit small_kinit).run hF
  obtain ⟨T, W, he⟩ := h.sys_exec_cut hcut
  obtain ⟨hU, hW, -⟩ := sys_exec_fails h he
  exact ⟨S, V, T, W, hF, Runs.Steps.of_exec hV, hcut, he, hU, fun ip => (hW ip).1⟩

end Xv6
