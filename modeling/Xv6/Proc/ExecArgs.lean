import Xv6.Mem.Links
import Xv6.Mem.Transfer
import Xv6.Mem.UserStack
import Xv6.Proc.Calls

/-!
# ExecArgs — the arguments that `exec` hands over

* `exec_args`: where `exec` succeeds, `main` gets the strings and the pointers to them (`Arguments`), in
  the stack page, and below it is what the segments have put there; where only the stack can be at
  fault, `exec` fails if and only if all of this takes more than a page.
-/

namespace Xv6

/-- The part of `exec` before the stack succeeds: the new page table has the size `sz`. -/
structure ElfLoaded [Image] (trapframe : ℕ) (ip : Inode) (s : Phys) (pagetable sz : ℕ) (s' : Phys) :
    Prop where
  length : (ip.readi 0 64).length = 64
  magic : field (ip.readi 0 64) 0 4 = ELF_MAGIC
  load : ∃ s₁, proc_pagetable trapframe s = .ok (pagetable, s₁) ∧ pagetable ≠ 0 ∧
    loadLoop pagetable ip (field (ip.readi 0 64) 56 2) (uint32 (field (ip.readi 0 64) 32 8)) 0 s₁ =
      .ok (true, sz, s')

/-- The two pages for the stack are there. -/
structure StackReady [Image] (trapframe : ℕ) (ip : Inode) (s : Phys) (pagetable sz sz₁ : ℕ) (s' : Phys) :
    Prop where
  elf : ElfLoaded trapframe ip s pagetable sz s'
  stack : sz₁ ≠ 0 ∧ ∃ s₁, uvmalloc pagetable (PGROUNDUP sz) (uint64 (PGROUNDUP sz + 2 * PGSIZE)) PTE_W s' =
    .ok (sz₁, s₁)

variable [Image] {S T : Sys} {i : Fin NPROC} {L R K : Multiset ℕ} {s s' : Phys} {ip : Inode}
  {argv : List (List UInt8)} {pagetable sz sz₁ trapframe sp entry : ℕ} {m : ByteStore}

/-- The image as the segments have left it. -/
theorem Heap.elfLoaded (h : Heap s R K L) (he : ElfLoaded trapframe ip s pagetable sz s') :
    Built s s' pagetable sz R K L := by
  obtain ⟨s₁, hp, h0, hl⟩ := he.load
  exact (h.emptyImage hp h0).loadLoop hl

/-- An image with a stack pointer has got its pages for the stack. -/
theorem buildImage_some (hb : buildImage trapframe ip argv s = .ok (some sp, pagetable, sz₁, s')) :
    ∃ sz s₁, StackReady trapframe ip s pagetable sz sz₁ s₁ ∧
      setupStack pagetable sz argv s₁ = .ok (some sp, sz₁, s') := by
  unfold buildImage at hb
  dsimp only at hb
  split_ifs at hb with hhead
  · cases hb
  rw [not_or, not_not, not_not] at hhead
  obtain ⟨⟨pt, s₁⟩, hp, hb⟩ := bind_ok hb
  dsimp only at hb
  split_ifs at hb with h0
  · cases hb
  obtain ⟨⟨ok, sz, s₂⟩, hl, hb⟩ := bind_ok hb
  dsimp only at hb
  split_ifs at hb with hok
  · cases hb
  obtain ⟨⟨o, sz', s₃⟩, hs, hb⟩ := bind_ok hb
  cases hb
  rw [Bool.not_eq_false] at hok
  subst hok
  refine ⟨sz, s₂, ⟨⟨hhead.1, hhead.2, s₁, hp, h0, hl⟩, ?_⟩, hs⟩
  unfold setupStack at hs
  dsimp only at hs
  obtain ⟨⟨sz2, s₄⟩, hu, hs⟩ := bind_ok hs
  dsimp only at hs
  split_ifs at hs with hz
  · cases hs
  obtain ⟨s₅, -, hs⟩ := bind_ok hs
  obtain ⟨⟨o, s₆⟩, -, hs⟩ := bind_ok hs
  obtain _ | ⟨sp', ustack⟩ := o
  · cases hs
  dsimp only at hs
  split_ifs at hs
  · cases hs
  obtain ⟨⟨r, s₇⟩, -, hs⟩ := bind_ok hs
  dsimp only at hs
  split_ifs at hs
  · cases hs
  · cases hs
    exact ⟨hz, s₄, hu⟩

/-- **The image with its stack**: only the room for the arguments decides. -/
theorem Heap.stackReady (h : Heap s R K L) (he : StackReady trapframe ip s pagetable sz sz₁ s')
    (hm : Shows s' pagetable sz m) (hargc : argv.length < MAXARG)
    (hlen : ∀ arg ∈ argv, arg.length < PGSIZE) :
    sz₁ = PGROUNDUP sz + 2 * PGSIZE ∧ ∃ o t, Xv6.buildImage trapframe ip argv s = .ok (o, pagetable, sz₁, t) ∧
      Built s t pagetable sz₁ R K L ∧
      ((o = none ∧ PGSIZE < argRoom argv) ∨ (o = some (sz₁ - argRoom argv) ∧ argRoom argv ≤ PGSIZE ∧
        StackPage t pagetable (sz₁ - PGSIZE) ∧ Shows t pagetable sz₁ (argImage argv sz₁ m))) := by
  obtain ⟨h0, s₁, hu⟩ := he.stack
  obtain ⟨hsz₁, o, t, hs, hB, hcase⟩ := (h.elfLoaded he.elf).setupStack_total hm hargc hlen hu h0
  refine ⟨hsz₁, o, t, ?_, hB, hcase⟩
  obtain ⟨s₂, hp, hpt, hl⟩ := he.elf.load
  unfold Xv6.buildImage
  simp only [he.elf.length, he.elf.magic, ne_eq, not_true_eq_false, or_self, if_false, hp, ok_bind, hpt, hl,
    Bool.true_eq_false, hs]
  rfl

omit [Image] in
/-- The words that `exec` has put into the trapframe. -/
theorem setRegs_load {m' : ByteStore} (hsp : sp < 2 ^ 64)
    (hk : PageEq (setRegs s trapframe sp entry).mem m' trapframe) :
    m'.load (trapframe + TF_SP) 8 = sp ∧ m'.load (trapframe + TF_A1) 8 = sp := by
  have hmod : sp % 256 ^ 8 = sp := Nat.mod_eq_of_lt hsp
  have hload : ∀ off, off + 8 ≤ 4096 → m'.load (trapframe + off) 8 =
      (setRegs s trapframe sp entry).mem.load (trapframe + off) 8 := fun off hoff => by
    refine ByteStore.load_congr fun k hk' => ?_
    rw [Nat.add_assoc]
    exact hk _ (by omega)
  rw [hload _ (by decide), hload _ (by decide)]
  constructor
  · exact (ByteStore.load_store).trans hmod
  · show ByteStore.load (ByteStore.store (ByteStore.store (ByteStore.store _ _ _ _) _ _ _) _ _ _) _ _ = _
    rw [ByteStore.load_store_out (by simp only [TF_A1, TF_SP]; omega),
      ByteStore.load_store_out (by simp only [TF_A1, TF_EPC]; omega), ByteStore.load_store, hmod]

omit [Image] in
/-- Arguments in a memory with the same bytes below `sz`. -/
theorem Arguments.congr {sp sz : ℕ} {m' : ByteStore} (h : Arguments argv sp sz m)
    (hm : ∀ a < sz, m' a = m a) : Arguments argv sp sz m' := by
  have harr := h.array
  have hptr : ∀ i ≤ argv.length, argPtr m' sp i = argPtr m sp i := fun i hi =>
    ByteStore.load_congr fun k hk => hm _ (by omega)
  refine ⟨h.aligned, ?_, fun i hi n hn => ?_, h.stack, fun i hi => ?_, fun i j hij hj => ?_, harr⟩
  · rw [hptr _ le_rfl]
    exact h.null
  · have hbelow := (h.below i hi).2
    rw [hptr i hi.le, hm _ (by omega)]
    exact h.string i hi n hn
  · rw [hptr i hi.le]
    exact h.below i hi
  · rw [hptr i (by omega), hptr j hj.le]
    exact h.apart i j hij hj

omit [Image] in
/-- No subtraction on `sp` wraps around. -/
theorem subtractions_le {base argc : ℕ} (hsp : sp % 16 = 0) (hlo : base ≤ sp) (hhi : sp ≤ base + 4096)
    (hbase : 4096 ≤ base) (hlt : base + 4096 < 2 ^ 64) (hargc : argc + argv.length < MAXARG)
    (hlen : ∀ arg ∈ argv, arg.length < PGSIZE) : ∀ q ∈ subtractions base argv argc sp, q.2 ≤ q.1 := by
  induction argv generalizing argc sp with
  | nil =>
    intro q hq
    have hargc' : argc + 0 < 32 := hargc
    rw [subtractions, List.mem_singleton] at hq
    subst hq
    dsimp only
    omega
  | cons arg argv ih =>
    intro q hq
    have harg : arg.length + 1 ≤ 4096 := hlen arg List.mem_cons_self
    have hargc' : argc + (argv.length + 1) < 32 := hargc
    have hpush := push_sp (arg.length + 1) hsp (by omega) (by omega)
    have hmod : room (arg.length + 1) % 16 = 0 := Nat.mul_mod_left _ _
    unfold subtractions at hq
    dsimp only at hq
    rw [if_neg (show ¬ 32 ≤ argc by omega), hpush] at hq
    rcases List.mem_cons.mp hq with rfl | hq
    · dsimp only
      omega
    split_ifs at hq with hfit
    · exact absurd hq List.not_mem_nil
    have hargc₁ : argc + 1 + argv.length < MAXARG := by
      show _ < 32
      omega
    exact ih (by omega) (by omega) (by omega) hargc₁ (fun a ha => hlen a (List.mem_cons_of_mem arg ha)) q hq

/-- The new image of process `i`: the arguments in the stack page, the guard page below it, and below
that what is in `s` on the page table of the segments. -/
structure HandedOver (T : Sys) (i : Fin NPROC) (argv : List (List UInt8)) (pagetable sz : ℕ) (s : Phys) :
    Prop where
  size : (T.proc i).sz = PGROUNDUP sz + 2 * PGSIZE
  main : ∃ sp, T.phys.mem.load ((T.proc i).trapframe + TF_SP) 8 = sp ∧
    T.phys.mem.load ((T.proc i).trapframe + TF_A1) 8 = sp ∧ Arguments argv sp (T.proc i).sz (T.byte i)
  stack : ∀ a, PGROUNDUP sz + PGSIZE ≤ a → a < (T.proc i).sz → UserPage (T.map i) a
  guard : ∀ a, PGROUNDUP sz ≤ a → a < PGROUNDUP sz + PGSIZE →
    (T.map i (a / PGSIZE)).has PTE_U = false ∧ T.byte i a = 0
  segments : ∀ a < PGROUNDUP sz, T.byte i a = userByte s.mem (leaf s.mem pagetable) a

/-- The commit shows the image to the process. -/
theorem MemOk.commit_view (name : List UInt8) (h : MemOk L S) (hi : S.Live i)
    (hb : buildImage (S.proc i).trapframe ip argv S.phys = .ok (some sp, pagetable, sz₁, s))
    (hf : proc_freepagetable (S.proc i).pagetable (S.proc i).sz (setRegs s (S.proc i).trapframe sp entry) =
      .ok s')
    (hT : T = { S with phys := s' }.set i { S.proc i with name := name, pagetable := pagetable, sz := sz₁ }) :
    T.map i = leaf s.mem pagetable ∧
      ∀ a < pages sz₁ * 4096, T.byte i a = userByte s.mem (leaf s.mem pagetable) a := by
  obtain ⟨h0, hB, -, hk, -⟩ := h.commit hi hb hf
  have hself : T.proc i = { S.proc i with name := name, pagetable := pagetable, sz := sz₁ } := by
    rw [hT]
    exact Function.update_self _ _ _
  have hphys : T.phys = s' := by rw [hT]; rfl
  have hmap : T.map i = leaf s'.mem pagetable := by
    unfold Sys.map
    rw [hself, hphys]
  refine ⟨hmap.trans (Heap.tabs_mem hk), fun a ha => ?_⟩
  obtain ⟨ha₁, ha₂⟩ := hB.lt_upages ha
  unfold Sys.byte
  rw [hmap, hphys]
  exact hk.left.left.userByte_eq hk.right.left (Multiset.mem_cons_self _ _) ha₂ (hB.full _ ha₁)

/-- The new image after the commit. -/
theorem MemOk.handedOver {name : List UInt8} (h : MemOk L S) (hi : S.Live i) (hargc : argv.length < MAXARG)
    (hlen : ∀ arg ∈ argv, arg.length < PGSIZE)
    (hb : buildImage (S.proc i).trapframe ip argv S.phys = .ok (some sp, pagetable, sz₁, s))
    (hf : proc_freepagetable (S.proc i).pagetable (S.proc i).sz (setRegs s (S.proc i).trapframe sp entry) =
      .ok s')
    (hT : T = { S with phys := s' }.set i { S.proc i with name := name, pagetable := pagetable, sz := sz₁ }) :
    ∃ sz s₁, StackReady (S.proc i).trapframe ip S.phys pagetable sz sz₁ s₁ ∧
      HandedOver T i argv pagetable sz s₁ := by
  obtain ⟨-, hB, -, -, hframe⟩ := h.commit hi hb hf
  obtain ⟨sz, s₁, hready, -⟩ := buildImage_some hb
  obtain ⟨m, hm⟩ := exists_shows s₁ pagetable sz
  obtain ⟨hsz₁, o, t, hb', -, hcase⟩ := h.heap.stackReady hready hm hargc hlen
  rw [hb] at hb'
  injection hb' with hb'
  obtain ⟨rfl, -, -, rfl⟩ : some sp = o ∧ pagetable = pagetable ∧ sz₁ = sz₁ ∧ s = t := by
    simpa using hb'
  obtain ⟨ho, -⟩ | ⟨ho, hroom, hstack, hshows⟩ := hcase
  · cases ho
  injection ho with hsp
  refine ⟨sz, s₁, hready, ?_⟩
  have hle : sz₁ ≤ 274877898752 := hB.shape.le
  have hroom' : argRoom argv ≤ 4096 := hroom
  have hsz₁' : sz₁ = PGROUNDUP sz + 8192 := hsz₁
  have hup : PGROUNDUP sz % 4096 = 0 := by
    unfold PGROUNDUP
    simp only [PGSIZE]
    omega
  have hself : T.proc i = { S.proc i with name := name, pagetable := pagetable, sz := sz₁ } := by
    rw [hT]
    exact Function.update_self _ _ _
  have hphys : T.phys = s' := by rw [hT]; rfl
  obtain ⟨hmap, hview⟩ := h.commit_view name hi hb hf hT
  have hpages : pages sz₁ * 4096 = sz₁ := by
    unfold pages
    omega
  have hbyte : ∀ a < sz₁, T.byte i a = argImage argv sz₁ m a := by
    intro a ha
    rw [← hpages] at ha
    rw [hview a ha, hshows.byte a ha]
  have hlow : ∀ a < PGROUNDUP sz + 4096, T.byte i a = m a := fun a ha => by
    rw [hbyte a (by omega), argImage_frame (by omega) (by omega)]
  have hpz : pages sz * 4096 = PGROUNDUP sz := by
    have hle' : sz ≤ 274877898752 := (h.heap.elfLoaded hready.elf).shape.le
    rw [PGROUNDUP_eq (by omega)]
  obtain ⟨hload, hload₁⟩ := setRegs_load (by omega) hframe
  refine ⟨by rw [hself]; exact hsz₁, ⟨sp, ?_, ?_, ?_⟩, fun a h1 h2 => ?_, fun a h1 h2 => ⟨?_, ?_⟩,
    fun a ha => ?_⟩
  · rw [hself, hphys]
    exact hload
  · rw [hself, hphys]
    exact hload₁
  · rw [hself, hsp]
    exact (argImage_arguments hroom (by omega) (by show 4096 ≤ _; omega) (by omega)).congr hbyte
  · have h2 : a < sz₁ := by rwa [hself] at h2
    simp only [PGSIZE] at h1
    rw [hmap]
    exact hstack.user a (by simp only [PGSIZE]; omega) (by simp only [PGSIZE]; omega)
  · simp only [PGSIZE] at h2
    rw [hmap]
    exact hstack.guard a (by simp only [PGSIZE]; omega) (by simp only [PGSIZE]; omega)
  · rw [hlow a h2]
    exact hm.rest a (by omega)
  · rw [hlow a (by omega)]
    exact (hm.byte a (by omega)).symm

/-- A linked image with all its pages can be replaced. -/
theorem MemOk.commit_total (entry : ℕ) (h : MemOk L S) (hi : S.Live i)
    (hl : Linked S.phys.mem (S.proc i).pagetable) (hfull : Full (S.map i) (S.proc i).sz)
    (hb : buildImage (S.proc i).trapframe ip argv S.phys = .ok (some sp, pagetable, sz, s)) :
    ∃ s', proc_freepagetable (S.proc i).pagetable (S.proc i).sz
      (setRegs s (S.proc i).trapframe sp entry) = .ok s' := by
  obtain ⟨-, h1, h4, hk4⟩ := h.registers entry hi hb
  have hold : (S.proc i).pagetable ∈ S.roots := Sys.mem_roots ((h.slot i).table hi)
  have htab : Keeps S.phys.mem (setRegs s (S.proc i).trapframe sp entry).mem
      (tables S.phys.mem (S.proc i).pagetable) := by
    have hk : Keeps S.phys.mem s.mem (tabs S.phys.mem S.roots) := h1.keeps.left.left
    have hk' : Keeps s.mem (setRegs s (S.proc i).trapframe sp entry).mem
        (tables s.mem (S.proc i).pagetable) := fun p hp =>
      hk4.left.left p (Multiset.mem_of_le (tables_le (Multiset.mem_cons_self _ _)) hp)
    rw [hk.tables_eq hold] at hk'
    exact (hk.mono fun p hp => Multiset.mem_of_le (tables_le hold) hp).trans hk'
  have hleaf : leaf (setRegs s (S.proc i).trapframe sp entry).mem (S.proc i).pagetable = S.map i := by
    funext v
    exact leafAt_congr htab
  refine h4.proc_freepagetable_total (linkedAt_congr hl htab) ?_ ?_
  · rw [hleaf]
    exact (h.slot i).shape hi
  · rw [hleaf]
    exact hfull

/-- What is built decides what `exec` returns. -/
theorem MemOk.exec_returns {o : Option ℕ} (path : List UInt8) (namei : List UInt8 → Option Inode)
    (h : MemOk L S) (hi : S.Live i) (hip : namei path = some ip)
    (hb : buildImage (S.proc i).trapframe ip argv S.phys = .ok (o, pagetable, sz, s)) :
    (o = none ∧ ∃ T, Xv6.exec i path argv namei S = .ok (-1, T)) ∨
      (o ≠ none ∧ (∀ T, Xv6.exec i path argv namei S ≠ .ok (-1, T)) ∧
        (Linked S.phys.mem (S.proc i).pagetable → Full (S.map i) (S.proc i).sz →
          ∃ T, Xv6.exec i path argv namei S = .ok (argv.length, T))) := by
  unfold Xv6.exec
  rw [hip]
  dsimp only
  rw [hb, ok_bind]
  cases o with
  | none =>
    refine Or.inl ⟨rfl, ?_⟩
    dsimp only
    rcases h.heap.buildImage hb with ⟨h0, -⟩ | ⟨h0, hB⟩
    · rw [if_neg (not_not.mpr h0), ok_bind]
      exact ⟨_, rfl⟩
    · obtain ⟨s', hf⟩ := hB.proc_freepagetable_total (h.heap.buildImage_linked hb h0)
      rw [if_pos h0, hf, ok_bind]
      exact ⟨_, rfl⟩
  | some sp =>
    refine Or.inr ⟨by simp, fun T he => ?_, fun hl hfull => ?_⟩
    · obtain ⟨s', -, he⟩ := bind_ok he
      cases he
    · obtain ⟨s', hf⟩ := h.commit_total (field (ip.readi 0 64) 24 8) hi hl hfull hb
      unfold setRegs at hf
      dsimp only
      rw [hf, ok_bind]
      exact ⟨_, rfl⟩

/-- **`exec` hands over the arguments.**  Where it succeeds, `main` finds them; where the page table of
the segments and the two pages for the stack are there, `exec` fails if and only if the pushes go below
the stack page; and no subtraction on `sp` wraps around. -/
theorem exec_args (path : List UInt8) (namei : List UInt8 → Option Inode) (h : MemOk L S) (hi : S.Live i)
    (hargc : argv.length < MAXARG) (hlen : ∀ arg ∈ argv, arg.length < PGSIZE) (hip : namei path = some ip) :
    (∀ r T, exec i path argv namei S = .ok (r, T) → r ≠ -1 → r = argv.length ∧ ∃ pagetable sz sz₁ s,
      StackReady (S.proc i).trapframe ip S.phys pagetable sz sz₁ s ∧ HandedOver T i argv pagetable sz s) ∧
    ∀ pagetable sz sz₁ s, StackReady (S.proc i).trapframe ip S.phys pagetable sz sz₁ s →
      ((∃ T, exec i path argv namei S = .ok (-1, T)) ↔ PGSIZE < argRoom argv) ∧
      (Linked S.phys.mem (S.proc i).pagetable → Full (S.map i) (S.proc i).sz →
        ∃ r T, exec i path argv namei S = .ok (r, T)) ∧
      ∀ q ∈ subtractions (sub64 sz₁ PGSIZE) argv 0 sz₁, q.2 ≤ q.1 := by
  refine ⟨fun r T he hr => ?_, fun pagetable sz sz₁ s hready => ?_⟩
  · unfold exec at he
    rw [hip] at he
    dsimp only at he
    obtain ⟨⟨o, pagetable, sz₁, s⟩, hb, he⟩ := bind_ok he
    cases o with
    | none =>
      obtain ⟨s', -, he⟩ := bind_ok he
      cases he
      exact absurd rfl hr
    | some sp =>
      obtain ⟨s', hf, he⟩ := bind_ok he
      cases he
      obtain ⟨sz, s₁, hready, hover⟩ := h.handedOver hi hargc hlen hb hf rfl
      exact ⟨rfl, pagetable, sz, sz₁, s₁, hready, hover⟩
  · obtain ⟨m, hm⟩ := exists_shows s pagetable sz
    obtain ⟨hsz₁, o, t, hb, hB, hcase⟩ := h.heap.stackReady hready hm hargc hlen
    have hsub : ∀ q ∈ subtractions (sub64 sz₁ PGSIZE) argv 0 sz₁, q.2 ≤ q.1 := by
      have hle : sz₁ ≤ 274877898752 := hB.shape.le
      have hup : PGROUNDUP sz % 4096 = 0 := by
        unfold PGROUNDUP
        simp only [PGSIZE]
        omega
      have hsz₁' : sz₁ = PGROUNDUP sz + 8192 := hsz₁
      have hbase : sub64 sz₁ PGSIZE = sz₁ - 4096 := by
        unfold sub64 uint64
        simp only [PGSIZE]
        omega
      rw [hbase]
      exact subtractions_le (by omega) (by omega) (by omega) (by omega) (by omega) (by rwa [Nat.zero_add]) hlen
    rcases h.exec_returns path namei hi hip hb with ⟨rfl, T, hT⟩ | ⟨ho, hno, htotal⟩
    · have hover : PGSIZE < argRoom argv := by
        rcases hcase with ⟨-, hover⟩ | ⟨ho, -⟩
        · exact hover
        · cases ho
      exact ⟨iff_of_true ⟨T, hT⟩ hover, fun _ _ => ⟨-1, T, hT⟩, hsub⟩
    · have hfits : ¬ PGSIZE < argRoom argv := by
        rcases hcase with ⟨ho', -⟩ | ⟨-, hfits, -⟩
        · exact absurd ho' ho
        · exact not_lt.mpr hfits
      refine ⟨iff_of_false (fun hT => hno _ hT.choose_spec) hfits, fun hl hfull => ?_, hsub⟩
      obtain ⟨T, hT⟩ := htotal hl hfull
      exact ⟨_, T, hT⟩

/-! ## On a small machine -/

/-- A process from `allocproc` has an empty image. -/
theorem MemOk.allocproc_empty (h : MemOk L S) (ha : Allocproc S T (some i)) :
    Linked T.phys.mem (T.proc i).pagetable ∧ (T.proc i).sz = 0 := by
  cases ha with
  | done i trapframe pagetable s s' hi hk hp h0 hT =>
    obtain ⟨hn, -⟩ | ⟨p, -, -, -, h₁, -⟩ := h.heap.kalloc hk
    · cases hn
    have hself : T.proc i = { S.named i with
        trapframe := trapframe, pagetable := pagetable }.fresh S.ticks := by
      rw [hT]
      exact Function.update_self _ _ _
    refine ⟨?_, ?_⟩
    · rw [hself, show T.phys = s' by rw [hT]; rfl]
      exact h₁.proc_pagetable_linked hp h0
    · rw [hself]
      exact ((h.slot i).unused hi).2.2

omit [Image] in
/-- The first process executes a file whose image can be built. -/
theorem exec_small (path : List UInt8) (ip : Inode) (argv : List (List UInt8))
    (hb : Runs.okWith (fun y => y.1 == some 0 && Runs.okWith
    (fun x => x.1.isSome) (@buildImage smallImage (y.2.proc 0).trapframe ip argv y.2.phys))
    (@allocproc smallImage (Sys.boot smallPhys)) = true) :
    ∃ S, @allocproc smallImage (Sys.boot smallPhys) = .ok (some 0, S) ∧ @MemOk smallImage 0 S ∧
      S.Live 0 ∧ ∃ T, @exec smallImage 0 path argv (fun _ => some ip) S = .ok (argv.length, T) := by
  let _ := smallImage
  obtain ⟨⟨o, S⟩, hS, hy⟩ := Runs.okWith_iff.mp hb
  rw [Bool.and_eq_true] at hy
  obtain rfl : o = some 0 := beq_iff_eq.mp hy.1
  obtain ⟨⟨o, pagetable, sz, s⟩, hb, ho⟩ := Runs.okWith_iff.mp hy.2
  have h₀ := MemOk.boot smallPhys_alloc
  obtain ⟨h, -, hm⟩ := h₀.allocproc (allocproc_ok hS)
  obtain ⟨hl, hsz⟩ := h₀.allocproc_empty (allocproc_ok hS)
  have hi := (hm 0 rfl).live
  have hfull : Full (S.map 0) (S.proc 0).sz := fun v hv => absurd hv (by rw [hsz]; simp [pages])
  refine ⟨S, hS, h, hi, ?_⟩
  obtain ⟨rfl, -⟩ | ⟨-, -, htotal⟩ := h.exec_returns path (fun _ => some ip) hi rfl hb
  · cases ho
  · exact htotal hl hfull

/-- An executable without segments. -/
def bareElf : List UInt8 := [0x7F, 0x45, 0x4C, 0x46] ++ List.replicate 60 0

omit [Image] in
/-- The first process executes it with the argument `hi`. -/
theorem exec_args_small : ∃ S, @allocproc smallImage (Sys.boot smallPhys) = .ok (some 0, S) ∧
    ∃ T pagetable sz s, @exec smallImage 0 [47] [[104, 105]] (fun _ => some (Inode.ofFile bareElf)) S =
      .ok (1, T) ∧ HandedOver T 0 [[104, 105]] pagetable sz s := by
  let _ := smallImage
  obtain ⟨S, hS, h, hi, T, hT⟩ :=
    exec_small [47] (Inode.ofFile bareElf) [[104, 105]] (by decide +kernel)
  have hargs := exec_args [47] (fun _ => some (Inode.ofFile bareElf)) h hi
    (show [[104, 105]].length < MAXARG by decide) (by decide) rfl
  obtain ⟨-, pagetable, sz, -, s, -, hover⟩ := hargs.1 1 T hT (by decide)
  exact ⟨S, hS, T, pagetable, sz, s, hT, hover⟩

end Xv6
