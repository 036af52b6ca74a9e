import Xv6.Log.Disk

/-!
# Recovery — the log is crash-atomic

`DiskOk` holds of every state of a run, with `H` the initial contents after all groups whose header
write has completed, so it survives crashes; recovery turns it into `H` itself.

* `Inv`: what the buffer cache, the header in memory and the progress of the thread add to `DiskOk`.
* `crash_atomic`: after a crash at any moment and any number of crashes during recovery, the blocks
  outside the log area hold the committed groups.
-/

namespace Xv6

open Replay

/-- The contents after the committed groups. -/
def contents (base : ℕ → Block) (gs : List (List Write)) : ℕ → Block := replay base gs.flatten

theorem contents_concat {base : ℕ → Block} {gs : List (List Write)} {g : List Write} :
    contents base (gs ++ [g]) = replay (contents base gs) g := by
  simp [contents, replay_append]

/-- The group in progress is in the buffer cache; its first `t` blocks are in the log. -/
structure Gathered (sb : superblock) (H : ℕ → Block) (bufs : Bufs) (bs : List ℕ)
    (group : List Write) (t : ℕ) : Prop where
  fits : bs.length ≤ LOGSIZE ∧ (bs = [] ∨ bs.length < sb.nlog)
  home : ∀ b ∈ bs, Home sb b
  empty : headBlocks sb bufs.disk = []
  copied : ∀ i < t, (h : i < bs.length) → bufs.disk (sb.logstart + i + 1) = replay H group bs[i]
  pinned : ∀ b ∈ bs, bufs.view b = replay H group b ∧ 0 < bufs.refcnt b
  clean : ∀ b ∉ bs, bufs.view b = bufs.disk b

/-- The group in the log is committed; its first `t` blocks are installed, and the others are still
pinned when `pin` holds. -/
structure Installing (pin : Prop) (sb : superblock) (H : ℕ → Block) (bufs : Bufs) (bs : List ℕ)
    (t : ℕ) : Prop where
  head : headBlocks sb bufs.disk = bs
  done : ∀ i < t, (h : i < bs.length) → bufs.disk bs[i] = H bs[i]
  pinned : pin → bs.Nodup ∧ ∀ i, t ≤ i → (h : i < bs.length) →
    bufs.view bs[i] = H bs[i] ∧ 0 < bufs.refcnt bs[i]
  clean : ∀ b, (pin → b ∉ bs.drop t) → bufs.view b = bufs.disk b

/-- Every block is installed. -/
structure Installed (sb : superblock) (H : ℕ → Block) (bufs : Bufs) : Prop where
  home : ∀ b, Home sb b → bufs.disk b = H b
  clean : ∀ b, bufs.view b = bufs.disk b

/-- What the phase adds. -/
def PhaseOk (sb : superblock) (H : ℕ → Block) (s : LogSys) : Prop :=
  match s.phase with
  | .initlog => ∀ b, s.bufs.view b = s.bufs.disk b
  | .recover_install t => Installing False sb H s.bufs s.log.lh.blocks t
  | .recover_clear | .clear => Installed sb H s.bufs
  | .running | .finish => Gathered sb H s.bufs s.log.lh.blocks s.group 0
  | .write_log t => Gathered sb H s.bufs s.log.lh.blocks s.group t
  | .write_head => Gathered sb H s.bufs s.log.lh.blocks s.group s.log.lh.n
  | .install_trans t => Installing True sb H s.bufs s.log.lh.blocks t

structure Inv (sb : superblock) (base : ℕ → Block) (s : LogSys) : Prop where
  ctl : Ctl sb s
  disk : DiskOk sb s.bufs.disk (contents base s.committed)
  phase : PhaseOk sb (contents base s.committed) s

/-! ## One lemma for each kind of step -/

section Steps

variable {sb : superblock} {H : ℕ → Block} {s : Bufs} {log : Log} {group : List Write} {t b : ℕ}
  {pin : Prop} {data : Block}

theorem block_eq (h : t < log.lh.blocks.length) : log.lh.block t = log.lh.blocks[t] :=
  (LogHeader.getElem_blocks h).symm

/-- A round of `write_log`. -/
theorem Gathered.write_log (h : Gathered sb H s log.lh.blocks group t) (hD : DiskOk sb s.disk H)
    (hs : log.start = sb.logstart) (ht : t < log.lh.n) :
    DiskOk sb (Xv6.write_log t log s).disk H ∧
      Gathered sb H (Xv6.write_log t log s) log.lh.blocks group (t + 1) := by
  have htl : t < log.lh.blocks.length := by rwa [LogHeader.length_blocks]
  have harea : t + 1 < sb.nlog := by
    rcases h.fits.2 with h0 | hlt
    · rw [h0] at htl; exact absurd htl (by simp)
    · omega
  have hD' := hD.write_logged (d := s.view (log.lh.block t)) h.empty harea
  rw [write_log_disk, hs]
  refine ⟨hD', h.fits, h.home, ?_, fun i hi hin => ?_, fun b hb => ?_, fun b hb => ?_⟩
  · rw [write_log_disk, hs, headBlocks_update (by omega)]
    exact h.empty
  · rw [write_log_disk, hs]
    by_cases hit : i = t
    · subst hit
      rw [Function.update_self, block_eq htl]
      exact (h.pinned _ (List.getElem_mem _)).1
    · rw [Function.update_of_ne (by omega)]
      exact h.copied i (by omega) hin
  · rw [write_log_view, write_log_refcnt, hs,
      Function.update_of_ne ((h.home b hb).ne (not_home_log harea))]
    exact h.pinned b hb
  · rw [write_log_view, write_log_disk, hs]
    by_cases hbt : b = sb.logstart + t + 1
    · subst hbt; rw [Function.update_self, Function.update_self]
    · rw [Function.update_of_ne hbt, Function.update_of_ne hbt]
      exact h.clean b hb

/-- The header write. -/
theorem Gathered.write_head (h : Gathered sb H s log.lh.blocks group log.lh.n)
    (hD : DiskOk sb s.disk H) (h0 : 0 < sb.nlog) (hs : log.start = sb.logstart)
    (hnd : log.lh.blocks.Nodup) (hmem : ∀ b, b ∈ log.lh.blocks ↔ b ∈ group.map Prod.fst) :
    DiskOk sb (Xv6.write_head log s).disk (replay H group) ∧
      Installing True sb (replay H group) (Xv6.write_head log s) log.lh.blocks 0 := by
  have hlogged : Logged sb s.disk (replay H group) log.lh.blocks :=
    ⟨h.fits, h.home, fun i hi => h.copied i (by rwa [LogHeader.length_blocks] at hi) hi⟩
  have hD' := hD.write_headed (d := s.view sb.logstart) h0 h.empty hlogged
    (fun b hb => replay_of_not_mem fun hb' => hb ((hmem b).mpr hb'))
  have hlen : log.lh.n ≤ LOGSIZE := by
    have := h.fits.1
    rwa [LogHeader.length_blocks] at this
  rw [write_head_disk, hs]
  refine ⟨hD', ?_, fun i hi => absurd hi (by omega), fun _ => ⟨hnd, fun i _ hi => ?_⟩, fun b hb => ?_⟩
  · rw [write_head_disk, hs]
    exact headBlocks_put (by simp only [LOGSIZE, MAXOPBLOCKS] at hlen; omega)
      fun b hb => (h.home b hb).1
  · rw [write_head_view, write_head_refcnt, hs, Function.update_of_ne
      ((h.home _ (List.getElem_mem hi)).ne (not_home_head h0))]
    exact h.pinned _ (List.getElem_mem hi)
  · rw [write_head_view, write_head_disk, hs]
    by_cases hbs : b = sb.logstart
    · subst hbs; rw [Function.update_self, Function.update_self]
    · rw [Function.update_of_ne hbs, Function.update_of_ne hbs]
      exact h.clean b (by simpa using hb)

/-- A round of `install_trans`. -/
theorem Installing.install (h : Installing pin sb H s log.lh.blocks t) (hD : DiskOk sb s.disk H)
    (h0 : 0 < sb.nlog) (hs : log.start = sb.logstart) (ht : t < log.lh.n) (r : Bool) :
    DiskOk sb (install_trans r t log s).disk H ∧
      Installing pin sb H (install_trans r t log s) log.lh.blocks (t + 1) := by
  have htl : t < log.lh.blocks.length := by rwa [LogHeader.length_blocks]
  have hL := hD.logged
  rw [h.head] at hL
  have hhome := hL.home _ (List.getElem_mem htl)
  have hlog : s.view (log.start + t + 1) = H (log.lh.block t) := by
    rw [hs, h.clean _ (fun _ hm => not_home_log (hL.area htl) (hL.home _ (List.mem_of_mem_drop hm))),
      hL.data t htl, block_eq htl]
  rw [← block_eq htl] at hhome
  rw [install_trans_disk, hlog]
  refine ⟨hD.write_home h0 hhome, ?_, fun i hi hin => ?_, fun hp => ⟨(h.pinned hp).1, fun i hi hin => ?_⟩,
    fun b hb => ?_⟩
  · rw [install_trans_disk, headBlocks_update (hhome.ne (not_home_head h0))]
    exact h.head
  · rw [install_trans_disk, hlog]
    by_cases heq : log.lh.blocks[i] = log.lh.block t
    · rw [heq, Function.update_self]
    · rw [Function.update_of_ne heq]
      refine h.done i ?_ hin
      by_contra hlt
      have : i = t := by omega
      subst this
      exact heq (block_eq htl).symm
  · have hne : log.lh.blocks[i] ≠ log.lh.block t := by
      rw [block_eq htl]
      intro he
      have := (List.Nodup.getElem_inj_iff (h.pinned hp).1).mp he
      omega
    rw [install_trans_view, Function.update_of_ne hne, install_trans_refcnt _ _ _ hne]
    exact (h.pinned hp).2 i (by omega) hin
  · rw [install_trans_disk, install_trans_view]
    by_cases hbt : b = log.lh.block t
    · subst hbt; rw [Function.update_self, Function.update_self]
    · rw [Function.update_of_ne hbt, Function.update_of_ne hbt]
      refine h.clean b fun hp hm => ?_
      rw [← List.cons_getElem_drop_succ (h := htl), List.mem_cons] at hm
      rcases hm with rfl | hm
      · exact hbt (block_eq htl).symm
      · exact hb hp hm

/-- The last round of `install_trans` is done. -/
theorem Installing.finished (h : Installing pin sb H s log.lh.blocks t) (hD : DiskOk sb s.disk H)
    (ht : log.lh.n ≤ t) : Installed sb H s := by
  refine ⟨fun b hb => hD.installed (fun x hx => ?_) hb, fun b => h.clean b fun _ hm => ?_⟩
  · rw [h.head] at hx
    obtain ⟨i, hi, rfl⟩ := List.getElem_of_mem hx
    exact h.done i (by rw [LogHeader.length_blocks] at hi; omega) hi
  · rw [List.drop_eq_nil_of_le (by rwa [LogHeader.length_blocks])] at hm
    exact List.not_mem_nil hm

/-- The header is cleared. -/
theorem Installed.clear (h : Installed sb H s) (h0 : 0 < sb.nlog) (hs : log.start = sb.logstart)
    (hn : log.lh.n = 0) : DiskOk sb (Xv6.write_head log s).disk H ∧
      Gathered sb H (Xv6.write_head log s) log.lh.blocks [] 0 := by
  have hzero : (diskHeader (putBlocks log.lh.block log.lh.n
      ((s.view sb.logstart).store 0 4 log.lh.n))).n = 0 := by
    rw [hn]
    simp only [putBlocks, diskHeader, ByteStore.load_store]
    rfl
  rw [write_head_disk, hs, LogHeader.blocks_of_n_eq_zero hn]
  refine ⟨DiskOk.write_cleared h0 h.home hzero, by simp, by simp, ?_, by simp, by simp,
    fun b _ => ?_⟩
  · rw [write_head_disk, hs, headBlocks_eq_nil, Function.update_self]
    exact hzero
  · rw [write_head_view, write_head_disk, hs]
    by_cases hbs : b = sb.logstart
    · subst hbs; rw [Function.update_self, Function.update_self]
    · rw [Function.update_of_ne hbs, Function.update_of_ne hbs]
      exact h.clean b

/-- A `log_write`. -/
theorem Gathered.log_write {log' : Log} {s' : Bufs} (h : Gathered sb H s log.lh.blocks group 0)
    (hb : Home sb b) (hs : log.size = sb.nlog)
    (hw : Xv6.log_write b log (s.setData b data) = .ok (log', s')) :
    s'.disk = s.disk ∧ Gathered sb H s' log'.lh.blocks (group ++ [(b, data)]) 0 := by
  obtain ⟨hn, hn', -, hcases⟩ := log_write_ok hw
  rw [hs] at hn'
  have hcache : ∀ x ∈ log.lh.blocks, Function.update s.view b data x =
      replay H (group ++ [(b, data)]) x ∧ 0 < s.refcnt x := by
    intro x hx
    rw [replay_concat]
    by_cases hxb : x = b
    · subst hxb; exact ⟨by simp, (h.pinned x hx).2⟩
    · rw [Function.update_of_ne hxb, Function.update_of_ne hxb]
      exact h.pinned x hx
  rcases hcases with ⟨hm, hbs, rfl⟩ | ⟨hm, hbs, rfl⟩
  · rw [hbs]
    refine ⟨rfl, h.fits, h.home, h.empty, fun i hi => absurd hi (by omega), fun x hx => ?_,
      fun x hx => ?_⟩
    · rw [Bufs.view_setData]
      exact hcache x hx
    · have hxb : x ≠ b := fun he => hx (he ▸ hm)
      rw [Bufs.view_setData, Function.update_of_ne hxb]
      exact h.clean x hx
  · have hlen := LogHeader.length_blocks log.lh
    rw [hbs]
    refine ⟨rfl, ⟨?_, Or.inr ?_⟩, fun x hx => ?_, h.empty, fun i hi => absurd hi (by omega),
      fun x hx => ?_, fun x hx => ?_⟩
    · rw [List.length_append, hlen, List.length_singleton]; omega
    · rw [List.length_append, hlen, List.length_singleton]; omega
    · rcases List.mem_append.mp hx with hx | hx
      · exact h.home x hx
      · exact (List.mem_singleton.mp hx) ▸ hb
    · rw [Bufs.view_bpin, Bufs.view_setData]
      by_cases hxb : x = b
      · subst hxb
        exact ⟨by rw [replay_concat]; simp, by simp [Bufs.bpin]⟩
      · have hx : x ∈ log.lh.blocks := by simpa [hxb] using hx
        refine ⟨(hcache x hx).1, ?_⟩
        simpa [Bufs.bpin, hxb] using (hcache x hx).2
    · rw [List.mem_append, not_or, List.mem_singleton] at hx
      rw [Bufs.view_bpin, Bufs.view_setData, Function.update_of_ne hx.2]
      exact h.clean x hx.1

/-- Buffers may be filled from the disk, and recycled unless they are pinned. -/
structure Reread (s s' : Bufs) : Prop where
  disk : s'.disk = s.disk
  refcnt : s'.refcnt = s.refcnt
  view : ∀ x, s'.view x = s.view x ∨ (s.refcnt x = 0 ∧ s'.view x = s.disk x)

theorem Reread.bread : Reread s (s.bread b).2 :=
  ⟨Bufs.disk_bread s b, Bufs.refcnt_bread s b, fun x => Or.inl (by rw [Bufs.view_bread])⟩

theorem Reread.recycle (h : s.refcnt b = 0) : Reread s (s.recycle b) := by
  refine ⟨rfl, rfl, fun x => ?_⟩
  by_cases hx : x = b
  · subst hx; exact Or.inr ⟨h, Bufs.view_recycle_self s x⟩
  · exact Or.inl (Bufs.view_recycle_ne s b hx)

variable {s' : Bufs} {bs : List ℕ}

theorem Reread.pinned (h : Reread s s') (hb : s.view b = data ∧ 0 < s.refcnt b) :
    s'.view b = data ∧ 0 < s'.refcnt b := by
  rw [h.refcnt]
  rcases h.view b with hv | ⟨h0, -⟩
  · rw [hv]; exact hb
  · exact absurd hb.2 (by omega)

theorem Reread.clean (h : Reread s s') (hb : s.view b = s.disk b) : s'.view b = s'.disk b := by
  rw [h.disk]
  rcases h.view b with hv | ⟨-, hv⟩
  · rw [hv]; exact hb
  · exact hv

theorem Gathered.reread (hr : Reread s s') (h : Gathered sb H s bs group t) :
    Gathered sb H s' bs group t :=
  ⟨h.fits, h.home, by rw [hr.disk]; exact h.empty, by rw [hr.disk]; exact h.copied,
    fun b hb => hr.pinned (h.pinned b hb), fun b hb => hr.clean (h.clean b hb)⟩

theorem Installing.reread (hr : Reread s s') (h : Installing pin sb H s bs t) :
    Installing pin sb H s' bs t :=
  ⟨by rw [hr.disk]; exact h.head, by rw [hr.disk]; exact h.done,
    fun hp => ⟨(h.pinned hp).1, fun i hi hin => hr.pinned ((h.pinned hp).2 i hi hin)⟩,
    fun b hb => hr.clean (h.clean b hb)⟩

theorem Installed.reread (hr : Reread s s') (h : Installed sb H s) : Installed sb H s' :=
  ⟨by rw [hr.disk]; exact h.home, fun b => hr.clean (h.clean b)⟩

end Steps

/-! ## The invariant -/

namespace Inv

variable {sb : superblock} {base : ℕ → Block} {s s' : LogSys} {p b : ℕ} {data : Block}

/-- Booting from a disk that stands for the contents. -/
theorem boot {disk : ℕ → Block} {gs : List (List Write)} (h : DiskOk sb disk (contents base gs)) :
    Inv sb base (boot disk gs) := ⟨Ctl.boot disk gs, h, fun _ => rfl⟩

theorem reread {bufs : Bufs} (h : Inv sb base s) (hr : Reread s.bufs bufs)
    (hc : Ctl sb { s with bufs := bufs }) : Inv sb base { s with bufs := bufs } := by
  refine ⟨hc, by simp only [hr.disk]; exact h.disk, ?_⟩
  have hp := h.phase
  unfold PhaseOk at hp ⊢
  cases hph : s.phase <;> simp only [hph] at hp ⊢
  case initlog => exact fun b => hr.clean (hp b)
  case recover_install => exact hp.reread hr
  case recover_clear => exact hp.reread hr
  case running => exact hp.reread hr
  case write_log => exact hp.reread hr
  case write_head => exact hp.reread hr
  case install_trans => exact hp.reread hr
  case clear => exact hp.reread hr
  case finish => exact hp.reread hr

theorem running (h : Inv sb base s) (hr : s.phase = .running) :
    Gathered sb (contents base s.committed) s.bufs s.log.lh.blocks s.group 0 := by
  have hp := h.phase
  unfold PhaseOk at hp
  rwa [hr] at hp

theorem begin_op (h : Inv sb base s) (hs : logStep sb s (.begin_op p) = some (.ok s')) :
    Inv sb base s' := by
  have hc := h.ctl.begin_op hs
  simp only [logStep] at hs
  split_ifs at hs with hp
  unfold Xv6.begin_op at hs
  split_ifs at hs
  cases hs
  exact ⟨hc, h.disk, h.phase⟩

theorem end_op (h : Inv sb base s) (hs : logStep sb s (.end_op p) = some (.ok s')) :
    Inv sb base s' := by
  have hc := h.ctl.end_op hs
  obtain ⟨hp, -, hcases⟩ := end_op_cases hs
  have hg := h.running (h.ctl.running_of_mem hp)
  rcases hcases with ⟨-, rfl⟩ | ⟨-, -, rfl⟩ | ⟨-, -, rfl⟩
  · exact ⟨hc, h.disk, h.phase⟩
  · exact ⟨hc, h.disk, hg⟩
  · exact ⟨hc, h.disk, hg⟩

theorem log_write (h : Inv sb base s)
    (hs : logStep sb s (.log_write p b data) = some (.ok s')) : Inv sb base s' := by
  have hc := h.ctl.log_write hs
  simp only [logStep] at hs
  split_ifs at hs with hp
  have hrun := h.ctl.running_of_mem hp.1
  have hsize := (h.ctl.params (by rw [hrun]; exact Phase.noConfusion)).2
  cases hw : Xv6.log_write b s.log (s.bufs.setData b data) with
  | error e => rw [hw] at hs; cases hs
  | ok r =>
    obtain ⟨log, bufs⟩ := r
    rw [hw] at hs
    cases hs
    obtain ⟨hd, hg⟩ := (h.running hrun).log_write hp.2 hsize hw
    refine ⟨hc, by simp only [hd]; exact h.disk, ?_⟩
    unfold PhaseOk
    simp only [hrun]
    exact hg

theorem advance (h0 : 0 < sb.nlog) (h : Inv sb base s)
    (hs : logStep sb s .advance = some (.ok s')) : Inv sb base s' := by
  have hc := h.ctl.advance hs
  simp only [logStep] at hs
  cases ha : Xv6.advance sb s with
  | none => rw [ha] at hs; cases hs
  | some t =>
    rw [ha] at hs
    cases hs
    have hD := h.disk
    have hp := h.phase
    have hpar := h.ctl.params
    have hgather := h.ctl.gather
    have hempty := h.ctl.empty
    have hreset := h.ctl.reset
    unfold PhaseOk at hp
    unfold Xv6.advance at ha
    cases hph : s.phase <;> rw [hph] at ha hp hpar hgather hempty hreset
    case running => cases ha
    case initlog =>
      set log : Log := { s.log with start := sb.logstart, size := sb.nlog } with hlog
      have hb : (read_head log s.bufs).1.lh.blocks = headBlocks sb s.bufs.disk := by
        rw [read_head_blocks, hp log.start]
        rfl
      have hr : Reread s.bufs (read_head log s.bufs).2 := Reread.bread
      generalize read_head log s.bufs = r at ha hb hr
      obtain ⟨log', bufs⟩ := r
      cases ha
      have hD : DiskOk sb bufs.disk (contents base s.committed) := hr.disk ▸ hD
      refine ⟨hc, hD, ?_⟩
      exact ⟨by rw [hr.disk]; exact hb.symm, fun i hi => absurd hi (by omega), fun hf => hf.elim,
        fun b _ => hr.clean (hp b)⟩
    all_goals replace hpar := hpar (by exact Phase.noConfusion)
    case recover_install tail =>
      simp only at ha hp
      split_ifs at ha with ht <;> cases ha
      · obtain ⟨hD', hI⟩ := hp.install hD h0 hpar.1 ht true
        exact ⟨hc, hD', hI⟩
      · exact ⟨hc, hD, hp.finished hD (not_lt.mp ht)⟩
    case recover_clear =>
      cases ha
      obtain ⟨hD', hG⟩ := hp.clear h0 hpar.1 (hreset rfl)
      refine ⟨hc, hD', ?_⟩
      unfold PhaseOk
      simp only [hempty rfl]
      exact hG
    case write_log tail =>
      simp only at ha hp
      split_ifs at ha with ht <;> cases ha
      · obtain ⟨hD', hG⟩ := hp.write_log hD hpar.1 ht
        exact ⟨hc, hD', hG⟩
      · have hn : s.log.lh.n ≤ tail := not_lt.mp ht
        exact ⟨hc, hD, hp.fits, hp.home, hp.empty, fun i hi => hp.copied i (lt_of_lt_of_le hi hn),
          hp.pinned, hp.clean⟩
    case write_head =>
      cases ha
      obtain ⟨hD', hI⟩ := hp.write_head hD h0 hpar.1 (hgather rfl).1 (hgather rfl).2
      rw [← contents_concat] at hD' hI
      exact ⟨hc, hD', hI⟩
    case install_trans tail =>
      simp only at ha hp
      split_ifs at ha with ht <;> cases ha
      · obtain ⟨hD', hI⟩ := hp.install hD h0 hpar.1 ht false
        exact ⟨hc, hD', hI⟩
      · exact ⟨hc, hD, hp.finished hD (not_lt.mp ht)⟩
    case clear =>
      cases ha
      obtain ⟨hD', hG⟩ := hp.clear h0 hpar.1 (hreset rfl)
      refine ⟨hc, hD', ?_⟩
      unfold PhaseOk
      simp only [hempty rfl]
      exact hG
    case finish =>
      cases ha
      exact ⟨hc, hD, hp⟩

/-- **Every step keeps the invariant**, crashes included. -/
theorem step (h0 : 0 < sb.nlog) (h : Inv sb base s) {l : LogOp}
    (hs : logStep sb s l = some (.ok s')) : Inv sb base s' := by
  have hc := h.ctl.step hs
  cases l with
  | begin_op p => exact h.begin_op hs
  | log_write p b data => exact h.log_write hs
  | end_op p => exact h.end_op hs
  | bread b => cases hs; exact h.reread Reread.bread hc
  | recycle b =>
    simp only [logStep] at hs
    split_ifs at hs with hb
    cases hs
    exact h.reread (Reread.recycle hb) hc
  | advance => exact h.advance h0 hs
  | crash => cases hs; exact Inv.boot h.disk

theorem steps {P : LogSys → LogOp → Prop} (h0 : 0 < sb.nlog)
    (h : Runs.Steps (logStep sb) P s s') (hi : Inv sb base s) : Inv sb base s' :=
  h.invariant hi fun _ _ _ hi _ hs => hi.step h0 hs

/-- A running system has all committed groups at home. -/
theorem home_eq (h : Inv sb base s) (hr : s.phase = .running) (hb : Home sb b) :
    s.bufs.disk b = contents base s.committed b := by
  refine h.disk.home b hb ?_
  rw [(h.running hr).empty]
  exact List.not_mem_nil

end Inv

/-! ## Crashes -/

section Crash

variable {sb : superblock} {base : ℕ → Block} {s s' : LogSys} {l : LogOp}

/-- The header write, and no other step, adds a group: the whole group in progress. -/
theorem committed_step (hs : logStep sb s l = some (.ok s')) : s'.committed = s.committed ∨
    (s.phase = .write_head ∧ s'.committed = s.committed ++ [s.group]) := by
  cases l with
  | begin_op p =>
    simp only [logStep] at hs
    split_ifs at hs
    cases hb : begin_op s.log <;> rw [hb] at hs <;> cases hs
    exact Or.inl rfl
  | log_write p b data =>
    simp only [logStep] at hs
    split_ifs at hs
    cases hw : log_write b s.log (s.bufs.setData b data) <;> rw [hw] at hs <;> cases hs
    exact Or.inl rfl
  | end_op p =>
    obtain ⟨-, -, ⟨-, rfl⟩ | ⟨-, -, rfl⟩ | ⟨-, -, rfl⟩⟩ := end_op_cases hs
    all_goals exact Or.inl rfl
  | bread b => cases hs; exact Or.inl rfl
  | recycle b => simp only [logStep] at hs; split_ifs at hs; cases hs; exact Or.inl rfl
  | crash => cases hs; exact Or.inl rfl
  | advance =>
    simp only [logStep] at hs
    cases ha : advance sb s with
    | none => rw [ha] at hs; cases hs
    | some t =>
      rw [ha] at hs
      cases hs
      unfold advance at ha
      cases hph : s.phase <;> simp only [hph] at ha
      case write_head => cases ha; exact Or.inr ⟨rfl, rfl⟩
      case running => cases ha
      all_goals try split_ifs at ha
      all_goals cases ha; exact Or.inl rfl

/-- The steps of a machine that has crashed and has not recovered yet. -/
def Recovering (s : LogSys) : LogOp → Prop
  | .advance | .crash | .bread _ | .recycle _ => s.phase.up = false
  | _ => False

instance (s : LogSys) (l : LogOp) : Decidable (Recovering s l) := by
  cases l <;> unfold Recovering <;> infer_instance

theorem recovering_committed (h : Runs.Steps (logStep sb) Recovering s s') :
    s'.committed = s.committed := by
  refine h.invariant (I := fun t => t.committed = s.committed) rfl fun t l u ht hl hs => ?_
  rcases committed_step hs with hc | ⟨hph, -⟩
  · exact hc.trans ht
  · cases l <;> simp [Recovering, hph, Phase.up] at hl

/-- **Crash atomicity**: after a crash in any state `s` of any run, and any number of crashes during
recovery, the blocks outside the log area hold exactly the groups whose header write had completed
in `s`.  A group gets there as a whole, with its header write. -/
theorem crash_atomic (h0 : 0 < sb.nlog) (hbase : (diskHeader (base sb.logstart)).n = 0)
    {P : LogSys → LogOp → Prop} (h : Runs.Steps (logStep sb) P (boot base []) s)
    (hr : Runs.Steps (logStep sb) Recovering (boot s.bufs.disk s.committed) s')
    (hdone : s'.phase = .running) :
    (∀ b, Home sb b → s'.bufs.disk b = replay base s.committed.flatten b) ∧
      ∀ l t, logStep sb s l = some (.ok t) → t.committed = s.committed ∨
        (s.phase = .write_head ∧ t.committed = s.committed ++ [s.group]) := by
  have hempty : headBlocks sb base = [] := headBlocks_eq_nil.mpr hbase
  have hD : DiskOk sb base (contents base []) := by
    refine ⟨?_, fun b _ _ => rfl⟩
    rw [hempty]
    exact ⟨by simp, by simp, by simp⟩
  have hs : Inv sb base s := (Inv.boot hD).steps h0 h
  have hs' : Inv sb base s' := (Inv.boot hs.disk).steps h0 hr
  refine ⟨fun b hb => ?_, fun l t hl => committed_step hl⟩
  rw [hs'.home_eq hdone hb, recovering_committed hr]
  rfl

/-- One transaction, and a crash right after its header write. -/
def oneGroup : List LogOp :=
  [.advance, .advance, .advance, .begin_op 0, .log_write 0 100 (fun _ => 7), .end_op 0,
    .advance, .advance, .advance]

/-- Recovery, with a crash after the block has been installed. -/
def recoverTwice : List LogOp :=
  [.advance, .advance, .crash, .advance, .advance, .advance, .advance]

/-- The transaction survives. -/
theorem crash_atomic_oneGroup : ∃ s s' : LogSys,
    Runs.Steps (logStep mkfsSb) (fun _ _ => True) (boot (fun _ _ => 0) []) s ∧
    Runs.Steps (logStep mkfsSb) Recovering (boot s.bufs.disk s.committed) s' ∧
    s.committed.length = 1 ∧ s'.phase = .running ∧
    ∀ b, Home mkfsSb b → s'.bufs.disk b = replay (fun _ _ => 0) s.committed.flatten b := by
  have h : ((Runs.exec (logStep mkfsSb) (fun _ _ => True) (boot (fun _ _ => 0) []) oneGroup).bind
      fun s => (Runs.exec (logStep mkfsSb) Recovering (boot s.bufs.disk s.committed)
        recoverTwice).map fun s' => (s.committed.length, s'.phase)) = some (1, .running) := by
    decide +kernel
  obtain ⟨s, hs, h⟩ := Option.bind_eq_some_iff.mp h
  obtain ⟨s', hs', h⟩ := Option.map_eq_some_iff.mp h
  obtain ⟨h1, h2⟩ := Prod.mk.inj h
  exact ⟨s, s', Runs.Steps.of_exec hs, Runs.Steps.of_exec hs', h1, h2, (crash_atomic (by decide) (by decide) (Runs.Steps.of_exec hs)
    (Runs.Steps.of_exec hs') h2).1⟩

end Crash

end Xv6
