import Xv6.Fs.Logs
import Xv6.Kernel.Journal
import Xv6.Log.Recovery

/-!
# CrashSafe — the file system survives crashes

* `Inv.view_eq`: what the buffer cache holds is what the file system has written.
* `Journal.Ok`: the file system that is running, and the one that a crash would leave, are both sound.
-/

namespace Xv6

open Replay

variable {sb : superblock} {base disk : ℕ → Block}

/-! ## The log -/

namespace Fs

variable {s s' : Fs}

/-- **The buffers that have been logged** are all that has changed. -/
theorem Logs.replay_writes (h : Logs sb s s') : replay s.blocks (s.writes s') = s'.blocks ∧
    ∀ w ∈ s.writes s', Home sb w.1 := by
  obtain ⟨l, hl, hsame, hhome⟩ := h
  have htake : s'.logged.take (s'.logged.length - s.logged.length) = l := by
    rw [hl, List.length_append, Nat.add_sub_cancel, List.take_left]
  unfold writes
  rw [htake]
  refine ⟨funext fun x => ?_, fun w hw => ?_⟩
  · rw [replay_map]
    split_ifs with hx
    · rfl
    · exact (hsame x fun h => hx (List.mem_reverse.mpr h)).symm
  · obtain ⟨x, hx, rfl⟩ := List.mem_map.mp hw
    exact hhome x (List.mem_reverse.mp hx)

end Fs

section Log

variable {s s' : LogSys} {p b : ℕ} {data : Block} {ws : List Write}

theorem log_write_group (h : logStep sb s (.log_write p b data) = some (.ok s')) :
    s'.group = s.group ++ [(b, data)] ∧ s'.committed = s.committed ∧ s'.phase = s.phase := by
  simp only [logStep] at h
  split_ifs at h
  cases hw : log_write b s.log (s.bufs.setData b data) <;> rw [hw] at h <;> cases h
  exact ⟨rfl, rfl, rfl⟩

theorem logWrites_ok (h0 : 0 < sb.nlog) (hi : Inv sb base s) (h : logWrites sb p ws s = some (.ok s')) :
    Inv sb base s' ∧ s'.group = s.group ++ ws ∧ s'.committed = s.committed ∧ s'.phase = s.phase := by
  induction ws generalizing s with
  | nil =>
    cases h
    exact ⟨hi, (List.append_nil _).symm, rfl, rfl⟩
  | cons w ws ih =>
    obtain ⟨b, data⟩ := w
    unfold logWrites at h
    cases hl : logStep sb s (.log_write p b data) with
    | none =>
      rw [hl] at h
      cases h
    | some r =>
      cases r with
      | error e =>
        rw [hl] at h
        cases h
      | ok t =>
        rw [hl] at h
        obtain ⟨hg, hc, hp⟩ := log_write_group hl
        obtain ⟨hi', hg', hc', hp'⟩ := ih (hi.step h0 hl) h
        refine ⟨hi', ?_, hc'.trans hc, hp'.trans hp⟩
        rw [hg', hg, List.append_assoc]
        rfl

/-- What a step of the thread that commits or recovers does to the groups. -/
theorem advance_cases (h : logStep sb s .advance = some (.ok s')) :
    (s.phase = .write_head ∧ s'.committed = s.committed ++ [s.group] ∧ s'.group = [] ∧
        s'.phase.up = true) ∨
      (s.phase = .recover_clear ∧ s'.committed = s.committed ∧ s'.group = s.group ∧
        s'.phase = .running) ∨
      (s.phase ≠ .write_head ∧ s.phase ≠ .recover_clear ∧ s'.committed = s.committed ∧
        s'.group = s.group ∧ s'.phase.up = s.phase.up) := by
  simp only [logStep] at h
  cases ha : advance sb s with
  | none =>
    rw [ha] at h
    cases h
  | some t =>
    rw [ha] at h
    cases h
    unfold advance at ha
    cases hph : s.phase <;> simp only [hph] at ha
    case running => cases ha
    case write_head =>
      cases ha
      exact Or.inl ⟨rfl, rfl, rfl, rfl⟩
    case recover_clear =>
      cases ha
      exact Or.inr (Or.inl ⟨rfl, rfl, rfl, rfl⟩)
    all_goals
      try split_ifs at ha
      all_goals
        cases ha
        exact Or.inr (Or.inr ⟨Phase.noConfusion, Phase.noConfusion, rfl, rfl, rfl⟩)

/-- **The cache is coherent**: `bread` of a block outside of the log returns what has been written last, also
while a group is being committed. -/
theorem Inv.view_eq (hi : Inv sb base s) (hup : s.phase.up = true) {b : ℕ} (hb : Home sb b) :
    s.bufs.view b = replay (contents base s.committed) s.group b := by
  have hp := hi.phase
  have hgather := hi.ctl.gather
  have hempty := hi.ctl.empty
  have hreset := hi.ctl.reset
  have hhome : b ∉ headBlocks sb s.bufs.disk → s.bufs.disk b = contents base s.committed b :=
    hi.disk.home b hb
  have hgathered : ∀ t, s.phase.gathering = true →
      Gathered sb (contents base s.committed) s.bufs s.log.lh.blocks s.group t →
      s.bufs.view b = replay (contents base s.committed) s.group b := by
    intro t hph hg
    by_cases hbl : b ∈ s.log.lh.blocks
    · exact (hg.pinned b hbl).1
    · have hnot : b ∉ s.group.map Prod.fst := fun h => hbl (((hgather hph).2 b).mpr h)
      rw [hg.clean b hbl, hhome (by rw [hg.empty]; exact List.not_mem_nil), replay_of_not_mem hnot]
  have hinstalled : s.group = [] → Installed sb (contents base s.committed) s.bufs →
      s.bufs.view b = replay (contents base s.committed) s.group b := fun hg hI => by
    rw [hg, hI.clean b, hI.home b hb]
    rfl
  unfold PhaseOk at hp
  cases hph : s.phase with
  | initlog | recover_install t | recover_clear =>
    rw [hph] at hup
    cases hup
  | running =>
    rw [hph] at hp
    exact hgathered 0 (by rw [hph]; rfl) hp
  | write_log t =>
    rw [hph] at hp
    exact hgathered t (by rw [hph]; rfl) hp
  | write_head =>
    rw [hph] at hp
    exact hgathered _ (by rw [hph]; rfl) hp
  | install_trans t =>
    rw [hph] at hp
    rw [hempty (by rw [hph]; rfl), replay_nil]
    by_cases hbl : b ∈ s.log.lh.blocks.drop t
    · obtain ⟨i, hlt, rfl⟩ := List.getElem_of_mem hbl
      rw [List.length_drop] at hlt
      rw [List.getElem_drop]
      exact ((hp.pinned trivial).2 (t + i) (Nat.le_add_right t i) (by omega)).1
    · rw [hp.clean b fun _ => hbl]
      by_cases hin : b ∈ s.log.lh.blocks
      · obtain ⟨i, hlt, rfl⟩ := List.getElem_of_mem hin
        refine hp.done i ?_ hlt
        by_contra hit
        refine hbl ?_
        rw [List.mem_iff_getElem]
        refine ⟨i - t, by rw [List.length_drop]; omega, ?_⟩
        rw [List.getElem_drop]
        congr 1
        omega
      · exact hhome (by rw [hp.head]; exact hin)
  | clear =>
    rw [hph] at hp
    exact hinstalled (hempty (by rw [hph]; rfl)) hp
  | finish =>
    rw [hph] at hp
    have hg := hempty (by rw [hph]; rfl)
    have hbl : b ∉ s.log.lh.blocks := by
      rw [LogHeader.blocks_of_n_eq_zero (hreset (by rw [hph]; rfl))]
      exact List.not_mem_nil
    rw [hg, hp.clean b hbl, hhome (by rw [hp.empty]; exact List.not_mem_nil)]
    rfl

end Log

/-! ## The file system -/

theorem Volume.iinit_sound {blocks : ℕ → Block} (h : Fs.Tidy sb { blocks := blocks, logged := [] }) :
    Sound sb (iinit blocks) := by
  have hfree : ∀ ip, ¬ 0 < ((iinit blocks).inode ip).ref := fun _ => Nat.lt_irrefl 0
  exact ⟨⟨h.disk, fun ip h0 => absurd h0 (hfree ip), fun ip _ h0 => absurd h0 (hfree ip),
    fun ip h0 => absurd h0 (hfree ip), fun ip hl => absurd rfl hl⟩, h, fun ip h0 => absurd h0 (hfree ip)⟩

namespace Journal

variable {s t : Journal} {sys : LogSys} {o : Op}

structure Ok (sb : superblock) (base : ℕ → Block) (s : Journal) : Prop where
  inv : Inv sb base s.sys
  durable : ∀ b, Home sb b → contents base s.sys.committed b = s.durable.blocks b
  tidy : s.durable.Tidy sb
  down : s.sys.phase.up = false → s.vol = none
  up : s.sys.phase.up = true → ∃ v, s.vol = some v ∧ Volume.Sound sb v ∧
    ∀ b, Home sb b → v.fs.blocks b = replay (contents base s.sys.committed) s.sys.group b

/-- The calls look for inodes that are in use, and write what can be read. -/
def Proper (sb : superblock) (s : Journal) : Op → Prop
  | .call _ o => (∀ v, s.vol = some v → Volume.Known sb v o) ∧ Volume.Readable o
  | _ => True

instance (sb : superblock) (s : Journal) : (o : Op) → Decidable (Proper sb s o)
  | .call p o =>
    decidable_of_iff ((∀ v ∈ s.vol, Volume.Known sb v o) ∧ Volume.Readable o)
      (and_congr_left fun _ => forall_congr' fun _ => by rw [Option.mem_def])
  | .begin_op _ | .end_op _ | .bread _ | .recycle _ | .advance | .crash => inferInstanceAs (Decidable True)

/-- A step of the log that commits nothing. -/
theorem Ok.quiet (h : Ok sb base s) (hi : Inv sb base sys) (hc : sys.committed = s.sys.committed)
    (hg : sys.group = s.sys.group) (hp : sys.phase.up = s.sys.phase.up) : Ok sb base { s with sys := sys } := by
  refine ⟨hi, fun b hb => ?_, h.tidy, fun hd => h.down (hp ▸ hd), fun hu => ?_⟩
  · dsimp only
    rw [hc]
    exact h.durable b hb
  · obtain ⟨v, hv, hs, heq⟩ := h.up (hp ▸ hu)
    refine ⟨v, hv, hs, fun b hb => ?_⟩
    dsimp only
    rw [hc, hg]
    exact heq b hb

theorem withLog_ok {r : Option (Except Panic LogSys)} (h : s.withLog r = some (.ok t)) :
    ∃ sys, r = some (.ok sys) ∧ t = { s with sys := sys } := by
  obtain ⟨x, rfl, hx⟩ := Option.map_eq_some_iff.mp h
  obtain ⟨sys, rfl, rfl⟩ := map_ok hx
  exact ⟨sys, rfl, rfl⟩

/-- **A call** writes into the group. -/
theorem Ok.call {p : ℕ} {o : InodeOp} (hsb : sb.Ok) (hl : sb.LogFirst) (hn : sb.ninodes < 2 ^ 32)
    (hn1 : 0 < sb.ninodes) (h0 : 0 < sb.nlog) (h : Ok sb base s) (hp : Proper sb s (.call p o))
    (ht : s.step sb (.call p o) = some (.ok t)) : Ok sb base t := by
  unfold Journal.step at ht
  dsimp only at ht
  cases hv : s.vol with
  | none =>
    rw [hv] at ht
    cases ht
  | some v =>
    rw [hv] at ht
    dsimp only at ht
    have hup : s.sys.phase.up = true := by
      by_contra hd
      rw [h.down (Bool.eq_false_iff.mpr hd)] at hv
      cases hv
    obtain ⟨v', hv', hs, heq⟩ := h.up hup
    rw [hv] at hv'
    cases hv'
    cases hstep : v.step sb o with
    | none =>
      rw [hstep] at ht
      cases ht
    | some r =>
      cases r with
      | error e =>
        rw [hstep] at ht
        cases ht
      | ok w =>
        rw [hstep] at ht
        obtain ⟨x, hx, hy⟩ := Option.map_eq_some_iff.mp ht
        obtain ⟨sys, rfl, rfl⟩ := map_ok hy
        have hk := hp.1 v hv
        obtain ⟨hreplay, -⟩ := (hs.step_logs hsb hl hn hn1 hk hp.2 hstep).replay_writes
        obtain ⟨hi, hg, hc, hph⟩ := logWrites_ok h0 h.inv hx
        refine ⟨hi, fun b hb => ?_, h.tidy, fun hd => ?_, fun _ =>
          ⟨w, rfl, hs.step hsb hn hn1 hk hstep, fun b hb => ?_⟩⟩
        · dsimp only
          rw [hc]
          exact h.durable b hb
        · dsimp only at hd
          rw [hph, hup] at hd
          cases hd
        · dsimp only
          rw [hg, hc, replay_append, ← hreplay]
          exact replay_congr (heq b hb)

/-- The file system after recovery is the one that has been committed. -/
theorem Ok.recovered (hsb : sb.Ok) (hl : sb.LogFirst) (h : Ok sb base s) (hi : Inv sb base sys)
    (hph : s.sys.phase = .recover_clear) (hc : sys.committed = s.sys.committed)
    (hg : sys.group = s.sys.group) (hp : sys.phase = .running) : Ok sb base (s.advanced sys) := by
  have hnil : sys.group = [] := hg.trans (h.inv.ctl.empty (by rw [hph]; rfl))
  have hview : ∀ b, Home sb b → (sys.bufs.bread b).1 = s.durable.blocks b := fun b hb => by
    rw [Bufs.bread_fst, hi.view_eq (by rw [hp]; rfl) hb, hnil, hc]
    exact h.durable b hb
  have hadv : s.advanced sys =
      { s with vol := some (Volume.iinit fun b => (sys.bufs.bread b).1), sys := sys } := by
    unfold advanced
    rw [hph]
  rw [hadv]
  refine ⟨hi, fun b hb => ?_, h.tidy, fun hd => ?_, fun _ => ⟨_, rfl, ?_, fun b hb => ?_⟩⟩
  · dsimp only
    rw [hc]
    exact h.durable b hb
  · dsimp only at hd
    rw [hp] at hd
    cases hd
  · exact Volume.iinit_sound (h.tidy.congr hsb hl hview)
  · dsimp only
    rw [hnil, hc, replay_nil, h.durable b hb]
    exact hview b hb

/-- The write of the header makes the file system durable. -/
theorem Ok.committed (h : Ok sb base s) (hi : Inv sb base sys) (hph : s.sys.phase = .write_head)
    (hc : sys.committed = s.sys.committed ++ [s.sys.group]) (hg : sys.group = [])
    (hp : sys.phase.up = true) : Ok sb base (s.advanced sys) := by
  obtain ⟨v, hv, hs, heq⟩ := h.up (by rw [hph]; rfl)
  have hadv : s.advanced sys = { s with sys := sys, durable := v.fs } := by
    unfold advanced
    rw [hph, hv]
  rw [hadv]
  refine ⟨hi, fun b hb => ?_, hs.tidy, fun hd => ?_, fun _ => ⟨v, hv, hs, fun b hb => ?_⟩⟩
  · dsimp only
    rw [hc, contents_concat]
    exact (heq b hb).symm
  · dsimp only at hd
    rw [hp] at hd
    cases hd
  · dsimp only
    rw [hc, hg, contents_concat, replay_nil]
    exact heq b hb

/-- **Every step** keeps it, crashes included. -/
theorem Ok.step (hsb : sb.Ok) (hl : sb.LogFirst) (hn : sb.ninodes < 2 ^ 32) (hn1 : 0 < sb.ninodes)
    (h0 : 0 < sb.nlog) (h : Ok sb base s) (hp : Proper sb s o) (ht : s.step sb o = some (.ok t)) :
    Ok sb base t := by
  cases o with
  | call p o => exact h.call hsb hl hn hn1 h0 hp ht
  | begin_op p =>
    obtain ⟨sys, hs, rfl⟩ := withLog_ok ht
    have hi := h.inv.step h0 hs
    simp only [logStep] at hs
    split_ifs at hs
    cases hb : Xv6.begin_op s.sys.log with
    | none =>
      rw [hb] at hs
      cases hs
    | some log =>
      rw [hb] at hs
      cases hs
      exact h.quiet hi rfl rfl rfl
  | end_op p =>
    obtain ⟨sys, hs, rfl⟩ := withLog_ok ht
    have hi := h.inv.step h0 hs
    obtain ⟨hin, -, hcase⟩ := end_op_cases hs
    have hrun := h.inv.ctl.running_of_mem hin
    obtain ⟨-, rfl⟩ | ⟨-, -, rfl⟩ | ⟨-, -, rfl⟩ := hcase
    · exact h.quiet hi rfl rfl rfl
    · exact h.quiet hi rfl rfl (by rw [hrun]; rfl)
    · exact h.quiet hi rfl rfl (by rw [hrun]; rfl)
  | bread b =>
    obtain ⟨sys, hs, rfl⟩ := withLog_ok ht
    have hi := h.inv.step h0 hs
    cases hs
    exact h.quiet hi rfl rfl rfl
  | recycle b =>
    obtain ⟨sys, hs, rfl⟩ := withLog_ok ht
    have hi := h.inv.step h0 hs
    simp only [logStep] at hs
    split_ifs at hs
    cases hs
    exact h.quiet hi rfl rfl rfl
  | advance =>
    obtain ⟨x, hs, hx⟩ := Option.map_eq_some_iff.mp ht
    obtain ⟨sys, rfl, rfl⟩ := map_ok hx
    have hi := h.inv.step h0 hs
    obtain ⟨hph, hc, hg, hup⟩ | ⟨hph, hc, hg, hrun⟩ | ⟨hw, hr, hc, hg, hup⟩ := advance_cases hs
    · exact h.committed hi hph hc hg hup
    · exact h.recovered hsb hl hi hph hc hg hrun
    · have hadv : s.advanced sys = { s with sys := sys } := by
        unfold advanced
        split
        · next hph => exact absurd hph hr
        · next hph _ => exact absurd hph hw
        · rfl
      rw [hadv]
      exact h.quiet hi hc hg hup
  | crash =>
    have hi : Inv sb base (boot s.sys.bufs.disk s.sys.committed) := h.inv.step h0 (l := .crash) rfl
    cases ht
    exact ⟨hi, h.durable, h.tidy, fun _ => rfl, fun hu => by cases hu⟩

/-- A disk with an empty log and a tidy file system. -/
structure Clean (sb : superblock) (disk : ℕ → Block) : Prop where
  empty : (diskHeader (disk sb.logstart)).n = 0
  tidy : Fs.Tidy sb { blocks := disk, logged := [] }

theorem Clean.start (h : Clean sb disk) : Ok sb disk (start disk) := by
  have hempty : headBlocks sb disk = [] := headBlocks_eq_nil.mpr h.empty
  have hD : DiskOk sb disk (contents disk []) := by
    refine ⟨?_, fun b _ _ => rfl⟩
    rw [hempty]
    exact ⟨by simp, by simp, by simp⟩
  exact ⟨Inv.boot hD, fun _ _ => rfl, h.tidy, fun _ => rfl, fun hu => by cases hu⟩

/-- The steps of a machine that has crashed and has not recovered yet. -/
def Recovering (s : Journal) : Op → Prop
  | .advance | .crash | .bread _ | .recycle _ => s.sys.phase.up = false
  | _ => False

instance (s : Journal) : (o : Op) → Decidable (Recovering s o)
  | .advance | .crash | .bread _ | .recycle _ => inferInstanceAs (Decidable (_ = _))
  | .call _ _ | .begin_op _ | .end_op _ => inferInstanceAs (Decidable False)

/-- Recovery commits nothing. -/
theorem recovering_durable (hrun : Runs.Steps (Journal.step sb) Recovering s t) (hg : s.sys.group = []) :
    t.durable = s.durable ∧ t.sys.group = [] := by
  refine hrun.invariant (I := fun t => t.durable = s.durable ∧ t.sys.group = []) ⟨rfl, hg⟩
    fun u o w hI hr hs => ?_
  cases o with
  | call p o => exact absurd hr id
  | begin_op p => exact absurd hr id
  | end_op p => exact absurd hr id
  | bread b =>
    cases hs
    exact hI
  | recycle b =>
    obtain ⟨sys, hlog, rfl⟩ := withLog_ok hs
    simp only [logStep] at hlog
    split_ifs at hlog
    cases hlog
    exact hI
  | crash =>
    cases hs
    exact ⟨hI.1, rfl⟩
  | advance =>
    obtain ⟨x, hlog, hx⟩ := Option.map_eq_some_iff.mp hs
    obtain ⟨sys, rfl, rfl⟩ := map_ok hx
    have hsys : (u.advanced sys).sys = sys := by
      unfold advanced
      split <;> rfl
    have hw : u.sys.phase ≠ .write_head := fun hph => by
      have hd : u.sys.phase.up = false := hr
      rw [hph] at hd
      cases hd
    have hdur : (u.advanced sys).durable = u.durable := by
      unfold advanced
      split
      · rfl
      · next hph _ => exact absurd hph hw
      · rfl
    rw [hsys, hdur]
    refine ⟨hI.1, ?_⟩
    obtain ⟨hph, -⟩ | ⟨-, -, hg, -⟩ | ⟨-, -, -, hg, -⟩ := advance_cases hlog
    · exact absurd hph hw
    · exact hg.trans hI.2
    · exact hg.trans hI.2

theorem Clean.run (hsb : sb.Ok) (hl : sb.LogFirst) (hn : sb.ninodes < 2 ^ 32) (hn1 : 0 < sb.ninodes)
    (h0 : 0 < sb.nlog) (hd : Clean sb disk)
    (hrun : Runs.Steps (step sb) (Proper sb) (Journal.start disk) s) : Ok sb disk s :=
  hrun.invariant hd.start fun _ _ _ h hp ht => h.step hsb hl hn hn1 h0 hp ht

/-- The file system that is running. -/
theorem Ok.vol {v : Volume} (h : Ok sb disk s) (hv : s.vol = some v) : s.sys.phase.up = true ∧
    Volume.Sound sb v ∧ ∀ b, Home sb b →
      v.fs.blocks b = replay (contents disk s.sys.committed) s.sys.group b := by
  have hup : s.sys.phase.up = true := by
    by_contra hdown
    rw [h.down (Bool.eq_false_iff.mpr hdown)] at hv
    cases hv
  obtain ⟨v', hv', hs, heq⟩ := h.up hup
  rw [hv] at hv'
  cases hv'
  exact ⟨hup, hs, heq⟩

/-- **Crash safety**: in every state of every run of the file system on its log, from a clean disk, with any
number of crashes and with calls that look for inodes in use and write what can be read (`Proper`),

* no block is lost or has two owners, and no file has a hole, in the file system that is running; `bread`
  returns the blocks as it has written them last, and what a call logs lies outside of the log;
* after a crash now, and any number of crashes during recovery, the file system is the one of the last
  group that has been committed, and that one is sound too;
* once no write waits for a commit, this is the file system that is running. -/
theorem crash_safe (hsb : sb.Ok) (hl : sb.LogFirst) (hn : sb.ninodes < 2 ^ 32) (hn1 : 0 < sb.ninodes)
    (h0 : 0 < sb.nlog) (hd : Clean sb disk) (hrun : Runs.Steps (step sb) (Proper sb) (start disk) s) :
    (∀ v, s.vol = some v → Volume.Sound sb v ∧
      (∀ b, Home sb b → (s.sys.bufs.bread b).1 = v.fs.blocks b) ∧
      ∀ o w, Volume.Known sb v o → Volume.Readable o → v.step sb o = some (.ok w) →
        ∀ x ∈ v.fs.writes w.fs, Home sb x.1) ∧
    (∀ s₁ t v, step sb s .crash = some (.ok s₁) → Runs.Steps (step sb) Recovering s₁ t →
      t.vol = some v → Volume.Sound sb v ∧ ∀ b, Home sb b → v.fs.blocks b = s.durable.blocks b) ∧
    ∀ v, s.vol = some v → s.sys.group = [] → ∀ b, Home sb b → v.fs.blocks b = s.durable.blocks b := by
  have hstep : ∀ s o t, Ok sb disk s → Proper sb s o → step sb s o = some (.ok t) → Ok sb disk t :=
    fun _ _ _ h hp ht => h.step hsb hl hn hn1 h0 hp ht
  have h := hd.run hsb hl hn hn1 h0 hrun
  have hgroup : ∀ {t : Journal} {v}, Ok sb disk t → t.vol = some v → t.sys.group = [] →
      ∀ b, Home sb b → v.fs.blocks b = t.durable.blocks b := by
    intro t v ht hv hg b hb
    rw [(ht.vol hv).2.2 b hb, hg]
    exact ht.durable b hb
  refine ⟨fun v hv => ?_, fun s₁ t v hc hrec hv => ?_, fun v hv hg => hgroup h hv hg⟩
  · obtain ⟨hup, hs, heq⟩ := h.vol hv
    refine ⟨hs, fun b hb => ?_, fun o w hk hr hw => ?_⟩
    · rw [Bufs.bread_fst, h.inv.view_eq hup hb, heq b hb]
    · exact (hs.step_logs hsb hl hn hn1 hk hr hw).replay_writes.2
  · have h₁ := hstep s .crash s₁ h trivial hc
    have hprop : ∀ s o, Recovering s o → Proper sb s o := fun s o hr => by
      cases o with
      | call p o => exact absurd hr id
      | begin_op p | end_op p | bread b | recycle b | advance | crash => exact trivial
    have ht : Ok sb disk t := (hrec.mono hprop).invariant h₁ hstep
    have hs₁ : s₁.sys.group = [] ∧ s₁.durable = s.durable := by
      cases hc
      exact ⟨rfl, rfl⟩
    obtain ⟨hdur, hg⟩ := recovering_durable hrec hs₁.1
    refine ⟨(ht.vol hv).2.1, fun b hb => ?_⟩
    rw [hgroup ht hv hg b hb, hdur, hs₁.2]

/-- The root directory on a disk. -/
def rootDisk : ℕ → Block := Volume.rootVolume.fs.blocks

theorem rootDisk_clean : Clean mkfsSb rootDisk :=
  ⟨by decide +kernel,
    Volume.rootVolume_sound.tidy.congr Fs.mkfsSb_ok ⟨by decide, by decide⟩ fun _ _ => rfl⟩

/-- A file is made, and a crash comes right after the header write; recovery is cut short once. -/
theorem crash_safe_file : ∃ s s₁ t v, Runs.Steps (step mkfsSb) (Proper mkfsSb) (start rootDisk) s ∧
    step mkfsSb s .crash = some (.ok s₁) ∧ Runs.Steps (step mkfsSb) Recovering s₁ t ∧ t.vol = some v ∧
    (v.fs.dinodeAt mkfsSb 2).type = T_FILE ∧ Volume.Sound mkfsSb v := by
  obtain ⟨s, hrun, hs⟩ := Runs.Steps.of_any
    (Q := fun s : Journal => (step mkfsSb s .crash).any (Runs.okWith fun s₁ =>
      (Runs.exec (step mkfsSb) Recovering s₁ [.advance, .advance, .crash, .advance, .advance, .advance,
        .advance, .advance, .advance]).any fun t => t.vol.any fun v => (v.fs.dinodeAt mkfsSb 2).type = T_FILE))
    [.advance, .advance, .advance, .begin_op 7, .call 7 (.iget 1), .call 7 (.ilock 7 0),
      .call 7 (.ialloc T_FILE), .call 7 (.dirlink 7 0 (fun i => [97].getD i 0) 2), .end_op 7, .advance,
      .advance, .advance, .advance, .advance]
    (by decide +kernel : (Runs.exec (step mkfsSb) (Proper mkfsSb) (start rootDisk) _).any _ = true)
  obtain ⟨x, hcrash, hx⟩ := (Option.any_eq_true _ _).mp hs
  obtain ⟨s₁, rfl, hx⟩ := Runs.okWith_iff.mp hx
  obtain ⟨t, hrec, ht⟩ := (Option.any_eq_true _ _).mp hx
  obtain ⟨v, hv, hfile⟩ := (Option.any_eq_true _ _).mp ht
  have hsteps := Runs.Steps.of_exec hrec
  have hsafe := crash_safe Fs.mkfsSb_ok ⟨by decide, by decide⟩ (by decide) (by decide) (by decide)
    rootDisk_clean hrun
  exact ⟨s, s₁, t, v, hrun, hcrash, hsteps, hv, of_decide_eq_true hfile,
    (hsafe.2.1 s₁ t v hcrash hsteps hv).1⟩

end Journal

end Xv6
