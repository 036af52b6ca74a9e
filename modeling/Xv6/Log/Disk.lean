import Xv6.Log.Control

/-!
# Disk — what the disk stands for between two disk writes

`DiskOk sb disk H`: the disk stands for the contents `H` of the blocks outside the log area.  Every
such block holds `H`, except those named by the header on the disk, whose contents are in the log.
The four kinds of disk writes are `DiskOk.write_logged`, `DiskOk.write_headed`, `DiskOk.write_home`
and `DiskOk.write_cleared`.

The second half says what the rounds of `log.c` do to the disk and to what a reader of the buffer
cache sees (`Bufs.view`).
-/

namespace Xv6

section Disk

variable {sb : superblock} {disk : ℕ → Block} {H : ℕ → Block} {lh : LogHeader} {b i : ℕ}

/-! ## The header block -/

theorem load_putBlocks {block : ℕ → ℕ} {n a k : ℕ} {d : Block} (h : a + k ≤ 4 ∨ 4 + 4 * n ≤ a) :
    (putBlocks block n d).load a k = d.load a k := by
  induction n with
  | zero => rfl
  | succ n ih =>
    rw [putBlocks, ByteStore.load_store_out (by omega)]
    exact ih (by omega)

theorem load_putBlocks_entry {block : ℕ → ℕ} {n : ℕ} {d : Block} (hi : i < n)
    (hb : block i < 2 ^ 32) : (putBlocks block n d).load (4 + 4 * i) 4 = block i := by
  induction n with
  | zero => omega
  | succ n ih =>
    rw [putBlocks]
    by_cases hin : i = n
    · subst hin
      rw [ByteStore.load_store]
      exact Nat.mod_eq_of_lt (by norm_num at hb ⊢; exact hb)
    · rw [ByteStore.load_store_out (by omega)]
      exact ih (by omega)

theorem int32_toNat {n : ℕ} (h : n < 2 ^ 31) : (int32 n).toNat = n := by
  unfold int32; omega

/-- `write_head` writes what `read_head` reads. -/
theorem diskHeader_put {d : Block} (hn : lh.n < 2 ^ 31) (hb : ∀ i < lh.n, lh.block i < 2 ^ 32) :
    (diskHeader (putBlocks lh.block lh.n (d.store 0 4 lh.n))).n = lh.n ∧
      ∀ i < lh.n, (diskHeader (putBlocks lh.block lh.n (d.store 0 4 lh.n))).block i = lh.block i := by
  refine ⟨?_, fun i hi => load_putBlocks_entry hi (hb i hi)⟩
  simp only [diskHeader]
  rw [load_putBlocks (Or.inl le_rfl), ByteStore.load_store, Nat.mod_eq_of_lt (by norm_num; omega)]
  exact int32_toNat hn

/-! ## What the disk stands for -/

/-- The log holds the contents `H` of the blocks `bs`. -/
structure Logged (sb : superblock) (disk H : ℕ → Block) (bs : List ℕ) : Prop where
  fits : bs.length ≤ LOGSIZE ∧ (bs = [] ∨ bs.length < sb.nlog)
  home : ∀ b ∈ bs, Home sb b
  data : ∀ i, (h : i < bs.length) → disk (sb.logstart + i + 1) = H bs[i]

/-- The block numbers in the header on the disk. -/
def headBlocks (sb : superblock) (disk : ℕ → Block) : List ℕ :=
  (diskHeader (disk sb.logstart)).blocks

/-- The disk stands for the contents `H` of the blocks outside the log area. -/
structure DiskOk (sb : superblock) (disk H : ℕ → Block) : Prop where
  logged : Logged sb disk H (headBlocks sb disk)
  home : ∀ b, Home sb b → b ∉ headBlocks sb disk → disk b = H b

variable {a : ℕ} {d : Block} {bs : List ℕ} {H' : ℕ → Block}

theorem not_home_head (h0 : 0 < sb.nlog) : ¬ Home sb sb.logstart := fun h => by
  have := h.2; omega

theorem not_home_log (hi : i + 1 < sb.nlog) : ¬ Home sb (sb.logstart + i + 1) := fun h => by
  have := h.2; omega

theorem Home.ne (h : Home sb b) (ha : ¬ Home sb a) : b ≠ a := fun he => ha (he ▸ h)

theorem headBlocks_update (h : a ≠ sb.logstart) :
    headBlocks sb (Function.update disk a d) = headBlocks sb disk := by
  unfold headBlocks
  rw [Function.update_of_ne h.symm]

theorem headBlocks_eq_nil : headBlocks sb disk = [] ↔ (diskHeader (disk sb.logstart)).n = 0 := by
  rw [← List.length_eq_zero_iff, headBlocks, LogHeader.length_blocks]

/-- What `write_head` leaves in the header block. -/
theorem headBlocks_put (hn : lh.n < 2 ^ 31) (hb : ∀ b ∈ lh.blocks, b < 2 ^ 32) :
    headBlocks sb (Function.update disk sb.logstart
      (putBlocks lh.block lh.n (d.store 0 4 lh.n))) = lh.blocks := by
  obtain ⟨hpn, hpb⟩ := diskHeader_put (d := d) hn
    (fun i hi => hb _ (LogHeader.mem_blocks.mpr ⟨i, hi, rfl⟩))
  unfold headBlocks
  rw [Function.update_self, LogHeader.blocks, hpn]
  exact List.map_congr_left fun i hi => hpb i (List.mem_range.mp hi)

/-- Once the logged blocks are installed, the disk is what it stands for. -/
theorem DiskOk.installed (h : DiskOk sb disk H) (hin : ∀ b ∈ headBlocks sb disk, disk b = H b)
    (hb : Home sb b) : disk b = H b := by
  by_cases hm : b ∈ headBlocks sb disk
  · exact hin b hm
  · exact h.home b hb hm

theorem Logged.update (h : Logged sb disk H bs) (ha : ∀ i < bs.length, sb.logstart + i + 1 ≠ a) :
    Logged sb (Function.update disk a d) H bs :=
  ⟨h.fits, h.home, fun i hi => by rw [Function.update_of_ne (ha i hi)]; exact h.data i hi⟩

theorem Logged.area (h : Logged sb disk H bs) (hi : i < bs.length) : i + 1 < sb.nlog := by
  rcases h.fits.2 with rfl | hlt
  · exact absurd hi (by simp)
  · omega

/-- Writing a log block while the header on the disk is empty. -/
theorem DiskOk.write_logged (h : DiskOk sb disk H) (he : headBlocks sb disk = [])
    (hi : i + 1 < sb.nlog) : DiskOk sb (Function.update disk (sb.logstart + i + 1) d) H := by
  have hhead : headBlocks sb (Function.update disk (sb.logstart + i + 1) d) = [] := by
    rw [headBlocks_update (by omega), he]
  refine ⟨?_, fun b hb _ => ?_⟩
  · rw [hhead]
    exact ⟨by simp, by simp, by simp⟩
  · rw [Function.update_of_ne (hb.ne (not_home_log hi))]
    exact h.home b hb (by simp [he])

/-- **The header write** commits: the blocks in the log count from now on. -/
theorem DiskOk.write_headed (h : DiskOk sb disk H) (h0 : 0 < sb.nlog) (he : headBlocks sb disk = [])
    (hl : Logged sb disk H' lh.blocks) (hH : ∀ b, b ∉ lh.blocks → H' b = H b) :
    DiskOk sb (Function.update disk sb.logstart
      (putBlocks lh.block lh.n (d.store 0 4 lh.n))) H' := by
  have hn : lh.n ≤ LOGSIZE := by have := hl.fits.1; rwa [LogHeader.length_blocks] at this
  have hhead : headBlocks sb (Function.update disk sb.logstart
      (putBlocks lh.block lh.n (d.store 0 4 lh.n))) = lh.blocks :=
    headBlocks_put (by simp only [LOGSIZE, MAXOPBLOCKS] at hn; omega) fun b hb => (hl.home b hb).1
  refine ⟨?_, fun b hb hm => ?_⟩
  · rw [hhead]
    exact hl.update fun i _ => by omega
  · rw [hhead] at hm
    rw [Function.update_of_ne (hb.ne (not_home_head h0)), hH b hm]
    exact h.home b hb (by simp [he])

/-- Installing a block, once or again. -/
theorem DiskOk.write_home (h : DiskOk sb disk H) (h0 : 0 < sb.nlog) (ha : Home sb a) :
    DiskOk sb (Function.update disk a (H a)) H := by
  have hhead : headBlocks sb (Function.update disk a (H a)) = headBlocks sb disk :=
    headBlocks_update (ha.ne (not_home_head h0))
  refine ⟨?_, fun b hb hm => ?_⟩
  · rw [hhead]
    exact h.logged.update fun i hi => (ha.ne (not_home_log (h.logged.area hi))).symm
  · rw [hhead] at hm
    by_cases hba : b = a
    · subst hba; exact Function.update_self ..
    · rw [Function.update_of_ne hba]; exact h.home b hb hm

/-- Clearing the header once everything is installed. -/
theorem DiskOk.write_cleared (h0 : 0 < sb.nlog) (hin : ∀ b, Home sb b → disk b = H b)
    (hn : (diskHeader d).n = 0) : DiskOk sb (Function.update disk sb.logstart d) H := by
  have hhead : headBlocks sb (Function.update disk sb.logstart d) = [] := by
    rw [headBlocks_eq_nil, Function.update_self]; exact hn
  refine ⟨?_, fun b hb _ => ?_⟩
  · rw [hhead]
    exact ⟨by simp, by simp, by simp⟩
  · rw [Function.update_of_ne (hb.ne (not_home_head h0))]
    exact hin b hb

end Disk

/-! ## Buffers -/

/-- What a reader of block `b` sees. -/
def Bufs.view (s : Bufs) (b : ℕ) : Block := (s.cache b).getD (s.disk b)

namespace Bufs

variable (s : Bufs) (b : ℕ) (d : Block)

@[simp] theorem bread_fst : (s.bread b).1 = s.view b := by
  unfold bread view
  cases s.cache b <;> rfl

@[simp] theorem disk_bread : (s.bread b).2.disk = s.disk := by
  unfold bread
  cases s.cache b <;> rfl

@[simp] theorem refcnt_bread : (s.bread b).2.refcnt = s.refcnt := by
  unfold bread
  cases s.cache b <;> rfl

@[simp] theorem view_bread : (s.bread b).2.view = s.view := by
  funext x
  unfold bread
  cases hc : s.cache b with
  | some data => rfl
  | none =>
    by_cases hx : x = b
    · subst hx; simp [view, hc]
    · simp [view, hx]

@[simp] theorem view_setData : (s.setData b d).view = Function.update s.view b d := by
  funext x
  by_cases hx : x = b
  · subst hx; simp [view, setData]
  · simp [view, setData, hx]

@[simp] theorem disk_setData : (s.setData b d).disk = s.disk := rfl

@[simp] theorem refcnt_setData : (s.setData b d).refcnt = s.refcnt := rfl

@[simp] theorem view_bwrite : (s.bwrite b d).view = Function.update s.view b d := by
  funext x
  by_cases hx : x = b
  · subst hx; simp [view, bwrite, setData]
  · simp [view, bwrite, setData, hx]

@[simp] theorem disk_bwrite : (s.bwrite b d).disk = Function.update s.disk b d := rfl

@[simp] theorem refcnt_bwrite : (s.bwrite b d).refcnt = s.refcnt := rfl

@[simp] theorem view_bpin : (s.bpin b).view = s.view := rfl

@[simp] theorem disk_bpin : (s.bpin b).disk = s.disk := rfl

@[simp] theorem view_bunpin : (s.bunpin b).view = s.view := rfl

@[simp] theorem disk_bunpin : (s.bunpin b).disk = s.disk := rfl

theorem view_recycle_self : (s.recycle b).view b = s.disk b := by simp [view, recycle]

theorem view_recycle_ne {x : ℕ} (h : x ≠ b) : (s.recycle b).view x = s.view x := by
  simp [view, recycle, h]

@[simp] theorem view_binit (disk : ℕ → Block) : (binit disk).view = disk := rfl

end Bufs

section Rounds

variable (log : Log) (s : Bufs) (tail : ℕ)

theorem read_head_blocks :
    (read_head log s).1.lh.blocks = (diskHeader (s.view log.start)).blocks := by
  have h : (read_head log s).1.lh = ⟨(diskHeader (s.view log.start)).n,
      fun i => if i < (diskHeader (s.view log.start)).n then
        (diskHeader (s.view log.start)).block i else log.lh.block i⟩ := by
    rw [← Bufs.bread_fst]; rfl
  rw [h]
  generalize diskHeader (s.view log.start) = lh
  exact LogHeader.blocks_congr fun i hi => if_pos hi

theorem write_log_disk : (write_log tail log s).disk =
    Function.update s.disk (log.start + tail + 1) (s.view (log.lh.block tail)) := by
  simp [write_log]

theorem write_log_view : (write_log tail log s).view =
    Function.update s.view (log.start + tail + 1) (s.view (log.lh.block tail)) := by
  simp [write_log]

theorem write_log_refcnt : (write_log tail log s).refcnt = s.refcnt := by simp [write_log]

theorem write_head_disk : (write_head log s).disk = Function.update s.disk log.start
    (putBlocks log.lh.block log.lh.n ((s.view log.start).store 0 4 log.lh.n)) := by
  simp [write_head]

theorem write_head_view : (write_head log s).view = Function.update s.view log.start
    (putBlocks log.lh.block log.lh.n ((s.view log.start).store 0 4 log.lh.n)) := by
  simp [write_head]

theorem write_head_refcnt : (write_head log s).refcnt = s.refcnt := by simp [write_head]

theorem install_trans_disk (r : Bool) : (install_trans r tail log s).disk =
    Function.update s.disk (log.lh.block tail) (s.view (log.start + tail + 1)) := by
  cases r <;> simp [install_trans]

theorem install_trans_view (r : Bool) : (install_trans r tail log s).view =
    Function.update s.view (log.lh.block tail) (s.view (log.start + tail + 1)) := by
  cases r <;> simp [install_trans]

theorem install_trans_refcnt {b : ℕ} (h : b ≠ log.lh.block tail) (r : Bool) :
    (install_trans r tail log s).refcnt b = s.refcnt b := by
  cases r <;> simp [install_trans, Bufs.bunpin, h]

end Rounds

end Xv6
