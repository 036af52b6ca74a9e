import Xv6.Fs.ByteArray
import Xv6.Kernel.FileCache
import Xv6.Lib.Runs

/-!
# PartialWrite — a write whose source cannot be read to its end

`copyin` goes page by page into the buffer and `writei` block by block, so that the bytes of the last,
incomplete block are in the buffer when `writei` returns.  `Settled` says which bytes the buffers and the
disk have from then on.
-/

namespace Xv6

open Layout

/-! ## `copyin` -/

section

variable {pagetable srcva n m i : ℕ} {s : Phys} {ok : ℕ → Bool}

theorem accessible_add (h : ∀ i < n, ok i = true) :
    accessible ok (n + m) = n + accessible (fun i => ok (n + i)) m := by
  have hall : ∀ i ∈ List.range n, ¬ (!ok i) = true := fun i hi => by
    rw [h i (List.mem_range.mp hi)]
    decide
  have hn : (List.range n).findIdx (fun i => !ok i) = n := by
    rw [List.findIdx_eq_length_of_false fun i hi => Bool.eq_false_iff.mpr (hall i hi), List.length_range]
  rw [accessible, accessible, List.range_add, List.findIdx_append, hn, List.length_range,
    if_neg (lt_irrefl n), List.findIdx_map, Nat.add_comm]
  rfl

theorem userSrc_add : userSrc pagetable srcva s (n + i) = userSrc pagetable (srcva + n) s i := by
  unfold userSrc
  rw [Nat.add_assoc]

/-- The bytes of one page. -/
theorem userSrc_page (h : i < PGSIZE - (srcva - PGROUNDDOWN srcva)) :
    userSrc pagetable srcva s i =
      if walkaddr pagetable (PGROUNDDOWN srcva) s = 0 then none
      else some (s.mem (walkaddr pagetable (PGROUNDDOWN srcva) s + (srcva - PGROUNDDOWN srcva) + i)) := by
  have hdown : PGROUNDDOWN (srcva + i) = PGROUNDDOWN srcva := by
    simp only [PGROUNDDOWN, PGSIZE] at *
    omega
  have hmod : (srcva + i) % PGSIZE = srcva - PGROUNDDOWN srcva + i := by
    simp only [PGROUNDDOWN, PGSIZE] at *
    omega
  unfold userSrc
  dsimp only
  rw [hdown, hmod, Nat.add_assoc]

/-- **`copyin` copies the bytes before the first page that is not mapped.** -/
theorem copyinLoop_eq (pagetable : ℕ) (s : Phys) : ∀ rounds srcva len, len ≤ rounds →
    copyinLoop pagetable s rounds srcva len =
      ((List.range (accessible (fun i => (userSrc pagetable srcva s i).isSome) len)).map fun i =>
          (userSrc pagetable srcva s i).getD 0,
        len - accessible (fun i => (userSrc pagetable srcva s i).isSome) len) := by
  intro rounds
  induction rounds with
  | zero =>
    intro srcva len hle
    obtain rfl : len = 0 := by omega
    rfl
  | succ rounds ih =>
    intro srcva len hle
    rw [copyinLoop]
    by_cases h0 : len = 0
    · rw [if_pos h0, h0]
      rfl
    rw [if_neg h0]
    dsimp only
    have hoff : srcva - PGROUNDDOWN srcva < PGSIZE := by
      simp only [PGROUNDDOWN, PGSIZE]
      omega
    by_cases hpa : walkaddr pagetable (PGROUNDDOWN srcva) s = 0
    · have hk : accessible (fun i => (userSrc pagetable srcva s i).isSome) len = 0 := by
        by_contra hne
        have hsome : (userSrc pagetable srcva s 0).isSome = true :=
          Fs.accessible_lt (Nat.pos_of_ne_zero hne)
        rw [userSrc_page (by omega), if_pos hpa] at hsome
        cases hsome
      rw [if_pos hpa, hk]
      rfl
    rw [if_neg hpa]
    generalize hn : min (PGSIZE - (srcva - PGROUNDDOWN srcva)) len = n
    have hsome : ∀ i < n, userSrc pagetable srcva s i =
        some (s.mem (walkaddr pagetable (PGROUNDDOWN srcva) s + (srcva - PGROUNDDOWN srcva) + i)) :=
      fun i hi => by rw [userSrc_page (by omega), if_neg hpa]
    have hmap : (List.range n).map (fun i =>
          s.mem (walkaddr pagetable (PGROUNDDOWN srcva) s + (srcva - PGROUNDDOWN srcva) + i)) =
        (List.range n).map fun i => (userSrc pagetable srcva s i).getD 0 :=
      List.map_congr_left fun i hi => by rw [hsome i (List.mem_range.mp hi), Option.getD_some]
    obtain ⟨m, rfl⟩ : ∃ m, len = n + m := ⟨len - n, by omega⟩
    have hacc : accessible (fun i => (userSrc pagetable srcva s i).isSome) (n + m) =
        n + accessible (fun i => (userSrc pagetable (srcva + n) s i).isSome) m := by
      rw [accessible_add fun i hi => by rw [hsome i hi]; rfl]
      simp only [userSrc_add]
    -- the next round starts at the next page, unless nothing is left
    have hrest : copyinLoop pagetable s rounds (PGROUNDDOWN srcva + PGSIZE) m =
        copyinLoop pagetable s rounds (srcva + n) m := by
      by_cases hm : m = 0
      · subst hm
        cases rounds with
        | zero => rfl
        | succ rounds => rw [copyinLoop, copyinLoop, if_pos rfl, if_pos rfl]
      · rw [show PGROUNDDOWN srcva + PGSIZE = srcva + n by
          have hle : PGROUNDDOWN srcva ≤ srcva := Nat.div_mul_le_self _ _
          omega]
    rw [Nat.add_sub_cancel_left, hrest, ih (srcva + n) m (by omega), hacc, hmap, List.range_add,
      List.map_append, List.map_map, Nat.add_sub_add_left]
    have hshift : (fun i => (userSrc pagetable srcva s i).getD 0) ∘ (fun x => n + x) =
        fun i => (userSrc pagetable (srcva + n) s i).getD 0 := by
      funext i
      rw [Function.comp_apply, userSrc_add]
    rw [hshift]

/-- `either_copyin` from a user address. -/
theorem either_copyin_user {data : Block} {pos : ℕ} :
    either_copyin data pos (userSrc pagetable srcva s) m =
      (decide ((copyin pagetable srcva m s).isSome),
        data.blit pos (copyinLoop pagetable s m srcva m).1.length fun i =>
          (copyinLoop pagetable s m srcva m).1.getD i 0) := by
  have hle : accessible (fun i => (userSrc pagetable srcva s i).isSome) m ≤ m := Fs.accessible_le
  have hloop := copyinLoop_eq pagetable s m srcva m le_rfl
  rw [either_copyin, copyin, hloop]
  dsimp only
  generalize accessible (fun i => (userSrc pagetable srcva s i).isSome) m = k at hle
  refine Prod.ext ?_ ?_
  · by_cases hk : k = m
    · subst hk
      simp
    · obtain ⟨l, hl⟩ : ∃ l, m - k = l + 1 := ⟨m - k - 1, by omega⟩
      rw [hl]
      simpa using hk
  · dsimp only
    rw [List.length_map, List.length_range]
    refine ByteStore.blit_congr fun i hi => ?_
    simp [hi]

end

namespace FileCache

variable {sb : superblock} {T c c' : FileCache} {x j p off n tot k pagetable srcva : ℕ} {s : Phys}
  {src : ℕ → Option UInt8}

/-! ## Buffers that are recycled and committed -/

/-- Other processes leave the blocks of the file alone. -/
def Allowed (c : FileCache) : Op → Prop
  | .others fs disk => ∀ b, Holds c.fs.blocks c.ip.d b →
      fs.blocks b = c.fs.blocks b ∧ disk b = c.disk b ∧ (b ∈ fs.logged ↔ b ∈ c.fs.logged)
  | _ => True

/-- The byte of the file at `p` on the disk. -/
def diskByte (c : FileCache) (p : ℕ) : UInt8 :=
  c.disk (Layout.slot c.fs.blocks c.ip.d (p / BSIZE)) (p % BSIZE)

/-- A file without holes.  Each change of its indirect block is passed to `log_write`. -/
structure Whole (sb : superblock) (c : FileCache) : Prop where
  file : Fs.FileOk sb c.ip c.fs
  noHole : c.fs.NoHole c.ip c.ip.d.size.toNat
  indirect : c.ip.d.addr NDIRECT ≠ 0 → c.ip.d.addr NDIRECT ∉ c.fs.logged →
    ∀ j < BSIZE, c.disk (c.ip.d.addr NDIRECT) j = c.fs.blocks (c.ip.d.addr NDIRECT) j

/-- Byte `j` of block `x` is a byte of the file, or one of its indirect block. -/
def Live (T : FileCache) (x j : ℕ) : Prop :=
  Holds T.fs.blocks T.ip.d x ∧ j < BSIZE ∧
    ∀ bn < MAXFILE, Layout.slot T.fs.blocks T.ip.d bn = x → bn * BSIZE + j < T.ip.d.size.toNat

/-- In `c`, which has come from `T`, the buffers have the bytes that they had in `T`, and so has the disk
for each buffer that can be recycled. -/
structure Settled (T c : FileCache) : Prop where
  ip : c.ip = T.ip
  cache : ∀ x j, Live T x j → c.fs.blocks x j = T.fs.blocks x j
  clean : ∀ x j, Live T x j → x ∉ c.fs.logged → c.disk x j = T.fs.blocks x j
  disk : ∀ x j, Live T x j → c.disk x j = T.disk x j ∨ c.disk x j = T.fs.blocks x j

/-- A byte of a file that has a block for it. -/
theorem bytes_there {s : Fs} {ip : inode} (h0 : Layout.slot s.blocks ip.d (p / BSIZE) ≠ 0) :
    s.bytes ip p = s.blocks (Layout.slot s.blocks ip.d (p / BSIZE)) (p % BSIZE) := by
  unfold Fs.bytes content Paged.flat filePage
  rw [if_neg h0]

theorem Whole.page_lt (hT : Whole sb T) (hp : p < T.ip.d.size.toNat) : p / BSIZE < MAXFILE :=
  Nat.div_lt_of_lt_mul (by
    rw [Nat.mul_comm]
    exact hp.trans_le hT.file.size)

/-- The bytes of the file are live. -/
theorem Whole.live (hT : Whole sb T) (hp : p < T.ip.d.size.toNat) :
    Live T (Layout.slot T.fs.blocks T.ip.d (p / BSIZE)) (p % BSIZE) := by
  have h0 := hT.noHole p hp
  refine ⟨Holds.of_slot (hT.page_lt hp) h0, Nat.mod_lt _ (by decide), fun bn hbn heq => ?_⟩
  have hslot := hT.file.owns.inj _ (slotOf_lt hbn) _ (slotOf_lt (hT.page_lt hp)) heq (by
    rw [← Layout.slot, heq]
    exact h0)
  rw [slotOf_inj hslot, Nat.mul_comm, Nat.div_add_mod]
  exact hp

/-- The block numbers are the same. -/
theorem Settled.blockRef (h : Settled T c) (hT : Whole sb T) {r : ℕ} (hr : r < NREF) :
    blockRef c.fs.blocks c.ip.d r = blockRef T.fs.blocks T.ip.d r := by
  rw [h.ip]
  refine blockRef_congr (fun _ _ => rfl) (fun h0 k hk => h.cache _ _ ⟨Holds.of_indirect h0, hk, ?_⟩) hr
  intro bn hbn heq
  rw [← heq] at h0
  exact absurd heq (hT.file.owns.indirect_ne hbn h0)

theorem Settled.slot (h : Settled T c) (hT : Whole sb T) (hp : p < T.ip.d.size.toNat) :
    Layout.slot c.fs.blocks c.ip.d (p / BSIZE) = Layout.slot T.fs.blocks T.ip.d (p / BSIZE) :=
  h.blockRef hT (slotOf_lt (hT.page_lt hp))

theorem Settled.bytes (h : Settled T c) (hT : Whole sb T) (hp : p < T.ip.d.size.toNat) :
    c.fs.bytes c.ip p = T.fs.bytes T.ip p := by
  have h0 := hT.noHole p hp
  rw [bytes_there (by rwa [h.slot hT hp]), bytes_there h0, h.slot hT hp, h.cache _ _ (hT.live hp)]

theorem Settled.diskByte (h : Settled T c) (hT : Whole sb T) (hp : p < T.ip.d.size.toNat) :
    c.diskByte p = T.diskByte p ∨ c.diskByte p = T.fs.bytes T.ip p := by
  unfold FileCache.diskByte
  rw [bytes_there (hT.noHole p hp), h.slot hT hp]
  exact h.disk _ _ (hT.live hp)

theorem Settled.noHole (h : Settled T c) (hT : Whole sb T) : c.fs.NoHole c.ip c.ip.d.size.toNat := by
  intro p hp
  rw [h.ip] at hp
  rw [h.slot hT hp]
  exact hT.noHole p hp

/-- `readi` with any arguments changes nothing. -/
theorem Settled.readi (h : Settled T c) (hT : Whole sb T) (writable : ℕ → Bool) (dst : ByteStore)
    (off n : UInt32) :
    ∃ r dst', c.fs.readi sb writable dst off.toNat n.toNat c.ip = .ok (r, dst', c.ip, c.fs) := by
  by_cases hin : off.toNat ≤ c.ip.d.size.toNat ∧ off.toNat + n.toNat < 2 ^ 32
  · have hmax : c.ip.d.size.toNat ≤ MAXFILE * BSIZE := by
      rw [h.ip]
      exact hT.file.size
    have hno := h.noHole hT
    obtain ⟨r, w, heq, -⟩ := Fs.readLoop_there (n := min n.toNat (c.ip.d.size.toNat - off.toNat)) sb
      writable _ 0 off.toNat dst (Nat.zero_le _) le_rfl (by omega) fun i hi => hno i (by omega)
    exact ⟨r, _, (Fs.readi_loop hin.1 hin.2).trans heq⟩
  · exact ⟨0, dst, Fs.readi_out n.toNat_lt off.toNat_lt (by omega)⟩

theorem Settled.step {op : Op} (h : Settled T c) (hT : Whole sb T) (hop : Allowed c op)
    (hs : step sb c op = some (.ok c')) : Settled T c' := by
  cases op with
  | recycle b =>
    by_cases hb : b ∈ c.fs.logged
    · rw [FileCache.step, if_pos hb] at hs
      cases hs
    rw [FileCache.step, if_neg hb] at hs
    cases hs
    refine ⟨h.ip, fun x j hx => ?_, h.clean, h.disk⟩
    by_cases hxb : x = b
    · subst hxb
      show Function.update c.fs.blocks x (c.disk x) x j = _
      rw [Function.update_self]
      exact h.clean x j hx hb
    · show Function.update c.fs.blocks b (c.disk b) x j = _
      rw [Function.update_of_ne hxb]
      exact h.cache x j hx
  | commit =>
    cases hs
    refine ⟨h.ip, h.cache, fun x j hx _ => ?_, fun x j hx => ?_⟩
    · show (if x ∈ c.fs.logged then c.fs.blocks x else c.disk x) j = _
      by_cases hl : x ∈ c.fs.logged
      · rw [if_pos hl]
        exact h.cache x j hx
      · rw [if_neg hl]
        exact h.clean x j hx hl
    · show (if x ∈ c.fs.logged then c.fs.blocks x else c.disk x) j = _ ∨
        (if x ∈ c.fs.logged then c.fs.blocks x else c.disk x) j = _
      by_cases hl : x ∈ c.fs.logged
      · rw [if_pos hl]
        exact Or.inr (h.cache x j hx)
      · rw [if_neg hl]
        exact h.disk x j hx
  | readi writable dst off n =>
    obtain ⟨r, dst', heq⟩ := h.readi hT writable dst off n
    rw [FileCache.step, heq] at hs
    cases hs
    exact h
  | others fs disk =>
    cases hs
    have hold : ∀ x, Holds T.fs.blocks T.ip.d x →
        fs.blocks x = c.fs.blocks x ∧ disk x = c.disk x ∧ (x ∈ fs.logged ↔ x ∈ c.fs.logged) :=
      fun x hx => hop x ((holds_congr fun r hr => h.blockRef hT hr).mpr hx)
    refine ⟨h.ip, fun x j hx => ?_, fun x j hx hl => ?_, fun x j hx => ?_⟩
    · show fs.blocks x j = _
      rw [(hold x hx.1).1]
      exact h.cache x j hx
    · show disk x j = _
      rw [(hold x hx.1).2.1]
      exact h.clean x j hx fun hm => hl ((hold x hx.1).2.2.mpr hm)
    · show disk x j = _ ∨ disk x j = _
      rw [(hold x hx.1).2.1]
      exact h.disk x j hx

theorem Settled.steps (h : Settled T T) (hT : Whole sb T)
    (hs : Runs.Steps (FileCache.step sb) Allowed T c) : Settled T c :=
  hs.invariant h fun _ _ _ hc hop hstep => hc.step hT hop hstep

/-! ## `writei` from user memory -/

/-- What is promised of the file in `c` when `tot` bytes of `new` have been written at `off` to the file
that was in `c₀`: it reads as the old bytes with these bytes replaced, and its other bytes in the buffers and
on the disk are the old ones. -/
structure Intact (sb : superblock) (c₀ : FileCache) (off tot : ℕ) (new : ℕ → UInt8) (c : FileCache) :
    Prop where
  read : ∀ (writable : ℕ → Bool) (dst : ByteStore) (o n : ℕ), o ≤ c.ip.d.size.toNat → o + n < 2 ^ 32 →
    (∀ k < n, writable k = true) →
    ∃ dst' : ByteStore, c.fs.readi sb writable dst o n c.ip =
        .ok ((min n (c.ip.d.size.toNat - o) : ℕ), dst', c.ip, c.fs) ∧
      dst'.window 0 (min n (c.ip.d.size.toNat - o)) =
        ByteSeq.read (ByteSeq.write (c₀.fs.data c₀.ip) off (ByteStore.window new 0 tot)) o n
  cache : ∀ p < c₀.ip.d.size.toNat, p < off ∨ off + tot ≤ p →
    c.fs.bytes c.ip p = c₀.fs.bytes c₀.ip p
  disk : ∀ p < c₀.ip.d.size.toNat, p < off ∨ off + tot ≤ p →
    c.diskByte p = c₀.diskByte p ∨ c.diskByte p = c₀.fs.bytes c₀.ip p

/-- The file is intact in every later state, whatever part of the source `writei` has written. -/
def Undamaged (sb : superblock) (src : ℕ → Option UInt8) (off n : ℕ) (c₀ : FileCache) : Prop :=
  ∀ (tot : ℕ) (ip' : inode) (s' : Fs), c₀.fs.writei sb src off n c₀.ip = .ok (tot, ip', s') → tot < n →
    ∀ c, Runs.Steps (FileCache.step sb) Allowed ⟨ip', s', c₀.disk⟩ c →
      Intact sb c₀ off tot (fun i => (src i).getD 0) c

/-- The write passes the block of byte `p` to `log_write`. -/
def Rewritten (src : ℕ → Option UInt8) (off n p : ℕ) : Prop :=
  off / BSIZE ≤ p / BSIZE ∧ p / BSIZE < (off + accessible (fun i => (src i).isSome) n) / BSIZE

/-- Each byte of the file is on the disk as it is in its buffer, where the buffer can be recycled before the
write and after it. -/
def Clean (src : ℕ → Option UInt8) (off n : ℕ) (c : FileCache) : Prop :=
  ∀ p < c.ip.d.size.toNat, Layout.slot c.fs.blocks c.ip.d (p / BSIZE) ∉ c.fs.logged →
    ¬ Rewritten src off n p → c.diskByte p = c.fs.bytes c.ip p

/-- The bytes that can be read before the first one that cannot, as far as they are for the block of the
file that this one is for, are the bytes that the file has there. -/
def SameBlock (src : ℕ → Option UInt8) (off n : ℕ) (c : FileCache) : Prop :=
  ∀ i < accessible (fun i => (src i).isSome) n,
    (off + i) / BSIZE = (off + accessible (fun i => (src i).isSome) n) / BSIZE →
    off + i < c.ip.d.size.toNat → src i = some (c.fs.bytes c.ip (off + i))

/-- What `writei` has done when the source cannot be read to its end. -/
structure Cut (sb : superblock) (src : ℕ → Option UInt8) (off n : ℕ) (c : FileCache) (tot k : ℕ)
    (T : FileCache) : Prop where
  off_le : off ≤ c.ip.d.size.toNat
  fits : off + n ≤ MAXFILE * BSIZE
  le : tot + k ≤ n
  wrote : Fs.Wrote sb (fun i => (src i).getD 0) off (tot + k) c.ip T.ip c.fs T.fs
  size : T.ip.d.size.toNat = max c.ip.d.size.toNat (off + tot)
  stop : (k = 0 ∧ Fs.NoBlock sb off tot c.ip c.fs T.fs) ∨ Fs.Unread src off n tot k
  some : ∀ i < tot + k, (src i).isSome
  noted : Fs.Noted sb (T.fs.Dirty T.ip (off + tot) k) c.fs T.fs
  marks : Fs.Marks off tot c.ip c.fs T.fs
  disk : T.disk = c.disk

/-- The loop stops in the block of the first byte that cannot be read. -/
theorem unread_block (h : Fs.Unread src off n tot k) :
    (off + tot) / BSIZE = (off + tot + k) / BSIZE := by
  have hstart := h.start
  refine Nat.le_antisymm (Nat.div_le_div_right (Nat.le_add_right _ _)) ?_
  rw [Nat.le_div_iff_mul_le (by decide)]
  omega

theorem Cut.readable_eq (h : Cut sb src off n c tot k T) :
    accessible (fun i => (src i).isSome) n =
      tot + k + accessible (fun i => (src (tot + k + i)).isSome) (n - (tot + k)) := by
  have hle := h.le
  rw [← accessible_add h.some, Nat.add_sub_cancel' hle]

theorem Cut.readable (h : Cut sb src off n c tot k T) (hu : Fs.Unread src off n tot k) :
    accessible (fun i => (src i).isSome) n = tot + k := by
  have h0 : accessible (fun i => (src (tot + k + i)).isSome) (n - (tot + k)) = 0 := by
    by_contra hne
    have hsome : (src (tot + k + 0)).isSome = true := Fs.accessible_lt (Nat.pos_of_ne_zero hne)
    rw [Nat.add_zero, hu.none] at hsome
    cases hsome
  rw [h.readable_eq, h0, Nat.add_zero]

/-- The bytes of the file after the write. -/
theorem Cut.bytes (h : Cut sb src off n c tot k T) (hsame : SameBlock src off n c)
    (hp : p < T.ip.d.size.toNat) :
    T.fs.bytes T.ip p =
      if off ≤ p ∧ p < off + tot then (src (p - off)).getD 0 else c.fs.bytes c.ip p := by
  have hmax := h.wrote.adv.file.size
  rw [h.wrote.bytes p (by omega)]
  by_cases hin : off ≤ p ∧ p < off + tot
  · rw [if_pos hin, if_pos (by omega)]
  rw [if_neg hin]
  by_cases hk : off ≤ p ∧ p < off + (tot + k)
  swap
  · rw [if_neg hk]
  -- the byte was left in the buffer
  have hu : Fs.Unread src off n tot k := h.stop.resolve_left fun hs => by omega
  have hsize := h.size
  rw [if_pos hk]
  have hblock : (off + (p - off)) / BSIZE = (off + accessible (fun i => (src i).isSome) n) / BSIZE := by
    have hb := unread_block hu
    have hlo : (off + tot) / BSIZE ≤ p / BSIZE := Nat.div_le_div_right (by omega)
    have hhi : p / BSIZE ≤ (off + tot + k) / BSIZE := Nat.div_le_div_right (by omega)
    rw [h.readable hu, Nat.add_sub_cancel' hk.1, ← Nat.add_assoc]
    omega
  rw [hsame (p - off) (by rw [h.readable hu]; omega) hblock (by omega), Option.getD_some,
    Nat.add_sub_cancel' hk.1]

theorem Cut.slot (h : Cut sb src off n c tot k T) (hc : Whole sb c) (hp : p < c.ip.d.size.toNat) :
    Layout.slot T.fs.blocks T.ip.d (p / BSIZE) = Layout.slot c.fs.blocks c.ip.d (p / BSIZE) :=
  h.wrote.adv.grow.kept _ (slotOf_lt (hc.page_lt hp)) (hc.noHole p hp)

/-- The blocks that are logged are those with a byte that is written. -/
theorem Cut.rewritten (h : Cut sb src off n c tot k T) (hc : Whole sb c) (hp : p < c.ip.d.size.toNat) :
    Rewritten src off n p ↔ ∃ i, off ≤ i ∧ i < off + tot ∧ i / BSIZE = p / BSIZE := by
  unfold Rewritten
  rcases h.stop with ⟨-, hno⟩ | hu
  · -- the block with byte `p` is there, and the loop has stopped at a block that is not
    have hole := hno.hole
    have hread := h.readable_eq
    have hlt : p / BSIZE < (off + tot) / BSIZE := by
      by_contra hge
      refine hc.noHole ((off + tot) / BSIZE * BSIZE) ?_ ?_
      · have hle : (off + tot) / BSIZE * BSIZE ≤ p / BSIZE * BSIZE := Nat.mul_le_mul_right _ (by omega)
        have hdown := Nat.div_mul_le_self p BSIZE
        omega
      · rwa [Nat.mul_div_cancel _ (by decide)]
    constructor
    · rintro ⟨hlo, -⟩
      refine ⟨max off (p / BSIZE * BSIZE), le_max_left _ _, ?_, ?_⟩ <;> simp only [BSIZE] at * <;> omega
    · rintro ⟨i, hlo, hhi, hi⟩
      rw [← hi] at hlt ⊢
      refine ⟨Nat.div_le_div_right hlo, hlt.trans_le (Nat.div_le_div_right ?_)⟩
      omega
  · have hstart := hu.start
    rw [h.readable hu, ← Nat.add_assoc]
    constructor
    · rintro ⟨hlo, hlt⟩
      refine ⟨max off (p / BSIZE * BSIZE), le_max_left _ _, ?_, ?_⟩ <;> simp only [BSIZE] at * <;> omega
    · rintro ⟨i, hlo, hhi, hi⟩
      rw [← hi]
      refine ⟨Nat.div_le_div_right hlo, ?_⟩
      simp only [BSIZE] at *
      omega

/-- A block that the file has before the write is logged in it if it is rewritten. -/
theorem Cut.logged (h : Cut sb src off n c tot k T) (hc : Whole sb c) (hp : p < c.ip.d.size.toNat) :
    Layout.slot T.fs.blocks T.ip.d (p / BSIZE) ∈ T.fs.logged ↔
      Layout.slot c.fs.blocks c.ip.d (p / BSIZE) ∈ c.fs.logged ∨ Rewritten src off n p := by
  rw [h.slot hc hp, h.rewritten hc hp]
  exact h.marks _ (hc.page_lt hp) (hc.noHole p hp)

/-- A block that the file has got in the write is in the log. -/
theorem Cut.fresh (h : Cut sb src off n c tot k T) {r : ℕ} (hr : r < NREF)
    (h0 : Layout.blockRef c.fs.blocks c.ip.d r = 0) (hT : Layout.blockRef T.fs.blocks T.ip.d r ≠ 0) :
    Layout.blockRef T.fs.blocks T.ip.d r ∈ T.fs.logged :=
  (h.noted.fresh _ (h.wrote.adv.file.owns.mem _ (Holds.of_ref hr hT))).resolve_left
    (h.wrote.adv.grow.fresh r hr h0 hT)

/-- A file that is whole is whole after the write. -/
theorem Cut.whole (h : Cut sb src off n c tot k T) (hc : Whole sb c) : Whole sb T where
  file := h.wrote.adv.file
  noHole := fun p hp => by
    have hno := h.wrote.noHole hc.file hc.noHole h.off_le
    have hsize := h.size
    exact hno p (by omega)
  indirect := fun h0 hl j hj => by
    have href : ∀ (B : ℕ → Block) (d : dinode), Layout.blockRef B d NDIRECT = d.addr NDIRECT :=
      fun B d => if_pos le_rfl
    by_cases hc0 : c.ip.d.addr NDIRECT = 0
    · have hfresh := h.fresh (r := NDIRECT) (by decide) (by rwa [href]) (by rwa [href])
      rw [href] at hfresh
      exact absurd hfresh hl
    have hkept := h.wrote.adv.grow.kept NDIRECT (by decide) (by rwa [href])
    rw [href, href] at hkept
    -- the block in which the copy has stopped is a data block
    have hsame := h.noted.same _ hl fun hd => by
      obtain ⟨hk, hd0, hslot⟩ := hd
      have hle := h.le
      have hfits := h.fits
      have hbn : (off + tot) / BSIZE < MAXFILE :=
        Nat.div_lt_of_lt_mul (by simp only [BSIZE] at *; omega)
      exact h.wrote.adv.file.owns.indirect_ne hbn (by rwa [hslot]) hslot
    rw [hsame, h.disk, hkept]
    exact hc.indirect hc0 (fun hm => hl (hkept ▸ h.noted.mono _ hm)) j hj

/-- **The start**: a buffer that is not in the log has the bytes that are on the disk. -/
theorem Cut.settled (h : Cut sb src off n c tot k T) (hc : Whole sb c) (hclean : Clean src off n c)
    (hsame : SameBlock src off n c) : Settled T T := by
  refine ⟨rfl, fun _ _ _ => rfl, fun x j hx hl => ?_, fun _ _ _ => Or.inl rfl⟩
  obtain ⟨⟨h0, r, hr, rfl⟩, hj, hlive⟩ := hx
  by_cases hind : r = NDIRECT
  · subst hind
    have href : Layout.blockRef T.fs.blocks T.ip.d NDIRECT = T.ip.d.addr NDIRECT := if_pos le_rfl
    rw [href] at h0 hl ⊢
    exact (h.whole hc).indirect h0 hl j hj
  obtain ⟨bn, hbn, rfl⟩ := slotOf_surj hr hind
  have hp := hlive bn hbn rfl
  generalize hpe : bn * BSIZE + j = p at hp
  have hdiv : p / BSIZE = bn := by
    rw [← hpe, Nat.mul_comm, Nat.mul_add_div (by decide), Nat.div_eq_of_lt hj, Nat.add_zero]
  have hmod : p % BSIZE = j := by
    rw [← hpe, Nat.mul_comm, Nat.mul_add_mod, Nat.mod_eq_of_lt hj]
  have hsize := h.size
  have hoff := h.off_le
  by_cases hpc : p < c.ip.d.size.toNat
  swap
  · -- a byte behind the old end is written
    have hmark := h.marks bn hbn
    by_cases hc0 : Layout.slot c.fs.blocks c.ip.d bn = 0
    · exact absurd (h.fresh hr hc0 h0) hl
    · have hkept := h.wrote.adv.grow.kept _ hr hc0
      rw [hkept] at hl
      exact absurd ((hmark hc0).mpr (Or.inr ⟨p, by omega, by omega, hdiv⟩)) hl
  have hslot := h.slot hc hpc
  have hlog := h.logged hc hpc
  have hbytes := h.bytes hsame hp
  have hdisk := hclean p hpc (fun hm => ?_) fun hr => ?_
  · rw [if_neg, bytes_there (by rwa [hdiv]), ← hdisk] at hbytes
    · unfold FileCache.diskByte at hbytes
      rw [← hslot, hdiv, hmod] at hbytes
      rw [h.disk]
      exact hbytes.symm
    · rintro ⟨hlo, hhi⟩
      rw [hdiv] at hlog
      exact hl (hlog.mpr (Or.inr ((h.rewritten hc hpc).mpr ⟨p, hlo, hhi, rfl⟩)))
  · rw [hdiv] at hlog hm
    exact hl (hlog.mpr (Or.inl hm))
  · rw [hdiv] at hlog
    exact hl (hlog.mpr (Or.inr hr))

/-- A buffer that is recycled after the write has the bytes of the file, if the file is intact. -/
theorem Cut.clean (h : Cut sb src off n c tot k T) (hc : Whole sb c)
    (hi : ∀ c', Runs.Steps (FileCache.step sb) Allowed T c' →
      Intact sb c off tot (fun i => (src i).getD 0) c') : Clean src off n c := by
  intro p hp hl hr
  have hslot := h.slot hc hp
  have h0 : Layout.slot T.fs.blocks T.ip.d (p / BSIZE) ≠ 0 := by
    rw [hslot]
    exact hc.noHole p hp
  have hT : Layout.slot T.fs.blocks T.ip.d (p / BSIZE) ∉ T.fs.logged := fun hm =>
    ((h.logged hc hp).mp hm).elim hl hr
  have hout : p < off ∨ off + tot ≤ p := by
    by_contra hin
    exact hr ((h.rewritten hc hp).mpr ⟨p, by omega, by omega, rfl⟩)
  have hstep : FileCache.step sb T (.recycle (Layout.slot T.fs.blocks T.ip.d (p / BSIZE))) =
      Option.some (.ok (T.recycle (Layout.slot T.fs.blocks T.ip.d (p / BSIZE)))) := if_neg hT
  have hrun := (Runs.Steps.refl T).snoc (show Allowed T (.recycle _) from trivial) hstep
  have hcache := (hi _ hrun).cache p hp hout
  -- the block numbers are in the inode and in the indirect block
  have hkept : Layout.slot (T.recycle (Layout.slot T.fs.blocks T.ip.d (p / BSIZE))).fs.blocks T.ip.d
      (p / BSIZE) = Layout.slot T.fs.blocks T.ip.d (p / BSIZE) :=
    blockRef_congr (fun _ _ => rfl) (fun _ j _ => by
      show Function.update T.fs.blocks _ _ _ j = _
      rw [Function.update_of_ne (h.wrote.adv.file.owns.indirect_ne (hc.page_lt hp) h0).symm])
      (slotOf_lt (hc.page_lt hp))
  rw [bytes_there (by
    show Layout.slot (T.recycle _).fs.blocks T.ip.d _ ≠ 0
    rwa [hkept])] at hcache
  unfold FileCache.diskByte
  rw [← hcache, ← h.disk, ← hslot]
  show _ = Function.update T.fs.blocks _ (T.disk _) (Layout.slot (T.recycle _).fs.blocks T.ip.d _) _
  rw [hkept, Function.update_self]

/-- `writei` from a source that cannot be read to its end. -/
theorem cut_of_writei (hsb : sb.Ok) (hc : Whole sb c) (hoff : off ≤ c.ip.d.size.toNat)
    (hmax : off + n ≤ MAXFILE * BSIZE) (hgap : ∃ i < n, src i = none) :
    ∃ (tot k : ℕ) (ip' : inode) (s' : Fs), c.fs.writei sb src off n c.ip = .ok (tot, ip', s') ∧
      tot < n ∧ Cut sb src off n c tot k ⟨ip', s', c.disk⟩ := by
  obtain ⟨tot, k, ip', s', heq, hle, hw, hsize, hstop, -, hsome, hnoted, hmarks⟩ :=
    Fs.writei_spec src hsb hc.file hoff hmax
  obtain ⟨i, hi, hnone⟩ := hgap
  have hlt : tot + k ≤ i := by
    by_contra hik
    have h := hsome i (by omega)
    rw [hnone] at h
    cases h
  exact ⟨tot, k, ip', s', heq, by omega, hoff, hmax, hle, hw, hsize, hstop (by omega), hsome, hnoted,
    hmarks, rfl⟩

/-- A file that is whole after the write has the bytes that it should have. -/
theorem Cut.intact (h : Cut sb src off n c tot k T) (hc : Whole sb c) (hsame : SameBlock src off n c)
    (hs : Settled T c') : Intact sb c off tot (fun i => (src i).getD 0) c' := by
  have hT := h.whole hc
  have hsize : c'.ip.d.size.toNat = T.ip.d.size.toNat := by rw [hs.ip]
  have hle := h.size
  refine ⟨fun writable dst o n' ho hn' hw => ?_, fun p hp hout => ?_, fun p hp hout => ?_⟩
  · have hmax : c'.ip.d.size.toNat ≤ MAXFILE * BSIZE := by
      rw [hsize]
      exact hT.file.size
    have hdata : c'.fs.data c'.ip =
        ByteSeq.write (c.fs.data c.ip) off (ByteStore.window (fun i => (src i).getD 0) 0 tot) :=
      Fs.data_write h.off_le (by rw [hsize, h.size]) fun p hp => by
        rw [hsize] at hp
        rw [hs.bytes hT hp, h.bytes hsame hp]
    refine ⟨_, Fs.readi_there sb writable dst (hs.noHole hT) hmax ho hn' hw, ?_⟩
    rw [← hdata]
    unfold Fs.data
    rw [ByteStore.read_window]
    refine ByteStore.window_congr fun k hk => ?_
    rw [Nat.zero_add, ByteStore.blit_in (Nat.zero_le k) (by omega), Nat.sub_zero]
  · rw [hs.bytes hT (by omega), h.bytes hsame (by omega), if_neg (by omega)]
  · have hslot := h.slot hc hp
    rcases hs.diskByte (p := p) hT (by omega) with hd | hd
    · left
      rw [hd]
      unfold FileCache.diskByte
      rw [hslot, h.disk]
    · right
      rw [hd, h.bytes hsame (by omega), if_neg (by omega)]

/-- The bytes that are left in the buffer are the old ones, if the file is intact. -/
theorem Cut.same (h : Cut sb src off n c tot k T) (hc : Whole sb c)
    (hi : Intact sb c off tot (fun i => (src i).getD 0) T) : SameBlock src off n c := by
  intro i hi' hblock hsize
  rcases h.stop with ⟨-, hno⟩ | hu
  · -- the block with byte `off + i` is there, and so are all before it
    have hole := hno.hole
    by_cases hlt : off + tot < c.ip.d.size.toNat
    · exact absurd hole (hc.noHole _ hlt)
    · have hread := h.readable_eq
      have hlo : (off + i) / BSIZE ≤ (off + tot) / BSIZE := Nat.div_le_div_right (by omega)
      have hhi : (off + tot) / BSIZE ≤ (off + accessible (fun i => (src i).isSome) n) / BSIZE :=
        Nat.div_le_div_right (by omega)
      rw [show (off + tot) / BSIZE = (off + i) / BSIZE by omega] at hole
      exact absurd hole (hc.noHole _ hsize)
  · rw [h.readable hu] at hi' hblock
    have hstart := hu.start
    have hge : (off + (tot + k)) / BSIZE * BSIZE ≤ off + i := by
      rw [← hblock]
      exact Nat.div_mul_le_self _ _
    rw [← Nat.add_assoc] at hge
    have hcache := hi.cache (off + i) hsize (by omega)
    have hmax := hc.file.size
    rw [h.wrote.bytes _ (by omega), if_pos (by omega), Nat.add_sub_cancel_left] at hcache
    obtain ⟨b, hb⟩ := Option.isSome_iff_exists.mp (h.some i hi')
    rw [hb, Option.getD_some] at hcache
    rw [hb, hcache]

/-- **A write whose source becomes unreadable leaves the file undamaged if and only if** the bytes that can
be read for the block where the copy stops are the bytes that the file has there, and no buffer of the file
that can be recycled after the write differs from the disk. -/
theorem writei_undamaged_iff (hsb : sb.Ok) (hc : Whole sb c) (hoff : off ≤ c.ip.d.size.toNat)
    (hn : n < 2 ^ 32) (hgap : ∃ i < n, userSrc pagetable srcva s i = none) :
    Undamaged sb (userSrc pagetable srcva s) off n c ↔
      MAXFILE * BSIZE < off + n ∨
        SameBlock (userSrc pagetable srcva s) off n c ∧ Clean (userSrc pagetable srcva s) off n c := by
  by_cases hmax : off + n ≤ MAXFILE * BSIZE
  · obtain ⟨tot, k, ip', s', heq, hlt, hcut⟩ := cut_of_writei hsb hc hoff hmax hgap
    constructor
    · intro h
      exact Or.inr ⟨hcut.same hc (h tot ip' s' heq hlt _ (Runs.Steps.refl _)),
        hcut.clean hc (h tot ip' s' heq hlt)⟩
    · rintro (h | ⟨hsame, hclean⟩)
      · omega
      intro tot₂ ip₂ s₂ heq₂ _ c' hs
      rw [heq] at heq₂
      injection heq₂ with heq₂
      injection heq₂ with htot heq₂
      injection heq₂ with hip hs'
      obtain rfl := Int.natCast_inj.mp htot
      subst hip hs'
      exact hcut.intact hc hsame ((hcut.settled hc hclean hsame).steps (hcut.whole hc) hs)
  · have hlen := hc.file.size
    have hout : c.fs.writei sb (userSrc pagetable srcva s) off n c.ip = .ok (-1, c.ip, c.fs) :=
      Fs.writei_out hn (by
        simp only [MAXFILE, NDIRECT, NINDIRECT, BSIZE] at hlen
        omega) (Or.inr (not_le.mp hmax))
    refine ⟨fun _ => Or.inl (not_le.mp hmax), fun _ tot ip' s' heq => ?_⟩
    rw [hout] at heq
    injection heq with heq
    injection heq with htot
    omega

/-- A file of one block of `a`s, and nothing else on the disk. -/
def oneBlock : FileCache :=
  { ip := { Fs.emptyInode 2 2 with
      d := { dinode.zero with type := 2, nlink := 1, size := 1024, addrs := fun i => if i = 0 then 46 else 0 } }
    fs :=
      { blocks := fun b i =>
          if b = 45 then (if i < 5 then 255 else if i = 5 then 127 else 0) else if b = 46 then 97 else 0
        logged := [] }
    disk := fun b i =>
      if b = 45 then (if i < 5 then 255 else if i = 5 then 127 else 0) else if b = 46 then 97 else 0 }

/-- A page table at 4096 that maps the user page 4096, which is full of `v`s, and no other. -/
def onePage (v : UInt8) : Phys :=
  { mem := (((ByteStore.fill (fun _ => v) 4096 12288 0).store 4096 8 (2 * 1024 + 1)).store
      8192 8 (3 * 1024 + 1)).store (12288 + 8) 8 (4 * 1024 + 19)
    freelist := []
    pte_count := fun _ => 0 }

theorem oneBlock_ref {r : ℕ} :
    Layout.blockRef oneBlock.fs.blocks oneBlock.ip.d r = if r = 0 then 46 else 0 := by
  have haddr : ∀ i, oneBlock.ip.d.addr i = if i = 0 then 46 else 0 := by
    intro i
    unfold dinode.addr
    by_cases hi : i < NDIRECT + 1
    · rw [dif_pos hi]
      show (if (⟨i, hi⟩ : Fin (NDIRECT + 1)) = 0 then (46 : UInt32) else 0).toNat = _
      by_cases h0 : i = 0
      · subst h0
        rfl
      · rw [if_neg h0, if_neg fun h => h0 (congrArg Fin.val h)]
        rfl
    · rw [dif_neg hi, if_neg (by omega)]
  have hind : oneBlock.ip.d.addr NDIRECT = 0 := by rw [haddr, if_neg (by decide)]
  rw [Layout.blockRef, hind, haddr, if_pos rfl]
  by_cases hr : r = 0
  · rw [hr, if_pos (Nat.zero_le _)]
  · rw [if_neg hr, ite_self]

theorem oneBlock_whole : Whole mkfsSb oneBlock := by
  refine ⟨⟨⟨fun r _ r' _ heq h0 => ?_, ?_⟩, ?_, by decide, by decide⟩, fun p hp => ?_, fun _ _ _ _ => rfl⟩
  · rw [oneBlock_ref] at h0
    rw [oneBlock_ref, oneBlock_ref] at heq
    by_cases hr : r = 0
    · by_cases hr' : r' = 0
      · rw [hr, hr']
      · rw [if_pos hr, if_neg hr'] at heq
        cases heq
    · exact absurd (if_neg hr) h0
  · rintro x ⟨h0, r, -, rfl⟩
    rw [oneBlock_ref] at h0 ⊢
    by_cases hr : r = 0
    · rw [if_pos hr]
      exact ⟨⟨by decide, by decide⟩, by decide +kernel⟩
    · exact absurd (if_neg hr) h0
  · have hbits : ∀ b < 46, oneBlock.fs.Used mkfsSb b := by decide +kernel
    intro b hb hnot
    refine hbits b ?_
    by_contra hge
    have hq : mkfsSb.bmapstart + mkfsSb.size / BPB = 45 := by decide
    exact hnot ⟨by omega, hb⟩
  · have hdiv : p / BSIZE = 0 := Nat.div_eq_of_lt hp
    rw [hdiv, Layout.slot, oneBlock_ref]
    decide

/-- The 100 bytes that can be read are those of the file. -/
theorem writei_undamaged_same : Undamaged mkfsSb (userSrc 4096 8092 (onePage 97)) 0 200 oneBlock := by
  have hread : accessible (fun i => (userSrc 4096 8092 (onePage 97) i).isSome) 200 = 100 := by
    decide +kernel
  refine (writei_undamaged_iff Fs.mkfsSb_ok oneBlock_whole (Nat.zero_le _) (by decide)
    ⟨100, by decide, by decide +kernel⟩).mpr (Or.inr ⟨fun i hi _ _ => ?_, fun p hp _ _ => ?_⟩)
  · rw [hread] at hi
    revert i
    decide +kernel
  · rw [bytes_there (oneBlock_whole.noHole p hp)]
    rfl

/-- The call has returned `0`, and the first byte of the file is a `b`. -/
def leftB : Except Panic (ℤ × inode × Fs) → Bool
  | .ok (r, ip, s) => r == 0 && s.bytes ip 0 == 98
  | .error _ => false

theorem leftB_spec {x : Except Panic (ℤ × inode × Fs)} (h : leftB x = true) :
    ∃ ip' s', x = .ok ((0 : ℕ), ip', s') ∧ s'.bytes ip' 0 = 98 := by
  obtain e | ⟨r, ip', s'⟩ := x
  · cases h
  · obtain ⟨rfl, hb⟩ : r = 0 ∧ s'.bytes ip' 0 = 98 := by simpa [leftB] using h
    exact ⟨ip', s', rfl, hb⟩

theorem writei_leftB : leftB (oneBlock.fs.writei mkfsSb (userSrc 4096 8092 (onePage 98)) 0 200 oneBlock.ip) =
    true := by decide +kernel

/-- A write of 200 `b`s, of which 100 can be read, returns `0` and leaves the 100 in the file. -/
theorem writei_damages :
    (∃ ip' s', oneBlock.fs.writei mkfsSb (userSrc 4096 8092 (onePage 98)) 0 200 oneBlock.ip =
      .ok ((0 : ℕ), ip', s') ∧ s'.bytes ip' 0 = 98) ∧
    oneBlock.fs.bytes oneBlock.ip 0 = 97 ∧
    ¬ Undamaged mkfsSb (userSrc 4096 8092 (onePage 98)) 0 200 oneBlock := by
  have hold : oneBlock.fs.bytes oneBlock.ip 0 = 97 := by decide +kernel
  obtain ⟨ip', s', heq, hnew⟩ := leftB_spec writei_leftB
  refine ⟨⟨ip', s', heq, hnew⟩, hold, fun hu => ?_⟩
  have hi := (hu 0 ip' s' heq (by decide) _ (Runs.Steps.refl _)).cache 0 (by decide) (Or.inr le_rfl)
  rw [hold] at hi
  exact absurd (hnew.symm.trans hi) (by decide)

end FileCache

end Xv6
