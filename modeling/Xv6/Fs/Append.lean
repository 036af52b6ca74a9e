import Xv6.Fs.Layout
import Xv6.User.Mkfs

/-!
# Append — what `iappend` of `mkfs` does to the files

`mkfs` gives out the blocks from `nmeta` on in order, so the blocks in use are those below `freeblock`, and
the others are still zero.  `Adds` says what one file may do to the image, `Shows` what the image is: the
inodes that have been made, in order, each with its type and its bytes.
-/

namespace Xv6

namespace Mkfs

open Layout

variable {s s' s'' t : Mkfs} {d d' d'' : dinode} {i j k m n off fbn x b inum fuel : ℕ} {src : ℕ → UInt8}
  {B B' : ℕ → Block}

/-- The data blocks in use. -/
def InUse (s : Mkfs) (x : ℕ) : Prop := nmeta ≤ x ∧ x < s.freeblock.toNat

/-- The number of blocks of `n` bytes. -/
def nblk (n : ℕ) : ℕ := (n + BSIZE - 1) / BSIZE

/-- The number of blocks that a file of `k` blocks takes. -/
def need (k : ℕ) : ℕ := k + if NDIRECT < k then 1 else 0

/-- The first `k` blocks of the file are there, and no others. -/
structure Filled (B : ℕ → Block) (d : dinode) (k : ℕ) : Prop where
  slot : ∀ bn < MAXFILE, Layout.slot B d bn ≠ 0 ↔ bn < k
  indirect : d.addr NDIRECT ≠ 0 ↔ NDIRECT < k

/-- The image between two changes; `d` is the inode of one file. -/
structure Image (d : dinode) (s : Mkfs) : Prop where
  len : s.len = FSSIZE
  low : nmeta ≤ s.freeblock.toNat
  high : s.freeblock.toNat ≤ FSSIZE
  owns : Layout.Owns s.InUse s.blocks d
  blank : ∀ x, s.freeblock.toNat ≤ x → x < FSSIZE → ∀ j < BSIZE, s.blocks x j = 0

/-- The file may get blocks; the metadata and the other files are as they were. -/
structure Adds (d d' : dinode) (s s' : Mkfs) : Prop where
  image : Image d' s'
  grow : Grow s.InUse s'.InUse s.blocks s'.blocks d d'
  fields : ∃ a, d' = { d with addrs := a }
  reserved : ∀ x < nmeta, s'.blocks x = s.blocks x
  freeinode : s'.freeinode = s.freeinode

theorem Adds.refl (h : Image d s) : Adds d d s s :=
  ⟨h, Grow.refl h.owns, ⟨d.addrs, rfl⟩, fun _ _ => rfl, rfl⟩

theorem Adds.trans (h1 : Adds d d' s s') (h2 : Adds d' d'' s' s'') : Adds d d'' s s'' where
  image := h2.image
  grow := h1.grow.trans h2.grow
  fields := by
    obtain ⟨a, rfl⟩ := h1.fields
    obtain ⟨a', rfl⟩ := h2.fields
    exact ⟨a', rfl⟩
  reserved := fun x hx => (h2.reserved x hx).trans (h1.reserved x hx)
  freeinode := h2.freeinode.trans h1.freeinode

theorem rsect_ok (h : s.len = FSSIZE) (hx : x < FSSIZE) : s.rsect x = .ok (s.blocks x) := by
  rw [rsect, if_pos (by omega)]

theorem InUse.lt (h : Image d s) (hx : s.InUse x) : x < FSSIZE := hx.2.trans_le h.high

theorem wsect_len (h : s.len = FSSIZE) (hx : x < FSSIZE) {buf : Block} : (s.wsect x buf).len = FSSIZE := by
  show max s.len (x + 1) = FSSIZE
  omega

/-! ## One more block -/

theorem need_succ (h : k ≠ NDIRECT) : need (k + 1) = need k + 1 := by
  unfold need
  split_ifs <;> omega

/-- The image after `freeblock++`. -/
structure Took (s s' : Mkfs) : Prop where
  len : s'.len = s.len
  freeblock : s'.freeblock.toNat = s.freeblock.toNat + 1
  freeinode : s'.freeinode = s.freeinode

theorem freeblock_succ (h : s.freeblock.toNat < FSSIZE) :
    (s.freeblock + 1).toNat = s.freeblock.toNat + 1 := by
  have hlt : s.freeblock.toNat + 1 < 2 ^ 32 := by simp only [FSSIZE] at h; omega
  rw [UInt32.toNat_add]
  exact Nat.mod_eq_of_lt hlt

theorem Took.inUse (h : Took s s') (hlow : nmeta ≤ s.freeblock.toNat) :
    s'.InUse x ↔ s.InUse x ∨ x = s.freeblock.toNat := by
  unfold InUse
  rw [h.freeblock]
  omega

theorem Image.blank_free (h : Image d s) (hroom : s.freeblock.toNat < FSSIZE) :
    ∀ j < BSIZE, s.blocks s.freeblock.toNat j = 0 := h.blank _ le_rfl hroom

theorem not_inUse_free : ¬ s.InUse s.freeblock.toNat := fun h => Nat.lt_irrefl _ h.2

theorem Image.free_ne_zero (h : Image d s) : s.freeblock.toNat ≠ 0 := by
  have hlow := h.low
  have hn : 0 < nmeta := by decide
  omega

theorem free_lt (hroom : s.freeblock.toNat < FSSIZE) : s.freeblock.toNat < 2 ^ 32 :=
  hroom.trans_le (by decide)

/-- **A block for an address of the inode.** -/
theorem fill_new (h : Image d s) (hi : i ≤ NDIRECT) (h0 : d.addr i = 0)
    (hroom : s.freeblock.toNat < FSSIZE) : ∃ s', s.fill i d = (d.setAddr i s.freeblock.toNat, s') ∧
      s'.blocks = s.blocks ∧ Took s s' ∧ Adds d (d.setAddr i s.freeblock.toNat) s s' ∧
      Layout.SameBytes s.blocks s'.blocks d (d.setAddr i s.freeblock.toNat) := by
  have htook : Took s { s with freeblock := s.freeblock + 1 } := ⟨rfl, freeblock_succ hroom, rfl⟩
  obtain ⟨ho, hg, hc⟩ := h.owns.setAddr hi h0 h.free_ne_zero (free_lt hroom) not_inUse_free
    (fun x => htook.inUse h.low) (fun _ _ => rfl) (h.blank_free hroom)
  refine ⟨{ s with freeblock := s.freeblock + 1 }, by rw [fill, if_pos h0], rfl, htook,
    ⟨⟨h.len, ?_, ?_, ho, ?_⟩, hg, ⟨_, rfl⟩, fun _ _ => rfl, rfl⟩, hc⟩
  · rw [htook.freeblock]
    exact h.low.trans (Nat.le_succ _)
  · rw [htook.freeblock]
    exact hroom
  · intro x hx
    rw [htook.freeblock] at hx
    exact h.blank x (Nat.le_of_succ_le hx)

/-- The slots after a direct one has been given a block. -/
theorem slot_setAddr (hi : i < NDIRECT) (hb : b < 2 ^ 32) :
    Layout.slot B (d.setAddr i b) n = if n = i then b else Layout.slot B d n := by
  have ha := fun r => dinode.addr_setAddr (d := d) (r := r) hi.le hb
  by_cases hn : n < NDIRECT
  · rw [slot_direct hn, slot_direct hn, ha]
  rw [if_neg (by omega)]
  obtain ⟨k, rfl⟩ : ∃ k, n = NDIRECT + k := ⟨n - NDIRECT, by omega⟩
  have hind : (d.setAddr i b).addr NDIRECT = d.addr NDIRECT := by rw [ha, if_neg (by omega)]
  by_cases h0 : d.addr NDIRECT = 0
  · rw [slot_hole (by omega) h0, slot_hole (by omega) (hind.trans h0)]
  · rw [slot_indirect h0, slot_indirect (by rwa [hind]), hind]

/-- A new indirect block is empty. -/
theorem slot_setIndirect (h0 : d.addr NDIRECT = 0) (hb : b < 2 ^ 32) (hb0 : b ≠ 0)
    (hzero : ∀ j < BSIZE, B b j = 0) (hn : n < MAXFILE) :
    Layout.slot B (d.setAddr NDIRECT b) n = Layout.slot B d n := by
  have ha := fun r => dinode.addr_setAddr (d := d) (r := r) le_rfl hb
  by_cases hd : n < NDIRECT
  · rw [slot_direct hd, slot_direct hd, ha, if_neg (by omega)]
  obtain ⟨k, rfl⟩ : ∃ k, n = NDIRECT + k := ⟨n - NDIRECT, by omega⟩
  have hind : (d.setAddr NDIRECT b).addr NDIRECT = b := by rw [ha, if_pos rfl]
  rw [slot_hole (by omega) h0, slot_indirect (by rwa [hind]), hind]
  refine ByteStore.load_zero fun j hj => hzero _ ?_
  simp only [MAXFILE, NINDIRECT, BSIZE] at *
  omega

/-- The slots after an entry of the indirect block has been written. -/
theorem slot_setEntry (h0 : d.addr NDIRECT ≠ 0) (hb : b < 2 ^ 32)
    (hB' : B' = Function.update B (d.addr NDIRECT) ((B (d.addr NDIRECT)).store (4 * k) 4 b)) :
    Layout.slot B' d n = if n = NDIRECT + k then b else Layout.slot B d n := by
  by_cases hd : n < NDIRECT
  · rw [if_neg (by omega), slot_direct hd, slot_direct hd]
  obtain ⟨m, rfl⟩ : ∃ m, n = NDIRECT + m := ⟨n - NDIRECT, by omega⟩
  rw [slot_indirect h0, slot_indirect h0, hB', Function.update_self]
  by_cases hm : m = k
  · rw [if_pos (by omega), hm, ByteStore.load_store]
    exact Nat.mod_eq_of_lt hb
  · rw [if_neg (by omega), ByteStore.load_store_out (by omega)]

/-- The address of the indirect block, and an empty indirect block if there was none. -/
theorem fill_indirect (h : Image d s) (hk : Filled s.blocks d k) (hle : NDIRECT ≤ k)
    (hroom : k = NDIRECT → s.freeblock.toNat < FSSIZE) : ∃ d' s', s.fill NDIRECT d = (d', s') ∧
      Adds d d' s s' ∧ Layout.SameBytes s.blocks s'.blocks d d' ∧ d'.addr NDIRECT ≠ 0 ∧
      (∀ n < MAXFILE, Layout.slot s'.blocks d' n = Layout.slot s.blocks d n) ∧
      s'.freeblock.toNat = s.freeblock.toNat + if k = NDIRECT then 1 else 0 := by
  by_cases hkn : k = NDIRECT
  · have h0 : d.addr NDIRECT = 0 := by
      by_contra h0
      have := hk.indirect.mp h0
      omega
    have hb := free_lt (hroom hkn)
    obtain ⟨s', heq, hB, htook, hadds, hsame⟩ := fill_new h le_rfl h0 (hroom hkn)
    refine ⟨_, s', heq, hadds, hsame, ?_, fun n hn => ?_, ?_⟩
    · rw [dinode.addr_setAddr le_rfl hb, if_pos rfl]
      exact h.free_ne_zero
    · rw [hB, slot_setIndirect h0 hb h.free_ne_zero (h.blank_free (hroom hkn)) hn]
    · rw [htook.freeblock, if_pos hkn]
  · have h0 : d.addr NDIRECT ≠ 0 := hk.indirect.mpr (by omega)
    refine ⟨d, s, by rw [fill, if_neg h0], Adds.refl h, fun _ _ => rfl, h0, fun _ _ => rfl, ?_⟩
    rw [if_neg hkn, Nat.add_zero]

/-- **A block for an entry of the indirect block.** -/
theorem entry_new (h : Image d s) (hk : k < NINDIRECT) (hind : d.addr NDIRECT ≠ 0)
    (hz : (s.blocks (d.addr NDIRECT)).load (4 * k) 4 = 0) (hroom : s.freeblock.toNat < FSSIZE)
    (hs' : s' = { s with freeblock := s.freeblock + 1 }.wsect (d.addr NDIRECT)
      ((s.blocks (d.addr NDIRECT)).store (4 * k) 4 s.freeblock.toNat)) :
    Adds d d s s' ∧ Layout.SameBytes s.blocks s'.blocks d d ∧ Took s s' ∧
      ∀ n, Layout.slot s'.blocks d n = if n = NDIRECT + k then s.freeblock.toNat else Layout.slot s.blocks d n := by
  have hU := h.owns.mem _ (Holds.of_indirect hind)
  have hlen : s'.len = FSSIZE := by
    rw [hs']
    exact wsect_len (s := { s with freeblock := s.freeblock + 1 }) h.len (hU.lt h)
  have hB' : s'.blocks = Function.update s.blocks (d.addr NDIRECT)
      ((s.blocks (d.addr NDIRECT)).store (4 * k) 4 s.freeblock.toNat) := by rw [hs']; rfl
  have htook : Took s s' := ⟨hlen.trans h.len.symm, by rw [hs']; exact freeblock_succ hroom, by rw [hs']; rfl⟩
  obtain ⟨ho, hg, hc⟩ := h.owns.setEntry hk hind hz h.free_ne_zero (free_lt hroom) not_inUse_free
    (fun x => htook.inUse h.low) (fun _ _ => rfl) (h.blank_free hroom) hB'
  refine ⟨⟨⟨hlen, ?_, ?_, ho, fun x hx hlt j hj => ?_⟩, hg, ⟨_, rfl⟩, fun x hx => ?_, htook.freeinode⟩, hc,
    htook, fun n => slot_setEntry hind (free_lt hroom) hB'⟩
  · rw [htook.freeblock]
    exact h.low.trans (Nat.le_succ _)
  · rw [htook.freeblock]
    exact hroom
  · rw [htook.freeblock] at hx
    rw [hB', Function.update_of_ne (by have := hU.2; omega)]
    exact h.blank x (Nat.le_of_succ_le hx) hlt j hj
  · rw [hB', Function.update_of_ne (by have := hU.1; omega)]

/-- **The block of a round of `iappend`** is the next one of the file, or its last. -/
theorem blockAt_spec (h : Image d s) (hk : Filled s.blocks d k) (hbn : fbn < MAXFILE) (hle : fbn ≤ k)
    (hle' : k ≤ fbn + 1) (hroom : s.freeblock.toNat + (need (fbn + 1) - need k) ≤ FSSIZE) :
    ∃ d' s', s.blockAt fbn d = .ok (Layout.slot s'.blocks d' fbn, d', s') ∧ Adds d d' s s' ∧
      Layout.SameBytes s.blocks s'.blocks d d' ∧ Filled s'.blocks d' (fbn + 1) ∧
      s'.freeblock.toNat = s.freeblock.toNat + (need (fbn + 1) - need k) := by
  unfold blockAt
  by_cases hdir : fbn < NDIRECT
  · rw [if_pos hdir]
    by_cases hkf : k = fbn + 1
    · have h0 : d.addr fbn ≠ 0 := by
        rw [← slot_direct hdir]
        exact (hk.slot fbn hbn).mpr (by omega)
      refine ⟨d, s, ?_, Adds.refl h, fun _ _ => rfl, hkf ▸ hk, by rw [hkf, Nat.sub_self, Nat.add_zero]⟩
      rw [fill, if_neg h0, slot_direct hdir]
    · have hkf : k = fbn := by omega
      have h0 : d.addr fbn = 0 := by
        by_contra h0
        rw [← slot_direct hdir] at h0
        have := (hk.slot fbn hbn).mp h0
        omega
      rw [hkf, need_succ hdir.ne, Nat.add_sub_cancel_left] at hroom ⊢
      have hb := free_lt hroom
      obtain ⟨s', heq, hB, htook, hadds, hsame⟩ := fill_new h hdir.le h0 hroom
      refine ⟨_, s', ?_, hadds, hsame, ⟨fun n hn => ?_, ?_⟩, htook.freeblock⟩
      · rw [heq, slot_direct hdir]
      · rw [hB, slot_setAddr hdir hb]
        split_ifs with hnf
        · exact iff_of_true h.free_ne_zero (by omega)
        · rw [hk.slot n hn]
          omega
      · rw [dinode.addr_setAddr hdir.le hb, if_neg (by omega), hk.indirect]
        omega
  rw [if_neg hdir]
  obtain ⟨j, rfl⟩ : ∃ j, fbn = NDIRECT + j := ⟨fbn - NDIRECT, by omega⟩
  have hj : j < NINDIRECT := by
    simp only [MAXFILE] at hbn
    omega
  have hneed : need (NDIRECT + j + 1) - need k =
      (if k = NDIRECT then 1 else 0) + if k = NDIRECT + j + 1 then 0 else 1 := by
    unfold need
    split_ifs <;> omega
  rw [hneed] at hroom ⊢
  obtain ⟨d₁, s₁, heq, hadds, hsame, hind, hslot, hfree⟩ := fill_indirect h hk (by omega) fun hkn => by
    rw [if_pos hkn] at hroom
    omega
  have hUind := hadds.image.owns.mem _ (Holds.of_indirect hind)
  rw [heq]
  dsimp only
  rw [rsect_ok hadds.image.len (hUind.lt hadds.image), ok_bind, Nat.add_sub_cancel_left, ← slot_indirect hind,
    hslot _ hbn]
  by_cases hkf : k = NDIRECT + j + 1
  · rw [if_neg ((hk.slot _ hbn).mpr (by omega))]
    refine ⟨d₁, s₁, by rw [hslot _ hbn], hadds, hsame, ⟨fun n hn => ?_, ?_⟩, ?_⟩
    · rw [hslot n hn, hk.slot n hn, hkf]
    · exact iff_of_true hind (by omega)
    · rw [hfree, if_pos hkf, Nat.add_zero]
  · have h0 : Layout.slot s.blocks d (NDIRECT + j) = 0 := by
      by_contra h0
      have := (hk.slot _ hbn).mp h0
      omega
    rw [if_pos h0]
    rw [if_neg hkf] at hroom ⊢
    rw [← hslot _ hbn, slot_indirect hind] at h0
    have hroom₁ : s₁.freeblock.toNat < FSSIZE := by omega
    obtain ⟨hadds₂, hsame₂, htook, hslot₂⟩ := entry_new hadds.image hj hind h0 hroom₁ rfl
    refine ⟨d₁, _, ?_, hadds.trans hadds₂, hsame.trans hsame₂, ⟨fun n hn => ?_, ?_⟩, ?_⟩
    · have hmod : s₁.freeblock.toNat % 256 ^ 4 = s₁.freeblock.toNat := Nat.mod_eq_of_lt (free_lt hroom₁)
      rw [hslot₂, if_pos rfl, ByteStore.load_store, hmod]
    · rw [hslot₂]
      split_ifs with hnf
      · exact iff_of_true hadds.image.free_ne_zero (by omega)
      · rw [hslot n hn, hk.slot n hn]
        omega
    · exact iff_of_true hind (by omega)
    · rw [htook.freeblock, hfree, Nat.add_assoc]

/-! ## `iappend` -/

/-- Bytes written into a block of the file. -/
theorem write_block (h : Image d s) (hbn : off / BSIZE < MAXFILE) (h0 : Layout.slot s.blocks d (off / BSIZE) ≠ 0)
    (hm : off % BSIZE + m ≤ BSIZE) (hs' : s' = s.wsect (Layout.slot s.blocks d (off / BSIZE))
      ((s.blocks (Layout.slot s.blocks d (off / BSIZE))).blit (off % BSIZE) m src)) :
    Adds d d s s' ∧ (∀ n < MAXFILE, Layout.slot s'.blocks d n = Layout.slot s.blocks d n) ∧
      s'.freeblock = s.freeblock ∧ ∀ i < MAXFILE * BSIZE, content s'.blocks d i =
        if off ≤ i ∧ i < off + m then src (i - off) else content s.blocks d i := by
  have hU := h.owns.mem _ (Holds.of_slot hbn h0)
  have hne := h.owns.indirect_ne hbn h0
  have hB' : s'.blocks = Function.update s.blocks (Layout.slot s.blocks d (off / BSIZE))
      ((s.blocks (Layout.slot s.blocks d (off / BSIZE))).blit (off % BSIZE) m src) := by rw [hs']; rfl
  have hin : s'.InUse = s.InUse := by rw [hs']; rfl
  obtain ⟨ho, hg, hc⟩ := h.owns.write hbn h0 hm hB'
  refine ⟨⟨⟨?_, by rw [hs']; exact h.low, by rw [hs']; exact h.high, hin ▸ ho, fun x hx hlt j hj => ?_⟩,
    hin ▸ hg, ⟨_, rfl⟩, fun x hx => ?_, by rw [hs']; rfl⟩, fun n hn => ?_, by rw [hs']; rfl, hc⟩
  · rw [hs']
    exact wsect_len h.len (hU.lt h)
  · have hfree : s'.freeblock = s.freeblock := by rw [hs']; rfl
    rw [hfree] at hx
    rw [hB', Function.update_of_ne (by have := hU.2; omega)]
    exact h.blank x hx hlt j hj
  · rw [hB', Function.update_of_ne (by have := hU.1; omega)]
  · exact blockRef_congr (fun _ _ => rfl) (fun _ j _ => by rw [hB', Function.update_of_ne (Ne.symm hne)])
      (slotOf_lt hn)

/-- A chunk that ends in block `off / BSIZE`. -/
theorem nblk_chunk (hm : 0 < m) (hle : m ≤ BSIZE - off % BSIZE) : nblk (off + m) = off / BSIZE + 1 := by
  unfold nblk
  simp only [BSIZE] at *
  omega

theorem need_mono (h : k ≤ j) : need k ≤ need j := by
  unfold need
  split_ifs <;> omega

/-- **The loop of `iappend`** writes the bytes behind the others, as long as there is room. -/
theorem appendLoop_spec : ∀ (fuel n off : ℕ) (p : ℕ → UInt8) (d : dinode) (s : Mkfs), Image d s →
    Filled s.blocks d (nblk off) → n ≤ fuel → off + n ≤ MAXFILE * BSIZE →
    s.freeblock.toNat + (need (nblk (off + n)) - need (nblk off)) ≤ FSSIZE →
    ∃ d' s', appendLoop fuel p n off d s = .ok (off + n, d', s') ∧ Adds d d' s s' ∧
      Filled s'.blocks d' (nblk (off + n)) ∧
      s'.freeblock.toNat = s.freeblock.toNat + (need (nblk (off + n)) - need (nblk off)) ∧
      ∀ i < MAXFILE * BSIZE, content s'.blocks d' i =
        if off ≤ i ∧ i < off + n then p (i - off) else content s.blocks d i := by
  intro fuel
  induction fuel with
  | zero =>
    intro n off p d s h hk hn _ _
    obtain rfl : n = 0 := by omega
    refine ⟨d, s, rfl, Adds.refl h, hk, by rw [Nat.add_zero, Nat.sub_self, Nat.add_zero], fun i _ => ?_⟩
    rw [if_neg (by omega)]
  | succ fuel ih =>
    intro n off p d s h hk hn hmax hroom
    rw [appendLoop]
    by_cases hpos : 0 < n
    swap
    · obtain rfl : n = 0 := by omega
      rw [if_neg hpos]
      refine ⟨d, s, rfl, Adds.refl h, hk, by rw [Nat.add_zero, Nat.sub_self, Nat.add_zero], fun i _ => ?_⟩
      rw [if_neg (by omega)]
    have hbn : off / BSIZE < MAXFILE := Nat.div_lt_of_lt_mul (by simp only [BSIZE] at *; omega)
    rw [if_pos hpos]
    dsimp only
    rw [if_pos hbn]
    have hmod : off % BSIZE < BSIZE := Nat.mod_lt _ (by decide)
    generalize hm : min n ((off / BSIZE + 1) * BSIZE - off) = m
    have hm' : 0 < m ∧ m ≤ n ∧ m ≤ BSIZE - off % BSIZE := by
      simp only [BSIZE] at *
      omega
    have hmid := nblk_chunk hm'.1 hm'.2.2
    have hend : off / BSIZE + 1 ≤ nblk (off + n) := by
      rw [← hmid]
      unfold nblk
      exact Nat.div_le_div_right (by omega)
    have hlow : off / BSIZE ≤ nblk off ∧ nblk off ≤ off / BSIZE + 1 := by
      unfold nblk
      simp only [BSIZE]
      omega
    have hn1 := need_mono hlow.2
    have hn2 := need_mono hend
    obtain ⟨d₁, s₁, heq, hadds, hsame, hfill, hfree⟩ := blockAt_spec h hk hbn hlow.1 hlow.2 (by omega)
    rw [heq, ok_bind]
    dsimp only
    have hslot : Layout.slot s₁.blocks d₁ (off / BSIZE) ≠ 0 := (hfill.slot _ hbn).mpr (by omega)
    have hU := hadds.image.owns.mem _ (Holds.of_slot hbn hslot)
    rw [rsect_ok hadds.image.len (hU.lt hadds.image), ok_bind]
    have hoff : off - off / BSIZE * BSIZE = off % BSIZE := by
      simp only [BSIZE]
      omega
    rw [hoff]
    generalize hs₂ : s₁.wsect _ _ = s₂
    obtain ⟨hadds₂, hslots, hfree₂, hc₂⟩ := write_block hadds.image hbn hslot (by omega) hs₂.symm
    have hfill₂ : Filled s₂.blocks d₁ (nblk (off + m)) := by
      rw [hmid]
      exact ⟨fun bn hb => by rw [hslots bn hb, hfill.slot bn hb], hfill.indirect⟩
    have hoffn : off + m + (n - m) = off + n := by omega
    obtain ⟨d₃, s₃, heq₃, hadds₃, hfill₃, hfree₃, hc₃⟩ := ih (n - m) (off + m) (fun i => p (m + i)) d₁ s₂
      hadds₂.image hfill₂ (by omega) (by omega) (by rw [hoffn, hmid, hfree₂]; omega)
    rw [hoffn] at heq₃ hfill₃ hfree₃ hc₃
    refine ⟨d₃, s₃, heq₃, (hadds.trans hadds₂).trans hadds₃, hfill₃, ?_, fun i hi => ?_⟩
    · rw [hfree₃, hmid, hfree₂]
      omega
    · rw [hc₃ i hi, hc₂ i hi, hsame i hi]
      by_cases h1 : off + m ≤ i ∧ i < off + n
      · rw [if_pos h1, if_pos (by omega), ← Nat.sub_sub, Nat.add_sub_cancel' (by omega)]
      · rw [if_neg h1]
        by_cases h2 : off ≤ i ∧ i < off + m
        · rw [if_pos h2, if_pos (by omega)]
        · rw [if_neg h2, if_neg (by omega)]

end Mkfs

end Xv6
