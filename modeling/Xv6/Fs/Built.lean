import Xv6.Fs.Append
import Xv6.Fs.Files

/-!
# Built — the image after any calls of `ialloc` and `iappend`

`Shows l s`: the image `s` has the inodes of the list `l`, in order, with their types and their bytes, and
nothing else.
-/

namespace Xv6

namespace Mkfs

open Layout

variable {s s' s₁ : Mkfs} {d d' e : dinode} {i j k n x inum : ℕ} {f : Int16 × List UInt8} {type : Int16}
  {l : List (Int16 × List UInt8)} {p : List UInt8} {B B' : ℕ → Block}

/-- The image as the kernel sees it. -/
def fs (s : Mkfs) : Fs := { blocks := s.blocks, logged := [] }

def dinodeAt (s : Mkfs) (inum : ℕ) : dinode := s.fs.dinodeAt sb inum

/-- The inode has this type and these bytes, and no block more than it needs. -/
structure IsFile (s : Mkfs) (inum : ℕ) (f : Int16 × List UInt8) : Prop where
  fields : ∃ a, s.dinodeAt inum =
    { dinode.zero with type := f.1, nlink := 1, size := UInt32.ofNat f.2.length, addrs := a }
  size : f.2.length ≤ MAXFILE * BSIZE
  owns : Layout.Owns s.InUse s.blocks (s.dinodeAt inum)
  filled : Filled s.blocks (s.dinodeAt inum) (nblk f.2.length)
  bytes : ∀ i < MAXFILE * BSIZE, content s.blocks (s.dinodeAt inum) i = f.2.getD i 0

/-- The blocks that the files take. -/
def total (l : List (Int16 × List UInt8)) : ℕ := (l.map fun f => need (nblk f.2.length)).sum

structure Shows (l : List (Int16 × List UInt8)) (s : Mkfs) : Prop where
  len : s.len = FSSIZE
  high : s.freeblock.toNat ≤ FSSIZE
  blank : ∀ x, s.freeblock.toNat ≤ x → x < FSSIZE → ∀ j < BSIZE, s.blocks x j = 0
  few : l.length < NINODES
  freeinode : s.freeinode.toNat = l.length + 1
  freeblock : s.freeblock.toNat = nmeta + total l
  file : ∀ i f, l[i]? = some f → IsFile s (i + 1) f
  apart : ∀ i j, i < l.length → j < l.length → i ≠ j → ∀ x, Holds s.blocks (s.dinodeAt (i + 1)) x →
    ¬ Holds s.blocks (s.dinodeAt (j + 1)) x
  owned : ∀ x, s.InUse x → ∃ i < l.length, Holds s.blocks (s.dinodeAt (i + 1)) x
  rest : ∀ n < NINODES, n = 0 ∨ l.length < n → s.dinodeAt n = dinode.zero
  reserved : ∀ x < 2 + nlog, s.blocks x = zeroed.blocks x

/-- The files fit on the disk. -/
structure Fits (l : List (Int16 × List UInt8)) : Prop where
  inodes : l.length < NINODES
  blocks : nmeta + total l ≤ FSSIZE
  size : ∀ f ∈ l, f.2.length ≤ MAXFILE * BSIZE

/-! ## Inode blocks -/

theorem IBLOCK_bounds (h : inum < NINODES) : 2 + nlog ≤ IBLOCK inum sb ∧ IBLOCK inum sb < nmeta := by
  have hs : sb.inodestart = 32 := rfl
  have hn : nmeta = 46 := by decide
  have hl : 2 + nlog = 32 := by decide
  unfold IBLOCK
  rw [hs, hn, hl]
  simp only [NINODES, IPB] at *
  omega

theorem nmeta_le : nmeta ≤ FSSIZE := by decide

/-- `winode`. -/
structure Wrote (inum : ℕ) (d : dinode) (s s' : Mkfs) : Prop where
  len : s'.len = FSSIZE
  freeinode : s'.freeinode = s.freeinode
  freeblock : s'.freeblock = s.freeblock
  self : s'.dinodeAt inum = d
  other : ∀ n ≠ inum, s'.dinodeAt n = s.dinodeAt n
  blocks : ∀ x, x ≠ IBLOCK inum sb → s'.blocks x = s.blocks x

theorem rinode_ok (h : s.len = FSSIZE) (hn : inum < NINODES) : s.rinode inum = .ok (s.dinodeAt inum) := by
  unfold rinode
  dsimp only
  rw [rsect_ok h ((IBLOCK_bounds hn).2.trans_le nmeta_le), ok_bind]
  rfl

theorem winode_ok (h : s.len = FSSIZE) (hn : inum < NINODES) (d : dinode) :
    ∃ s', s.winode inum d = .ok s' ∧ Wrote inum d s s' := by
  have hb := (IBLOCK_bounds hn).2.trans_le nmeta_le
  unfold winode
  dsimp only
  rw [rsect_ok h hb, ok_bind]
  generalize hs' : s.wsect _ _ = s'
  have hB : s'.blocks = Function.update s.blocks (IBLOCK inum sb)
      (d.store (s.blocks (IBLOCK inum sb)) (64 * (inum % IPB))) := by rw [← hs']; rfl
  refine ⟨s', rfl, by rw [← hs']; exact wsect_len h hb, by rw [← hs']; rfl, by rw [← hs']; rfl, ?_,
    fun n hne => ?_, fun x hx => by rw [hB, Function.update_of_ne hx]⟩
  · show dinode.load (s'.blocks (IBLOCK inum sb)) (64 * (inum % IPB)) = d
    rw [hB, Function.update_self, load_store_dinode]
  · show dinode.load (s'.blocks (IBLOCK n sb)) (64 * (n % IPB)) =
      dinode.load (s.blocks (IBLOCK n sb)) (64 * (n % IPB))
    rw [hB]
    by_cases hbn : IBLOCK n sb = IBLOCK inum sb
    · rw [hbn, Function.update_self]
      refine load_dinode_congr fun j hj => store_dinode_out ?_
      unfold IBLOCK at hbn
      simp only [IPB] at *
      omega
    · rw [Function.update_of_ne hbn]

/-! ## Files that stay as they are -/

theorem blockRef_held {r : ℕ} (h : ∀ x, Holds B e x → B' x = B x) (hr : r < NREF) :
    blockRef B' e r = blockRef B e r :=
  blockRef_congr (fun _ _ => rfl) (fun h0 j _ => by rw [h _ (Holds.of_indirect h0)]) hr

/-- The same block numbers, and the same blocks. -/
theorem sameBytes_refs (href : ∀ r < NREF, blockRef B' d' r = blockRef B d r)
    (h : ∀ x, Holds B d x → B' x = B x) : Layout.SameBytes B B' d d' :=
  sameBytes_of_pages fun bn hbn j _ => by
    have hs : Layout.slot B' d' bn = Layout.slot B d bn := href _ (slotOf_lt hbn)
    unfold filePage
    rw [hs]
    by_cases h0 : Layout.slot B d bn = 0
    · rw [if_pos h0, if_pos h0]
    · rw [if_neg h0, if_neg h0, h _ (Holds.of_slot hbn h0)]

theorem IsFile.frame (h : IsFile s inum f) (hd : s'.dinodeAt inum = s.dinodeAt inum)
    (hB : ∀ x, Holds s.blocks (s.dinodeAt inum) x → s'.blocks x = s.blocks x)
    (hU : ∀ x, s.InUse x → s'.InUse x) : IsFile s' inum f := by
  have href : ∀ r < NREF, blockRef s'.blocks (s.dinodeAt inum) r = blockRef s.blocks (s.dinodeAt inum) r :=
    fun r hr => blockRef_held hB hr
  have ho := h.owns.congr href
  refine ⟨by rw [hd]; exact h.fields, h.size, ?_, ?_, fun i hi => ?_⟩
  · rw [hd]
    exact ⟨ho.inj, fun x hx => hU x (ho.mem x hx)⟩
  · rw [hd]
    exact ⟨fun bn hb => by rw [Layout.slot, href _ (slotOf_lt hb)]; exact h.filled.slot bn hb, h.filled.indirect⟩
  · rw [hd, sameBytes_refs href hB i hi, h.bytes i hi]

/-! ## Lists -/

/-- A sum over a list in which one element has been changed. -/
theorem total_modify {g : Int16 × List UInt8 → Int16 × List UInt8} (h : l[i]? = some f) :
    total (l.modify i g) + need (nblk f.2.length) = total l + need (nblk (g f).2.length) := by
  induction l generalizing i with
  | nil => cases h
  | cons a l ih =>
    cases i with
    | zero =>
      rw [List.getElem?_cons_zero, Option.some.injEq] at h
      subst h
      simp only [total, List.modify_zero_cons, List.map_cons, List.sum_cons]
      omega
    | succ i =>
      have := ih (by simpa using h)
      simp only [total, List.modify_succ_cons, List.map_cons, List.sum_cons] at this ⊢
      omega

theorem total_append {l' : List (Int16 × List UInt8)} : total (l ++ l') = total l + total l' := by
  rw [total, List.map_append, List.sum_append]
  rfl

theorem nblk_zero : nblk 0 = 0 := by decide

theorem lt_of_getElem? (h : l[i]? = some f) : i < l.length := (List.getElem?_eq_some_iff.mp h).1

/-! ## `ialloc` -/

theorem Shows.image (h : Shows l s) (hi : l[i]? = some f) : Image (s.dinodeAt (i + 1)) s :=
  ⟨h.len, by rw [h.freeblock]; exact Nat.le_add_right _ _, h.high, (h.file i f hi).owns, h.blank⟩

theorem ofNat_length (h : n ≤ MAXFILE * BSIZE) : (UInt32.ofNat n).toNat = n := by
  refine UInt32.toNat_ofNat_of_lt' (h.trans_lt (by decide))

theorem IsFile.size_eq (h : IsFile s inum f) : (s.dinodeAt inum).size.toNat = f.2.length := by
  obtain ⟨a, ha⟩ := h.fields
  rw [ha]
  exact ofNat_length h.size

theorem Wrote.image_low (h : Wrote inum d s s') (hn : inum < NINODES) (hx : x < 2 + nlog) :
    s'.blocks x = s.blocks x := h.blocks x (by have := IBLOCK_bounds hn; omega)

theorem Wrote.inUse (h : Wrote inum d s s') : s'.InUse = s.InUse := by
  unfold InUse
  rw [h.freeblock]

theorem Wrote.data (h : Wrote inum d s s') (hn : inum < NINODES) (hx : nmeta ≤ x) :
    s'.blocks x = s.blocks x := h.blocks x (by have := IBLOCK_bounds hn; omega)

/-- **`ialloc`** makes an empty file. -/
theorem ialloc_shows (h : Shows l s) (hfits : Fits (l ++ [(type, [])])) :
    ∃ s', s.ialloc type = .ok (UInt32.ofNat (l.length + 1), s') ∧ Shows (l ++ [(type, [])]) s' := by
  have hlen : (l ++ [(type, ([] : List UInt8))]).length = l.length + 1 := by simp
  have hn : l.length + 1 < NINODES := hlen ▸ hfits.inodes
  have hinum : s.freeinode = UInt32.ofNat (l.length + 1) := by
    rw [← h.freeinode, UInt32.ofNat_toNat]
  have hnext : (s.freeinode + 1).toNat = l.length + 2 := by
    have hlt : s.freeinode.toNat + 1 < 2 ^ 32 := by
      rw [h.freeinode]
      simp only [NINODES] at hn
      omega
    rw [UInt32.toNat_add]
    exact (Nat.mod_eq_of_lt hlt).trans (by rw [h.freeinode])
  obtain ⟨s', heq, hw⟩ := winode_ok (s := { s with freeinode := s.freeinode + 1 }) h.len hn
    { dinode.zero with type := type, nlink := 1, size := 0 }
  have hU : s'.InUse = s.InUse := hw.inUse
  have hB : ∀ x, s.InUse x → s'.blocks x = s.blocks x := fun x hx => hw.data hn hx.1
  have hother : ∀ i < l.length, s'.dinodeAt (i + 1) = s.dinodeAt (i + 1) := fun i hi =>
    hw.other _ (by omega)
  have haddr : ∀ i, (s'.dinodeAt (l.length + 1)).addr i = 0 := fun i => by
    rw [hw.self]
    unfold dinode.addr dinode.zero
    split <;> rfl
  have hnew : ∀ B x, ¬ Holds B (s'.dinodeAt (l.length + 1)) x := fun B x => Fs.not_holds haddr
  have hold : ∀ i < l.length, ∀ x, Holds s'.blocks (s'.dinodeAt (i + 1)) x ↔
      Holds s.blocks (s.dinodeAt (i + 1)) x := fun i hi x => by
    rw [hother i hi]
    have hf := h.file i _ (List.getElem?_eq_getElem hi)
    exact holds_congr fun r hr => blockRef_held (fun x hx => hB x (hf.owns.mem x hx)) hr
  have hlast : ∀ i, i < (l ++ [(type, ([] : List UInt8))]).length → i < l.length ∨ i = l.length := by
    rw [hlen]
    omega
  refine ⟨s', ?_, ⟨hw.len, ?_, fun x hx hlt j hj => ?_, hfits.inodes, ?_, ?_, fun i f hf => ?_,
    fun i j hi hj hij x hx hx' => ?_, fun x hx => ?_, fun n hn' h0 => ?_, fun x hx => ?_⟩⟩
  · unfold ialloc
    dsimp only
    rw [h.freeinode, heq, ok_bind, hinum]
  · rw [hw.freeblock]
    exact h.high
  · rw [hw.freeblock] at hx
    have hlow : nmeta ≤ x := (Nat.le_add_right _ _).trans (h.freeblock ▸ hx)
    rw [hw.data hn hlow]
    exact h.blank x hx hlt j hj
  · rw [hw.freeinode, hlen]
    exact hnext
  · have h0 : total [(type, ([] : List UInt8))] = 0 := by
      show need (nblk 0) + 0 = 0
      decide
    rw [hw.freeblock, total_append, h0]
    exact h.freeblock
  · rcases hlast i (lt_of_getElem? hf) with hi | rfl
    · rw [List.getElem?_append_left hi] at hf
      have hfile := h.file i f hf
      exact hfile.frame (hother i hi) (fun x hx => hB x (hfile.owns.mem x hx)) fun x hx => hU ▸ hx
    · rw [List.getElem?_append_right le_rfl, Nat.sub_self] at hf
      obtain rfl : f = (type, []) := (Option.some.inj hf).symm
      have hslot : ∀ bn, Layout.slot s'.blocks (s'.dinodeAt (l.length + 1)) bn = 0 := fun bn => by
        rw [Layout.slot, blockRef, haddr, haddr, if_pos rfl, ite_self]
      refine ⟨⟨_, hw.self⟩, Nat.zero_le _, ⟨fun r hr r' hr' _ h0 => ?_, fun x hx => absurd hx (hnew _ x)⟩,
        ⟨fun bn _ => ?_, ?_⟩, fun i _ => ?_⟩
      · exact absurd (Holds.of_ref hr h0) (hnew _ _)
      · exact iff_of_false (not_not_intro (hslot bn)) (nblk_zero ▸ Nat.not_lt_zero bn)
      · exact iff_of_false (not_not_intro (haddr _)) (nblk_zero ▸ Nat.not_lt_zero _)
      · rw [content, Paged.flat, filePage, if_pos (hslot _)]
        rfl
  · rcases hlast i hi with hi | rfl
    · rcases hlast j hj with hj | rfl
      · exact h.apart i j hi hj hij x ((hold i hi x).mp hx) ((hold j hj x).mp hx')
      · exact hnew _ x hx'
    · exact hnew _ x hx
  · obtain ⟨i, hi, hx⟩ := h.owned x (hU ▸ hx)
    exact ⟨i, by omega, (hold i hi x).mpr hx⟩
  · rw [hlen] at h0
    rw [hw.other n (by omega)]
    exact h.rest n hn' (by omega)
  · rw [hw.image_low hn hx]
    exact h.reserved x hx

/-! ## `iappend` -/

theorem getElem?_modify_self {g : Int16 × List UInt8 → Int16 × List UInt8} (hi : l[i]? = some f) :
    (l.modify i g)[i]? = some (g f) := by
  rw [List.getElem?_modify, hi]
  simp

theorem fits_modify {g : Int16 × List UInt8 → Int16 × List UInt8} (hi : l[i]? = some f)
    (h : Fits (l.modify i g)) : (g f).2.length ≤ MAXFILE * BSIZE := by
  exact h.size _ (List.mem_of_getElem? (getElem?_modify_self hi))

/-- What `iappend` has done: the blocks of the file are those of `d'` in `s₁`, and the inode is written last. -/
structure Appended (inum : ℕ) (p : List UInt8) (f : Int16 × List UInt8) (d' : dinode) (s s₁ s' : Mkfs) :
    Prop where
  adds : Adds (s.dinodeAt inum) d' s s₁
  wrote : Wrote inum { d' with size := UInt32.ofNat (f.2.length + p.length) } s₁ s'
  filled : Filled s₁.blocks d' (nblk (f.2.length + p.length))
  bytes : ∀ i < MAXFILE * BSIZE, content s₁.blocks d' i =
    if f.2.length ≤ i ∧ i < f.2.length + p.length then p.getD (i - f.2.length) 0
    else content s.blocks (s.dinodeAt inum) i

theorem Appended.data (h : Appended inum p f d' s s₁ s') (hn : inum < NINODES) (hx : nmeta ≤ x) :
    s'.blocks x = s₁.blocks x := h.wrote.data hn hx

theorem Appended.ref {r : ℕ} (h : Appended inum p f d' s s₁ s') (hn : inum < NINODES) (hr : r < NREF) :
    blockRef s'.blocks (s'.dinodeAt inum) r = blockRef s₁.blocks d' r := by
  rw [h.wrote.self]
  refine blockRef_congr (fun _ _ => rfl) (fun h0 j _ => ?_) hr
  rw [h.data hn (h.adds.image.owns.mem _ (Holds.of_indirect h0)).1]

theorem Appended.holds (h : Appended inum p f d' s s₁ s') (hn : inum < NINODES) :
    Holds s'.blocks (s'.dinodeAt inum) x ↔ Holds s₁.blocks d' x := holds_congr fun _ hr => h.ref hn hr

theorem Appended.other (h : Appended inum p f d' s s₁ s') (hn : n < NINODES) (hne : n ≠ inum) :
    s'.dinodeAt n = s.dinodeAt n := by
  rw [h.wrote.other n hne]
  show dinode.load (s₁.blocks (IBLOCK n sb)) (64 * (n % IPB)) =
    dinode.load (s.blocks (IBLOCK n sb)) (64 * (n % IPB))
  rw [h.adds.reserved _ (IBLOCK_bounds hn).2]

/-- A block that another file holds stays as it is. -/
theorem Appended.frame (h : Appended inum p f d' s s₁ s') (hn : inum < NINODES) (hx : s.InUse x)
    (hno : ¬ Holds s.blocks (s.dinodeAt inum) x) : s'.blocks x = s.blocks x :=
  (h.data hn hx.1).trans (h.adds.grow.frame x hx hno)

/-- The file has the bytes behind its old ones. -/
theorem Appended.isFile (h : Appended inum p f d' s s₁ s') (hn : inum < NINODES) (hf : IsFile s inum f)
    (hmax : f.2.length + p.length ≤ MAXFILE * BSIZE) : IsFile s' inum (f.1, f.2 ++ p) := by
  have howns := h.adds.image.owns
  have href : ∀ r < NREF, blockRef s'.blocks (s'.dinodeAt inum) r = blockRef s₁.blocks d' r :=
    fun r hr => h.ref hn hr
  obtain ⟨a, ha⟩ := hf.fields
  obtain ⟨a', ha'⟩ := h.adds.fields
  refine ⟨⟨a', ?_⟩, ?_, ?_, ⟨fun bn hb => ?_, ?_⟩, fun k hk => ?_⟩
  · rw [h.wrote.self, ha', ha, List.length_append]
  · rwa [List.length_append]
  · rw [h.wrote.inUse]
    exact howns.congr href
  · rw [List.length_append, ← h.filled.slot bn hb, Layout.slot, Layout.slot, href _ (slotOf_lt hb)]
  · rw [List.length_append, ← h.filled.indirect, h.wrote.self]
    rfl
  · rw [sameBytes_refs href (fun x hx => h.data hn (howns.mem x hx).1) k hk, h.bytes k hk, hf.bytes k hk]
    split_ifs with hin
    · rw [List.getD_append_right _ _ _ _ hin.1]
    · by_cases hk' : k < f.2.length
      · rw [List.getD_append _ _ _ _ hk']
      · rw [List.getD_eq_default _ _ (by omega), List.getD_eq_default _ _ (by simp; omega)]

/-- `iappend` of a file that fits. -/
theorem iappend_ok (h : Shows l s) (hi : l[i]? = some f)
    (hfits : Fits (l.modify i fun f => (f.1, f.2 ++ p))) : ∃ d' s₁ s', s.iappend (i + 1) p = .ok s' ∧
      Appended (i + 1) p f d' s s₁ s' ∧
      s₁.freeblock.toNat = nmeta + total (l.modify i fun f => (f.1, f.2 ++ p)) := by
  have hlt := lt_of_getElem? hi
  have hn : i + 1 < NINODES := by
    have := h.few
    omega
  have hfile := h.file i f hi
  have hmax : f.2.length + p.length ≤ MAXFILE * BSIZE := by
    have := fits_modify hi hfits
    rwa [List.length_append] at this
  have htotal := total_modify (g := fun f => (f.1, f.2 ++ p)) hi
  have hblocks := hfits.blocks
  have hfree := h.freeblock
  rw [List.length_append] at htotal
  generalize total (l.modify i fun f => (f.1, f.2 ++ p)) = T at htotal hblocks ⊢
  have hmono : need (nblk f.2.length) ≤ need (nblk (f.2.length + p.length)) := need_mono (by
    unfold nblk
    exact Nat.div_le_div_right (by omega))
  obtain ⟨d', s₁, heq, hadds, hfill, hfree₁, hc⟩ := appendLoop_spec p.length p.length f.2.length
    (fun i => p.getD i 0) (s.dinodeAt (i + 1)) s (h.image hi) hfile.filled le_rfl hmax (by omega)
  obtain ⟨s', hweq, hw⟩ := winode_ok hadds.image.len hn
    { d' with size := UInt32.ofNat (f.2.length + p.length) }
  refine ⟨d', s₁, s', ?_, ⟨hadds, hw, hfill, hc⟩, by omega⟩
  rw [iappend, rinode_ok h.len hn, ok_bind, hfile.size_eq, heq, ok_bind]
  exact hweq

/-- **`iappend`** adds the bytes to its file, and leaves the others alone. -/
theorem iappend_shows (h : Shows l s) (hi : l[i]? = some f)
    (hfits : Fits (l.modify i fun f => (f.1, f.2 ++ p))) : ∃ s', s.iappend (i + 1) p = .ok s' ∧
      Shows (l.modify i fun f => (f.1, f.2 ++ p)) s' := by
  have hlt := lt_of_getElem? hi
  have hn : i + 1 < NINODES := by
    have := h.few
    omega
  obtain ⟨d', s₁, s', heq, ha, hfree⟩ := iappend_ok h hi hfits
  have hgrow := ha.adds.grow
  have hU : s'.InUse = s₁.InUse := ha.wrote.inUse
  have hrest : ∀ j < l.length, j ≠ i → s'.dinodeAt (j + 1) = s.dinodeAt (j + 1) := fun j hj hji =>
    ha.other (by have := h.few; omega) (by omega)
  have hheld : ∀ j < l.length, j ≠ i → ∀ x, Holds s.blocks (s.dinodeAt (j + 1)) x → s.InUse x ∧
      s'.blocks x = s.blocks x := fun j hj hji x hx => by
    have hin := (h.file j _ (List.getElem?_eq_getElem hj)).owns.mem x hx
    exact ⟨hin, ha.frame hn hin (h.apart j i hj hlt hji x hx)⟩
  have hold : ∀ j < l.length, j ≠ i → ∀ x, Holds s'.blocks (s'.dinodeAt (j + 1)) x ↔
      Holds s.blocks (s.dinodeAt (j + 1)) x := fun j hj hji x => by
    rw [hrest j hj hji]
    exact holds_congr fun r hr => blockRef_held (fun x hx => (hheld j hj hji x hx).2) hr
  have happart : ∀ j < l.length, j ≠ i → ∀ x, Holds s'.blocks (s'.dinodeAt (i + 1)) x →
      ¬ Holds s'.blocks (s'.dinodeAt (j + 1)) x := fun j hj hji x hx hx' => by
    rw [ha.holds hn] at hx
    rw [hold j hj hji] at hx'
    exact h.apart i j hlt hj hji.symm x (hgrow.holds_of_used (hheld j hj hji x hx').1 hx) hx'
  have hlen : (l.modify i fun f => (f.1, f.2 ++ p)).length = l.length := List.length_modify _ _ _
  refine ⟨s', heq, ⟨ha.wrote.len, ?_, fun x hx => ?_, hlen ▸ h.few, ?_, ?_, fun j g hg => ?_,
    fun j k hj hk hjk x hx hx' => ?_, fun x hx => ?_, fun n hn' h0 => ?_, fun x hx => ?_⟩⟩
  · rw [ha.wrote.freeblock]
    exact ha.adds.image.high
  · rw [ha.wrote.freeblock] at hx
    rw [ha.data hn (ha.adds.image.low.trans hx)]
    exact ha.adds.image.blank x hx
  · rw [ha.wrote.freeinode, ha.adds.freeinode, hlen]
    exact h.freeinode
  · rw [ha.wrote.freeblock, hfree]
  · by_cases hji : j = i
    · rw [hji, getElem?_modify_self hi, Option.some.injEq] at hg
      rw [hji, ← hg]
      refine ha.isFile hn (h.file i f hi) ?_
      have := fits_modify hi hfits
      rwa [List.length_append] at this
    · have hj : j < l.length := hlen ▸ lt_of_getElem? hg
      rw [List.getElem?_modify] at hg
      have hg' : l[j]? = some g := by
        simpa [if_neg (Ne.symm hji)] using hg
      exact (h.file j g hg').frame (hrest j hj hji) (fun x hx => (hheld j hj hji x hx).2) fun x hx => by
        rw [hU]
        exact (hgrow.used x).mpr (Or.inl hx)
  · rw [hlen] at hj hk
    by_cases hji : j = i
    · exact happart k hk (fun hki => hjk (hji.trans hki.symm)) x (hji ▸ hx) hx'
    · by_cases hki : k = i
      · exact happart j hj hji x (hki ▸ hx') hx
      · exact h.apart j k hj hk hjk x ((hold j hj hji x).mp hx) ((hold k hk hki x).mp hx')
  · rw [hlen]
    rw [hU, hgrow.used] at hx
    rcases hx with hx | hx
    · obtain ⟨j, hj, hx⟩ := h.owned x hx
      by_cases hji : j = i
      · exact ⟨i, hlt, (ha.holds hn).mpr (hgrow.holds (hji ▸ hx))⟩
      · exact ⟨j, hj, (hold j hj hji x).mpr hx⟩
    · exact ⟨i, hlt, (ha.holds hn).mpr hx⟩
  · rw [hlen] at h0
    rw [ha.other hn' (by omega)]
    exact h.rest n hn' h0
  · have hle : 2 + nlog ≤ nmeta := by decide
    rw [ha.wrote.image_low hn hx, ha.adds.reserved x (by omega)]
    exact h.reserved x hx

/-! ## Any sequence of calls -/

/-- The files of `l` are there in `l'`, and no longer than there. -/
def Below (l l' : List (Int16 × List UInt8)) : Prop :=
  ∀ (i : ℕ) f, l[i]? = some f → ∃ f', l'[i]? = some f' ∧ f.2.length ≤ f'.2.length

theorem Below.refl (l : List (Int16 × List UInt8)) : Below l l := fun _ f h => ⟨f, h, le_rfl⟩

theorem Below.trans {l' l'' : List (Int16 × List UInt8)} (h : Below l l') (h' : Below l' l'') : Below l l'' :=
  fun i f hf => by
    obtain ⟨f', hf', hle⟩ := h i f hf
    obtain ⟨f'', hf'', hle'⟩ := h' i f' hf'
    exact ⟨f'', hf'', hle.trans hle'⟩

theorem Below.append (l l' : List (Int16 × List UInt8)) : Below l (l ++ l') := fun i f hf =>
  ⟨f, by rw [List.getElem?_append_left (lt_of_getElem? hf), hf], le_rfl⟩

theorem Below.modify : Below l (l.modify i fun f => (f.1, f.2 ++ p)) := fun j f hf => by
  by_cases hji : j = i
  · subst hji
    exact ⟨_, getElem?_modify_self hf, by simp⟩
  · exact ⟨f, by rw [List.getElem?_modify_ne _ _ (Ne.symm hji), hf], le_rfl⟩

theorem Below.total_le {l' : List (Int16 × List UInt8)} (h : Below l l') : total l ≤ total l' := by
  induction l generalizing l' with
  | nil => exact Nat.zero_le _
  | cons f l ih =>
    obtain ⟨f', hf', hle⟩ := h 0 f rfl
    cases l' with
    | nil => cases hf'
    | cons g l' =>
      obtain rfl : g = f' := Option.some.inj hf'
      have hle' : nblk f.2.length ≤ nblk g.2.length := Nat.div_le_div_right (by omega)
      exact Nat.add_le_add (need_mono hle') (ih fun i e he => h (i + 1) e he)

theorem Below.fits {l' : List (Int16 × List UInt8)} (h : Below l l') (hfits : Fits l') : Fits l := by
  refine ⟨?_, (Nat.add_le_add_left h.total_le _).trans hfits.blocks, fun f hf => ?_⟩
  · by_contra hlt
    have hlen := hfits.inodes
    obtain ⟨f', hf', -⟩ := h (l.length - 1) _ (List.getElem?_eq_getElem (by omega))
    have := lt_of_getElem? hf'
    omega
  · obtain ⟨i, hi⟩ := List.mem_iff_getElem?.mp hf
    obtain ⟨f', hf', hle⟩ := h i f hi
    exact hle.trans (hfits.size f' (List.mem_of_getElem? hf'))

/-- What a call makes of the files, if it names an inode that has been made. -/
def Call.files (l : List (Int16 × List UInt8)) : Call → Option (List (Int16 × List UInt8))
  | .ialloc type => some (l ++ [(type, [])])
  | .iappend inum p =>
    if 0 < inum ∧ inum ≤ l.length then some (l.modify (inum - 1) fun f => (f.1, f.2 ++ p)) else none

variable {l' : List (Int16 × List UInt8)} {c : Call}

theorem Call.files_below (h : c.files l = some l') : Below l l' := by
  cases c with
  | ialloc type =>
    cases h
    exact Below.append _ _
  | iappend inum p =>
    simp only [files] at h
    split_ifs at h
    cases h
    exact Below.modify

theorem files_below {calls : List Call} (h : calls.foldlM Call.files l = some l') : Below l l' := by
  induction calls generalizing l with
  | nil =>
    cases h
    exact Below.refl _
  | cons c calls ih =>
    rw [List.foldlM_cons] at h
    obtain ⟨l₁, h₁, h⟩ := Option.bind_eq_some_iff.mp h
    exact (Call.files_below h₁).trans (ih h)

/-- **One call.** -/
theorem call_shows (h : Shows l s) (hc : c.files l = some l') (hfits : Fits l') :
    ∃ s', s.call c = .ok s' ∧ Shows l' s' := by
  cases c with
  | ialloc type =>
    cases hc
    obtain ⟨s', heq, hs'⟩ := ialloc_shows h hfits
    exact ⟨s', by rw [call, heq]; rfl, hs'⟩
  | iappend inum p =>
    simp only [Call.files] at hc
    split_ifs at hc with hin
    cases hc
    obtain ⟨s', heq, hs'⟩ := iappend_shows h (List.getElem?_eq_getElem (by omega)) hfits
    refine ⟨s', ?_, hs'⟩
    rwa [Nat.sub_add_cancel hin.1] at heq

theorem calls_show {calls : List Call} (h : Shows l s) (hc : calls.foldlM Call.files l = some l')
    (hfits : Fits l') : ∃ s', calls.foldlM call s = .ok s' ∧ Shows l' s' := by
  induction calls generalizing l s with
  | nil =>
    cases hc
    exact ⟨s, rfl, h⟩
  | cons c calls ih =>
    rw [List.foldlM_cons] at hc
    obtain ⟨l₁, h₁, hc⟩ := Option.bind_eq_some_iff.mp hc
    obtain ⟨s₁, heq₁, hs₁⟩ := call_shows h h₁ ((files_below hc).fits hfits)
    obtain ⟨s', heq, hs'⟩ := ih hs₁ hc
    exact ⟨s', by rw [List.foldlM_cons, heq₁]; exact heq, hs'⟩

theorem zeroed_blocks (hx : x ≠ 1) : zeroed.blocks x = fun _ => 0 := by
  show Function.update (fun _ _ => 0 : ℕ → Block) 1 (sb.store fun _ => 0) x = _
  rw [Function.update_of_ne hx]

theorem zeroed_dinode (hn : n < NINODES) : zeroed.dinodeAt n = dinode.zero := by
  have hbounds := IBLOCK_bounds hn
  have hb : zeroed.blocks (IBLOCK n sb) = fun _ => 0 := zeroed_blocks (by omega)
  have hload : ∀ a k, ByteStore.load (fun _ => 0) a k = 0 := fun a k => ByteStore.load_zero fun _ _ => rfl
  show dinode.load (zeroed.blocks (IBLOCK n sb)) _ = _
  rw [hb, dinode.load]
  simp only [hload]
  rfl

theorem zeroed_shows : Shows [] zeroed := by
  have hfree : zeroed.freeblock.toNat = nmeta := by decide
  refine ⟨rfl, by decide, fun x hx _ j _ => ?_, by decide, rfl, hfree, fun i f hf => ?_, fun i _ hi => ?_,
    fun x hx => ?_, fun n hn _ => zeroed_dinode hn, fun _ _ => rfl⟩
  · have h1 : 1 < nmeta := by decide
    rw [hfree] at hx
    rw [zeroed_blocks (by omega)]
  · cases hf
  · exact absurd hi (Nat.not_lt_zero i)
  · obtain ⟨h1, h2⟩ := hx
    omega

/-- The inode `n` of the image, as the kernel has it when it is locked. -/
def inodeOf (s : Mkfs) (n : ℕ) : inode := s.fs.inodeAt sb (UInt32.ofNat n)

theorem inodeOf_d (hn : n < NINODES) : (s.inodeOf n).d = s.dinodeAt n := by
  have hlt : (UInt32.ofNat n).toNat = n := UInt32.toNat_ofNat_of_lt' (hn.trans_le (by decide))
  show s.fs.dinodeAt sb (UInt32.ofNat n).toNat = _
  rw [hlt]
  rfl

theorem IsFile.noHole (h : IsFile s n f) (hn : n < NINODES) : s.fs.NoHole (s.inodeOf n) f.2.length := by
  intro k hk
  have hsize := h.size
  rw [inodeOf_d hn]
  refine (h.filled.slot _ (Nat.div_lt_of_lt_mul (by simp only [BSIZE] at *; omega))).mpr ?_
  unfold nblk
  simp only [BSIZE]
  omega

/-- The kernel reads a file of the image. -/
theorem IsFile.readi (h : IsFile s inum f) (hn : inum < NINODES) (writable : ℕ → Bool) (dst : ByteStore)
    {off : ℕ} (hoff : off ≤ f.2.length) (hlt : off + n < 2 ^ 32) (hw : ∀ k < n, writable k = true) :
    s.fs.readi sb writable dst off n (s.inodeOf inum) = .ok ((min n (f.2.length - off) : ℕ),
      dst.blit 0 (min n (f.2.length - off)) (fun k => f.2.getD (off + k) 0), s.inodeOf inum, s.fs) := by
  have hd := inodeOf_d (s := s) hn
  have hsize : (s.inodeOf inum).d.size.toNat = f.2.length := by rw [hd, h.size_eq]
  have hread := Fs.readi_there sb writable dst (hsize.symm ▸ h.noHole hn) (hsize.symm ▸ h.size)
    (hsize.symm ▸ hoff) hlt hw
  have hblit : dst.blit 0 (min n (f.2.length - off)) (fun k => s.fs.bytes (s.inodeOf inum) (off + k)) =
      dst.blit 0 (min n (f.2.length - off)) (fun k => f.2.getD (off + k) 0) :=
    ByteStore.blit_congr fun k hk => by
      have hmax := h.size
      show content s.blocks (s.inodeOf inum).d (off + k) = _
      rw [hd]
      exact h.bytes _ (by omega)
  rw [hread, hsize, hblit]

/-- **The kernel reads back what `mkfs` wrote**: after any calls of `ialloc` and `iappend` whose files fit, `readi`
of an inode delivers exactly the bytes that were appended to it. -/
theorem reads_back {calls : List Call} (hc : calls.foldlM Call.files [] = some l) (hfits : Fits l) :
    ∃ s, calls.foldlM call zeroed = .ok s ∧ s.freeblock.toNat = nmeta + total l ∧
      ∀ (i : ℕ) f, l[i]? = some f →
        (s.dinodeAt (i + 1)).type = f.1 ∧ (s.dinodeAt (i + 1)).nlink = 1 ∧
        (s.dinodeAt (i + 1)).size.toNat = f.2.length ∧
        ∀ writable dst off n, off ≤ f.2.length → off + n < 2 ^ 32 → (∀ k < n, writable k = true) →
          s.fs.readi sb writable dst off n (s.inodeOf (i + 1)) = .ok ((min n (f.2.length - off) : ℕ),
            dst.blit 0 (min n (f.2.length - off)) (fun k => f.2.getD (off + k) 0),
            s.inodeOf (i + 1), s.fs) := by
  obtain ⟨s, heq, hs⟩ := calls_show zeroed_shows hc hfits
  refine ⟨s, heq, hs.freeblock, fun i f hf => ?_⟩
  have hfile := hs.file i f hf
  have hn : i + 1 < NINODES := by
    have h1 := lt_of_getElem? hf
    have h2 := hs.few
    omega
  obtain ⟨a, ha⟩ := hfile.fields
  exact ⟨by rw [ha], by rw [ha], hfile.size_eq, fun writable dst off n hoff hlt hw =>
    hfile.readi hn writable dst hoff hlt hw⟩

/-- Two files, the first one in two pieces. -/
theorem reads_back_two : ∃ s, [Call.ialloc 2, .iappend 1 [5, 6], .ialloc 2, .iappend 2 [7],
      .iappend 1 [8]].foldlM call zeroed = .ok s ∧ s.freeblock.toNat = 48 ∧
    s.fs.readi sb (fun _ => true) (fun _ => 0) 0 100 (s.inodeOf 1) =
      .ok (3, ByteStore.blit (fun _ => 0) 0 3 (fun k => [5, 6, 8].getD (0 + k) 0), s.inodeOf 1, s.fs) := by
  obtain ⟨s, heq, hfree, hread⟩ := reads_back (rfl : [Call.ialloc 2, .iappend 1 [5, 6], .ialloc 2,
    .iappend 2 [7], .iappend 1 [8]].foldlM Call.files [] = some [(2, [5, 6, 8]), (2, [7])])
    ⟨by decide, by decide, by decide⟩
  exact ⟨s, heq, hfree, (hread 0 _ rfl).2.2.2 (fun _ => true) (fun _ => 0) 0 100 (by decide) (by decide)
    fun _ _ => rfl⟩

end Mkfs

end Xv6
