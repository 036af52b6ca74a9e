import Xv6.Fs.Owners
import Xv6.Kernel.Log

/-!
# Logs — what the calls pass to the log

`Logs`: the blocks that a call changes are those that it has passed to `log_write`, and none of them is a
block of the log itself.  A `writei` that runs into a byte it cannot read is the exception.
-/

namespace Xv6

open Layout

namespace superblock

/-- The log comes before the inode blocks, and all block numbers are numbers of `uint`. -/
structure LogFirst (sb : superblock) : Prop where
  log : sb.logstart + sb.nlog ≤ sb.inodestart
  bmap : sb.bmapstart + sb.size / BPB < 2 ^ 32

end superblock

namespace Fs

variable {sb : superblock} {s s' s'' : Fs} {ip ip' : inode} {a b bn i j n off tot x : ℕ}

def Logs (sb : superblock) (s s' : Fs) : Prop :=
  ∃ l, s'.logged = l ++ s.logged ∧ (∀ x ∉ l, s'.blocks x = s.blocks x) ∧ ∀ x ∈ l, Home sb x

theorem Logs.refl (sb : superblock) (s : Fs) : Logs sb s s :=
  ⟨[], rfl, fun _ _ => rfl, fun _ h => absurd h List.not_mem_nil⟩

theorem Logs.trans (h : Logs sb s s') (h' : Logs sb s' s'') : Logs sb s s'' := by
  obtain ⟨l, hl, hs, hh⟩ := h
  obtain ⟨l', hl', hs', hh'⟩ := h'
  refine ⟨l' ++ l, by rw [hl', hl, List.append_assoc], fun x hx => ?_, fun x hx => ?_⟩
  · rw [List.mem_append, not_or] at hx
    rw [hs' x hx.1, hs x hx.2]
  · obtain hx | hx := List.mem_append.mp hx
    · exact hh' x hx
    · exact hh x hx

theorem Logs.log_write {data : Block} (hb : Home sb b) : Logs sb s (s.log_write b data) := by
  refine ⟨[b], rfl, fun x hx => ?_, fun x hx => ?_⟩
  · exact Function.update_of_ne (List.ne_of_not_mem_cons hx) _ _
  · rwa [List.mem_singleton.mp hx]

theorem home_of_le (hl : sb.LogFirst) (h : sb.inodestart ≤ b) (hb : b < 2 ^ 32) : Home sb b :=
  ⟨hb, Or.inr (hl.log.trans h)⟩

theorem home_iblock (hsb : sb.Ok) (hl : sb.LogFirst) (hn : n < sb.ninodes) : Home sb (IBLOCK n sb) := by
  have hlt := IBLOCK_lt hsb hn
  have h32 := (Nat.le_add_right _ _).trans_lt hl.bmap
  exact home_of_le hl (Nat.le_add_left _ _) (by omega)

theorem inodestart_le (hsb : sb.Ok) : sb.inodestart ≤ sb.bmapstart :=
  ((Nat.le_add_right _ _).trans_lt hsb.inodes).le

theorem home_bmap (hsb : sb.Ok) (hl : sb.LogFirst) (hb : sb.IsBmap b) : Home sb b :=
  home_of_le hl ((inodestart_le hsb).trans hb.1) (hb.2.trans_lt hl.bmap)

theorem home_data (hsb : sb.Ok) (hl : sb.LogFirst) (hb : sb.IsData b) : Home sb b := by
  have hlt := ((inodestart_le hsb).trans (Nat.le_add_right _ _)).trans hb.1.le
  exact home_of_le hl hlt (hb.2.trans (hsb.size_lt.trans (by decide)))

/-! ## Allocation -/

theorem balloc_logs (hsb : sb.Ok) (hl : sb.LogFirst) (hres : s.Reserved sb) (h : s.balloc sb = (b, s')) :
    Logs sb s s' := by
  obtain ⟨heq, -⟩ | ⟨c, t, heq, ha⟩ := balloc_spec hres
  · rw [heq] at h
    cases h
    exact .refl sb s
  · rw [heq] at h
    cases h
    have hb := home_bmap hsb hl (bblock_isBmap ha.data.2)
    have hd := home_data hsb hl ha.data
    unfold balloc at heq
    split at heq
    · next c hfind =>
      cases heq
      exact (Logs.log_write hb).trans (.log_write hd)
    · cases heq
      exact .refl sb s

theorem blockAt_logs (hsb : sb.Ok) (hl : sb.LogFirst) (hres : s.Reserved sb)
    (h : s.blockAt sb i ip = (a, ip', s')) : Logs sb s s' := by
  unfold blockAt at h
  dsimp only at h
  by_cases h0 : ip.d.addr i = 0
  · rw [if_pos h0] at h
    generalize hb : s.balloc sb = p at h
    obtain ⟨b, s₁⟩ := p
    have hlogs := balloc_logs hsb hl hres hb
    dsimp only at h
    split_ifs at h
    · cases h
      exact hlogs
    · cases h
      exact hlogs
  · rw [if_neg h0] at h
    cases h
    exact .refl sb s

/-- **`bmap`** logs what it changes. -/
theorem bmap_logs (hsb : sb.Ok) (hl : sb.LogFirst) (hf : FileOk sb ip s)
    (h : s.bmap sb bn ip = .ok (a, ip', s')) : Logs sb s s' := by
  unfold bmap at h
  by_cases hdir : bn < NDIRECT
  · rw [if_pos hdir] at h
    injection h with h
    exact blockAt_logs hsb hl hf.reserved h
  rw [if_neg hdir] at h
  dsimp only at h
  by_cases hbn : bn - NDIRECT < NINDIRECT
  swap
  · rw [if_neg hbn] at h
    cases h
  obtain ⟨ind, ip₁, s₁, heq, hadv, -, -, -, ha, -⟩ := blockAt_spec hsb hf le_rfl
  have hlogs := blockAt_logs hsb hl hf.reserved heq
  rw [if_pos hbn, heq] at h
  dsimp only at h
  by_cases h0 : ind = 0
  · rw [if_pos h0] at h
    cases h
    exact hlogs
  rw [if_neg h0] at h
  by_cases hentry : (s₁.blocks ind).load (4 * (bn - NDIRECT)) 4 = 0
  · rw [if_pos hentry] at h
    generalize hb : s₁.balloc sb = p at h
    obtain ⟨b, s₂⟩ := p
    have hlogs₂ := hlogs.trans (balloc_logs hsb hl hadv.file.reserved hb)
    -- the indirect block belongs to the file
    have hind : ip₁.d.addr NDIRECT ≠ 0 := by rwa [ha h0]
    have hdata := (hadv.file.owns.mem _ (Holds.of_indirect hind)).1
    rw [ha h0] at hdata
    dsimp only at h
    split_ifs at h
    · cases h
      exact hlogs₂
    · cases h
      exact hlogs₂.trans (.log_write (home_data hsb hl hdata))
  · rw [if_neg hentry] at h
    cases h
    exact hlogs

theorem iupdate_logs (hsb : sb.Ok) (hl : sb.LogFirst) (hlt : ip.inum.toNat < sb.ninodes) :
    Logs sb s (s.iupdate sb ip) := .log_write (home_iblock hsb hl hlt)

/-! ## `writei` -/

/-- The loop, where the source can be read. -/
theorem writeLoop_logs {src : ℕ → Option UInt8} {off' tot' : ℕ} (hsb : sb.Ok) (hl : sb.LogFirst)
    (hsrc : ∀ k < n, (src k).isSome) : ∀ (fuel tot off : ℕ) (ip : inode) (s : Fs), FileOk sb ip s →
      tot ≤ n → n - tot ≤ fuel → off + (n - tot) ≤ MAXFILE * BSIZE →
      writeLoop sb src n fuel tot off ip s = .ok (tot', off', ip', s') → Logs sb s s' := by
  intro fuel
  induction fuel with
  | zero =>
    intro tot off ip s hf htot hfuel hmax h
    cases h
    exact .refl sb _
  | succ fuel ih =>
    intro tot off ip s hf htot hfuel hmax h
    rw [writeLoop] at h
    by_cases hlt : tot < n
    swap
    · rw [if_neg hlt] at h
      cases h
      exact .refl sb _
    rw [if_pos hlt] at h
    have hbn : off / BSIZE < MAXFILE := Nat.div_lt_of_lt_mul (by simp only [BSIZE] at *; omega)
    obtain ⟨a, ip₁, s₁, heq, hadv, -, -, -, ha, -⟩ := bmap_spec hsb hf hbn
    have hlogs := bmap_logs hsb hl hf heq
    rw [heq, ok_bind] at h
    dsimp only at h
    by_cases h0 : a = 0
    · rw [if_pos h0] at h
      cases h
      exact hlogs
    rw [if_neg h0] at h
    have hslot := ha h0
    have hmod : off % BSIZE < BSIZE := Nat.mod_lt _ (by decide)
    generalize hm : min (n - tot) (BSIZE - off % BSIZE) = m at h
    have hread : accessible (fun k => (src (tot + k)).isSome) m = m :=
      accessible_eq fun k hk => hsrc _ (by omega)
    have hdata : either_copyin (s₁.blocks a) (off % BSIZE) (fun k => src (tot + k)) m =
        (true, (s₁.blocks a).blit (off % BSIZE) m fun k => (src (tot + k)).getD 0) := by
      unfold either_copyin
      dsimp only
      rw [hread, decide_eq_true rfl]
    rw [hdata] at h
    dsimp only at h
    rw [if_pos rfl] at h
    have hhold : Holds s₁.blocks ip₁.d a := ⟨h0, slotOf (off / BSIZE), slotOf_lt hbn, hslot⟩
    have hw : Wrote sb (fun k => (src (tot + k)).getD 0) off m ip₁ ip₁ s₁
        (s₁.log_write a ((s₁.blocks a).blit (off % BSIZE) m fun k => (src (tot + k)).getD 0)) :=
      wrote_chunk hsb hadv.file hbn (by rwa [hslot]) (by omega) (by rw [hslot]; rfl)
    exact (hlogs.trans (.log_write (home_data hsb hl (hadv.file.owns.mem a hhold).1))).trans
      (ih _ _ _ _ hw.adv.file (by omega) (by omega) (by omega) h)

/-- **`writei`** logs what it changes, where the source can be read. -/
theorem writei_logs {src : ℕ → Option UInt8} {r : ℤ} (hsb : sb.Ok) (hl : sb.LogFirst) (hf : FileOk sb ip s)
    (hoff : off < 2 ^ 32) (hn : n < 2 ^ 32) (hsrc : ∀ k < n, (src k).isSome)
    (h : s.writei sb src off n ip = .ok (r, ip', s')) : Logs sb s s' := by
  by_cases hin : off ≤ ip.d.size.toNat ∧ off + n ≤ MAXFILE * BSIZE
  swap
  · rw [writei_out hn hoff (by omega)] at h
    cases h
    exact .refl sb s
  have hmax := hin.2
  simp only [MAXFILE, NDIRECT, NINDIRECT, BSIZE] at hmax
  rw [writei, if_neg (by omega), if_neg (by simp only [MAXFILE, NDIRECT, NINDIRECT, BSIZE]; omega)] at h
  obtain ⟨⟨tot, off', ip₁, s₁⟩, heq, h⟩ := bind_ok h
  have hinum : ip₁.inum = ip.inum := by
    obtain ⟨w, k, ip₂, s₂, heq₂, -, hw, -⟩ :=
      writeLoop_spec hsb n 0 off ip s hf (Nat.zero_le n) (by omega) (by omega)
    cases heq₂.symm.trans heq
    exact hw.adv.inum
  have hlogs := writeLoop_logs hsb hl hsrc n 0 off ip s hf (Nat.zero_le n) (by omega) (by omega) heq
  cases h
  refine hlogs.trans (iupdate_logs hsb hl ?_)
  split_ifs
  · exact hinum ▸ hf.inum
  · exact hinum ▸ hf.inum

/-! ## `itrunc` -/

theorem bfree_logs (hsb : sb.Ok) (hl : sb.LogFirst) (hb : b < sb.size) (h : s.bfree sb b = .ok s') :
    Logs sb s s' := by
  unfold bfree at h
  dsimp only at h
  split_ifs at h
  cases h
  exact .log_write (home_bmap hsb hl (bblock_isBmap hb))

theorem truncDirect_logs (hsb : sb.Ok) (hl : sb.LogFirst) (hj : j + n ≤ NDIRECT)
    (hlt : ∀ k < NDIRECT, ip.d.addr k < sb.size ∨ ip.d.addr k = 0)
    (h : s.truncDirect sb n j ip = .ok (ip', s')) : Logs sb s s' := by
  induction n generalizing j ip s with
  | zero =>
    cases h
    exact .refl sb _
  | succ n ih =>
    unfold truncDirect at h
    split_ifs at h with h0
    · obtain ⟨s₁, hb, h⟩ := bind_ok h
      have hset : ∀ k, (ip.d.setAddr j 0).addr k = if k = j then 0 else ip.d.addr k := fun k =>
        dinode.addr_setAddr (by omega) (by decide)
      refine (bfree_logs hsb hl ((hlt j (by omega)).resolve_right h0) hb).trans
        (ih (by omega) (fun k hk => ?_) h)
      rw [hset]
      split_ifs
      · exact Or.inr rfl
      · exact hlt k hk
    · exact ih (by omega) hlt h

theorem truncIndirect_logs {ind : ℕ} (hsb : sb.Ok) (hl : sb.LogFirst) (hind : ¬ sb.IsBmap ind)
    (hj : j + n ≤ NINDIRECT)
    (hlt : ∀ k < NINDIRECT, (s.blocks ind).load (4 * k) 4 < sb.size ∨ (s.blocks ind).load (4 * k) 4 = 0)
    (h : s.truncIndirect sb ind n j = .ok s') : Logs sb s s' := by
  induction n generalizing j s with
  | zero =>
    cases h
    exact .refl sb _
  | succ n ih =>
    unfold truncIndirect at h
    dsimp only at h
    split_ifs at h with h0
    · obtain ⟨s₁, hb, h⟩ := bind_ok h
      have hlt' := (hlt j (by omega)).resolve_right h0
      have hsame : s₁.blocks ind = s.blocks ind :=
        (bfree_freed (X := fun _ => True) hlt' trivial hb).blocks _ hind
      refine (bfree_logs hsb hl hlt' hb).trans (ih (by omega) ?_ h)
      rwa [hsame]
    · exact ih (by omega) hlt h

/-- **`itrunc`** logs what it changes. -/
theorem itrunc_logs (hsb : sb.Ok) (hl : sb.LogFirst) (hf : FileOk sb ip s)
    (h : s.itrunc sb ip = .ok (ip', s')) : Logs sb s s' := by
  have hdata : ∀ r < NREF, blockRef s.blocks ip.d r < sb.size ∨ blockRef s.blocks ip.d r = 0 :=
    fun r hr => by
      by_cases h0 : blockRef s.blocks ip.d r = 0
      · exact Or.inr h0
      · exact Or.inl (hf.owns.mem _ (Holds.of_ref hr h0)).1.2
  have hdirect : ∀ k ≤ NDIRECT, ip.d.addr k < sb.size ∨ ip.d.addr k = 0 := fun k hk => by
    have hk' := hdata k (by simp only [NREF, MAXFILE]; omega)
    rwa [blockRef, if_pos hk] at hk'
  unfold itrunc at h
  obtain ⟨⟨ip₁, s₁⟩, h₁, h⟩ := bind_ok h
  obtain ⟨⟨ip₂, s₂⟩, h₂, h⟩ := bind_ok h
  cases h
  have hlogs := truncDirect_logs hsb hl (Nat.zero_add _).le (fun k hk => hdirect k hk.le) h₁
  obtain ⟨hf₁, hind⟩ := truncDirect_freed (X := fun _ => True) (Nat.zero_add _).le
    (fun k hk hk0 => ⟨trivial, (hdirect k hk).resolve_right hk0⟩) h₁
  have hin : ip₂.inum = ip.inum := by
    obtain ⟨d, rfl⟩ := truncDirect_same h₁
    split_ifs at h₂
    · obtain ⟨s₃, -, h₂⟩ := bind_ok h₂
      obtain ⟨s₄, -, h₂⟩ := bind_ok h₂
      cases h₂
      rfl
    · cases h₂
      rfl
  refine hlogs.trans (Logs.trans ?_ (iupdate_logs hsb hl (hin ▸ hf.inum)))
  rw [hind] at h₂
  split_ifs at h₂ with h0
  · obtain ⟨s₃, h₃, h₂⟩ := bind_ok h₂
    obtain ⟨s₄, h₄, h₂⟩ := bind_ok h₂
    cases h₂
    have hhold := (hf.owns.mem _ (Holds.of_indirect h0)).1
    have hnb := data_not_bmap hhold
    have hentry : ∀ k < NINDIRECT, (s₁.blocks (ip.d.addr NDIRECT)).load (4 * k) 4 < sb.size ∨
        (s₁.blocks (ip.d.addr NDIRECT)).load (4 * k) 4 = 0 := fun k hk => by
      have hk' := hdata (NDIRECT + 1 + k) (by simp only [NREF, MAXFILE]; omega)
      rwa [blockRef_indirect h0, ← hf₁.blocks _ hnb] at hk'
    exact (truncIndirect_logs hsb hl hnb (Nat.zero_add _).le hentry h₃).trans
      (bfree_logs hsb hl hhold.2 h₄)
  · cases h₂
    exact .refl sb s₁

/-! ## A disk that differs in the blocks of the log only -/

/-- **The log is not part of the file system.** -/
theorem Tidy.congr (hsb : sb.Ok) (hl : sb.LogFirst) (hs : Tidy sb s)
    (h : ∀ x, Home sb x → s'.blocks x = s.blocks x) : Tidy sb s' := by
  have hbmap : ∀ x, sb.IsBmap x → s'.blocks x = s.blocks x := fun x hx => h x (home_bmap hsb hl hx)
  have hdinode : ∀ m < sb.ninodes, s'.dinodeAt sb m = s.dinodeAt sb m := fun m hm => by
    unfold dinodeAt
    rw [h _ (home_iblock hsb hl hm)]
  have hin : ∀ x, s.InUse sb x → s'.InUse sb x ∧ s'.blocks x = s.blocks x := fun x hx =>
    ⟨(inUse_congr hbmap).mpr hx, h x (home_data hsb hl hx.1)⟩
  have hcopy : ∀ {ip}, Copy sb s' ip → Copy sb s ip := fun hc => ⟨hc.lt, by rw [hc.d, hdinode _ hc.lt]⟩
  have hun : ∀ {ip}, Copy sb s ip → ip.d.type ≠ 0 → Untouched sb s s' ip := fun hc h0 =>
    .of_inUse (hs.disk.file _ hc h0).owns hin
  have hres : s'.Reserved sb := fun x hx hnot => (used_congr hbmap hx).mpr (hs.disk.reserved x hx hnot)
  refine ⟨⟨hres, fun ip hc h0 => ?_, fun ip jp hc hj hne h0 hj0 x hx hx' => ?_, fun dp hc hT => ?_⟩,
    fun x hx => ?_, fun ip hc h0 k hk => ?_⟩
  · exact (hun (hcopy hc) h0).file (hs.disk.file ip (hcopy hc) h0) hres
  · exact hs.disk.apart ip jp (hcopy hc) (hcopy hj) hne h0 hj0 x
      ((holds_congr (hun (hcopy hc) h0).ref).mp hx) ((holds_congr (hun (hcopy hj) hj0).ref).mp hx')
  · have h0 : dp.d.type ≠ 0 := by
      rw [hT]
      decide
    exact (hun (hcopy hc) h0).dir (hs.disk.dir dp (hcopy hc) hT) hres
  · obtain ⟨i, hlt, h0, hh⟩ := hs.owned x ((inUse_congr hbmap).mp hx)
    refine ⟨i, hlt, by rwa [hdinode _ hlt], ?_⟩
    rw [hdinode _ hlt]
    exact (holds_congr (hun (copy_inodeAt hlt) h0).ref).mpr hh
  · have hmax := (hs.disk.file ip (hcopy hc) h0).size
    have hbn : k / BSIZE < MAXFILE := Nat.div_lt_of_lt_mul (by simp only [BSIZE] at *; omega)
    rw [show Layout.slot s'.blocks ip.d (k / BSIZE) = Layout.slot s.blocks ip.d (k / BSIZE) from
      (hun (hcopy hc) h0).ref _ (slotOf_lt hbn)]
    exact hs.noHole ip (hcopy hc) h0 k hk

end Fs

namespace Volume

variable {sb : superblock} {p : ℕ} {ip dp : Fin NINODE} {s t : Volume} {i : Xv6.inode} {fs : Fs}
  {name : ℕ → UInt8} {n : ℕ} {r : ℤ} {o : InodeOp}

/-- The source of a `writei` can be read. -/
def Readable : InodeOp → Prop
  | .writei _ _ src _ n => ∀ k < n.toNat, (src k).isSome
  | _ => True

instance : (o : InodeOp) → Decidable (Readable o)
  | .writei _ _ src _ n => inferInstanceAs (Decidable (∀ k < n.toNat, (src k).isSome = true))
  | .iget _ | .idup _ | .ilock _ _ | .iunlock _ _ | .iput _ _ | .ialloc _ | .readi .. | .itrunc _ _
  | .relink .. | .dirlink .. | .unlink .. => inferInstanceAs (Decidable True)

theorem Sound.iput_logs (hsb : sb.Ok) (hl : sb.LogFirst) (h : Sound sb s) (href : 0 < (s.inode ip).ref)
    (hp : s.iput sb p ip = .ok t) : s.fs.Logs sb t.fs := by
  obtain ⟨-, hv, -, -, i, fs, hi, rfl⟩ | ⟨-, rfl⟩ := iput_ok hp
  · have hc := h.ok.isCopy href hv
    have hf := h.tidy.disk.file _ hc (h.ok.copy ip href hv).2
    have hf' : Fs.FileOk sb { s.inode ip with lock := some p } s.fs := hf.congr rfl rfl
    have hlogs := Fs.itrunc_logs hsb hl hf' hi
    obtain ⟨d, rfl⟩ := Fs.itrunc_same hi
    exact hlogs.trans (Fs.iupdate_logs hsb hl hc.lt)
  · exact .refl sb s.fs

theorem Sound.dirlink_logs (hsb : sb.Ok) (hl : sb.LogFirst) (h : Sound sb s)
    (hlock : (s.inode dp).lock ≠ none) (hT : (s.inode dp).d.type = T_DIR)
    (hd : s.dirlink sb p dp name n = .ok (r, t)) : s.fs.Logs sb t.fs := by
  obtain ⟨⟨found, s₁⟩, hf, hd₁⟩ := bind_ok hd
  obtain ⟨hc, h0⟩ := h.ok.lockedCopy hlock
  obtain ⟨rfl, rfl, -⟩ | ⟨ip, k, v, rfl, hg, -⟩ := h.ok.dirlookup hlock hT hf
  swap
  · obtain ⟨t₂, hp, hd₂⟩ := bind_ok hd₁
    cases hd₂
    rw [(h.ok.iget_iput hg hp).2]
    exact .refl sb s.fs
  obtain ⟨⟨off, i, fs⟩, he, hd₂⟩ := bind_ok hd₁
  obtain ⟨⟨r', i', fs'⟩, hw, hd₃⟩ := bind_ok hd₂
  cases hd₃
  have hle : Fs.entries (s₁.inode dp) ≤ 0 + (s₁.inode dp).d.size.toNat := by
    unfold Fs.entries
    omega
  obtain ⟨k, hloop, hk, -⟩ := (h.ok.disk.dir _ hc hT).emptyLoop _ 0 hle (Nat.zero_le _)
  rw [Nat.mul_zero, he] at hloop
  cases hloop
  have hfile := h.tidy.disk.file _ hc h0
  have hoff : 16 * k < 2 ^ 32 := by
    have hmax := hfile.size
    unfold Fs.entries at hk
    simp only [MAXFILE, NDIRECT, NINDIRECT, BSIZE] at hmax
    omega
  exact Fs.writei_logs hsb hl hfile hoff (by decide) (fun _ _ => rfl) hw

theorem Sound.unlink_logs {d : Dir} (hsb : sb.Ok) (hl : sb.LogFirst) (h : Sound sb s)
    (hlock : (s.inode dp).lock ≠ none) (hT : (s.inode dp).d.type = T_DIR)
    (hu : Dir.unlink sb name { dp := s.inode dp, fs := s.fs } = .ok d) : s.fs.Logs sb d.fs := by
  obtain ⟨hc, h0⟩ := h.ok.lockedCopy hlock
  have hdir := h.ok.disk.dir _ hc hT
  unfold Dir.unlink at hu
  rw [hdir.dirlookup, ok_bind] at hu
  dsimp only at hu
  cases hf : SlotMap.find (s.fs.slots (s.inode dp)) (Fs.entries (s.inode dp)) (cstr DIRSIZ name) with
  | none =>
    rw [hf] at hu
    cases hu
    exact .refl sb s.fs
  | some x =>
    obtain ⟨k, v⟩ := x
    rw [hf] at hu
    obtain ⟨⟨i, fs⟩, hclear, hu⟩ := bind_ok hu
    cases hu
    obtain ⟨⟨r, i', fs'⟩, hw, hclear⟩ := bind_ok hclear
    dsimp only at hclear
    split_ifs at hclear with hr
    cases hclear
    have hk := (SlotMap.find_some hf).1
    have hoff : 16 * k < 2 ^ 32 := by
      have hmax := hdir.file.size
      unfold Fs.entries at hk
      simp only [MAXFILE, NDIRECT, NINDIRECT, BSIZE] at hmax
      omega
    exact Fs.writei_logs hsb hl hdir.file hoff (by decide) (fun _ _ => rfl) hw

/-- **Every call** logs what it changes. -/
theorem Sound.step_logs (hsb : sb.Ok) (hl : sb.LogFirst) (hn : sb.ninodes < 2 ^ 32) (hn1 : 0 < sb.ninodes)
    (h : Sound sb s) (hk : Known sb s o) (hr : Readable o) (hs : s.step sb o = some (.ok t)) :
    s.fs.Logs sb t.fs := by
  cases o with
  | iget inum =>
    injection hs with hs
    obtain ⟨⟨ip, t'⟩, hg, rfl⟩ := map_ok hs
    rw [(h.ok.iget hk.1 hg).2.1]
    exact .refl sb s.fs
  | idup ip =>
    simp only [Volume.step] at hs
    split_ifs at hs
    cases hs
    exact .refl sb s.fs
  | ilock p ip =>
    simp only [Volume.step] at hs
    split_ifs at hs
    injection hs with hs
    rw [(h.ok.ilock hs).2.1]
    exact .refl sb s.fs
  | iunlock p ip =>
    simp only [Volume.step] at hs
    split_ifs at hs
    injection hs with hs
    rw [(h.ok.iunlock hs).2]
    exact .refl sb s.fs
  | iput p ip =>
    simp only [Volume.step] at hs
    split_ifs at hs with href
    injection hs with hs
    exact h.iput_logs hsb hl href.1 hs
  | ialloc type =>
    simp only [Volume.step] at hs
    split_ifs at hs with h0
    injection hs with hs
    obtain ⟨⟨j, t'⟩, ha, rfl⟩ := map_ok hs
    obtain ⟨-, rfl, -⟩ | ⟨ip, -, -, -, -, -, hlt, -, -, -, ⟨j, hj, hfs⟩, -⟩ :=
      h.ok.ialloc (p := 0) hsb hn hn1 h.used ha
    · exact .refl sb _
    · rw [hfs]
      exact Fs.iupdate_logs hsb hl (hj ▸ hlt)
  | readi p ip writable dst off n =>
    simp only [Volume.step] at hs
    split_ifs at hs with hlock
    injection hs with hs
    obtain ⟨⟨r, dst', i, fs⟩, hr, rfl⟩ := map_ok hs
    obtain ⟨r', dst'', heq⟩ := h.readi hlock writable dst off n
    rw [heq] at hr
    cases hr
    exact .refl sb s.fs
  | writei p ip src off n =>
    simp only [Volume.step] at hs
    split_ifs at hs with hlock
    injection hs with hs
    obtain ⟨⟨r, i, fs⟩, hw, rfl⟩ := map_ok hs
    obtain ⟨hc, h0⟩ := h.ok.lockedCopy (locked hlock.1)
    exact Fs.writei_logs hsb hl (h.tidy.disk.file _ hc h0) off.toNat_lt n.toNat_lt hr hw
  | itrunc p ip =>
    simp only [Volume.step] at hs
    split_ifs at hs with hlock
    injection hs with hs
    obtain ⟨⟨i, fs⟩, hi, rfl⟩ := map_ok hs
    obtain ⟨hc, h0⟩ := h.ok.lockedCopy (locked hlock.1)
    exact Fs.itrunc_logs hsb hl (h.tidy.disk.file _ hc h0) hi
  | relink p ip major minor nlink =>
    simp only [Volume.step] at hs
    split_ifs at hs with hlock
    cases hs
    rw [setInode_iupdate]
    exact Fs.iupdate_logs hsb hl (h.ok.lockedCopy (locked hlock)).1.lt
  | dirlink p dp name inum =>
    simp only [Volume.step] at hs
    split_ifs at hs with hlock
    injection hs with hs
    obtain ⟨⟨r, t'⟩, hd, rfl⟩ := map_ok hs
    exact h.dirlink_logs hsb hl (locked hlock.1) hlock.2 hd
  | unlink p dp name =>
    simp only [Volume.step] at hs
    split_ifs at hs with hlock
    injection hs with hs
    obtain ⟨d, hu, rfl⟩ := map_ok hs
    exact h.unlink_logs hsb hl (locked hlock.1) hlock.2 hu

end Volume

end Xv6
