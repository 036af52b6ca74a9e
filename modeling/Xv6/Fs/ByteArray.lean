import Xv6.Fs.Contents
import Xv6.Lib.ByteSeq

/-!
# ByteArray — `writei` and `readi` on a whole file system

`Files` is the invariant of a file system whose files have no holes and share no block.  Under it a
file is a sequence of bytes: `writei` and `readi` refine `ByteSeq.write` and `ByteSeq.read`, and they
leave every other file alone.
-/

namespace Xv6.Fs

open Layout

variable {sb : superblock} {s s' : Fs} {ip ip' jp : inode} {node : ℕ → Option inode} {i j x off n w : ℕ}

/-- The bytes of the file, up to its size. -/
def data (s : Fs) (ip : inode) : List UInt8 := ByteStore.window (s.bytes ip) 0 ip.d.size.toNat

/-- The disk inode with number `i`. -/
def diskInode (sb : superblock) (s : Fs) (i : ℕ) : dinode :=
  dinode.load (s.blocks (IBLOCK i sb)) (64 * (i % IPB))

/-- A file system with the inode `node i` for each number `i` that is in use: no file has a hole, and
no two slots have the same block. -/
structure Files (sb : superblock) (node : ℕ → Option inode) (s : Fs) : Prop where
  inum : ∀ i ip, node i = some ip → ip.inum.toNat = i
  file : ∀ i ip, node i = some ip → FileOk sb ip s
  noHole : ∀ i ip, node i = some ip → s.NoHole ip ip.d.size.toNat
  apart : ∀ i ip j jp, node i = some ip → node j = some jp → i ≠ j →
    ∀ x, Holds s.blocks ip.d x → ¬ Holds s.blocks jp.d x

/-! ## The other files -/

/-- Two files that share no block. -/
theorem Advance.undisturbed (h : Advance sb ip ip' s s') (hj : FileOk sb jp s)
    (hapart : ∀ x, Holds s.blocks ip.d x → ¬ Holds s.blocks jp.d x) : Undisturbed sb jp s s' where
  blocks := fun x hx => h.grow.frame x (hj.owns.mem x hx) fun hi => hapart x hi hx
  used := fun x hx => h.used (hj.owns.mem x hx).1.2 (hj.owns.mem x hx).2
  reserved := h.file.reserved

/-- The disk inodes of other files are not written. -/
theorem Advance.diskInode (hsb : sb.Ok) (h : Advance sb ip ip' s s') (hj : FileOk sb jp s)
    (hne : jp.inum.toNat ≠ ip.inum.toNat) :
    s'.diskInode sb jp.inum.toNat = s.diskInode sb jp.inum.toNat := by
  refine load_dinode_congr fun k hk => ?_
  by_cases hb : Fs.iblock sb jp = Fs.iblock sb ip
  · -- the two inodes are in one block, at different places
    have hi := Nat.div_add_mod ip.inum.toNat IPB
    have hj := Nat.div_add_mod jp.inum.toNat IPB
    have hdiv : jp.inum.toNat / IPB = ip.inum.toNat / IPB := Nat.add_right_cancel hb
    have hmod : jp.inum.toNat % IPB ≠ ip.inum.toNat % IPB := by
      intro hmod
      rw [hdiv, hmod] at hj
      exact hne (hj.symm.trans hi)
    have hd := h.dinodes (64 * (jp.inum.toNat % IPB) + k) (by omega)
    rw [← hb] at hd
    exact hd
  · have ho := h.others (Fs.iblock sb jp) (not_data_iblock hsb hj) (not_bmap_iblock hsb hj) hb
    exact congrFun ho _

/-- **One file has changed**: the invariant holds again. -/
theorem Files.advance (hfs : Files sb node s) (hi : node i = some ip) (h : Advance sb ip ip' s s')
    (hno : s'.NoHole ip' ip'.d.size.toNat) : Files sb (Function.update node i (some ip')) s' := by
  have hother : ∀ j jp, j ≠ i → node j = some jp →
      FileOk sb jp s' ∧ s'.NoHole jp jp.d.size.toNat ∧
        ∀ x, Holds s'.blocks jp.d x → Holds s.blocks jp.d x := by
    intro j jp hj hjp
    have hjf := hfs.file j jp hjp
    have hu := h.undisturbed hjf (hfs.apart i ip j jp hi hjp hj.symm)
    obtain ⟨hf', -, hslot⟩ := hu.file hjf
    refine ⟨hf', fun k hk => ?_, fun x hx => ?_⟩
    · have hk' : k / BSIZE < MAXFILE :=
        Nat.div_lt_of_lt_mul (by rw [Nat.mul_comm]; exact hk.trans_le hjf.size)
      rw [hslot _ hk']
      exact hfs.noHole j jp hjp k hk
    · refine (holds_congr fun r hr => ?_).mp hx
      exact blockRef_congr (fun _ _ => rfl)
        (fun h0 k _ => by rw [hu.blocks _ (Holds.of_indirect h0)]) hr
  have hapart : ∀ j jp x, j ≠ i → node j = some jp → Holds s'.blocks ip'.d x →
      ¬ Holds s'.blocks jp.d x := by
    intro j jp x hj hjp hx hjx
    -- a block that another file holds was in use, so that `ip` has held it before
    have hjx := (hother j jp hj hjp).2.2 x hjx
    have hold := h.grow.holds_of_used ((hfs.file j jp hjp).owns.mem x hjx) hx
    exact hfs.apart i ip j jp hi hjp hj.symm x hold hjx
  refine ⟨fun j jp hj => ?_, fun j jp hj => ?_, fun j jp hj => ?_, fun j jp k kp hj hk hne x hx hx' => ?_⟩
  · by_cases hji : j = i
    · subst hji
      obtain rfl : ip' = jp := by simpa using hj
      rw [h.inum]
      exact hfs.inum j ip hi
    · rw [Function.update_of_ne hji] at hj
      exact hfs.inum j jp hj
  · by_cases hji : j = i
    · subst hji
      obtain rfl : ip' = jp := by simpa using hj
      exact h.file
    · rw [Function.update_of_ne hji] at hj
      exact (hother j jp hji hj).1
  · by_cases hji : j = i
    · subst hji
      obtain rfl : ip' = jp := by simpa using hj
      exact hno
    · rw [Function.update_of_ne hji] at hj
      exact (hother j jp hji hj).2.1
  · by_cases hji : j = i
    · subst hji
      obtain rfl : ip' = jp := by simpa using hj
      rw [Function.update_of_ne hne.symm] at hk
      exact hapart k kp x hne.symm hk hx hx'
    · rw [Function.update_of_ne hji] at hj
      by_cases hki : k = i
      · subst hki
        obtain rfl : ip' = kp := by simpa using hk
        exact hapart j jp x hji hj hx' hx
      · rw [Function.update_of_ne hki] at hk
        exact hfs.apart j jp k kp hj hk hne x ((hother j jp hji hj).2.2 x hx)
          ((hother k kp hki hk).2.2 x hx')

/-! ## Byte sequences -/

/-- Bytes written at a place up to the end of a file without holes leave no hole. -/
theorem Wrote.noHole {src : ℕ → UInt8} (h : Wrote sb src off w ip ip' s s') (hf : FileOk sb ip s)
    (hno : s.NoHole ip ip.d.size.toNat) (hoff : off ≤ ip.d.size.toNat) :
    s'.NoHole ip' (max ip.d.size.toNat (off + w)) := by
  intro k hk
  by_cases hnew : off ≤ k ∧ k < off + w
  · exact h.there k hnew.1 hnew.2
  · have hlt : k < ip.d.size.toNat := by omega
    refine h.adv.slot_ne (Nat.div_lt_of_lt_mul ?_) (hno k hlt)
    rw [Nat.mul_comm]
    exact hlt.trans_le hf.size

/-- The bytes written, as a write to the sequence. -/
theorem data_write {src : ℕ → UInt8} (hoff : off ≤ ip.d.size.toNat)
    (hsize : ip'.d.size.toNat = max ip.d.size.toNat (off + w))
    (hb : ∀ k < ip'.d.size.toNat,
      s'.bytes ip' k = if off ≤ k ∧ k < off + w then src (k - off) else s.bytes ip k) :
    s'.data ip' = ByteSeq.write (s.data ip) off (ByteStore.window src 0 w) := by
  unfold Fs.data
  rw [← ByteStore.window_blit hoff, ← hsize]
  refine ByteStore.window_congr fun k hk => ?_
  rw [Nat.zero_add, hb k hk]
  rfl

/-- A file that shares no block with the one that has changed has the same bytes. -/
theorem Undisturbed.data (h : Undisturbed sb ip s s') (hf : FileOk sb ip s) : s'.data ip = s.data ip := by
  refine ByteStore.window_congr fun k hk => ?_
  rw [Nat.zero_add]
  exact (h.file hf).2.1 k (hk.trans_le hf.size)

/-- `node` is as it was but for file `i`: the other files have their bytes, and their disk inodes have not
been written. -/
structure OtherFiles (sb : superblock) (node : ℕ → Option inode) (i : ℕ) (s s' : Fs) : Prop where
  data : ∀ j jp, j ≠ i → node j = some jp → s'.data jp = s.data jp
  inode : ∀ j jp, j ≠ i → node j = some jp → s'.diskInode sb j = s.diskInode sb j

theorem Files.others (hsb : sb.Ok) (hfs : Files sb node s) (hi : node i = some ip)
    (h : Advance sb ip ip' s s') : OtherFiles sb node i s s' where
  data := fun j jp hj hjp =>
    (h.undisturbed (hfs.file j jp hjp) (hfs.apart i ip j jp hi hjp hj.symm)).data (hfs.file j jp hjp)
  inode := fun j jp hj hjp => by
    have hd := h.diskInode hsb (hfs.file j jp hjp)
    rw [hfs.inum j jp hjp, hfs.inum i ip hi] at hd
    exact hd hj

/-- **`writei` and `readi` implement a byte array**: in a file system whose files have no holes and share
no block, `writei` writes to the bytes of the file and `readi` reads from them. -/
theorem files_are_byte_arrays (hsb : sb.Ok) (hfs : Files sb node s) (hi : node i = some ip) :
    (∀ (off n : ℕ) (src : ℕ → Option UInt8) (new : ℕ → UInt8), off ≤ (s.data ip).length →
      off + n ≤ MAXFILE * BSIZE → (∀ k < n, src k = some (new k)) →
      ∃ (tot : ℕ) (ip' : inode) (s' : Fs), s.writei sb src off n ip = .ok (tot, ip', s') ∧
        tot ≤ n ∧ (tot < n → s'.Full sb) ∧
        s'.data ip' = ByteSeq.write (s.data ip) off (ByteStore.window new 0 tot) ∧
        ip'.d.size.toNat = max ip.d.size.toNat (off + tot) ∧ s'.diskInode sb i = ip'.d ∧
        OtherFiles sb node i s s' ∧ Files sb (Function.update node i (some ip')) s') ∧
    (∀ (off n : ℕ) (writable : ℕ → Bool) (dst : ByteStore), off ≤ (s.data ip).length →
      off + n < 2 ^ 32 → (∀ k < n, writable k = true) →
      ∃ dst' : ByteStore, s.readi sb writable dst off n ip =
          .ok ((min n ((s.data ip).length - off) : ℕ), dst', ip, s) ∧
        dst'.window 0 (min n ((s.data ip).length - off)) = ByteSeq.read (s.data ip) off n ∧
        ∀ k, min n ((s.data ip).length - off) ≤ k → dst' k = dst k) := by
  have hf := hfs.file i ip hi
  have hno := hfs.noHole i ip hi
  have hlen : (s.data ip).length = ip.d.size.toNat := ByteStore.length_window
  rw [hlen]
  constructor
  · intro off n src new hoff hn hsrc
    obtain ⟨tot, k, ip', s', heq, hle, hw, hsize, hstop, hdisk, -⟩ :=
      writei_spec src hsb hf hoff hn
    -- the source can be read, so that only a missing block stops the loop
    have hfull : tot < n → k = 0 ∧ s'.Full sb := by
      intro h
      rcases hstop h with h | h
      · exact ⟨h.1, h.2.full⟩
      · have hnone := h.none
        rw [hsrc _ h.lt] at hnone
        cases hnone
    have hk : k = 0 := by
      by_cases h : tot < n
      · exact (hfull h).1
      · omega
    subst hk
    rw [Nat.add_zero] at hw
    have hmax := hw.adv.file.size
    have hdata : s'.data ip' = ByteSeq.write (s.data ip) off
        (ByteStore.window (fun j => (src j).getD 0) 0 tot) :=
      data_write hoff hsize fun k hk => hw.bytes k (by omega)
    have hnew : ByteStore.window (fun j => (src j).getD 0) 0 tot = ByteStore.window new 0 tot := by
      refine ByteStore.window_congr fun j hj => ?_
      rw [Nat.zero_add, hsrc j (by omega), Option.getD_some]
    rw [hnew] at hdata
    have hno' := hw.noHole hf hno hoff
    rw [← hsize] at hno'
    have hi' := hfs.inum i ip hi
    unfold Fs.iblock at hdisk
    rw [hi'] at hdisk
    exact ⟨tot, ip', s', heq, hle, fun h => (hfull h).2, hdata, hsize, hdisk,
      hfs.others hsb hi hw.adv, hfs.advance hi hw.adv hno'⟩
  · intro off n writable dst hoff hn hw
    refine ⟨_, readi_there sb writable dst hno hf.size hoff hn hw, ?_, fun k hk => ByteStore.blit_out (by omega)⟩
    unfold Fs.data
    rw [ByteStore.read_window]
    refine ByteStore.window_congr fun k hk => ?_
    rw [Nat.zero_add, ByteStore.blit_in (Nat.zero_le k) (by omega), Nat.sub_zero]

/-- Two empty files. -/
def emptyFiles : ℕ → Option inode := fun i =>
  if i = 1 then some (emptyInode 1 1) else if i = 2 then some (emptyInode 2 2) else none

theorem emptyFiles_eq (h : emptyFiles i = some ip) :
    ∃ (inum : UInt32) (type : Int16), ip = emptyInode inum type ∧ inum.toNat = i ∧ i < 3 := by
  unfold emptyFiles at h
  by_cases h1 : i = 1
  · rw [if_pos h1] at h
    exact ⟨1, 1, (Option.some.inj h).symm, h1.symm, by omega⟩
  rw [if_neg h1] at h
  by_cases h2 : i = 2
  · rw [if_pos h2] at h
    exact ⟨2, 2, (Option.some.inj h).symm, h2.symm, by omega⟩
  · rw [if_neg h2] at h
    cases h

theorem emptyFiles_ok : Files mkfsSb emptyFiles empty where
  inum := fun i ip h => by
    obtain ⟨inum, type, rfl, hi, -⟩ := emptyFiles_eq h
    exact hi
  file := fun i ip h => by
    obtain ⟨inum, type, rfl, hi, hlt⟩ := emptyFiles_eq h
    refine emptyInode_ok ?_
    simp only [mkfsSb]
    omega
  noHole := fun i ip h => by
    obtain ⟨inum, type, rfl, -, -⟩ := emptyFiles_eq h
    exact fun k hk => absurd hk (Nat.not_lt_zero k)
  apart := fun i ip j jp hi _ _ x hx => by
    obtain ⟨inum, type, rfl, -, -⟩ := emptyFiles_eq hi
    exact absurd hx emptyInode_holds

/-- Three bytes for an empty file, and a read of the file after that. -/
theorem files_are_byte_arrays_empty : ∃ (ip' : inode) (s' : Fs) (dst' : ByteStore),
    empty.writei mkfsSb (fun _ => some 7) 0 3 (emptyInode 1 1) = .ok ((3 : ℕ), ip', s') ∧
    s'.data ip' = [7, 7, 7] ∧
    s'.readi mkfsSb (fun _ => true) (fun _ => 0) 1 9 ip' = .ok ((2 : ℕ), dst', ip', s') ∧
    dst'.window 0 2 = [7, 7] := by
  have hall : Runs.okWith (fun x : ℤ × inode × Fs => decide (x.1 = 3))
      (empty.writei mkfsSb (fun _ => some 7) 0 3 (emptyInode 1 1)) = true := by decide +kernel
  obtain ⟨⟨r, ip₁, s₁⟩, heq₁, h3⟩ := Runs.okWith_iff.mp hall
  obtain rfl : r = 3 := of_decide_eq_true h3
  obtain ⟨tot, ip', s', heq, -, -, hdata, -, -, -, hfiles⟩ :=
    (files_are_byte_arrays mkfsSb_ok emptyFiles_ok (i := 1) rfl).1 0 3 (fun _ => some 7) (fun _ => 7)
      (Nat.zero_le _) (by decide) fun _ _ => rfl
  rw [heq] at heq₁
  obtain rfl : tot = 3 := Int.natCast_inj.mp (congrArg Prod.fst (Except.ok.inj heq₁))
  have hdata' : s'.data ip' = [7, 7, 7] := hdata
  obtain ⟨dst', hread, hwin, -⟩ := (files_are_byte_arrays mkfsSb_ok hfiles (Function.update_self _ _ _)).2
    1 9 (fun _ => true) (fun _ => 0) (by rw [hdata']; decide) (by decide) fun _ _ => rfl
  rw [hdata'] at hread hwin
  exact ⟨ip', s', dst', heq, hdata', hread, hwin⟩

end Xv6.Fs
