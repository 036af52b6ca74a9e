import Xv6.Fs.Contents
import Xv6.Kernel.Dir
import Xv6.Lib.Runs
import Xv6.Lib.SlotMap

/-!
# Directory — a directory is a finite map

The entries of a directory are slots with a name and a number; an entry with the number `0` is empty.
`dirlookup`, `dirlink` and the clearing of an entry are the operations of the map.
-/

namespace Xv6

open Layout

/-! ## Names -/

section Names

variable {p q t : ℕ → UInt8} {m : ByteStore} {n s x : ℕ}

/-- The string at `p`, which ends at a NUL or after `n` bytes. -/
def cstr : ℕ → (ℕ → UInt8) → List UInt8
  | 0, _ => []
  | n + 1, p => if p 0 = 0 then [] else p 0 :: cstr n fun i => p (i + 1)

theorem cstr_congr (h : ∀ i < n, p i = q i) : cstr n p = cstr n q := by
  induction n generalizing p q with
  | zero => rfl
  | succ n ih => rw [cstr, cstr, h 0 (by omega), ih fun i hi => h (i + 1) (by omega)]

/-- **`strncmp`** compares the strings. -/
theorem strncmp_eq_zero : strncmp p q n = 0 ↔ cstr n p = cstr n q := by
  induction n generalizing p q with
  | zero => exact ⟨fun _ => rfl, fun _ => rfl⟩
  | succ n ih =>
    rw [strncmp, cstr, cstr]
    by_cases hp : p 0 = 0
    · rw [if_neg (fun h => h.1 hp), if_pos hp, hp]
      by_cases hq : q 0 = 0
      · rw [if_pos hq, hq]
        simp
      · rw [if_neg hq]
        have hne : (q 0).toNat ≠ 0 := fun h => hq (UInt8.toNat_inj.mp h)
        constructor
        · intro h
          simp only [UInt8.toNat_zero] at h
          omega
        · intro h
          cases h
    rw [if_neg hp]
    by_cases heq : p 0 = q 0
    · rw [if_pos ⟨hp, heq⟩, if_neg (heq ▸ hp), ih, heq]
      simp
    · rw [if_neg (fun h => heq h.2)]
      have hne : (p 0).toNat ≠ (q 0).toNat := fun h => heq (UInt8.toNat_inj.mp h)
      refine ⟨fun h => absurd h (by omega), fun h => ?_⟩
      split at h
      · cases h
      · injection h with h
        exact absurd h heq

theorem strncpy_out (h : x < s ∨ s + n ≤ x) : strncpy m s t n x = m x := by
  induction n generalizing m s t with
  | zero => rfl
  | succ n ih =>
    rw [strncpy]
    have hx : x ≠ s := by omega
    split
    · rw [ih (by omega), Function.update_of_ne hx]
    · rw [ByteStore.fill_out (by omega), Function.update_of_ne hx]

/-- **`strncpy`** stores the string, padded or cut. -/
theorem cstr_strncpy : cstr n (fun i => strncpy m s t n (s + i)) = cstr n t := by
  induction n generalizing m s t with
  | zero => rfl
  | succ n ih =>
    have h0 : strncpy m s t (n + 1) (s + 0) = t 0 := by
      rw [strncpy]
      split
      · rw [strncpy_out (by omega)]
        exact Function.update_self s (t 0) m
      · rw [ByteStore.fill_out (by omega)]
        exact Function.update_self s (t 0) m
    rw [cstr, cstr, h0]
    by_cases ht : t 0 = 0
    · rw [if_pos ht, if_pos ht]
    · rw [if_neg ht, if_neg ht,
        ← ih (t := fun i => t (i + 1)) (m := Function.update m s (t 0)) (s := s + 1)]
      congr 1
      refine cstr_congr fun i _ => ?_
      rw [strncpy, if_pos ht, show s + (i + 1) = s + 1 + i by omega]

theorem namecmp_eq_zero : namecmp p q = 0 ↔ cstr DIRSIZ p = cstr DIRSIZ q := strncmp_eq_zero

end Names

namespace Fs

variable {sb : superblock} {s s' : Fs} {dp dp' : inode} {k off : ℕ} {name : ℕ → UInt8} {de : ByteStore}

/-! ## Entries -/

/-- The bytes of entry `k`. -/
def entry (s : Fs) (dp : inode) (k : ℕ) : ByteStore := fun j => s.bytes dp (16 * k + j)

/-- The name and the inode number of an entry, if it is not empty. -/
def named (de : ByteStore) : Option (List UInt8 × ℕ) :=
  if dirent.inum de = 0 then none else some (cstr DIRSIZ (dirent.name de), dirent.inum de)

def slots (s : Fs) (dp : inode) (k : ℕ) : Option (List UInt8 × ℕ) := named (s.entry dp k)

/-- The number of entries. -/
def entries (dp : inode) : ℕ := dp.d.size.toNat / 16

theorem named_congr {de' : ByteStore} (h : ∀ j < 16, de' j = de j) : named de' = named de := by
  have hinum : dirent.inum de' = dirent.inum de := ByteStore.load_congr fun j hj => by
    rw [Nat.zero_add]
    exact h j (by omega)
  have hname : cstr DIRSIZ (dirent.name de') = cstr DIRSIZ (dirent.name de) := cstr_congr fun i hi => by
    simp only [DIRSIZ] at hi
    exact h (2 + i) (by omega)
  rw [named, named, hinum, hname]

/-- A directory: its entries are there, and no two have the same name. -/
structure DirOk (sb : superblock) (dp : inode) (s : Fs) : Prop where
  file : FileOk sb dp s
  type : dp.d.type = T_DIR
  whole : dp.d.size.toNat % 16 = 0
  noHole : s.NoHole dp dp.d.size.toNat
  distinct : SlotMap.Distinct (s.slots dp) (entries dp)

theorem DirOk.entry_lt (h : DirOk sb dp s) : 16 * k < dp.d.size.toNat ↔ k < entries dp := by
  have hw := h.whole
  unfold entries
  omega

theorem DirOk.read_entry (h : DirOk sb dp s) (hk : k < entries dp) :
    ∃ de, s.readi sb (fun _ => true) (fun _ => 0) (16 * k) 16 dp = .ok (16, de, dp, s) ∧
      named de = s.slots dp k := by
  have hlt := h.entry_lt.mpr hk
  have hw := h.whole
  have hmax := h.file.size
  have hn : 16 * k + 16 < 2 ^ 32 := by
    simp only [MAXFILE, NDIRECT, NINDIRECT, BSIZE] at hmax
    omega
  have heq := readi_there sb (fun _ => true) (fun _ => 0) h.noHole hmax hlt.le hn fun _ _ => rfl
  rw [show min 16 (dp.d.size.toNat - 16 * k) = 16 by omega] at heq
  refine ⟨_, heq, named_congr fun j hj => ?_⟩
  rw [ByteStore.blit_in (Nat.zero_le j) (by omega), Nat.sub_zero, entry]

/-- The rest of `dirlookup`. -/
theorem DirOk.lookupLoop (h : DirOk sb dp s) :
    ∀ fuel k, entries dp ≤ k + fuel → k ≤ entries dp →
      s.lookupLoop sb name fuel (16 * k) dp =
        .ok (((List.range' k (entries dp - k)).findSome?
          (SlotMap.at? (s.slots dp) (cstr DIRSIZ name))).map fun x => (x.2, 16 * x.1), dp, s) := by
  intro fuel
  induction fuel with
  | zero =>
    intro k hle hk
    obtain rfl : k = entries dp := by omega
    rw [Fs.lookupLoop, Nat.sub_self]
    rfl
  | succ fuel ih =>
    intro k hle hk
    rw [Fs.lookupLoop]
    by_cases hlt : k < entries dp
    swap
    · obtain rfl : k = entries dp := by omega
      rw [if_neg (fun hc => hlt (h.entry_lt.mp hc)), Nat.sub_self]
      rfl
    obtain ⟨de, hread, hslot⟩ := h.read_entry hlt
    have hrange : List.range' k (entries dp - k) = k :: List.range' (k + 1) (entries dp - (k + 1)) := by
      rw [show entries dp - k = entries dp - (k + 1) + 1 by omega, List.range'_succ]
    have hnext := ih (k + 1) (by omega) hlt
    rw [if_pos (h.entry_lt.mpr hlt), hread, ok_bind, hrange, List.findSome?_cons, SlotMap.at?, ← hslot]
    dsimp only
    rw [if_neg (by decide)]
    unfold named
    by_cases h0 : dirent.inum de = 0
    · rw [if_pos h0, if_pos h0]
      exact hnext
    rw [if_neg h0, if_neg h0, Option.bind_some]
    by_cases hcmp : namecmp name (dirent.name de) = 0
    · rw [if_pos hcmp, if_pos (namecmp_eq_zero.mp hcmp).symm]
      rfl
    · rw [if_neg hcmp, if_neg (fun hc => hcmp (namecmp_eq_zero.mpr hc.symm))]
      exact hnext

/-- **`dirlookup`** finds the name in the map. -/
theorem DirOk.dirlookup (h : DirOk sb dp s) :
    s.dirlookup sb name dp =
      .ok ((SlotMap.find (s.slots dp) (entries dp) (cstr DIRSIZ name)).map fun x => (x.2, 16 * x.1), dp, s) := by
  have hle : entries dp ≤ 0 + dp.d.size.toNat := by
    unfold entries
    omega
  have hloop := @lookupLoop sb s dp name h dp.d.size.toNat 0 hle (Nat.zero_le _)
  rw [Fs.dirlookup, if_neg (not_not_intro h.type), SlotMap.find, List.range_eq_range']
  simpa using hloop

/-- The rest of the search for an empty entry. -/
theorem DirOk.emptyLoop (h : DirOk sb dp s) :
    ∀ fuel k, entries dp ≤ k + fuel → k ≤ entries dp →
      ∃ i, s.emptyLoop sb fuel (16 * k) dp = .ok (16 * i, dp, s) ∧ i ≤ entries dp ∧
        (i < entries dp → s.slots dp i = none) ∧ ∀ j, k ≤ j → j < i → s.slots dp j ≠ none := by
  intro fuel
  induction fuel with
  | zero =>
    intro k hle hk
    exact ⟨k, rfl, hk, fun hlt => by omega, fun j h1 h2 => by omega⟩
  | succ fuel ih =>
    intro k hle hk
    rw [Fs.emptyLoop]
    by_cases hlt : k < entries dp
    swap
    · rw [if_neg (fun hc => hlt (h.entry_lt.mp hc))]
      exact ⟨k, rfl, hk, fun hc => absurd hc hlt, fun j h1 h2 => by omega⟩
    obtain ⟨de, hread, hslot⟩ := h.read_entry hlt
    rw [if_pos (h.entry_lt.mpr hlt), hread, ok_bind]
    dsimp only
    rw [if_neg (by decide)]
    by_cases h0 : dirent.inum de = 0
    · rw [if_pos h0]
      refine ⟨k, rfl, hk, fun _ => ?_, fun j h1 h2 => by omega⟩
      rw [← hslot, named, if_pos h0]
    · rw [if_neg h0]
      obtain ⟨i, heq, hi, hfree, hrest⟩ := ih (k + 1) (by omega) hlt
      refine ⟨i, heq, hi, hfree, fun j h1 h2 => ?_⟩
      by_cases hjk : j = k
      · rw [hjk, ← hslot, named, if_neg h0]
        exact Option.some_ne_none _
      · exact hrest j (by omega) h2

/-! ## Changes -/

/-- There is a place for an entry: an empty one, or one more at the end, with the blocks for it. -/
def HasSpace (sb : superblock) (dp : inode) (s : Fs) : Prop :=
  (∃ k < entries dp, s.slots dp k = none) ∨
    (dp.d.size.toNat + 16 ≤ MAXFILE * BSIZE ∧
      s.missing dp (dp.d.size.toNat / BSIZE) ≤ s.free sb)

/-- The 16 bytes of entry `k` are written in full or not at all. -/
theorem DirOk.write (hsb : sb.Ok) (h : DirOk sb dp s) (src : ℕ → UInt8) (hk : k ≤ entries dp)
    (hmax : 16 * k + 16 ≤ MAXFILE * BSIZE) :
    ∃ (w : ℕ) (dp' : inode) (s' : Fs),
      s.writei sb (fun i => some (src i)) (16 * k) 16 dp = .ok (w, dp', s') ∧
      w = (if s.missing dp (16 * k / BSIZE) ≤ s.free sb then 16 else 0) ∧
      Wrote sb src (16 * k) w dp dp' s s' ∧ dp'.d.size.toNat = max dp.d.size.toNat (16 * k + w) ∧
      dinode.load (s'.blocks (iblock sb dp)) (64 * (dp.inum.toNat % IPB)) = dp'.d := by
  have hoff : 16 * k ≤ dp.d.size.toNat := by
    have hw := h.whole
    unfold entries at hk
    omega
  have hbn : 16 * k / BSIZE < MAXFILE := Nat.div_lt_of_lt_mul (by simp only [BSIZE] at *; omega)
  obtain ⟨tot, e, dp', s', heq, hle, hw, hsize, hstop, hsaved, -⟩ :=
    writei_spec _ hsb h.file hoff hmax
  obtain ⟨a, dp₁, s₁, hb, -, -, -, -, -⟩ := bmap_spec hsb h.file hbn
  obtain ⟨dp₂, s₂, hone⟩ := writei_one (by decide : 0 < 16) (by
    simp only [BSIZE]
    omega) hoff hmax hb
  rw [heq] at hone
  injection hone with hone
  injection hone with htot
  have htot : tot = if a = 0 then 0 else 16 := Int.natCast_inj.mp htot
  have he : e = 0 := by
    by_cases hlt : tot < 16
    · rcases hstop hlt with hs | hs
      · exact hs.1
      · cases hs.none
    · omega
  subst he
  refine ⟨tot, dp', s', heq, ?_, hw, hsize, hsaved⟩
  rw [htot]
  have hiff := bmap_ne_zero h.file hbn hb
  by_cases ha : a = 0
  · rw [if_pos ha, if_neg (fun hc => hiff.mpr hc ha)]
  · rw [if_neg ha, if_pos (hiff.mp ha)]

theorem Advance.type (h : Advance sb dp dp' s s') : dp'.d.type = dp.d.type := by
  obtain ⟨a, n, rfl⟩ := h.fields
  rfl

/-- The entries after a write of entry `k`. -/
theorem DirOk.slots_wrote {src : ℕ → UInt8} {w : ℕ} (hw : Wrote sb src (16 * k) w dp dp' s s')
    (hw16 : w = 16 ∨ w = 0) {i : ℕ} (hi : 16 * i + 16 ≤ MAXFILE * BSIZE) :
    s'.slots dp' i = if i = k ∧ w = 16 then named src else s.slots dp i := by
  by_cases hik : i = k ∧ w = 16
  · obtain ⟨rfl, rfl⟩ := hik
    rw [if_pos ⟨rfl, rfl⟩]
    refine named_congr fun j hj => ?_
    rw [entry, hw.bytes _ (by omega), if_pos (by omega), Nat.add_sub_cancel_left]
  · rw [if_neg hik]
    refine named_congr fun j hj => ?_
    rw [entry, entry, hw.bytes _ (by omega), if_neg (by omega)]

theorem DirOk.noHole_wrote {src : ℕ → UInt8} {w : ℕ} (h : DirOk sb dp s)
    (hw : Wrote sb src off w dp dp' s s') (hoff : off ≤ dp.d.size.toNat)
    (hsize : dp'.d.size.toNat = max dp.d.size.toNat (off + w)) : s'.NoHole dp' dp'.d.size.toNat := by
  intro i hi
  by_cases hlt : i < dp.d.size.toNat
  · have hmax := h.file.size
    exact hw.adv.slot_ne (Nat.div_lt_of_lt_mul (by simp only [BSIZE] at *; omega)) (h.noHole i hlt)
  · exact hw.there i (by omega) (by omega)

/-- A write that keeps the names different keeps the directory. -/
theorem DirOk.wrote {src : ℕ → UInt8} {w : ℕ} (h : DirOk sb dp s) (hk : k ≤ entries dp)
    (hw : Wrote sb src (16 * k) w dp dp' s s') (hw16 : w = 16 ∨ w = 0)
    (hsize : dp'.d.size.toNat = max dp.d.size.toNat (16 * k + w))
    (hd : SlotMap.Distinct (s'.slots dp') (entries dp')) : DirOk sb dp' s' where
  file := hw.adv.file
  type := by rw [Advance.type hw.adv, h.type]
  whole := by
    have hwhole := h.whole
    rw [hsize]
    omega
  noHole := h.noHole_wrote hw (by
    have hwhole := h.whole
    unfold entries at hk
    omega) hsize
  distinct := hd

/-- A write that has failed leaves the map as it is. -/
theorem DirOk.unwritten {src : ℕ → UInt8} (h : DirOk sb dp s) (hk : k ≤ entries dp)
    (hw : Wrote sb src (16 * k) 0 dp dp' s s')
    (hsize : dp'.d.size.toNat = max dp.d.size.toNat (16 * k + 0)) :
    DirOk sb dp' s' ∧ entries dp' = entries dp ∧ ∀ i < entries dp, s'.slots dp' i = s.slots dp i := by
  have hsame : dp'.d.size.toNat = dp.d.size.toNat := by
    have hwhole := h.whole
    unfold entries at hk
    omega
  have hentries : entries dp' = entries dp := by rw [entries, entries, hsame]
  have hslots : ∀ i < entries dp, s'.slots dp' i = s.slots dp i := fun i hi => by
    have hmax := h.file.size
    have hwhole := h.whole
    unfold entries at hi
    rw [DirOk.slots_wrote hw (Or.inr rfl) (by omega), if_neg (by simp)]
  refine ⟨h.wrote hk hw (Or.inr rfl) hsize ?_, hentries, hslots⟩
  rw [hentries]
  intro i hi j hj key v v' hs hs'
  rw [hslots i hi] at hs
  rw [hslots j hj] at hs'
  exact h.distinct i hi j hj key v v' hs hs'

/-- The first empty entry, or the end, is a place for an entry if there is one. -/
theorem DirOk.hasSpace_iff (h : DirOk sb dp s) (hk : k ≤ entries dp)
    (hfree : k < entries dp → s.slots dp k = none) (hfull : ∀ j, 0 ≤ j → j < k → s.slots dp j ≠ none) :
    HasSpace sb dp s ↔ 16 * k + 16 ≤ MAXFILE * BSIZE ∧ s.missing dp (16 * k / BSIZE) ≤ s.free sb := by
  have hwhole := h.whole
  by_cases hlt : k < entries dp
  · refine ⟨fun _ => ⟨?_, ?_⟩, fun _ => Or.inl ⟨k, hlt, hfree hlt⟩⟩
    · have hmax := h.file.size
      unfold entries at hlt
      omega
    · rw [missing, if_pos (h.noHole (16 * k) (h.entry_lt.mpr hlt))]
      exact Nat.zero_le _
  · have hend : dp.d.size.toNat = 16 * k := by
      unfold entries at hk hlt
      omega
    unfold HasSpace
    rw [hend]
    refine ⟨fun hs => hs.resolve_left ?_, Or.inr⟩
    rintro ⟨j, hj, hnone⟩
    exact hfull j (Nat.zero_le j) (hj.trans_le (Nat.not_lt.mp hlt)) hnone

/-- The name of the entry that `dirlink` writes. -/
theorem named_link {m : ByteStore} {inum v : ℕ} {key : List UInt8}
    (h : named ((strncpy m 2 name DIRSIZ).store 0 2 inum) = some (key, v)) : key = cstr DIRSIZ name := by
  unfold named at h
  split_ifs at h
  injection h with h
  injection h with hkey _
  have hname : cstr DIRSIZ (fun i => strncpy m 2 name DIRSIZ (2 + i)) = cstr DIRSIZ name := cstr_strncpy
  rw [← hkey, ← hname]
  exact cstr_congr fun i _ => ByteStore.store_out (by omega)

/-- **A new name is written, or nothing.** -/
theorem DirOk.put {src : ℕ → UInt8} {r : ℤ} (hsb : sb.Ok) (h : DirOk sb dp s) (hk : k ≤ entries dp)
    (hnew : ∀ key v, named src = some (key, v) → SlotMap.find (s.slots dp) (entries dp) key = none)
    (hw : s.writei sb (fun i => some (src i)) (16 * k) 16 dp = .ok (r, dp', s')) :
    Advance sb dp dp' s s' ∧ DirOk sb dp' s' ∧
      ((dp' = dp ∧ s' = s) ∨
        dinode.load (s'.blocks (iblock sb dp)) (64 * (dp.inum.toNat % IPB)) = dp'.d) ∧
      (r ≠ 16 → dp'.d.size = dp.d.size ∧ SameBytes s.blocks s'.blocks dp.d dp'.d) ∧
      (r = 16 ↔ 16 * k + 16 ≤ MAXFILE * BSIZE ∧ s.missing dp (16 * k / BSIZE) ≤ s.free sb) := by
  by_cases hmax : 16 * k + 16 ≤ MAXFILE * BSIZE
  · obtain ⟨w, dp₁, s₁, heq, hw16, hwr, hsize, hsaved⟩ := h.write hsb src hk hmax
    rw [heq] at hw
    cases hw
    by_cases hspace : s.missing dp (16 * k / BSIZE) ≤ s.free sb
    · rw [if_pos hspace] at hw16
      subst hw16
      refine ⟨hwr.adv, h.wrote hk hwr (Or.inl rfl) hsize ?_, Or.inr hsaved, fun hr => absurd rfl hr,
        ⟨fun _ => ⟨hmax, hspace⟩, fun _ => rfl⟩⟩
      have hentries : ∀ j < entries dp', j < entries dp ∨ j = k := fun j hj => by
        have hwhole := h.whole
        unfold entries at hj hk ⊢
        omega
      have hmax' := hwr.adv.file.size
      have hslot : ∀ j < entries dp', s'.slots dp' j = if j = k then named src else s.slots dp j := by
        intro j hj
        unfold entries at hj
        rw [DirOk.slots_wrote hwr (Or.inl rfl) (by omega)]
        simp only [and_true]
      refine h.distinct.set (fun j hj hjk => ⟨(hentries j hj).resolve_right hjk, ?_⟩) fun key v hkey => ?_
      · rw [hslot j hj, if_neg hjk]
      · refine hnew key v ?_
        rw [← hkey, hslot k ?_, if_pos rfl]
        unfold entries
        omega
    · rw [if_neg hspace] at hw16
      subst hw16
      refine ⟨hwr.adv, (h.unwritten hk hwr hsize).1, Or.inr hsaved, fun _ => ⟨?_, fun i hi => ?_⟩,
        fun hr => absurd hr (by decide), fun hr => absurd hr.2 hspace⟩
      · refine UInt32.toNat_inj.mp ?_
        have hwhole := h.whole
        unfold entries at hk
        omega
      · have hb := hwr.bytes i hi
        rwa [if_neg (by omega)] at hb
  · have hsz := h.file.size
    have hlt : 16 * k < 2 ^ 32 := by
      unfold entries at hk
      simp only [MAXFILE, NDIRECT, NINDIRECT, BSIZE] at hsz
      omega
    rw [writei_out (by decide) hlt (Or.inr (Nat.not_le.mp hmax))] at hw
    cases hw
    exact ⟨Advance.refl h.file, h, Or.inl ⟨rfl, rfl⟩, fun _ => ⟨rfl, fun _ _ => rfl⟩,
      fun hr => absurd hr (by decide), fun hr => absurd hr.1 hmax⟩

end Fs

end Xv6
