import Xv6.Fs.Files
import Xv6.Lib.Runs

/-!
# DirMap — the life of a directory

`dirMap` is what a directory means: a partial map from names, cut to `DIRSIZ` bytes, to inode numbers.
`dirlookup`, `dirlink` and the clearing of an entry are its operations, in every state that they reach.

* `directory_is_map`: this holds after every run of these calls, with other processes at work on the disk.
-/

namespace Xv6

open Layout

namespace Fs

variable {sb : superblock} {s s' : Fs} {dp dp' : inode} {k v inum : ℕ} {name : ℕ → UInt8}
  {key : List UInt8} {de : ByteStore}

/-- The inode number of a name. -/
def dirMap (s : Fs) (dp : inode) (key : List UInt8) : Option ℕ :=
  (SlotMap.find (s.slots dp) (entries dp) key).map Prod.snd

theorem dirMap_eq_none : dirMap s dp key = none ↔ SlotMap.find (s.slots dp) (entries dp) key = none := by
  unfold dirMap
  exact Option.map_eq_none_iff

theorem dirMap_congr (hn : entries dp' = entries dp) (h : ∀ i < entries dp, s'.slots dp' i = s.slots dp i) :
    dirMap s' dp' = dirMap s dp := by
  funext key
  unfold dirMap
  rw [hn, SlotMap.find_congr h]

theorem named_zero : named (fun _ => 0) = none := by
  unfold named
  rw [if_pos]
  exact ByteStore.load_zero fun _ _ => rfl

/-- The entry that `dirlink` writes. -/
theorem named_dirlink (h0 : 0 < inum) (hlt : inum < 65536) :
    named ((strncpy de 2 name DIRSIZ).store 0 2 inum) = some (cstr DIRSIZ name, inum) := by
  have hinum : dirent.inum ((strncpy de 2 name DIRSIZ).store 0 2 inum) = inum := by
    unfold dirent.inum
    rw [ByteStore.load_store]
    exact Nat.mod_eq_of_lt hlt
  have hname : named ((strncpy de 2 name DIRSIZ).store 0 2 inum) =
      some (cstr DIRSIZ (dirent.name ((strncpy de 2 name DIRSIZ).store 0 2 inum)), inum) := by
    rw [named, hinum, if_neg h0.ne']
  rw [hname, named_link hname]

/-- **The clearing of an entry**: its name is gone. -/
theorem DirOk.clear (hsb : sb.Ok) (h : DirOk sb dp s) (hk : k < entries dp)
    (hs : s.slots dp k = some (key, v)) : ∃ dp' s', s.clearEntry sb (16 * k) dp = .ok (dp', s') ∧
      DirOk sb dp' s' ∧ dirMap s' dp' = Function.update (dirMap s dp) key none := by
  have hwhole := h.whole
  have hsize := h.file.size
  have hmax : 16 * k + 16 ≤ MAXFILE * BSIZE := by
    unfold entries at hk
    omega
  obtain ⟨w, dp', s', heq, hw, hwr, hsz, -⟩ := h.write hsb (fun _ => 0) hk.le hmax
  have hw16 : w = 16 := by
    rw [hw, missing, if_pos (h.noHole (16 * k) (h.entry_lt.mpr hk)), if_pos (Nat.zero_le _)]
  subst hw16
  have hentries : entries dp' = entries dp := by
    unfold entries at hk ⊢
    rw [hsz]
    omega
  have hslot : ∀ i < entries dp, s'.slots dp' i = if i = k then none else s.slots dp i := by
    intro i hi
    unfold entries at hi
    rw [slots_wrote hwr (Or.inl rfl) (by omega), named_zero]
    simp only [and_true]
  have hc : SlotMap.Cleared (s.slots dp) (s'.slots dp') (entries dp) k :=
    ⟨by rw [hslot k hk, if_pos rfl], fun j hj hjk => by rw [hslot j hj, if_neg hjk]⟩
  refine ⟨dp', s', ?_, h.wrote hk.le hwr (Or.inl rfl) hsz (by rw [hentries]; exact hc.distinct h.distinct), ?_⟩
  · rw [Fs.clearEntry, heq]
    rfl
  · funext key'
    rw [dirMap, hentries, hc.find h.distinct hk hs, Function.update_apply]
    split_ifs <;> rfl

/-- **A new entry** in an empty place, if there are blocks for it. -/
theorem DirOk.fill {src : ℕ → UInt8} (hsb : sb.Ok) (h : DirOk sb dp s) (hk : k ≤ entries dp)
    (hfree : k < entries dp → s.slots dp k = none) (hkey : named src = some (key, v))
    (habs : dirMap s dp key = none) :
    ∃ (r : ℤ) (dp' : inode) (s' : Fs), s.writei sb (fun i => some (src i)) (16 * k) 16 dp = .ok (r, dp', s') ∧
      DirOk sb dp' s' ∧
      (r = 16 ↔ 16 * k + 16 ≤ MAXFILE * BSIZE ∧ s.missing dp (16 * k / BSIZE) ≤ s.free sb) ∧
      dirMap s' dp' = if r = 16 then Function.update (dirMap s dp) key (some v) else dirMap s dp := by
  have hfind := dirMap_eq_none.mp habs
  by_cases hmax : 16 * k + 16 ≤ MAXFILE * BSIZE
  swap
  · have hsz := h.file.size
    have hlt : 16 * k < 2 ^ 32 := by
      unfold entries at hk
      simp only [MAXFILE, NDIRECT, NINDIRECT, BSIZE] at hsz
      omega
    refine ⟨-1, dp, s, writei_out (by decide) hlt (Or.inr (Nat.not_le.mp hmax)), h, ?_, ?_⟩
    · exact iff_of_false (by decide) fun hc => hmax hc.1
    · rw [if_neg (by decide)]
  obtain ⟨w, dp', s', heq, hw, hwr, hsz, -⟩ := h.write hsb src hk hmax
  have hput : DirOk sb dp' s' ∧ ((w : ℤ) = 16 ↔
      16 * k + 16 ≤ MAXFILE * BSIZE ∧ s.missing dp (16 * k / BSIZE) ≤ s.free sb) := by
    obtain ⟨-, h1, -, -, h2⟩ := h.put hsb hk (fun key' v' hkey' => by
      rw [hkey] at hkey'
      cases hkey'
      exact hfind) heq
    exact ⟨h1, h2⟩
  refine ⟨w, dp', s', heq, hput.1, hput.2, ?_⟩
  by_cases hspace : s.missing dp (16 * k / BSIZE) ≤ s.free sb
  · rw [if_pos hspace] at hw
    subst hw
    have hwhole := h.whole
    have hsize' := hput.1.file.size
    have hp : SlotMap.Put (s.slots dp) (s'.slots dp') (entries dp) (entries dp') k key v := by
      refine ⟨hfree, ?_, fun j hj hjk => ?_, fun j => ?_⟩
      · rw [slots_wrote hwr (Or.inl rfl) hmax, if_pos ⟨rfl, rfl⟩, hkey]
      · unfold entries at hj
        rw [slots_wrote hwr (Or.inl rfl) (by omega), if_neg fun hc => hjk hc.1]
      · unfold entries at hk ⊢
        omega
    rw [if_pos (by decide)]
    funext key'
    rw [dirMap, hp.find h.distinct hfind, Function.update_apply]
    split_ifs <;> rfl
  · rw [if_neg hspace] at hw
    subst hw
    rw [if_neg (by decide)]
    obtain ⟨-, hn, hs⟩ := h.unwritten hk hwr hsz
    exact dirMap_congr hn hs

/-- **`dirlookup`** is the lookup in the map. -/
theorem DirOk.lookup (h : DirOk sb dp s) (name : ℕ → UInt8) : ∃ o, s.dirlookup sb name dp = .ok (o, dp, s) ∧
    o.map Prod.fst = dirMap s dp (cstr DIRSIZ name) := by
  refine ⟨_, h.dirlookup, ?_⟩
  unfold dirMap
  rw [Option.map_map]
  rfl

/-- **`dirlink`** returns 0 if and only if the name is new and there is a place for it. -/
theorem DirOk.link (hsb : sb.Ok) (h : DirOk sb dp s) (de : ByteStore) (name : ℕ → UInt8) (h0 : 0 < inum)
    (hlt : inum < 65536) :
    ∃ (r : ℤ) (dp' : inode) (s' : Fs), s.dirlink sb de name inum dp = .ok (r, dp', s') ∧
      DirOk sb dp' s' ∧ (r = 0 ∨ r = -1) ∧
      (r = 0 ↔ dirMap s dp (cstr DIRSIZ name) = none ∧ HasSpace sb dp s) ∧
      dirMap s' dp' = if r = 0 then Function.update (dirMap s dp) (cstr DIRSIZ name) (some inum)
        else dirMap s dp := by
  obtain ⟨o, hlook, ho⟩ := h.lookup name
  unfold Fs.dirlink
  rw [hlook, ok_bind]
  dsimp only
  cases o with
  | some x =>
    refine ⟨-1, dp, s, by rw [if_pos Option.isSome_some], h, Or.inr rfl, iff_of_false (by decide) fun hc => ?_, ?_⟩
    · rw [hc.1] at ho
      cases ho
    · rw [if_neg (by decide)]
  | none =>
    have habs : dirMap s dp (cstr DIRSIZ name) = none := ho.symm
    have hle : entries dp ≤ 0 + dp.d.size.toNat := by
      unfold entries
      omega
    obtain ⟨k, hloop, hk, hfree, hfull⟩ := h.emptyLoop dp.d.size.toNat 0 hle (Nat.zero_le _)
    obtain ⟨r, dp', s', hw, h', hr, hmap⟩ := h.fill hsb hk hfree
      (named_dirlink h0 hlt : named ((strncpy de 2 name DIRSIZ).store 0 2 inum) = _) habs
    rw [if_neg (by simp), show s.emptyLoop sb dp.d.size.toNat 0 dp = _ from hloop, ok_bind]
    dsimp only
    rw [hw, ok_bind]
    dsimp only
    rw [← h.hasSpace_iff hk hfree hfull] at hr
    by_cases h16 : r = 16
    · refine ⟨0, dp', s', by rw [if_neg (not_not_intro h16)], h', Or.inl rfl, ?_, ?_⟩
      · exact iff_of_true rfl ⟨habs, hr.mp h16⟩
      · rw [hmap, if_pos h16, if_pos rfl]
    · refine ⟨-1, dp', s', by rw [if_pos h16], h', Or.inr rfl, ?_, ?_⟩
      · exact iff_of_false (by decide) fun hc => h16 (hr.mpr hc.2)
      · rw [hmap, if_neg h16, if_neg (by decide)]

/-- Other processes leave the directory alone. -/
theorem DirOk.undisturbed {ref : ℕ} {nlink : Int16} (h : DirOk sb dp s) (hu : Undisturbed sb dp s s') :
    DirOk sb { dp with ref := ref, d := { dp.d with nlink := nlink } } s' ∧
      dirMap s' { dp with ref := ref, d := { dp.d with nlink := nlink } } = dirMap s dp := by
  obtain ⟨hf, hb, hslot⟩ := hu.file h.file
  have hs : ∀ k < entries dp, s'.slots dp k = s.slots dp k := fun k hk => slots_same hb h.file hk
  have hd : DirOk sb dp s' := by
    refine ⟨hf, h.type, h.whole, fun i hi => ?_, fun k hk j hj key v v' h1 h2 => ?_⟩
    · have hmax := h.file.size
      rw [hslot _ (Nat.div_lt_of_lt_mul (by simp only [BSIZE] at *; omega))]
      exact h.noHole i hi
    · rw [hs k hk] at h1
      rw [hs j hj] at h2
      exact h.distinct k hk j hj key v v' h1 h2
  have hd' := @DirOk.congr _ _ _ (hd.relink (a := dp.d.major) (b := dp.d.minor) (c := nlink))
    { dp with ref := ref, d := { dp.d with nlink := nlink } } rfl rfl
  exact ⟨hd', dirMap_congr rfl hs⟩

end Fs

namespace Dir

variable {sb : superblock} {d d' d₀ : Dir}

def Ok (sb : superblock) (d : Dir) : Prop := d.fs.DirOk sb d.dp

/-- The meaning of a directory. -/
def toMap (d : Dir) : List UInt8 → Option ℕ := d.fs.dirMap d.dp

/-- Inode numbers are positive and fit into an entry; others leave the blocks of the directory alone. -/
def Proper (sb : superblock) (d : Dir) : Op → Prop
  | .dirlink _ _ inum => 0 < inum ∧ inum < 65536
  | .unlink _ => True
  | .others fs _ _ => Fs.Undisturbed sb d.dp d.fs fs

/-- A directory without entries. -/
structure Empty (sb : superblock) (d : Dir) : Prop where
  file : Fs.FileOk sb d.dp d.fs
  type : d.dp.d.type = T_DIR
  size : d.dp.d.size = 0

theorem Empty.ok (h : Empty sb d) : Ok sb d ∧ toMap d = fun _ => none := by
  have hsize : d.dp.d.size.toNat = 0 := by rw [h.size]; rfl
  have hn : Fs.entries d.dp = 0 := by rw [Fs.entries, hsize]
  refine ⟨⟨h.file, h.type, by rw [hsize], fun i hi => ?_, fun i hi => ?_⟩, funext fun key => ?_⟩
  · rw [hsize] at hi
    exact absurd hi (Nat.not_lt_zero i)
  · rw [hn] at hi
    exact absurd hi (Nat.not_lt_zero i)
  · exact Fs.dirMap_eq_none.mpr (SlotMap.find_eq_none.mpr fun i hi => by
      rw [hn] at hi
      exact absurd hi (Nat.not_lt_zero i))

/-- **`unlink`** removes the name from the map. -/
theorem Ok.unlink (hsb : sb.Ok) (h : Ok sb d) (name : ℕ → UInt8) : ∃ d', d.unlink sb name = .ok d' ∧
    Ok sb d' ∧ toMap d' = Function.update (toMap d) (cstr DIRSIZ name) none := by
  unfold Dir.unlink
  rw [Fs.DirOk.dirlookup h, ok_bind]
  cases hf : SlotMap.find (d.fs.slots d.dp) (Fs.entries d.dp) (cstr DIRSIZ name) with
  | none =>
    refine ⟨_, rfl, h, ?_⟩
    rw [Function.update_eq_self_iff.mpr (Fs.dirMap_eq_none.mpr hf).symm]
  | some x =>
    obtain ⟨k, v⟩ := x
    obtain ⟨hk, hs⟩ := SlotMap.find_some hf
    obtain ⟨dp', s', hc, h', hmap⟩ := Fs.DirOk.clear hsb h hk hs
    refine ⟨{ dp := dp', fs := s' }, ?_, h', hmap⟩
    dsimp only [Option.map_some]
    rw [hc]
    rfl

theorem Ok.step {o : Op} (hsb : sb.Ok) (h : Ok sb d) (hp : Proper sb d o)
    (ht : Dir.step sb d o = some (.ok d')) : Ok sb d' := by
  cases o with
  | dirlink de name inum =>
    obtain ⟨r, dp', s', heq, h', -⟩ := Fs.DirOk.link hsb h de name hp.1 hp.2
    simp only [Dir.step, heq] at ht
    cases ht
    exact h'
  | unlink name =>
    obtain ⟨d₁, heq, h', -⟩ := Ok.unlink hsb h name
    simp only [Dir.step, heq] at ht
    cases ht
    exact h'
  | others fs ref nlink =>
    cases ht
    exact (Fs.DirOk.undisturbed h hp).1

/-- **A directory is a finite map**: in every state that `dirlink`, `unlink` and the work of other processes
reach from an empty directory, `dirlookup` is the lookup; `dirlink` returns 0 if and only if the name, cut
to `DIRSIZ` bytes, is new and there is a place, and then exactly this name is added; and `unlink` removes
exactly its name. -/
theorem directory_is_map (hsb : sb.Ok) (h₀ : Empty sb d₀)
    (hd : Runs.Steps (Dir.step sb) (Proper sb) d₀ d) (name : ℕ → UInt8) :
    (∃ o, d.fs.dirlookup sb name d.dp = .ok (o, d.dp, d.fs) ∧
      o.map Prod.fst = toMap d (cstr DIRSIZ name)) ∧
    (∀ de inum, 0 < inum → inum < 65536 → ∃ (r : ℤ) (d' : Dir),
      d.fs.dirlink sb de name inum d.dp = .ok (r, d'.dp, d'.fs) ∧ (r = 0 ∨ r = -1) ∧
      (r = 0 ↔ toMap d (cstr DIRSIZ name) = none ∧ Fs.HasSpace sb d.dp d.fs) ∧
      toMap d' = if r = 0 then Function.update (toMap d) (cstr DIRSIZ name) (some inum) else toMap d) ∧
    (∃ d', d.unlink sb name = .ok d' ∧
      toMap d' = Function.update (toMap d) (cstr DIRSIZ name) none) ∧
    ∀ fs ref nlink, Fs.Undisturbed sb d.dp d.fs fs → ∀ d',
      Dir.step sb d (.others fs ref nlink) = some (.ok d') → toMap d' = toMap d := by
  have h : Ok sb d := hd.invariant h₀.ok.1 fun _ _ _ h hp ht => h.step hsb hp ht
  refine ⟨Fs.DirOk.lookup h name, fun de inum h0 hlt => ?_, ?_, fun fs ref nlink hu d' ht => ?_⟩
  · obtain ⟨r, dp', s', heq, -, hr, hiff, hmap⟩ := Fs.DirOk.link hsb h de name h0 hlt
    exact ⟨r, ⟨dp', s'⟩, heq, hr, hiff, hmap⟩
  · obtain ⟨d', heq, -, hmap⟩ := Ok.unlink hsb h name
    exact ⟨d', heq, hmap⟩
  · cases ht
    exact (Fs.DirOk.undisturbed h hu).2

/-! ## An empty directory -/

def emptyDir : Dir := { dp := Fs.emptyInode 2 T_DIR, fs := Fs.empty }

theorem emptyDir_empty : Empty mkfsSb emptyDir :=
  ⟨Fs.emptyInode_ok (by decide), rfl, rfl⟩

/-- The test for `Proper` while no other process is at work. -/
def alone : Op → Bool
  | .dirlink _ _ inum => 0 < inum && inum < 65536
  | .unlink _ => true
  | .others _ _ _ => false

/-- Two names are added, and one is removed. -/
theorem directory_is_map_two : ∃ d, Runs.Steps (Dir.step mkfsSb) (Proper mkfsSb) emptyDir d ∧
    toMap d [98] = some 4 ∧ ∃ o, d.fs.dirlookup mkfsSb (fun i => [98].getD i 0) d.dp =
      .ok (o, d.dp, d.fs) ∧ o.map Prod.fst = some 4 := by
  obtain ⟨d, hrun, hb⟩ := Runs.Steps.of_any (P := fun _ o => alone o = true)
    (Q := fun d : Dir => toMap d [98] = some 4)
    [.dirlink (fun _ => 0) (fun i => [97].getD i 0) 3, .dirlink (fun _ => 0) (fun i => [98].getD i 0) 4,
      .unlink fun i => [97].getD i 0]
    (by decide +kernel : (Runs.exec (Dir.step mkfsSb) (fun _ o => alone o = true) emptyDir _).any _ = true)
  have hd : Runs.Steps (Dir.step mkfsSb) (Proper mkfsSb) emptyDir d := by
    refine hrun.mono fun d o h => ?_
    cases o with
    | dirlink de name inum => simpa [alone, Proper] using h
    | unlink name => exact trivial
    | others fs ref nlink => cases h
  obtain ⟨o, hlook, ho⟩ := (directory_is_map Fs.mkfsSb_ok emptyDir_empty hd fun i => [98].getD i 0).1
  exact ⟨d, hd, hb, o, hlook, ho.trans hb⟩

end Dir

end Xv6
