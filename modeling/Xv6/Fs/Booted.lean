import Xv6.Fs.Built
import Xv6.Log.CrashSafe

/-!
# Booted — the file system that `mkfs` builds, and the kernel that boots from it

`tree`: the inodes that the files of the command line make, the root directory first.  The image is `Clean`
exactly if no two names are the same and the root directory does not end with a block; then every run of the
kernel from it is one of `crash_safe`.
-/

namespace Xv6

namespace Mkfs

open Layout

variable {s s' s₁ : Mkfs} {i j k n x inum : ℕ} {f : Int16 × List UInt8} {type : Int16}
  {l l' : List (Int16 × List UInt8)} {c p name : List UInt8} {file : HostFile} {files : List HostFile}

/-! ## The inodes -/

/-- The entries of the root directory, with their inodes. -/
def ents (files : List HostFile) : List (ℕ × List UInt8) :=
  (1, [46]) :: (1, [46, 46]) :: files.mapIdx fun k f => (k + 2, fileName f.path)

/-- The bytes of the root directory. -/
def dirBytes (files : List HostFile) : List UInt8 := ((ents files).map fun e => direntOf e.1 e.2).flatten

def tree (files : List HostFile) : List (Int16 × List UInt8) :=
  (T_DIR, dirBytes files) :: files.map fun f => (T_FILE, f.reads.flatten)

theorem ents_length : (ents files).length = files.length + 2 := by
  simp [ents]

theorem tree_length : (tree files).length = files.length + 1 := by
  simp [tree]

theorem dirBytes_concat : dirBytes (files ++ [file]) =
    dirBytes files ++ direntOf (files.length + 2) (fileName file.path) := by
  simp [dirBytes, ents]

theorem tree_concat : tree (files ++ [file]) =
    ((T_DIR, dirBytes (files ++ [file])) :: files.map fun f => (T_FILE, f.reads.flatten)) ++
      [(T_FILE, file.reads.flatten)] := by
  simp [tree]

theorem modify_last : (l ++ [(type, c)]).modify l.length (fun f => (f.1, f.2 ++ p)) =
    l ++ [(type, c ++ p)] := by
  induction l with
  | nil => rfl
  | cons a l ih => rw [List.cons_append, List.length_cons, List.modify_succ_cons, ih, List.cons_append]

theorem below_last : Below (l ++ [(type, c)]) (l ++ [(type, c ++ p)]) := modify_last ▸ Below.modify

theorem tree_below : Below (tree files) (tree (files ++ [file])) := by
  rw [tree_concat]
  refine Below.trans (Below.append (tree files) [(T_FILE, [])]) (Below.trans ?_ (below_last (c := [])))
  have h : (tree files ++ [(T_FILE, [])]).modify 0 (fun f => (f.1, f.2 ++
      direntOf (files.length + 2) (fileName file.path))) =
      ((T_DIR, dirBytes (files ++ [file])) :: files.map fun f => (T_FILE, f.reads.flatten)) ++
        [(T_FILE, [])] := by
    rw [dirBytes_concat]
    rfl
  exact h ▸ Below.modify

theorem tree_below_append {rest : List HostFile} : Below (tree files) (tree (files ++ rest)) := by
  induction rest generalizing files with
  | nil => rw [List.append_nil]; exact Below.refl _
  | cons f rest ih =>
    have h : Below (tree (files ++ [f])) (tree (files ++ [f] ++ rest)) := ih
    rw [List.append_assoc] at h
    exact tree_below.trans h

/-! ## `main` -/

/-- The `read`s of a file. -/
theorem reads_show {reads : List (List UInt8)} (h : Shows (l ++ [(type, c)]) s)
    (hfits : Fits (l ++ [(type, c ++ reads.flatten)])) :
    ∃ s', reads.foldlM (fun s buf => s.iappend (l.length + 1) buf) s = .ok s' ∧
      Shows (l ++ [(type, c ++ reads.flatten)]) s' := by
  induction reads generalizing c s with
  | nil =>
    refine ⟨s, rfl, ?_⟩
    rwa [List.flatten_nil, List.append_nil]
  | cons buf reads ih =>
    rw [List.flatten_cons, ← List.append_assoc] at hfits ⊢
    have hf : (l ++ [(type, c)])[l.length]? = some (type, c) := by
      rw [List.getElem?_append_right le_rfl, Nat.sub_self]
      rfl
    have hfits₁ : Fits (l ++ [(type, c ++ buf)]) := below_last.fits hfits
    obtain ⟨s₁, heq₁, hs₁⟩ := iappend_shows (p := buf) h hf (modify_last ▸ hfits₁)
    obtain ⟨s', heq, hs'⟩ := ih (modify_last ▸ hs₁) hfits
    exact ⟨s', by rw [List.foldlM_cons, heq₁]; exact heq, hs'⟩

/-- **One file** of the command line. -/
theorem addFile_shows (h : Shows (tree files) s) (hslash : 47 ∉ shortname file.path)
    (hfits : Fits (tree (files ++ [file]))) :
    ∃ s', s.addFile 1 file = .ok s' ∧ Shows (tree (files ++ [file])) s' := by
  rw [tree_concat] at hfits ⊢
  have hmod : (tree files ++ [(T_FILE, [])]).modify 0 (fun f => (f.1, f.2 ++
      direntOf (files.length + 2) (fileName file.path))) =
      ((T_DIR, dirBytes (files ++ [file])) :: files.map fun f => (T_FILE, f.reads.flatten)) ++
        [(T_FILE, [])] := by
    rw [dirBytes_concat]
    rfl
  have hfits₂ := (below_last (c := []) (p := file.reads.flatten)).fits hfits
  have hfits₁ : Fits (tree files ++ [(T_FILE, [])]) := (hmod ▸ Below.modify :
    Below (tree files ++ [(T_FILE, [])]) _).fits hfits₂
  obtain ⟨s₁, heq₁, hs₁⟩ := ialloc_shows h hfits₁
  have hlt : files.length + 2 < 2 ^ 32 := by
    have hn := hfits₁.inodes
    rw [List.length_append, tree_length] at hn
    simp only [NINODES, List.length_singleton] at hn
    omega
  have hinum : (UInt32.ofNat ((tree files).length + 1)).toNat = files.length + 2 := by
    rw [tree_length]
    exact UInt32.toNat_ofNat_of_lt' hlt
  obtain ⟨s₂, heq₂, hs₂⟩ := iappend_shows hs₁ (i := 0) rfl (hmod ▸ hfits₂)
  rw [hmod] at hs₂
  obtain ⟨s₃, heq₃, hs₃⟩ := reads_show hs₂ hfits
  refine ⟨s₃, ?_, hs₃⟩
  rw [List.length_cons, List.length_map] at heq₃
  rw [addFile, if_neg hslash, heq₁, ok_bind]
  dsimp only
  rw [hinum, heq₂, ok_bind]
  exact heq₃

theorem files_show {rest : List HostFile} (h : Shows (tree files) s)
    (hslash : ∀ f ∈ rest, 47 ∉ shortname f.path) (hfits : Fits (tree (files ++ rest))) :
    ∃ s', rest.foldlM (fun s f => s.addFile 1 f) s = .ok s' ∧ Shows (tree (files ++ rest)) s' := by
  induction rest generalizing files s with
  | nil => exact ⟨s, rfl, by rwa [List.append_nil]⟩
  | cons f rest ih =>
    have happ : files ++ f :: rest = files ++ [f] ++ rest := by rw [List.append_assoc]; rfl
    rw [happ] at hfits ⊢
    obtain ⟨s₁, heq₁, hs₁⟩ := addFile_shows h (hslash f List.mem_cons_self) (tree_below_append.fits hfits)
    obtain ⟨s', heq, hs'⟩ := ih hs₁ (fun g hg => hslash g (List.mem_cons_of_mem f hg)) hfits
    exact ⟨s', by rw [List.foldlM_cons, heq₁]; exact heq, hs'⟩

/-- The root directory, before the files. -/
theorem root_shows (hfits : Fits (tree [])) : ∃ s s₁ s₂, zeroed.ialloc T_DIR = .ok (1, s) ∧
    s.iappend 1 (direntOf 1 [46]) = .ok s₁ ∧ s₁.iappend 1 (direntOf 1 [46, 46]) = .ok s₂ ∧
    Shows (tree []) s₂ := by
  have htree : tree [] = [(T_DIR, direntOf 1 [46] ++ direntOf 1 [46, 46])] := by
    simp [tree, dirBytes, ents]
  rw [htree] at hfits ⊢
  have hfits₁ : Fits ([] ++ [(T_DIR, direntOf 1 [46])]) := below_last.fits hfits
  have hfits₀ : Fits ([] ++ [(T_DIR, [])]) := (below_last (p := direntOf 1 [46])).fits hfits₁
  obtain ⟨s, heq, hs⟩ := ialloc_shows zeroed_shows hfits₀
  obtain ⟨s₁, heq₁, hs₁⟩ := iappend_shows hs (i := 0) rfl hfits₁
  obtain ⟨s₂, heq₂, hs₂⟩ := iappend_shows hs₁ (i := 0) rfl hfits
  exact ⟨s, s₁, s₂, heq, heq₁, heq₂, hs₂⟩

/-! ## The bitmap, and the size of the root directory -/

theorem bit_first : ((List.range n).foldl ByteStore.setBit fun _ => 0).bit k = decide (k < n) := by
  induction n with
  | zero =>
    show Nat.testBit (0 : UInt8).toNat (k % 8) = _
    simp
  | succ n ih =>
    rw [List.range_succ, List.foldl_append, List.foldl_cons, List.foldl_nil]
    by_cases hk : k = n
    · rw [hk, ByteStore.bit_setBit_self]
      simp
    · rw [ByteStore.bit_setBit_of_ne hk, ih]
      exact decide_eq_decide.mpr (by omega)

/-- What is done to the image `s₁` at the end. -/
structure Finish (s₁ s : Mkfs) : Prop where
  root : s.dinodeAt 1 = { s₁.dinodeAt 1 with
    size := UInt32.ofNat (((s₁.dinodeAt 1).size.toNat / BSIZE + 1) * BSIZE) }
  other : ∀ n < NINODES, n ≠ 1 → s.dinodeAt n = s₁.dinodeAt n
  data : ∀ x, nmeta ≤ x → s.blocks x = s₁.blocks x
  low : ∀ x < 2 + nlog, s.blocks x = s₁.blocks x
  used : ∀ b < FSSIZE, s.fs.Used sb b ↔ b < s₁.freeblock.toNat

theorem finish (h : Shows l s₁) : ∃ s₂ s, s₁.fixRoot 1 = .ok s₂ ∧ s₂.balloc s₂.freeblock.toNat = .ok s ∧
    Finish s₁ s := by
  have h1 : 1 < NINODES := by decide
  obtain ⟨s₂, heq, hw⟩ := winode_ok h.len h1 { s₁.dinodeAt 1 with
    size := UInt32.ofNat (((s₁.dinodeAt 1).size.toNat / BSIZE + 1) * BSIZE) }
  have hused : s₂.freeblock.toNat < BSIZE * 8 := by
    have := h.high
    rw [hw.freeblock]
    simp only [FSSIZE, BSIZE] at *
    omega
  have hbmap : sb.bmapstart = 45 := rfl
  have hmeta : nmeta = 46 := by decide
  have hlow : 2 + nlog = 32 := by decide
  generalize hs : s₂.wsect sb.bmapstart ((List.range s₂.freeblock.toNat).foldl ByteStore.setBit fun _ => 0) = s
  have hB : s.blocks = Function.update s₂.blocks sb.bmapstart
      ((List.range s₂.freeblock.toNat).foldl ByteStore.setBit fun _ => 0) := by rw [← hs]; rfl
  have hne : ∀ x, x ≠ 45 → s.blocks x = s₂.blocks x := fun x hx => by
    rw [hB, Function.update_of_ne (by rwa [hbmap])]
  have hdinode : ∀ n < NINODES, s.dinodeAt n = s₂.dinodeAt n := fun n hn => by
    have hbn : IBLOCK n sb ≠ 45 := by
      have hi : sb.inodestart = 32 := rfl
      unfold IBLOCK
      rw [hi]
      simp only [NINODES, IPB] at *
      omega
    show dinode.load (s.blocks (IBLOCK n sb)) (64 * (n % IPB)) =
      dinode.load (s₂.blocks (IBLOCK n sb)) (64 * (n % IPB))
    rw [hne _ hbn]
  refine ⟨s₂, s, ?_, by rw [balloc, if_pos hused, hs], ⟨?_, fun n hn hn1 => ?_, fun x hx => ?_, fun x hx => ?_,
    fun b hb => ?_⟩⟩
  · rw [fixRoot, rinode_ok h.len h1, ok_bind]
    exact heq
  · rw [hdinode 1 h1, hw.self]
  · rw [hdinode n hn, hw.other n hn1]
  · rw [hne x (by omega), hw.data h1 hx]
  · rw [hne x (by omega), hw.image_low h1 hx]
  · have hbb : BBLOCK b sb = sb.bmapstart := by
      unfold BBLOCK
      simp only [FSSIZE, BPB] at *
      omega
    have hmod : b % BPB = b := Nat.mod_eq_of_lt (by simp only [FSSIZE, BPB] at *; omega)
    show (s.blocks (BBLOCK b sb)).bit (b % BPB) = true ↔ _
    rw [hbb, hmod, hB, Function.update_self, bit_first, decide_eq_true_iff, hw.freeblock]

/-- **`main`** exits with 0 if the files fit. -/
theorem main_shows (hslash : ∀ f ∈ files, 47 ∉ shortname f.path) (hfits : Fits (tree files)) :
    ∃ s₁ s, main files = .ok s ∧ Shows (tree files) s₁ ∧ Finish s₁ s := by
  have hbelow : Below (tree []) (tree ([] ++ files)) := tree_below_append
  obtain ⟨s, s₁, s₂, heq, heq₁, heq₂, hs₂⟩ := root_shows (hbelow.fits hfits)
  obtain ⟨s₃, heq₃, hs₃⟩ := files_show hs₂ hslash hfits
  obtain ⟨s₄, s₅, heq₄, heq₅, hfin⟩ := finish hs₃
  refine ⟨s₃, s₅, ?_, hs₃, hfin⟩
  have h1 : (1 : UInt32).toNat = 1 := rfl
  rw [main, heq, ok_bind]
  dsimp only
  rw [if_neg (by decide), h1, heq₁, ok_bind, heq₂, ok_bind, heq₃, ok_bind, heq₄, ok_bind]
  exact heq₅

/-! ## What the kernel finds -/

theorem Finish.fields (h : Finish s₁ s) (hn : n < NINODES) :
    ∃ z, s.dinodeAt n = { s₁.dinodeAt n with size := z } := by
  by_cases h1 : n = 1
  · exact ⟨_, h1 ▸ h.root⟩
  · exact ⟨(s₁.dinodeAt n).size, h.other n hn h1⟩

theorem Shows.lt (h : Shows l s₁) (hi : i < l.length) : i + 1 < NINODES := by
  have := h.few
  omega

theorem Finish.blockRef {r : ℕ} (h : Finish s₁ s) (hs : Shows l s₁) (hi : i < l.length) (hr : r < NREF) :
    blockRef s.blocks (s.dinodeAt (i + 1)) r = blockRef s₁.blocks (s₁.dinodeAt (i + 1)) r := by
  obtain ⟨z, hz⟩ := h.fields (hs.lt hi)
  have ho := (hs.file i _ (List.getElem?_eq_getElem hi)).owns
  rw [hz]
  exact blockRef_congr (fun _ _ => rfl)
    (fun h0 j _ => by rw [h.data _ (ho.mem _ (Holds.of_indirect h0)).1]) hr

theorem Finish.holds (h : Finish s₁ s) (hs : Shows l s₁) (hi : i < l.length) :
    Holds s.blocks (s.dinodeAt (i + 1)) x ↔ Holds s₁.blocks (s₁.dinodeAt (i + 1)) x :=
  holds_congr fun _ hr => h.blockRef hs hi hr

theorem Finish.bytes (h : Finish s₁ s) (hs : Shows l s₁) (hf : l[i]? = some f) (hk : k < MAXFILE * BSIZE) :
    content s.blocks (s.dinodeAt (i + 1)) k = f.2.getD k 0 := by
  have hfile := hs.file i f hf
  have hi := lt_of_getElem? hf
  rw [sameBytes_refs (fun r hr => h.blockRef hs hi hr) (fun x hx => h.data x (hfile.owns.mem x hx).1) k hk,
    hfile.bytes k hk]

theorem Finish.inUse (h : Finish s₁ s) (hs : Shows l s₁) : s.fs.InUse sb x ↔ s₁.InUse x := by
  have hdata : sb.IsData x ↔ nmeta ≤ x ∧ x < FSSIZE := by
    have hb : sb.bmapstart = 45 := rfl
    have hz : sb.size = FSSIZE := rfl
    have hm : nmeta = 46 := by decide
    unfold superblock.IsData
    rw [hb, hz, hm]
    simp only [FSSIZE, BPB]
    omega
  have hhigh := hs.high
  constructor
  · rintro ⟨hx, hu⟩
    rw [hdata] at hx
    exact ⟨hx.1, (h.used x hx.2).mp hu⟩
  · rintro ⟨hlow, hlt⟩
    have hx : x < FSSIZE := by omega
    exact ⟨hdata.mpr ⟨hlow, hx⟩, (h.used x hx).mpr hlt⟩

/-- The inodes in use are those that have been made. -/
theorem Finish.made (h : Finish s₁ s) (hs : Shows l s₁) (hn : n < NINODES) (h0 : (s.dinodeAt n).type ≠ 0) :
    ∃ i, n = i + 1 ∧ i < l.length := by
  by_contra hno
  have hrest : n = 0 ∨ l.length < n := by
    by_contra hc
    exact hno ⟨n - 1, by omega, by omega⟩
  obtain ⟨z, hz⟩ := h.fields hn
  rw [hz, hs.rest n hn hrest] at h0
  exact h0 rfl

theorem Finish.typed (h : Finish s₁ s) (hs : Shows l s₁) (hf : l[i]? = some f) :
    (s.dinodeAt (i + 1)).type = f.1 ∧ (s.dinodeAt (i + 1)).nlink = 1 := by
  obtain ⟨z, hz⟩ := h.fields (hs.lt (lt_of_getElem? hf))
  obtain ⟨a, ha⟩ := (hs.file i f hf).fields
  rw [hz, ha]
  exact ⟨rfl, rfl⟩

/-- The size of a file, rounded up for the root directory. -/
def sizeOf (i : ℕ) (f : Int16 × List UInt8) : ℕ :=
  if i = 0 then (f.2.length / BSIZE + 1) * BSIZE else f.2.length

theorem direntOf_length : (direntOf inum name).length = 16 := by
  rw [direntOf, List.length_map, List.length_range]

theorem flatten_getD {L : List (List UInt8)} (h : ∀ a ∈ L, a.length = n) (hj : j < n) :
    L.flatten.getD (n * k + j) 0 = (L.getD k []).getD j 0 := by
  induction L generalizing k with
  | nil => simp
  | cons a L ih =>
    have ha := h a List.mem_cons_self
    rw [List.flatten_cons]
    cases k with
    | zero =>
      rw [Nat.mul_zero, Nat.zero_add, List.getD_append _ _ _ _ (ha ▸ hj)]
      rfl
    | succ k =>
      have hsub : n * (k + 1) + j - n = n * k + j := by
        rw [Nat.mul_succ]
        omega
      rw [List.getD_append_right _ _ _ _ (by rw [ha, Nat.mul_succ]; omega), ha, hsub,
        ih fun b hb => h b (List.mem_cons_of_mem a hb)]
      rfl

theorem flatten_length {L : List (List UInt8)} (h : ∀ a ∈ L, a.length = n) :
    L.flatten.length = n * L.length := by
  induction L with
  | nil => rfl
  | cons a L ih =>
    rw [List.flatten_cons, List.length_append, h a List.mem_cons_self,
      ih fun b hb => h b (List.mem_cons_of_mem a hb), List.length_cons, Nat.mul_succ, Nat.add_comm]

theorem dirents_length : ∀ a ∈ (ents files).map fun e => direntOf e.1 e.2, a.length = 16 := by
  intro a ha
  obtain ⟨e, -, rfl⟩ := List.mem_map.mp ha
  exact direntOf_length

theorem dirBytes_length : (dirBytes files).length = 16 * (files.length + 2) := by
  rw [dirBytes, flatten_length dirents_length, List.length_map, ents_length]

theorem Finish.size (h : Finish s₁ s) (hs : Shows (tree files) s₁) (hf : (tree files)[i]? = some f) :
    (s.dinodeAt (i + 1)).size.toNat = sizeOf i f ∧ sizeOf i f ≤ MAXFILE * BSIZE := by
  have hfile := hs.file i f hf
  unfold sizeOf
  by_cases h0 : i = 0
  · subst h0
    obtain rfl : f = (T_DIR, dirBytes files) := (Option.some.inj hf).symm
    have hfew := hs.few
    rw [tree_length] at hfew
    have hle : ((dirBytes files).length / BSIZE + 1) * BSIZE ≤ MAXFILE * BSIZE := by
      rw [dirBytes_length]
      simp only [NINODES, BSIZE, MAXFILE, NDIRECT, NINDIRECT] at *
      omega
    rw [if_pos rfl, h.root, hfile.size_eq]
    exact ⟨ofNat_length hle, hle⟩
  · rw [if_neg h0, h.other _ (hs.lt (lt_of_getElem? hf)) (by omega), hfile.size_eq]
    exact ⟨rfl, hfile.size⟩

/-! ## The root directory -/

/-- A name as it is in a directory entry. -/
def cut (name : List UInt8) : List UInt8 := cstr DIRSIZ fun i => name.getD i 0

theorem named_direntOf (h0 : 0 < inum) (hlt : inum < 65536) :
    Fs.named (fun j => (direntOf inum name).getD j 0) = some (cut name, inum) := by
  generalize hde : strncpy (ByteStore.store (fun _ => 0) 0 2 inum) 2 (fun i => name.getD i 0) DIRSIZ = de
  have hbytes : ∀ j < 16, (direntOf inum name).getD j 0 = de j := fun j hj => by
    rw [direntOf, List.getD_eq_getElem?_getD, List.getElem?_map, List.getElem?_range hj, hde]
    rfl
  have hinum : dirent.inum de = inum := by
    have hload : de.load 0 2 = (ByteStore.store (fun _ => 0) 0 2 inum).load 0 2 := by
      rw [← hde]
      exact ByteStore.load_congr fun j hj => strncpy_out (by omega)
    rw [dirent.inum, hload, ByteStore.load_store]
    exact Nat.mod_eq_of_lt hlt
  have hname : cstr DIRSIZ (dirent.name de) = cut name := by
    rw [← hde]
    exact cstr_strncpy
  rw [Fs.named_congr hbytes, Fs.named, hinum, hname, if_neg (by omega)]

theorem ents_inum {e : ℕ × List UInt8} (he : (ents files)[k]? = some e) (hfew : files.length < NINODES) :
    0 < e.1 ∧ e.1 < 65536 := by
  have hmem := List.mem_of_getElem? he
  unfold ents at hmem
  simp only [List.mem_cons, List.mem_mapIdx] at hmem
  obtain rfl | rfl | ⟨i, hi, rfl⟩ := hmem
  · exact ⟨by decide, by decide⟩
  · exact ⟨by decide, by decide⟩
  · simp only [NINODES] at hfew
    exact ⟨by omega, by omega⟩

/-- **The entries of the root directory**, and nothing behind them. -/
theorem Finish.slots (h : Finish s₁ s) (hs : Shows (tree files) s₁) (hk : 16 * k + 16 ≤ MAXFILE * BSIZE) :
    s.fs.slots (s.inodeOf 1) k = ((ents files)[k]?).map fun e => (cut e.2, e.1) := by
  have hbytes : ∀ j < 16, s.fs.entry (s.inodeOf 1) k j =
      (((ents files).map fun e => direntOf e.1 e.2).getD k []).getD j 0 := fun j hj => by
    show content s.blocks (s.inodeOf 1).d (16 * k + j) = _
    rw [inodeOf_d (by decide), h.bytes hs (i := 0) rfl (by omega)]
    exact flatten_getD dirents_length hj
  rw [Fs.slots, Fs.named_congr hbytes, List.getD_eq_getElem?_getD, List.getElem?_map]
  cases he : (ents files)[k]? with
  | none =>
    show Fs.named (fun j => ([] : List UInt8).getD j 0) = none
    have h0 : dirent.inum (fun j => ([] : List UInt8).getD j 0) = 0 :=
      ByteStore.load_zero fun j _ => List.getD_nil
    rw [Fs.named, if_pos h0]
  | some e =>
    have hfew := hs.few
    rw [tree_length] at hfew
    obtain ⟨h0, hlt⟩ := ents_inum he (by omega)
    exact named_direntOf h0 hlt

/-! ## The image -/

theorem inodeOf_root : (s.inodeOf 1).d = s.dinodeAt 1 := inodeOf_d (by decide)

/-- A copy of an inode that is in use is one of the inodes that have been made. -/
theorem Finish.copy {ip : inode} (h : Finish s₁ s) (hs : Shows l s₁) (hc : Fs.Copy sb s.fs ip)
    (h0 : ip.d.type ≠ 0) : ∃ i f, ip.inum.toNat = i + 1 ∧ l[i]? = some f ∧ ip.d = s.dinodeAt (i + 1) := by
  have hd : ip.d = s.dinodeAt ip.inum.toNat := hc.d
  obtain ⟨i, hi, hlt⟩ := h.made hs hc.lt (hd ▸ h0)
  exact ⟨i, _, hi, List.getElem?_eq_getElem hlt, hi ▸ hd⟩

theorem Finish.owns (h : Finish s₁ s) (hs : Shows l s₁) (hf : l[i]? = some f) :
    Layout.Owns (s.fs.InUse sb) s.blocks (s.dinodeAt (i + 1)) := by
  have ho := (hs.file i f hf).owns.congr fun r hr => h.blockRef hs (lt_of_getElem? hf) hr
  exact ⟨ho.inj, fun x hx => (h.inUse hs).mpr (ho.mem x hx)⟩

theorem Finish.reserved (h : Finish s₁ s) (hs : Shows l s₁) : s.fs.Reserved sb := by
  intro b hb hnot
  have hlow : nmeta ≤ s₁.freeblock.toNat := hs.freeblock ▸ Nat.le_add_right _ _
  refine (h.used b hb).mpr ?_
  by_contra hge
  refine hnot ⟨?_, hb⟩
  have hm : nmeta = 46 := by decide
  have hbm : sb.bmapstart + sb.size / BPB = 45 := by decide
  omega

theorem Finish.fileOk {ip : inode} (h : Finish s₁ s) (hs : Shows (tree files) s₁) (hc : Fs.Copy sb s.fs ip)
    (h0 : ip.d.type ≠ 0) : Fs.FileOk sb ip s.fs := by
  obtain ⟨i, f, -, hf, hd⟩ := h.copy hs hc h0
  obtain ⟨hsize, hmax⟩ := h.size hs hf
  exact ⟨hd ▸ h.owns hs hf, h.reserved hs, by rwa [hd, hsize], hc.lt⟩

/-- A block of the file for every byte, but for the size of the root directory. -/
theorem Finish.slot (h : Finish s₁ s) (hs : Shows l s₁) (hf : l[i]? = some f) (hk : k < MAXFILE) :
    Layout.slot s.blocks (s.dinodeAt (i + 1)) k ≠ 0 ↔ k < nblk f.2.length := by
  rw [Layout.slot, h.blockRef hs (lt_of_getElem? hf) (slotOf_lt hk)]
  exact (hs.file i f hf).filled.slot k hk

theorem Finish.noHole {ip : inode} (h : Finish s₁ s) (hs : Shows (tree files) s₁)
    (hf : (tree files)[i]? = some f) (hd : ip.d = s.dinodeAt (i + 1)) :
    s.fs.NoHole ip ip.d.size.toNat ↔ i ≠ 0 ∨ (files.length + 2) % 64 ≠ 0 := by
  obtain ⟨hsize, hmax⟩ := h.size hs hf
  have hslot : ∀ k < MAXFILE, Layout.slot s.fs.blocks ip.d k ≠ 0 ↔ k < nblk f.2.length := fun k hk => by
    rw [hd]
    exact h.slot hs hf hk
  rw [hd, hsize]
  unfold sizeOf at hmax ⊢
  by_cases hi : i = 0
  · rw [if_pos hi] at hmax ⊢
    obtain rfl : f = (T_DIR, dirBytes files) := by
      rw [hi] at hf
      exact (Option.some.inj hf).symm
    have hblk : (files.length + 2) % 64 ≠ 0 ↔ (dirBytes files).length / BSIZE < nblk (dirBytes files).length := by
      rw [dirBytes_length]
      unfold nblk
      simp only [BSIZE]
      omega
    have hlast : (dirBytes files).length / BSIZE < MAXFILE := by
      simp only [BSIZE] at *
      omega
    constructor
    · intro hno
      refine Or.inr (hblk.mpr ((hslot _ hlast).mp ?_))
      have := hno ((dirBytes files).length / BSIZE * BSIZE) (by simp only [BSIZE]; omega)
      rwa [Nat.mul_div_cancel _ (by decide)] at this
    · rintro (h0 | h64) k hk
      · exact absurd hi h0
      · have hdiv : k / BSIZE ≤ (dirBytes files).length / BSIZE := by
          simp only [BSIZE] at *
          omega
        exact (hslot _ (by omega)).mpr (lt_of_le_of_lt hdiv (hblk.mp h64))
  · rw [if_neg hi] at hmax ⊢
    refine iff_of_true (fun k hk => (hslot _ ?_).mpr ?_) (Or.inl hi)
    · exact Nat.div_lt_of_lt_mul (by simp only [BSIZE] at *; omega)
    · unfold nblk
      simp only [BSIZE]
      omega

/-- No two names of the root directory are the same for the kernel. -/
def NamesDiffer (files : List HostFile) : Prop :=
  ((ents files).map Prod.snd).Pairwise fun a b =>
    namecmp (fun i => a.getD i 0) (fun i => b.getD i 0) ≠ 0

theorem namesDiffer_iff : NamesDiffer files ↔ ∀ (i j : ℕ) (e e' : ℕ × List UInt8), (ents files)[i]? = some e →
    (ents files)[j]? = some e' → cut e.2 = cut e'.2 → i = j := by
  have hne : ∀ a b : List UInt8, namecmp (fun i => a.getD i 0) (fun i => b.getD i 0) ≠ 0 ↔ cut a ≠ cut b :=
    fun a b => not_congr namecmp_eq_zero
  unfold NamesDiffer
  rw [List.pairwise_map, List.pairwise_iff_getElem]
  simp only [hne]
  constructor
  · intro h i j e e' he he' hcut
    obtain ⟨hi, rfl⟩ := List.getElem?_eq_some_iff.mp he
    obtain ⟨hj, rfl⟩ := List.getElem?_eq_some_iff.mp he'
    rcases Nat.lt_trichotomy i j with hij | hij | hij
    · exact absurd hcut (h i j hi hj hij)
    · exact hij
    · exact absurd hcut.symm (h j i hj hi hij)
  · intro h i j hi hj hij hcut
    have := h i j _ _ (List.getElem?_eq_getElem hi) (List.getElem?_eq_getElem hj) hcut
    omega

theorem Finish.distinct (h : Finish s₁ s) (hs : Shows (tree files) s₁) :
    SlotMap.Distinct (s.fs.slots (s.inodeOf 1)) (Fs.entries (s.inodeOf 1)) ↔ NamesDiffer files := by
  obtain ⟨hsize, hmax⟩ := h.size hs (i := 0) rfl
  have hent : Fs.entries (s.inodeOf 1) = ((dirBytes files).length / BSIZE + 1) * BSIZE / 16 := by
    unfold Fs.entries
    rw [inodeOf_root, hsize]
    rfl
  rw [sizeOf, if_pos rfl] at hmax
  dsimp only at hmax
  rw [dirBytes_length] at hent hmax
  have hslots : ∀ k < Fs.entries (s.inodeOf 1), s.fs.slots (s.inodeOf 1) k =
      ((ents files)[k]?).map fun e => (cut e.2, e.1) := fun k hk => h.slots hs (by
    rw [hent] at hk
    simp only [BSIZE] at *
    omega)
  have hlt : ∀ (i : ℕ) e, (ents files)[i]? = some e → i < Fs.entries (s.inodeOf 1) := fun i e he => by
    obtain ⟨hi, -⟩ := List.getElem?_eq_some_iff.mp he
    rw [ents_length] at hi
    rw [hent]
    simp only [BSIZE]
    omega
  rw [namesDiffer_iff]
  constructor
  · intro hd i j e e' he he' hcut
    have hi := hlt i e he
    have hj := hlt j e' he'
    refine hd i hi j hj (cut e.2) e.1 e'.1 ?_ ?_
    · rw [hslots i hi, he]
      rfl
    · rw [hslots j hj, he', hcut]
      rfl
  · intro hn i hi j hj key v w hv hw
    rw [hslots i hi, Option.map_eq_some_iff] at hv
    rw [hslots j hj, Option.map_eq_some_iff] at hw
    obtain ⟨e, he, hev⟩ := hv
    obtain ⟨e', he', hew⟩ := hw
    refine hn i j e e' he he' ?_
    rw [show cut e.2 = key from congrArg Prod.fst hev, show cut e'.2 = key from congrArg Prod.fst hew]

/-- The root directory is in order. -/
theorem Finish.rootOk {ip : inode} (h : Finish s₁ s) (hs : Shows (tree files) s₁) (hc : Fs.Copy sb s.fs ip)
    (hd : ip.d = s.dinodeAt 1) (h64 : (files.length + 2) % 64 ≠ 0) (hnames : NamesDiffer files) :
    Fs.DirOk sb ip s.fs := by
  have htype : ip.d.type = T_DIR := hd ▸ (h.typed hs (i := 0) rfl).1
  obtain ⟨hsize, -⟩ := h.size hs (i := 0) rfl
  have hroot : (s.inodeOf 1).d = ip.d := inodeOf_root.trans hd.symm
  refine ⟨h.fileOk hs hc (by rw [htype]; decide), htype, ?_, ?_, ?_⟩
  · rw [hd, hsize, sizeOf, if_pos rfl]
    simp only [BSIZE]
    omega
  · exact (h.noHole hs (i := 0) rfl hd).mpr (Or.inr h64)
  · have hdist := (h.distinct hs).mpr hnames
    rw [Fs.slots_congr hroot] at hdist
    unfold Fs.entries at hdist ⊢
    rwa [hroot] at hdist

theorem tree_type (hf : (tree files)[i]? = some f) : f.1 = T_DIR ↔ i = 0 := by
  cases i with
  | zero =>
    obtain rfl : f = (T_DIR, dirBytes files) := (Option.some.inj hf).symm
    exact iff_of_true rfl rfl
  | succ i =>
    rw [tree, List.getElem?_cons_succ, List.getElem?_map, Option.map_eq_some_iff] at hf
    obtain ⟨g, -, rfl⟩ := hf
    exact iff_of_false (by show T_FILE ≠ T_DIR; decide) (Nat.succ_ne_zero i)

theorem tree_type_ne (hf : (tree files)[i]? = some f) : f.1 ≠ 0 := by
  by_cases hi : i = 0
  · rw [(tree_type hf).mpr hi]
    decide
  · obtain ⟨i, rfl⟩ := Nat.exists_eq_succ_of_ne_zero hi
    rw [tree, List.getElem?_cons_succ, List.getElem?_map, Option.map_eq_some_iff] at hf
    obtain ⟨g, -, rfl⟩ := hf
    show T_FILE ≠ 0
    decide

/-- **The disk is in order.** -/
theorem Finish.tidy (h : Finish s₁ s) (hs : Shows (tree files) s₁) (h64 : (files.length + 2) % 64 ≠ 0)
    (hnames : NamesDiffer files) : s.fs.Tidy sb := by
  refine ⟨⟨h.reserved hs, fun ip hc h0 => h.fileOk hs hc h0, ?_, ?_⟩, fun x hx => ?_, fun ip hc h0 => ?_⟩
  · intro ip ip' hc hc' hne h0 h0' x hx hx'
    obtain ⟨i, f, hi, hf, hd⟩ := h.copy hs hc h0
    obtain ⟨j, g, hj, hg, hd'⟩ := h.copy hs hc' h0'
    have hij : i ≠ j := fun hij => hne (UInt32.toNat_inj.mp (by omega))
    have hi' := lt_of_getElem? hf
    have hj' := lt_of_getElem? hg
    rw [hd] at hx
    rw [hd'] at hx'
    exact hs.apart i j hi' hj' hij x ((h.holds hs hi').mp hx) ((h.holds hs hj').mp hx')
  · intro dp hc hT
    obtain ⟨i, f, hi, hf, hd⟩ := h.copy hs hc (by rw [hT]; decide)
    rw [hd, (h.typed hs hf).1, tree_type hf] at hT
    subst hT
    exact h.rootOk hs hc hd h64 hnames
  · obtain ⟨i, hi, hx⟩ := hs.owned x ((h.inUse hs).mp hx)
    have hlt := hs.lt hi
    have hnat : (UInt32.ofNat (i + 1)).toNat = i + 1 := UInt32.toNat_ofNat_of_lt' (hlt.trans_le (by decide))
    have htype := (h.typed hs (List.getElem?_eq_getElem hi)).1
    have h0 := tree_type_ne (List.getElem?_eq_getElem hi)
    refine ⟨UInt32.ofNat (i + 1), ?_, ?_, ?_⟩
    · rw [hnat]
      exact hlt
    · rw [hnat]
      exact fun hz => h0 (htype.symm.trans hz)
    · rw [hnat]
      exact (h.holds hs hi).mpr hx
  · obtain ⟨i, f, -, hf, hd⟩ := h.copy hs hc h0
    exact (h.noHole hs hf hd).mpr (Or.inr h64)

theorem Finish.header (h : Finish s₁ s) (hs : Shows l s₁) : (diskHeader (s.blocks sb.logstart)).n = 0 := by
  have hb : s.blocks sb.logstart = fun _ => 0 := by
    rw [h.low _ (by decide), hs.reserved _ (by decide), zeroed_blocks (by decide)]
  have hload : ByteStore.load (fun _ => 0) 0 4 = 0 := ByteStore.load_zero fun _ _ => rfl
  rw [hb, diskHeader, hload]
  decide

/-- **Exactly when the image is clean.** -/
theorem Finish.clean (h : Finish s₁ s) (hs : Shows (tree files) s₁) :
    Journal.Clean mkfsSb s.blocks ↔ (files.length + 2) % 64 ≠ 0 ∧ NamesDiffer files := by
  constructor
  · intro hc
    have hcopy : Fs.Copy sb s.fs (s.inodeOf 1) := Fs.copy_inodeAt (by decide)
    have hdir := hc.tidy.disk.dir (s.inodeOf 1) hcopy (inodeOf_root ▸ (h.typed hs (i := 0) rfl).1)
    refine ⟨?_, (h.distinct hs).mp hdir.distinct⟩
    exact ((h.noHole hs (i := 0) rfl inodeOf_root).mp hdir.noHole).resolve_left (not_not_intro rfl)
  · rintro ⟨h64, hnames⟩
    exact ⟨h.header hs, h.tidy hs h64 hnames⟩

/-! ## The superblock -/

/-- **The kernel reads the superblock** that was stored. -/
theorem readsb_store {sb : superblock} {blocks : ℕ → Block} {m : Block} (hb : blocks 1 = sb.store m)
    (hlt : sb.magic < 2 ^ 32 ∧ sb.size < 2 ^ 32 ∧ sb.nblocks < 2 ^ 32 ∧ sb.ninodes < 2 ^ 32 ∧
      sb.nlog < 2 ^ 32 ∧ sb.logstart < 2 ^ 32 ∧ sb.inodestart < 2 ^ 32 ∧ sb.bmapstart < 2 ^ 32) :
    readsb blocks = sb := by
  obtain ⟨h1, h2, h3, h4, h5, h6, h7, h8⟩ := hlt
  have hload : ∀ {m : Block} {a v : ℕ}, v < 2 ^ 32 → (m.store a 4 v).load a 4 = v := fun hv => by
    rw [ByteStore.load_store]
    exact Nat.mod_eq_of_lt hv
  unfold readsb superblock.store at *
  rw [hb]
  simp (disch := omega) only [hload h8, ByteStore.load_store_out, hload h1, hload h2, hload h3, hload h4,
    hload h5, hload h6, hload h7]

theorem Finish.readsb (h : Finish s₁ s) (hs : Shows l s₁) : readsb s.blocks = mkfsSb := by
  refine readsb_store (m := fun _ => 0) ?_ (by decide)
  rw [h.low 1 (by decide), hs.reserved 1 (by decide)]
  show Function.update (fun _ _ => 0 : ℕ → Block) 1 (sb.store fun _ => 0) 1 = _
  rw [Function.update_self]
  rfl

/-! ## Booting -/

theorem Finish.isFile (h : Finish s₁ s) (hs : Shows l s₁) (hf : l[i]? = some f) (hi : i ≠ 0) :
    (s.dinodeAt (i + 1)).size.toNat = f.2.length ∧ ∀ (writable : ℕ → Bool) (dst : ByteStore) (off n : ℕ),
      off ≤ f.2.length → off + n < 2 ^ 32 → (∀ k < n, writable k = true) →
      s.fs.readi sb writable dst off n (s.inodeOf (i + 1)) = .ok ((min n (f.2.length - off) : ℕ),
        dst.blit 0 (min n (f.2.length - off)) (fun k => f.2.getD (off + k) 0), s.inodeOf (i + 1), s.fs) := by
  have hfile := hs.file i f hf
  have hlt := lt_of_getElem? hf
  have hd := h.other _ (hs.lt hlt) (by omega)
  have hB : ∀ x, Holds s₁.blocks (s₁.dinodeAt (i + 1)) x → s.blocks x = s₁.blocks x := fun x hx =>
    h.data x (hfile.owns.mem x hx).1
  -- the counters are of no use any more
  have hfile' : IsFile { s with freeblock := s₁.freeblock } (i + 1) f := hfile.frame hd hB fun _ hx => hx
  exact ⟨hfile'.size_eq, fun writable dst off n hoff hlt' hw =>
    hfile'.readi (hs.lt hlt) writable dst hoff hlt' hw⟩

theorem ents_file (hf : files[k]? = some file) : (ents files)[k + 2]? = some (k + 2, fileName file.path) := by
  rw [ents, List.getElem?_cons_succ, List.getElem?_cons_succ, List.getElem?_mapIdx, hf]
  rfl

theorem tree_file (hf : files[k]? = some file) : (tree files)[k + 1]? = some (T_FILE, file.reads.flatten) := by
  rw [tree, List.getElem?_cons_succ, List.getElem?_map, hf]
  rfl

theorem Finish.rootDir (h : Finish s₁ s) (hs : Shows (tree files) s₁) (hc : Journal.Clean mkfsSb s.blocks) :
    Fs.DirOk sb (s.inodeOf 1) s.fs :=
  hc.tidy.disk.dir (s.inodeOf 1) (Fs.copy_inodeAt (by decide))
    (inodeOf_root ▸ (h.typed hs (i := 0) rfl).1)

/-- The entry of a file. -/
theorem Finish.find (h : Finish s₁ s) (hs : Shows (tree files) s₁) (hc : Journal.Clean mkfsSb s.blocks)
    (hf : files[k]? = some file) :
    SlotMap.find (s.fs.slots (s.inodeOf 1)) (Fs.entries (s.inodeOf 1)) (cut (fileName file.path)) =
      some (k + 2, k + 2) := by
  obtain ⟨hsize, hmax⟩ := h.size hs (i := 0) rfl
  have hk : k < files.length := (List.getElem?_eq_some_iff.mp hf).1
  have hent : k + 2 < Fs.entries (s.inodeOf 1) ∧ 16 * (k + 2) + 16 ≤ MAXFILE * BSIZE := by
    unfold Fs.entries
    rw [inodeOf_root, hsize]
    rw [sizeOf, if_pos rfl] at hmax ⊢
    dsimp only at hmax ⊢
    rw [dirBytes_length] at hmax ⊢
    simp only [BSIZE] at *
    omega
  have hslot := h.slots hs hent.2
  rw [ents_file hf] at hslot
  exact (h.rootDir hs hc).distinct.find_eq_some.mpr ⟨hent.1, hslot⟩

/-- The kernel finds the file by its name. -/
theorem Finish.lookup (h : Finish s₁ s) (hs : Shows (tree files) s₁) (hc : Journal.Clean mkfsSb s.blocks)
    (hf : files[k]? = some file) :
    s.fs.dirlookup mkfsSb (fun i => (fileName file.path).getD i 0) (s.inodeOf 1) =
      .ok (some (k + 2, 16 * (k + 2)), s.inodeOf 1, s.fs) := by
  have hlook := @Fs.DirOk.dirlookup _ _ _ (fun i => (fileName file.path).getD i 0) (h.rootDir hs hc)
  rw [show cstr DIRSIZ (fun i => (fileName file.path).getD i 0) = cut (fileName file.path) from rfl,
    h.find hs hc hf] at hlook
  exact hlook

/-- **The kernel boots from the image of `mkfs`**: if the files fit and no name has a slash, `mkfs` exits with 0,
and its image is clean exactly if the root directory does not end with a block and no two names are the same.
Then the kernel finds every file under its name, reads back its bytes, and in every state of every run of
`crash_safe` the file system is sound. -/
theorem image_boots (hslash : ∀ f ∈ files, 47 ∉ shortname f.path) (hfits : Fits (tree files)) :
    ∃ s, main files = .ok s ∧ Xv6.readsb s.blocks = mkfsSb ∧
      (Journal.Clean mkfsSb s.blocks ↔ (files.length + 2) % 64 ≠ 0 ∧ NamesDiffer files) ∧
      (Journal.Clean mkfsSb s.blocks →
        (∀ (k : ℕ) f, files[k]? = some f →
          s.fs.dirlookup mkfsSb (fun i => (fileName f.path).getD i 0) (s.inodeOf 1) =
            .ok (some (k + 2, 16 * (k + 2)), s.inodeOf 1, s.fs) ∧
          (s.dinodeAt (k + 2)).type = T_FILE ∧ (s.dinodeAt (k + 2)).nlink = 1 ∧
          (s.dinodeAt (k + 2)).size.toNat = f.reads.flatten.length ∧
          ∀ (writable : ℕ → Bool) (dst : ByteStore) (off n : ℕ), off ≤ f.reads.flatten.length →
            off + n < 2 ^ 32 → (∀ k < n, writable k = true) →
            s.fs.readi mkfsSb writable dst off n (s.inodeOf (k + 2)) =
              .ok ((min n (f.reads.flatten.length - off) : ℕ),
                dst.blit 0 (min n (f.reads.flatten.length - off)) (fun k => f.reads.flatten.getD (off + k) 0),
                s.inodeOf (k + 2), s.fs)) ∧
        ∀ t v, Runs.Steps (Journal.step mkfsSb) (Journal.Proper mkfsSb) (Journal.start s.blocks) t →
          t.vol = some v → Volume.Sound mkfsSb v) := by
  obtain ⟨s₁, s, heq, hs, h⟩ := main_shows hslash hfits
  refine ⟨s, heq, h.readsb hs, h.clean hs, fun hc => ⟨fun k f hf => ?_, fun t v hrun hv => ?_⟩⟩
  · have htree := tree_file hf
    obtain ⟨htype, hlink⟩ := h.typed hs htree
    obtain ⟨hsize, hread⟩ := h.isFile hs htree (Nat.succ_ne_zero k)
    exact ⟨h.lookup hs hc hf, htype, hlink, hsize, hread⟩
  · have hok := hc.run Fs.mkfsSb_ok ⟨by decide, by decide⟩ (by decide) (by decide) (by decide) hrun
    exact (hok.vol hv).2.1

/-- The names are compared. -/
instance (files : List HostFile) : Decidable (NamesDiffer files) := inferInstanceAs (Decidable (List.Pairwise _ _))

/-- `"user/_a"`, of three bytes. -/
def oneFile : HostFile :=
  { path := [117, 115, 101, 114, 47, 95, 97], reads := [[1, 2], [3]], read_ok := by decide }

theorem image_boots_file : ∃ s, main [oneFile] = .ok s ∧ Journal.Clean mkfsSb s.blocks ∧
    s.fs.dirlookup mkfsSb (fun i => [97].getD i 0) (s.inodeOf 1) =
      .ok (some (2, 32), s.inodeOf 1, s.fs) ∧
    s.fs.readi mkfsSb (fun _ => true) (fun _ => 0) 1 100 (s.inodeOf 2) =
      .ok (2, ByteStore.blit (fun _ => 0) 0 2 (fun k => [1, 2, 3].getD (1 + k) 0), s.inodeOf 2, s.fs) := by
  obtain ⟨s, heq, -, hclean, hboot⟩ := image_boots (by decide : ∀ f ∈ [oneFile], 47 ∉ shortname f.path)
    ⟨by decide, by decide +kernel, by decide +kernel⟩
  have hc := hclean.mpr ⟨by decide, by decide +kernel⟩
  obtain ⟨hlook, -, -, -, hread⟩ := (hboot hc).1 0 oneFile rfl
  exact ⟨s, heq, hc, hlook, hread (fun _ => true) (fun _ => 0) 1 100 (by decide) (by decide) fun _ _ => rfl⟩

end Mkfs

end Xv6
