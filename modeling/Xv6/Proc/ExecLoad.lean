import Xv6.Kernel.Fs
import Xv6.Proc.ExecArgs

/-!
# ExecLoad — the segments that `exec` loads

* `Elf.Loads`: the program headers and the segments are in the file, and the memory holds the segments.
* `exec_loads_iff`: this is so exactly if the fields `phoff` and `off`, which `exec` cuts to 32 bits, fit.
-/

namespace Xv6

/-- The fields of a program header that `exec` uses, and the file's offset. -/
structure proghdr where
  type : ℕ
  off : ℕ
  vaddr : ℕ
  filesz : ℕ
  memsz : ℕ
  deriving DecidableEq

def proghdr.ofBytes (ph : List UInt8) : proghdr :=
  { type := field ph 0 4, off := field ph 8 8, vaddr := field ph 16 8, filesz := field ph 32 8,
    memsz := field ph 40 8 }

namespace Elf

def phoff (file : List UInt8) : ℕ := field (file.take 64) 32 8

def phnum (file : List UInt8) : ℕ := field (file.take 64) 56 2

/-- The `n` program headers from offset `off` on. -/
def headers (file : List UInt8) : ℕ → ℕ → List proghdr
  | _, 0 => []
  | off, n + 1 => proghdr.ofBytes ((file.drop off).take 56) :: headers file (off + 56) n

def segmentsAt (file : List UInt8) (off n : ℕ) : List proghdr :=
  (headers file off n).filter fun ph => ph.type = ELF_PROG_LOAD

/-- The loadable segments, all fields read as 64-bit values. -/
def segments (file : List UInt8) : List proghdr := segmentsAt file (phoff file) (phnum file)

/-- The memory `m` is what the file says, and the file has all that it refers to. -/
structure Loads (file : List UInt8) (m : ByteStore) : Prop where
  headers : ∀ j < phnum file, phoff file + 56 * j + 56 ≤ file.length
  ranges : ∀ ph ∈ segments file, 0 < ph.filesz → ph.off + ph.filesz ≤ file.length
  bytes : (segments file).Pairwise (fun ph ph' => ph.vaddr + ph.memsz ≤ ph'.vaddr) →
    ∀ ph ∈ segments file, (∀ k < ph.filesz, m (ph.vaddr + k) = file.getD (ph.off + k) 0) ∧
      ∀ k, ph.filesz ≤ k → k < ph.memsz → m (ph.vaddr + k) = 0

/-- The offsets that `exec` keeps in 32 bits fit. -/
structure Fits (file : List UInt8) : Prop where
  headers : phnum file = 0 ∨ phoff file < 2 ^ 32
  ranges : ∀ ph ∈ segments file, 0 < ph.filesz → ph.off < 2 ^ 32

/-- What `loadseg` writes for a segment. -/
def write (file : List UInt8) (ph : proghdr) : ByteStore.Write :=
  { addr := ph.vaddr, len := ph.filesz, src := fun k => file.getD (uint32 ph.off + k) 0 }

end Elf

theorem Elf.segmentsAt_succ (file : List UInt8) (off n : ℕ) : segmentsAt file off (n + 1) =
    if (proghdr.ofBytes ((file.drop off).take 56)).type = ELF_PROG_LOAD then
      proghdr.ofBytes ((file.drop off).take 56) :: segmentsAt file (off + 56) n
    else segmentsAt file (off + 56) n := by
  rw [segmentsAt, headers, List.filter_cons]
  simp only [decide_eq_true_eq]
  rfl

variable [Image] {S T : Sys} {i : Fin NPROC} {L R K : Multiset ℕ} {s₀ s s' : Phys} {file : List UInt8}
  {r sz newsz va : ℕ} {m : ByteStore}

/-! ## `loadseg` -/

omit [Image] in
theorem field_lt (bytes : List UInt8) (off : ℕ) : field bytes off 8 < 2 ^ 64 := ByteStore.load_lt

omit [Image] in
/-- The bytes that `readi` has read in full. -/
theorem readi_full {off n : ℕ} (hn : ((Inode.ofFile file).readi off n).length = n) (h0 : 0 < n) :
    off + n ≤ file.length ∧ ∀ k < n, ((Inode.ofFile file).readi off n).getD k 0 = file.getD (off + k) 0 := by
  have hn : ((file.drop off).take n).length = n := hn
  rw [List.length_take, List.length_drop] at hn
  refine ⟨by omega, fun k hk => ?_⟩
  show ((file.drop off).take n).getD k 0 = _
  simp only [List.getD_eq_getElem?_getD, List.getElem?_take, hk, if_true, List.getElem?_drop]

/-- **`loadseg`** writes the bytes of the file, which has them all. -/
theorem Built.loadseg_shows {offset len rounds i : ℕ} {res : ℤ} (h : Built s₀ s r sz R K L)
    (hm : Shows s r sz m) (hfile : file.length < 2 ^ 31) (hva : va % 4096 = 0) (hi : i % 4096 = 0)
    (hlen : va + len ≤ sz) (hoff : offset + i < 2 ^ 32) (hrounds : rounds = (len - i + 4095) / 4096)
    (hl : loadsegLoop r va (Inode.ofFile file) offset len rounds i s = .ok (res, s')) (hres : ¬ res < 0) :
    Shows s' r sz (m.blit (va + i) (len - i) fun k => file.getD (offset + i + k) 0) ∧
      (i < len → offset + len ≤ file.length) := by
  induction rounds generalizing s i m with
  | zero =>
    cases hl
    have h0 : len - i = 0 := by omega
    rw [h0, ByteStore.blit_zero]
    exact ⟨hm, fun hlt => absurd hlt (by omega)⟩
  | succ rounds ih =>
    have hsz : sz ≤ 274877898752 := h.shape.le
    have hlt : i < len := by omega
    have hvai : uint64 (va + i) = va + i := Nat.mod_eq_of_lt (by omega)
    have hoffi : uint32 (offset + i) = offset + i := Nat.mod_eq_of_lt hoff
    unfold loadsegLoop at hl
    dsimp only at hl
    rw [hvai, hoffi] at hl
    generalize hn : (if len - i < PGSIZE then len - i else PGSIZE) = n at hl
    have hn' : n = min (len - i) 4096 := by
      rw [← hn]
      simp only [PGSIZE]
      split_ifs <;> omega
    have hn4 : n ≤ 4096 := by omega
    split_ifs at hl with h0 hd
    · cases hl
      exact absurd (by decide) hres
    rw [not_not] at hd
    obtain ⟨hin, hget⟩ := readi_full hd (by omega)
    rw [hd] at hl
    generalize (Inode.ofFile file).readi (offset + i) n = data at hl hget
    have hmod : (va + i) % 4096 = 0 := by omega
    have h₁ : Built s₀ (s.memmove (walkaddr r (va + i) s) n fun k => data.getD k 0) r sz R K L :=
      h.write h0 hn4
    have hm₁ : Shows (s.memmove (walkaddr r (va + i) s) n fun k => data.getD k 0) r sz
        (m.blit (va + i) n fun k => data.getD k 0) := h.write_shows hm h0 hmod hn4
    rw [ByteStore.blit_congr hget] at hm₁
    obtain ⟨hs, hle⟩ := ih (i := i + 4096) h₁ hm₁ (by omega) (by omega) (by omega) hl
    refine ⟨?_, fun _ => ?_⟩
    · by_cases hrest : len ≤ i + 4096
      · rw [show len - (i + 4096) = 0 by omega, ByteStore.blit_zero] at hs
        rwa [show len - i = n by omega]
      · have hn4096 : n = 4096 := by omega
        subst hn4096
        have hjoin : len - i = 4096 + (len - (i + 4096)) := by omega
        rw [hjoin, ← Paged.blit_blit]
        have hsrc : (fun k => file.getD (offset + (i + 4096) + k) 0) =
            fun k => file.getD (offset + i + (4096 + k)) 0 := by
          funext k
          congr 1
          omega
        rwa [hsrc, ← Nat.add_assoc] at hs
    · by_cases hrest : len ≤ i + 4096
      · omega
      · exact hle (by omega)

/-! ## The segments -/

/-- An image has at most as many pages as the machine. -/
theorem Built.pages_le_ram (h : Built s₀ s r sz R K L) : pages sz ≤ 32768 := by
  have hinj := h.plain.inj h.heap.space.user
  have hU := pages_le h.shape.le
  have hcard := card_pages_le (T := (Multiset.range (pages sz)).map fun v => PTE2PA (leaf s.mem r v))
    (Multiset.Nodup.map_on (fun v hv w hw he => ?_) (Multiset.nodup_range _)) fun p hp => ?_
  · rwa [Multiset.card_map, Multiset.card_range] at hcard
  · rw [Multiset.mem_range] at hv hw
    exact hinj v (hv.trans_le hU) w (hw.trans_le hU) (h.full v hv) (h.full w hw) he
  · obtain ⟨v, hv, rfl⟩ := Multiset.mem_map.mp hp
    rw [Multiset.mem_range] at hv
    refine h.heap.space.owns.ok_right (Multiset.mem_add.mpr (Or.inl ?_))
    exact mem_leafRefs.mpr ⟨v, hv.trans_le hU, h.full v hv, rfl⟩

/-- What the loop over the program headers has loaded. -/
structure Elf.Loaded (file : List UInt8) (off n newsz : ℕ) : Prop where
  headers : n = 0 ∨ off + 56 * n ≤ file.length
  segments : ∀ ph ∈ segmentsAt file off n, ph.filesz ≤ ph.memsz ∧ ph.vaddr + ph.memsz ≤ newsz ∧
    (0 < ph.filesz → uint32 ph.off + ph.filesz ≤ file.length)

/-- **The loop over the program headers** places the segments one after the other. -/
theorem Built.loadLoop_shows {n off : ℕ} (h : Built s₀ s r sz R K L) (hm : Shows s r sz m)
    (hfile : file.length < 2 ^ 31) (hoff : off < 2 ^ 32)
    (hl : Xv6.loadLoop r (Inode.ofFile file) n off sz s = .ok (true, newsz, s')) :
    sz ≤ newsz ∧ Elf.Loaded file off n newsz ∧
      Shows s' r newsz (m.writes ((Elf.segmentsAt file off n).map (Elf.write file))) := by
  induction n generalizing s off sz m with
  | zero =>
    cases hl
    exact ⟨le_rfl, ⟨Or.inl rfl, fun ph hph => absurd hph List.not_mem_nil⟩, hm⟩
  | succ n ih =>
    unfold Xv6.loadLoop at hl
    dsimp only at hl
    by_cases hlen : ((Inode.ofFile file).readi off 56).length = 56
    swap
    · rw [if_pos hlen] at hl
      cases hl
    rw [if_neg (not_not.mpr hlen)] at hl
    obtain ⟨hin, -⟩ := readi_full hlen (by decide)
    have hnext : uint32 (off + 56) = off + 56 := Nat.mod_eq_of_lt (by omega)
    have hheads : n = 0 ∨ off + 56 + 56 * n ≤ file.length → n + 1 = 0 ∨ off + 56 * (n + 1) ≤ file.length :=
      fun hn => by omega
    have hcons := Elf.segmentsAt_succ file off n
    rw [hnext] at hl
    generalize hph : proghdr.ofBytes ((file.drop off).take 56) = ph at hcons
    obtain ⟨hft, hfo, hfv, hff, hfm⟩ : field ((Inode.ofFile file).readi off 56) 0 4 = ph.type ∧
        field ((Inode.ofFile file).readi off 56) 8 8 = ph.off ∧
        field ((Inode.ofFile file).readi off 56) 16 8 = ph.vaddr ∧
        field ((Inode.ofFile file).readi off 56) 32 8 = ph.filesz ∧
        field ((Inode.ofFile file).readi off 56) 40 8 = ph.memsz := by
      subst hph
      exact ⟨rfl, rfl, rfl, rfl, rfl⟩
    have hv64 : ph.vaddr < 2 ^ 64 := hfv ▸ field_lt _ _
    have hm64 : ph.memsz < 2 ^ 64 := hfm ▸ field_lt _ _
    rw [hft, hfo, hfv, hff, hfm] at hl
    by_cases htype : ph.type = ELF_PROG_LOAD
    swap
    · rw [if_pos htype] at hl
      obtain ⟨hle, hL, hs⟩ := ih h hm (by omega) hl
      rw [hcons, if_neg htype]
      refine ⟨hle, ⟨hheads hL.headers, ?_⟩, hs⟩
      rw [hcons, if_neg htype]
      exact hL.segments
    rw [if_neg (not_not.mpr htype)] at hl
    by_cases hbad : ph.memsz < ph.filesz ∨ uint64 (ph.vaddr + ph.memsz) < ph.vaddr ∨ ph.vaddr % PGSIZE ≠ 0
    · rw [if_pos hbad] at hl
      cases hl
    rw [if_neg hbad] at hl
    simp only [not_or, not_lt, not_not] at hbad
    obtain ⟨hfm', hwrap, halign⟩ := hbad
    have hsum : uint64 (ph.vaddr + ph.memsz) = ph.vaddr + ph.memsz := by
      unfold uint64 at hwrap ⊢
      omega
    obtain ⟨⟨sz1, s₁⟩, hu, hl⟩ := bind_ok hl
    by_cases h0 : sz1 = 0
    · simp only [h0, if_true] at hl
      cases hl
    simp only [h0, if_false] at hl
    obtain ⟨hsz1, hm₁, -⟩ := h.uvmalloc_shows hm (userPerm_flags2perm _) hu h0
    rw [hsum] at hsz1
    obtain ⟨hz, -⟩ | ⟨-, h₁⟩ := h.uvmalloc (userPerm_flags2perm _) hu
    · exact absurd hz h0
    have hram := h₁.pages_le_ram
    have hsmall : sz1 ≤ 134217728 := by
      unfold pages at hram
      omega
    obtain ⟨⟨r₁, s₂⟩, hg, hl⟩ := bind_ok hl
    dsimp only at hl
    by_cases hr : r₁ < 0
    · rw [if_pos hr] at hl
      cases hl
    rw [if_neg hr] at hl
    have hf32 : uint32 ph.filesz = ph.filesz := Nat.mod_eq_of_lt (by omega)
    have ho32 : uint32 ph.off < 2 ^ 32 := Nat.mod_lt _ (by decide)
    rw [hf32] at hg
    unfold Xv6.loadseg at hg
    have hend : ph.vaddr + ph.filesz ≤ sz1 := by omega
    have hrounds : (ph.filesz + PGSIZE - 1) / PGSIZE = (ph.filesz - 0 + 4095) / 4096 := by
      simp only [PGSIZE]
      omega
    obtain ⟨hm₂, hin₂⟩ := h₁.loadseg_shows (i := 0) hm₁ hfile halign rfl hend ho32 hrounds hg hr
    obtain ⟨hle, hL, hs⟩ := ih (h₁.loadseg hg) hm₂ (by omega) hl
    rw [hcons, if_pos htype]
    refine ⟨by omega, ⟨hheads hL.headers, fun ph' hph' => ?_⟩, hs⟩
    rw [hcons, if_pos htype] at hph'
    rcases List.mem_cons.mp hph' with rfl | hph'
    · exact ⟨hfm', by omega, hin₂⟩
    · exact hL.segments ph' hph'

/-! ## The stack above the segments -/

theorem copyout_zero {dstva len : ℕ} {src : ℕ → UInt8} {res : ℤ}
    (hc : copyout r dstva src len s = .ok (res, s')) (h : ¬ res < 0) : res = 0 := by
  unfold copyout at hc
  cases hl : copyoutLoop r len dstva src len s with
  | error e => rw [hl] at hc; cases hc
  | ok x =>
    rw [hl] at hc
    cases hc
    split_ifs at h ⊢
    · rfl
    · exact absurd (by decide) h

/-- The pushes leave what is below the stack. -/
theorem Built.pushLoop_frame {base sp : ℕ} {argv : List (List UInt8)} {ustack : List ℕ} {x : ℕ × List ℕ}
    (h : Built s₀ s r sz R K L) (hm : Shows s r sz m)
    (hp : Xv6.pushLoop r base argv sp ustack s = .ok (some x, s')) :
    ∃ m', Shows s' r sz m' ∧ ∀ a < base, m' a = m a := by
  induction argv generalizing s sp ustack m with
  | nil =>
    cases hp
    exact ⟨m, hm, fun _ _ => rfl⟩
  | cons arg argv ih =>
    unfold Xv6.pushLoop at hp
    dsimp only at hp
    split_ifs at hp with _ hsp
    · cases hp
    · cases hp
    · obtain ⟨⟨r₁, s₁⟩, hc, hp⟩ := bind_ok hp
      dsimp only at hp
      split_ifs at hp with hr
      · cases hp
      · obtain ⟨m', hm', hframe⟩ := ih (h.copyout hc) (h.copyout_shows hm hc (copyout_zero hc hr)) hp
        refine ⟨m', hm', fun a ha => ?_⟩
        rw [hframe a ha, ByteStore.blit_out (by omega)]

theorem Built.setupStack_frame {argv : List (List UInt8)} {sp : ℕ} (h : Built s₀ s r sz R K L)
    (hm : Shows s r sz m) (hs : Xv6.setupStack r sz argv s = .ok (some sp, newsz, s')) :
    sz ≤ newsz ∧ ∃ m', Shows s' r newsz m' ∧ ∀ a < sz, m' a = m a := by
  have hle : sz ≤ 274877898752 := h.shape.le
  have hup : PGROUNDUP sz % 4096 = 0 ∧ sz ≤ PGROUNDUP sz := by
    unfold PGROUNDUP uint64
    simp only [PGSIZE]
    omega
  unfold Xv6.setupStack at hs
  dsimp only at hs
  obtain ⟨⟨sz₁, s₁⟩, hu, hs⟩ := bind_ok hs
  dsimp only at hs
  split_ifs at hs with h0
  · cases hs
  obtain ⟨hsz₁, hle₁, s₂, hc₂, h₂, hm₂, -⟩ := h.roundup.stackPage (hm.roundup h.shape.le) hup.1 hu h0
  have hle₁' : sz₁ ≤ 274877898752 := hle₁
  have hsz₁' : sz₁ = PGROUNDUP sz + 8192 := hsz₁
  have hbase : sub64 sz₁ PGSIZE = PGROUNDUP sz + 4096 := by
    unfold sub64 uint64
    simp only [PGSIZE]
    omega
  rw [hc₂, ok_bind, hbase] at hs
  obtain ⟨⟨o, s₃⟩, hp, hs⟩ := bind_ok hs
  obtain _ | ⟨sp', ustack⟩ := o
  · cases hs
  obtain ⟨m₃, hm₃, hframe⟩ := h₂.pushLoop_frame hm₂ hp
  dsimp only at hs
  split_ifs at hs with hsp
  · cases hs
  obtain ⟨⟨r₁, s₄⟩, hc, hs⟩ := bind_ok hs
  dsimp only at hs
  split_ifs at hs with hr
  · cases hs
  cases hs
  refine ⟨by omega, _, (h₂.pushLoop hp).copyout_shows hm₃ hc (copyout_zero hc hr), fun a ha => ?_⟩
  rw [ByteStore.blit_out (by omega), hframe a (by omega)]

/-! ## The memory of the process -/

omit [Image] in
/-- The files that `exec` reads right. -/
theorem Elf.Loaded.loads {m' : ByteStore} (hL : Elf.Loaded file (Elf.phoff file) (Elf.phnum file) sz) (hfit : Elf.Fits file)
    (hm : ∀ a < sz, m' a = ByteStore.writes (fun _ => 0) ((Elf.segments file).map (Elf.write file)) a) :
    Elf.Loads file m' := by
  have hoff : ∀ ph ∈ Elf.segments file, 0 < ph.filesz → uint32 ph.off = ph.off := fun ph hph h0 =>
    Nat.mod_eq_of_lt (hfit.ranges ph hph h0)
  refine ⟨fun j hj => ?_, fun ph hph h0 => ?_, fun hasc ph hph => ⟨fun k hk => ?_, fun k hk hk' => ?_⟩⟩
  · have := hL.headers
    omega
  · have := (hL.segments ph hph).2.2 h0
    rwa [hoff ph hph h0] at this
  · obtain ⟨hle, hend, -⟩ := hL.segments ph hph
    have hpair : ((Elf.segments file).map (Elf.write file)).Pairwise fun v w => v.addr + v.len ≤ w.addr := by
      refine List.pairwise_map.mpr (hasc.imp_of_mem fun {u v} hu _ huv => ?_)
      exact (Nat.add_le_add_left (hL.segments u hu).1 _).trans huv
    have hw := ByteStore.writes_in (m := fun _ => 0) hpair (List.mem_map_of_mem hph) hk
    rw [hm _ (by omega), show ph.vaddr = (Elf.write file ph).addr from rfl, hw]
    show file.getD (uint32 ph.off + k) 0 = _
    rw [hoff ph hph (by omega)]
  · obtain ⟨hle, hend, -⟩ := hL.segments ph hph
    rw [hm _ (by omega)]
    exact ByteStore.writes_gap (f := Elf.write file) hasc (fun u hu => (hL.segments u hu).1) hph hk hk'

/-- The loop over the program headers reads them where the file says. -/
theorem Built.fits_shows (h : Built s₀ s r 0 R K L) (hfile : file.length < 2 ^ 31) (hfit : Elf.Fits file)
    (hl : Xv6.loadLoop r (Inode.ofFile file) (Elf.phnum file) (uint32 (Elf.phoff file)) 0 s =
      .ok (true, sz, s')) :
    Elf.Loaded file (Elf.phoff file) (Elf.phnum file) sz ∧
      Shows s' r sz (ByteStore.writes (fun _ => 0) ((Elf.segments file).map (Elf.write file))) := by
  unfold Elf.segments
  rcases hfit.headers with h0 | h0
  · rw [h0] at hl ⊢
    cases hl
    exact ⟨⟨Or.inl rfl, fun ph hph => absurd hph List.not_mem_nil⟩, shows_empty⟩
  · rw [show uint32 (Elf.phoff file) = Elf.phoff file from Nat.mod_eq_of_lt h0] at hl
    exact (h.loadLoop_shows shows_empty hfile h0 hl).2

/-- **`exec` loads what the file says** exactly if its header offset and its segment offsets, of which
`exec` keeps 32 bits, have no more. -/
theorem exec_loads_iff {path : List UInt8} {argv : List (List UInt8)} {namei : List UInt8 → Option Inode}
    {res : ℤ} (h : MemOk L S) (hi : S.Live i) (hfile : file.length ≤ MAXFILE * BSIZE)
    (hip : namei path = some (Inode.ofFile file)) (he : exec i path argv namei S = .ok (res, T))
    (hres : res ≠ -1) : Elf.Loads file (T.byte i) ↔ Elf.Fits file := by
  have hfile' : file.length < 2 ^ 31 := lt_of_le_of_lt hfile (by decide)
  constructor
  · intro hl
    refine ⟨?_, fun ph hph h0 => ?_⟩
    · rcases Nat.eq_zero_or_pos (Elf.phnum file) with h0 | h0
      · exact Or.inl h0
      · have := hl.headers 0 h0
        exact Or.inr (by omega)
    · have := hl.ranges ph hph h0
      omega
  intro hfit
  unfold exec at he
  rw [hip] at he
  dsimp only at he
  obtain ⟨⟨o, pagetable, sz₁, s⟩, hb, he⟩ := bind_ok he
  cases o with
  | none =>
    obtain ⟨s', -, he⟩ := bind_ok he
    cases he
    exact absurd rfl hres
  | some sp =>
    obtain ⟨s', hf, he⟩ := bind_ok he
    cases he
    obtain ⟨-, hview⟩ := h.commit_view (progname path) hi hb hf rfl
    obtain ⟨sz, s₂, hready, hstack⟩ := buildImage_some hb
    obtain ⟨s₁, hp, h0, hload⟩ := hready.elf.load
    obtain ⟨hL, hm⟩ := (h.heap.emptyImage hp h0).fits_shows hfile' hfit hload
    obtain ⟨hle, m', hm', hframe⟩ := (h.heap.elfLoaded hready.elf).setupStack_frame hm hstack
    refine hL.loads hfit fun a ha => ?_
    have hpage : a < pages sz₁ * 4096 := by
      unfold pages
      omega
    rw [hview a hpage, hm'.byte a hpage, hframe a ha]

/-! ## On a small machine -/

/-- An executable with one segment, of eight bytes at offset 120, if `high` is 0; `high` is the fifth byte of
its field `off`. -/
def segElf (high : UInt8) : List UInt8 :=
  [0x7F, 0x45, 0x4C, 0x46] ++ List.replicate 28 0 ++ [64] ++ List.replicate 23 0 ++ [1] ++
  List.replicate 7 0 ++ [1, 0, 0, 0, 7, 0, 0, 0, 120, 0, 0, 0, high] ++ List.replicate 19 0 ++ [8] ++
  List.replicate 7 0 ++ [8] ++ List.replicate 15 0 ++ [1, 2, 3, 4, 5, 6, 7, 8]

/-- The field `off` has one bit more than 32. -/
def farElf : List UInt8 := segElf 1

omit [Image] in
/-- The segment is outside the file, and `exec` succeeds. -/
theorem exec_loads_outside : ∃ S T, @allocproc smallImage (Sys.boot smallPhys) = .ok (some 0, S) ∧
    @exec smallImage 0 [47] [] (fun _ => some (Inode.ofFile farElf)) S = .ok (0, T) ∧
      (Elf.segments farElf).Pairwise (fun ph ph' => ph.vaddr + ph.memsz ≤ ph'.vaddr) ∧
      ¬ Elf.Loads farElf (T.byte 0) := by
  obtain ⟨S, hS, -, -, T, hT⟩ := exec_small [47] (Inode.ofFile farElf) [] (by decide +kernel)
  refine ⟨S, T, hS, hT, by decide +kernel, fun hl => ?_⟩
  have hmem : (⟨1, 2 ^ 32 + 120, 0, 8, 8⟩ : proghdr) ∈ Elf.segments farElf := by decide +kernel
  have hrange : 2 ^ 32 + 120 + 8 ≤ farElf.length := hl.ranges _ hmem (by decide)
  exact absurd hrange (by decide +kernel)

omit [Image] in
/-- The segment is inside the file, and its eight bytes are loaded. -/
theorem exec_loads_small : ∃ S T, @allocproc smallImage (Sys.boot smallPhys) = .ok (some 0, S) ∧
    @exec smallImage 0 [47] [] (fun _ => some (Inode.ofFile (segElf 0))) S = .ok (0, T) ∧
      Elf.Fits (segElf 0) ∧ Elf.segments (segElf 0) = [⟨1, 120, 0, 8, 8⟩] ∧
      Elf.Loads (segElf 0) (T.byte 0) ∧ ∀ k < 8, T.byte 0 k = UInt8.ofNat (k + 1) := by
  let _ := smallImage
  obtain ⟨S, hS, h, hi, T, hT⟩ := exec_small [47] (Inode.ofFile (segElf 0)) [] (by decide +kernel)
  have hseg : Elf.segments (segElf 0) = [⟨1, 120, 0, 8, 8⟩] := by decide +kernel
  have hfit : Elf.Fits (segElf 0) := by
    refine ⟨Or.inr (by decide +kernel), fun ph hph _ => ?_⟩
    rw [hseg, List.mem_singleton] at hph
    subst hph
    decide
  have hl := (exec_loads_iff h hi (by decide +kernel) rfl hT (by decide)).mpr hfit
  refine ⟨S, T, hS, hT, hfit, hseg, hl, fun k hk => ?_⟩
  have hmem : (⟨1, 120, 0, 8, 8⟩ : proghdr) ∈ Elf.segments (segElf 0) := by
    rw [hseg]
    exact List.mem_singleton_self _
  have hbyte := (hl.bytes (by rw [hseg]; exact List.pairwise_singleton _ _) _ hmem).1 k hk
  dsimp only at hbyte
  rw [Nat.zero_add] at hbyte
  rw [hbyte]
  have hall : ∀ k < 8, (segElf 0).getD (120 + k) 0 = UInt8.ofNat (k + 1) := by decide +kernel
  exact hall k hk

end Xv6
