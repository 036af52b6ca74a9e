import Xv6.Malloc.Take

/-!
# Heap — the blocks of the heap through `malloc` and `free`

`Sound base h l out`: the free list is `l`, the blocks of `out` are in use, and the two together are the
memory that `sbrk` has given, each byte of it once.  `free` moves a block from `out` to `l`, `morecore` adds
one to `out` and frees it, and `malloc` moves the end of one from `l` to `out`.
-/

namespace Xv6.Umalloc

open Tiles Chain

/-- Each chunk is above the earlier ones, and all are above `base`. -/
structure Stacked (base : ℕ) (cs : List (ℕ × ℕ)) : Prop where
  order : cs.Pairwise fun c d => d.1 + d.2 ≤ c.1
  bounds : ∀ c ∈ cs, base + 16 ≤ c.1 ∧ c.1 + c.2 ≤ 2 ^ 64

structure Sound (base : ℕ) (h : Heap) (l out : List (ℕ × ℕ)) : Prop where
  ring : Ring base h.mem l
  ordered : Ordered base l
  freep : h.freep ∈ ((base, 0) :: l).map Prod.fst
  header : ∀ b ∈ out, size h.mem b.1 = b.2 ∧ 0 < b.2
  cover : ∀ x, cover ((l ++ out).map bytes) x = cover h.chunks x
  stacked : Stacked base h.chunks

/-- The units that `morecore` asks for. -/
def more (n : ℕ) : ℕ := if n < 4096 then 4096 else n

theorem le_more {n : ℕ} (hn : n < 2 ^ 32) : n ≤ more n ∧ more n < 2 ^ 32 := by
  rw [more]
  split <;> omega

/-- The free list in which `malloc` finds a block of `n` units: `l`, or, where `l` has none, `l` with what
`morecore` has added. -/
def Grows (sbrk : Sbrk) (n : ℕ) (cs l cs' l' : List (ℕ × ℕ)) : Prop :=
  (cs' = cs ∧ l' = l) ∨
    ∃ p, sbrk cs (more n * 16) = some p ∧ cs' = (p, more n * 16) :: cs ∧ l' = release (p, more n) l

/-- The byte at `x` is in the memory that `sbrk` has given and in no block of `out`. -/
def Unused (cs out : List (ℕ × ℕ)) (x : ℕ) : Prop :=
  (∃ c ∈ cs, Tiles.Within c x) ∧ ¬ ∃ b ∈ out, Tiles.Within (bytes b) x

/-- No `2 ^ 36` bytes in a row are unused. -/
def NoRun (cs out : List (ℕ × ℕ)) : Prop :=
  ∀ a, ∃ x, a ≤ x ∧ x < a + 2 ^ 36 ∧ ¬ Unused cs out x

/-- The bytes of the blocks of `out` are the same in both memories. -/
def Kept (out : List (ℕ × ℕ)) (m m' : ByteStore) : Prop :=
  ∀ d ∈ out, ∀ x, Tiles.Within (bytes d) x → m' x = m x

variable {base n p : ℕ} {h h' : Heap} {b c d f : ℕ × ℕ} {l l₁ l₂ out out' cs : List (ℕ × ℕ)}
  {m m' m'' : ByteStore}

theorem Kept.trans (h₁ : Kept out m m') (h₂ : Kept out m' m'') : Kept out m m'' :=
  fun d hd x hx => (h₂ d hd x hx).trans (h₁ d hd x hx)

theorem Kept.header (h : Kept out m m') (hd : d ∈ out) (hpos : 0 < d.2) : SameHeader m m' d.1 := by
  refine sameHeader_of (p := d.1) fun x h₁ h₂ => h d hd x ⟨h₁, ?_⟩
  simp only [bytes]
  omega

/-- Two blocks with no common byte are one above the other. -/
theorem upto_of_disjoint (hb : 0 < b.2) (hc : 0 < c.2)
    (h : ∀ x, ¬ (Tiles.Within (bytes b) x ∧ Tiles.Within (bytes c) x)) : Upto b c ∨ Upto c b := by
  have h₁ := h b.1
  have h₂ := h c.1
  simp only [Tiles.Within, bytes, Upto] at h₁ h₂ ⊢
  omega

namespace Stacked

variable (hs : Stacked base cs)
include hs

theorem cover_le : cover cs p ≤ 1 := by
  refine cover_le_one (hs.order.imp fun {c d} hcd x hx => ?_)
  have h₁ := hx.1.1
  have h₂ := hx.2.2
  omega

theorem cons (h₁ : base + 16 ≤ p) (h₂ : ∀ c ∈ cs, c.1 + c.2 ≤ p) (h₃ : p + n ≤ 2 ^ 64) :
    Stacked base ((p, n) :: cs) := by
  refine ⟨List.pairwise_cons.mpr ⟨h₂, hs.order⟩, fun c hc => ?_⟩
  rcases List.mem_cons.mp hc with rfl | hc
  · exact ⟨h₁, h₃⟩
  · exact hs.bounds c hc

end Stacked

namespace Sound

/-- The order of the blocks in use does not matter. -/
theorem perm (hs : Sound base h l out) (ho : out.Perm out') : Sound base h l out' where
  ring := hs.ring
  ordered := hs.ordered
  freep := hs.freep
  header := fun b hb => hs.header b (ho.mem_iff.mpr hb)
  cover := fun x => by
    rw [← hs.cover x, Tiles.cover, Tiles.cover]
    exact ((ho.append_left l).map bytes).symm.countP_eq _
  stacked := hs.stacked

section

variable (hs : Sound base h l out)
include hs

theorem disjoint :
    (l ++ out).Pairwise fun b c => ∀ x, ¬ (Tiles.Within (bytes b) x ∧ Tiles.Within (bytes c) x) := by
  have hp := pairwise_of_cover (l := (l ++ out).map bytes) fun x => by
    rw [hs.cover]
    exact hs.stacked.cover_le
  exact List.pairwise_map.mp hp

/-- A block in use is above or below each free one. -/
theorem upto (hc : c ∈ l) (hb : b ∈ out) : Upto c b ∨ Upto b c :=
  upto_of_disjoint (hs.ordered.pos c hc) (hs.header b hb).2
    ((List.pairwise_append.mp hs.disjoint).2.2 c hc b hb)

/-- A block lies in the memory that `sbrk` has given. -/
theorem chunk (hb : b ∈ l ++ out) {x : ℕ} (hx : Tiles.Within (bytes b) x) : base + 16 ≤ x ∧ x < 2 ^ 64 := by
  have hpos : 0 < Tiles.cover h.chunks x := by
    rw [← hs.cover]
    exact cover_pos.mpr ⟨bytes b, List.mem_map_of_mem hb, hx⟩
  obtain ⟨c, hc, hcx⟩ := cover_pos.mp hpos
  have hbd := hs.stacked.bounds c hc
  have h₁ := hcx.1
  have h₂ := hcx.2
  omega

theorem above (hb : b ∈ out) : Upto (base, 0) b ∧ b.1 < 2 ^ 64 := by
  have hpos := (hs.header b hb).2
  have := hs.chunk (b := b) (by simp [hb]) (x := b.1) (by simp only [Tiles.Within, bytes]; omega)
  simp only [Upto]
  omega

/-- The bytes of a block in use are in no header of the free list. -/
theorem frame (hd : d ∈ out) {x : ℕ} (hx : Tiles.Within (bytes d) x) :
    ∀ q ∈ (base, 0) :: l, x < q.1 ∨ q.1 + 16 ≤ x := by
  intro q hq
  have hx' := hx
  simp only [Tiles.Within, bytes] at hx'
  rcases List.mem_cons.mp hq with rfl | hq
  · exact .inr (hs.chunk (by simp [hd]) hx).1
  · have hpos := hs.ordered.pos q hq
    rcases hs.upto hq hd with hu | hu
    · have := hu.1
      omega
    · have := hu.2
      omega

end

/-- The free blocks and one more do not fill `2 ^ 32` units, if they have no room for that. -/
theorem room (hs : Sound base h l (b :: out)) (hrun : NoRun h.chunks out) : Room (b :: l) := by
  intro a n hx
  by_contra hn
  obtain ⟨x, hax, hxa, hun⟩ := hrun a
  have hc := hx x hax (by omega)
  have hcov := hs.cover x
  have hle := hs.stacked.cover_le (p := x)
  simp only [List.map_append, List.map_cons, cover_append, cover_cons] at hc hcov
  refine hun ⟨cover_pos.mp (by omega), fun ⟨d, hd, hdx⟩ => ?_⟩
  have hpos : 0 < Tiles.cover (out.map bytes) x :=
    cover_pos.mpr ⟨bytes d, List.mem_map_of_mem hd, hdx⟩
  omega

theorem freep_pos (hs : Sound base h l out) (hbase : 0 < base) : h.freep ≠ 0 := by
  obtain ⟨c, hc, he⟩ := List.mem_map.mp hs.freep
  rcases List.mem_cons.mp hc with rfl | hc
  · simp only at he
    omega
  · have hpos := hs.ordered.pos c hc
    have := hs.chunk (b := c) (x := c.1) (by simp [hc]) (by simp only [Tiles.Within, bytes]; omega)
    omega

/-- `free` is called with a block in use. -/
theorem released (hs : Sound base h l (b :: out)) :
    ∃ K m' p, (∀ fuel ≥ K, free fuel h (b.1 + 16) = some { h with mem := m', freep := p }) ∧
      Released base b l h.mem m' p := by
  have hb : b ∈ b :: out := List.mem_cons_self
  obtain ⟨hbase, hlt⟩ := hs.above hb
  exact free_release hs.ring hs.ordered hs.freep hlt hbase (hs.header b hb).1 fun c hc => hs.upto hc hb

/-- **`free`** puts a block back into the list. -/
theorem free (hs : Sound base h l (b :: out)) (hroom : Room (b :: l)) :
    ∃ K h', (∀ fuel ≥ K, free fuel h (b.1 + 16) = some h') ∧ Sound base h' (release b l) out ∧
      h'.chunks = h.chunks ∧ Kept out h.mem h'.mem := by
  have hb : b ∈ b :: out := List.mem_cons_self
  obtain ⟨hbase, hlt⟩ := hs.above hb
  have hpos := (hs.header b hb).2
  have hl : ∀ c ∈ l, Upto c b ∨ Upto b c := fun c hc => hs.upto hc hb
  obtain ⟨K, m', p, hfree, hrel⟩ := hs.released
  have hkept : Kept out h.mem m' := by
    intro d hd x hx
    refine hrel.frame x fun q hq => ?_
    rcases List.mem_cons.mp hq with rfl | hq
    · -- two blocks in use have no common byte
      have hdis := ((List.pairwise_cons.mp (List.pairwise_append.mp hs.disjoint).2.1).1 d hd) x
      simp only [Tiles.Within, bytes] at hdis hx
      omega
    · exact hs.frame (List.mem_cons_of_mem b hd) hx q hq
  refine ⟨K, _, hfree, ⟨hrel.ring, ⟨?_, ?_, ?_⟩, hrel.freep, ?_, ?_, hs.stacked⟩, rfl, hkept⟩
  · obtain ⟨hb₀, hl₀⟩ := List.pairwise_cons.mp hs.ordered.order
    refine List.pairwise_cons.mpr ⟨fun e he => ?_, release_before hroom hl₀ hl⟩
    rcases mem_release he with hx | ⟨c, hc, hx⟩
    · rw [Before, hx]
      have := hbase.1
      simp only at this ⊢
      omega
    · rw [Before, hx]
      exact hb₀ c hc
  · exact release_pos hroom hs.ordered.pos hpos
  · intro e he
    rcases List.mem_cons.mp he with rfl | he
    · exact hs.ordered.lt _ List.mem_cons_self
    rcases mem_release he with hx | ⟨c, hc, hx⟩
    · rwa [hx]
    · rw [hx]
      exact hs.ordered.lt c (List.mem_cons_of_mem _ hc)
  · intro d hd
    obtain ⟨hsd, hpd⟩ := hs.header d (List.mem_cons_of_mem b hd)
    exact ⟨(hkept.header hd hpd).2.trans hsd, hpd⟩
  · intro x
    rw [← hs.cover x, List.map_append, List.map_append, cover_append, cover_append,
      cover_release hroom, List.map_cons, List.map_cons, cover_cons, cover_cons]
    omega

/-- A new chunk is a block in use, as soon as its header is written. -/
theorem grow (hs : Sound base h l out) (h₁ : base + 16 ≤ p) (h₂ : ∀ c ∈ h.chunks, c.1 + c.2 ≤ p)
    (h₃ : p + n * 16 ≤ 2 ^ 64) (hn : 0 < n) (hn' : n < 2 ^ 32) :
    Sound base { h with mem := setSize h.mem p n, chunks := (p, n * 16) :: h.chunks } l
        ((p, n) :: out) ∧
      Kept out h.mem (setSize h.mem p n) := by
  -- all blocks end below the chunk
  have hbelow : ∀ d ∈ l ++ out, ∀ x, Tiles.Within (bytes d) x → x < p := by
    intro d hd x hx
    have hpos : 0 < Tiles.cover h.chunks x := by
      rw [← hs.cover]
      exact cover_pos.mpr ⟨bytes d, List.mem_map_of_mem hd, hx⟩
    obtain ⟨c, hc, hcx⟩ := cover_pos.mp hpos
    exact Nat.lt_of_lt_of_le hcx.2 (h₂ c hc)
  have hkept : Kept (l ++ out) h.mem (setSize h.mem p n) := fun d hd x hx =>
    setSize_out (.inl (hbelow d hd x hx))
  have hsame : ∀ q ∈ (base, 0) :: l, SameHeader h.mem (setSize h.mem p n) q.1 := by
    intro q hq
    rcases List.mem_cons.mp hq with rfl | hq
    · exact sameHeader_of fun x _ hx => setSize_out (.inl (by omega))
    · exact hkept.header (List.mem_append_left _ hq) (hs.ordered.pos q hq)
  refine ⟨⟨hs.ring.congr hsame, hs.ordered, hs.freep, ?_, ?_, hs.stacked.cons h₁ h₂ h₃⟩, fun d hd =>
    hkept d (List.mem_append_right _ hd)⟩
  · intro d hd
    rcases List.mem_cons.mp hd with rfl | hd
    · exact ⟨size_setSize.trans (Nat.mod_eq_of_lt hn'), hn⟩
    · obtain ⟨hsd, hpd⟩ := hs.header d hd
      exact ⟨(hkept.header (List.mem_append_right _ hd) hpd).2.trans hsd, hpd⟩
  · intro x
    have := hs.cover x
    have hb : bytes (p, n) = (p, n * 16) := by rw [bytes, Nat.mul_comm]
    rw [List.map_append, cover_append] at this
    rw [List.map_append, cover_append, List.map_cons, hb, cover_cons, cover_cons, ← this]
    omega

/-- **`morecore`** adds a block of at least the size that was asked for to the list. -/
theorem morecore {sbrk : Sbrk} (hs : Sound base h l out) (hn : 0 < n) (hn' : n < 2 ^ 32)
    (hp : sbrk h.chunks (more n * 16) = some p) (h₁ : base + 16 ≤ p)
    (h₂ : ∀ c ∈ h.chunks, c.1 + c.2 ≤ p) (h₃ : p + more n * 16 ≤ 2 ^ 64)
    (hroom : Room ((p, more n) :: l)) :
    ∃ K h', (∀ fuel ≥ K, morecore fuel sbrk h n = some (h'.freep, h')) ∧
      Sound base h' (release (p, more n) l) out ∧ (∃ c ∈ release (p, more n) l, n ≤ c.2) ∧
      h'.chunks = (p, more n * 16) :: h.chunks ∧ Kept out h.mem h'.mem := by
  obtain ⟨hle, hlt⟩ := le_more hn'
  obtain ⟨hs₁, hk₁⟩ := hs.grow h₁ h₂ h₃ (hn.trans_le hle) hlt
  obtain ⟨K, h', hfree, hs', hcs, hk₂⟩ := hs₁.free hroom
  obtain ⟨c, hc, hcn⟩ := exists_le_release hroom
  refine ⟨K, h', fun fuel hf => ?_, hs', ⟨c, hc, hle.trans hcn⟩, hcs, hk₁.trans hk₂⟩
  have := hfree fuel hf
  simp only [more] at hp this
  simp only [Umalloc.morecore, hp, this, Option.bind_eq_bind, Option.bind_some]

/-- **`malloc`** takes the end of a free block. -/
theorem take (hs : Sound base h (l₁ ++ f :: l₂) out) (hn : 0 < n) (ht : Taken base n l₁ f l₂ h h') :
    Sound base h' (l₁ ++ (carve n f ++ l₂)) (carved n f :: out) ∧ Kept out h.mem h'.mem := by
  have hfits := ht.fits
  have hkept : Kept out h.mem h'.mem := by
    intro d hd x hx
    refine ht.frame x fun q hq => ?_
    rcases List.mem_cons.mp hq with rfl | hq
    · -- the end of `f` is in no other block
      have hdis := (List.pairwise_append.mp hs.disjoint).2.2 f (by simp) d hd x
      simp only [Tiles.Within, bytes, carved] at hdis hx ⊢
      omega
    · exact hs.frame hd hx q hq
  have hmem : ∀ e ∈ l₁ ++ (carve n f ++ l₂), 0 < e.2 ∧ ∃ c ∈ l₁ ++ f :: l₂, e.1 = c.1 := by
    intro e he
    rcases List.mem_append.mp he with he | he
    · have hm : e ∈ l₁ ++ f :: l₂ := List.mem_append_left _ he
      exact ⟨hs.ordered.pos e hm, e, hm, rfl⟩
    rcases List.mem_append.mp he with he | he
    · obtain ⟨he₁, -, he₂⟩ := mem_carve he hfits
      exact ⟨he₂, f, by simp, he₁⟩
    · have hm : e ∈ l₁ ++ f :: l₂ := List.mem_append_right _ (List.mem_cons_of_mem f he)
      exact ⟨hs.ordered.pos e hm, e, hm, rfl⟩
  refine ⟨⟨ht.ring, ⟨?_, fun e he => (hmem e he).1, ?_⟩, ht.freep, ?_, ?_, ?_⟩, hkept⟩
  · rw [← List.cons_append]
    exact carve_before hfits hs.ordered.order
  · intro e he
    rcases List.mem_cons.mp he with rfl | he
    · exact hs.ordered.lt _ List.mem_cons_self
    · obtain ⟨-, c, hc, hx⟩ := hmem e he
      rw [hx]
      exact hs.ordered.lt c (List.mem_cons_of_mem _ hc)
  · intro d hd
    rcases List.mem_cons.mp hd with rfl | hd
    · exact ⟨ht.size, hn⟩
    · obtain ⟨hsd, hpd⟩ := hs.header d hd
      exact ⟨(hkept.header hd hpd).2.trans hsd, hpd⟩
  · intro x
    have hc := cover_carve (y := x) (l := l₂) hfits
    have ho := hs.cover x
    simp only [List.map_append, List.map_cons, cover_append, cover_cons] at hc ho ⊢
    rw [ht.chunks, ← ho]
    omega
  · rw [ht.chunks]
    exact hs.stacked

/-- The loop of `malloc`: it fails only when `sbrk` does. -/
theorem mallocLoop (hs : Sound base h l out) (hbase : 0 < base) (hn : 0 < n)
    (hn' : n < 2 ^ 32) (sbrk : Sbrk)
    (hsb : ∀ p, sbrk h.chunks (more n * 16) = some p → base + 16 ≤ p ∧
      (∀ c ∈ h.chunks, c.1 + c.2 ≤ p) ∧ p + more n * 16 ≤ 2 ^ 64 ∧ Room ((p, more n) :: l)) :
    ∃ K ap h', (∀ fuel ≥ K, mallocLoop sbrk n fuel h h.freep (ptr h.mem h.freep) = some (ap, h')) ∧
      Kept out h.mem h'.mem ∧
      ((∃ c ∈ l, n ≤ c.2) → h'.chunks = h.chunks) ∧
      ((ap = 0 ∧ h' = h ∧ sbrk h.chunks (more n * 16) = none) ∨
        ∃ l₁ f l₂, Grows sbrk n h.chunks l h'.chunks (l₁ ++ f :: l₂) ∧ n ≤ f.2 ∧
          ap = (carved n f).1 + 16 ∧ Sound base h' (l₁ ++ (carve n f ++ l₂)) (carved n f :: out)) := by
  by_cases hfit : ∃ c ∈ l, n ≤ c.2
  · obtain ⟨K, h', l₁, f, l₂, rfl, ht, hloop⟩ :=
      mallocLoop_fit sbrk hs.ring hs.ordered hn hs.freep hfit
    obtain ⟨hs', hk⟩ := hs.take hn ht
    exact ⟨K, _, h', hloop, hk, fun _ => ht.chunks, .inr ⟨l₁, f, l₂, .inl ⟨ht.chunks, rfl⟩, ht.fits, rfl, hs'⟩⟩
  obtain ⟨k, hmore⟩ := mallocLoop_more sbrk hs.ring hn hs.freep fun c hc =>
    Nat.not_le.mp fun hcn => hfit ⟨c, hc, hcn⟩
  cases hp : sbrk h.chunks (more n * 16) with
  | none =>
    refine ⟨k + 1, 0, h, fun fuel hf => ?_, fun d _ x _ => rfl, fun _ => rfl, .inl ⟨rfl, rfl, rfl⟩⟩
    obtain ⟨g, rfl⟩ : ∃ g, fuel = g + 1 + k := ⟨fuel - 1 - k, by omega⟩
    have hm : Umalloc.morecore g sbrk h n = some (0, h) := by
      simp only [more] at hp
      simp only [Umalloc.morecore, hp]
    rw [hmore, hm]
    rfl
  | some p =>
    obtain ⟨h₁, h₂, h₃, hroom⟩ := hsb p hp
    obtain ⟨K₁, h', hm, hs', hfit', hcs, hk₁⟩ := hs.morecore hn hn' hp h₁ h₂ h₃ hroom
    -- now there is a block that is large enough
    obtain ⟨K₂, h'', l₁, f, l₂, hl, ht, hloop⟩ :=
      mallocLoop_fit sbrk hs'.ring hs'.ordered hn hs'.freep hfit'
    obtain ⟨hs'', hk₂⟩ := (hl ▸ hs').take hn ht
    refine ⟨K₁ + K₂ + 1 + k, _, h'', fun fuel hf => ?_, hk₁.trans hk₂, fun hc => absurd hc hfit,
      .inr ⟨l₁, f, l₂, .inr ⟨p, hp, ht.chunks.trans hcs, hl.symm⟩, ht.fits, rfl, hs''⟩⟩
    obtain ⟨g, rfl⟩ : ∃ g, fuel = g + 1 + k := ⟨fuel - 1 - k, by omega⟩
    rw [hmore, hm g (by omega)]
    dsimp only
    rw [if_neg (hs'.freep_pos hbase), hloop g (by omega)]

/-- A program sets a byte behind the header of a block in use. -/
theorem write (hs : Sound base h l out) (hb : b ∈ out) {a : ℕ} (ha : b.1 + 16 ≤ a)
    (ha' : a < b.1 + 16 * b.2) (v : UInt8) :
    Sound base { h with mem := h.mem.blit a 1 fun _ => v } l out := by
  have hin : Tiles.Within (bytes b) a := ⟨by simp only [bytes]; omega, ha'⟩
  have hsame : ∀ q, a < q ∨ q + 16 ≤ a → SameHeader h.mem (h.mem.blit a 1 fun _ => v) q := fun q hq =>
    sameHeader_of fun x h₁ h₂ => ByteStore.blit_out (by omega)
  refine ⟨hs.ring.congr fun q hq => hsame q.1 (hs.frame hb hin q hq), hs.ordered, hs.freep, ?_,
    hs.cover, hs.stacked⟩
  intro d hd
  obtain ⟨hsd, hpd⟩ := hs.header d hd
  refine ⟨(hsame d.1 ?_).2.trans hsd, hpd⟩
  by_cases hdb : d = b
  · rw [hdb]
    exact .inr ha
  · have hsymm :
        Std.Symm fun b c : ℕ × ℕ => ∀ x, ¬ (Tiles.Within (bytes b) x ∧ Tiles.Within (bytes c) x) :=
      ⟨fun b c h x hx => h x hx.symm⟩
    have hdis := (List.pairwise_append.mp hs.disjoint).2.1.forall hd hb hdb a
    simp only [Tiles.Within, bytes] at hdis hin
    omega

end Sound

end Xv6.Umalloc
