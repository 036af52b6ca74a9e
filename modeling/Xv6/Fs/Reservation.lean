import Mathlib.Data.Finset.Card
import Xv6.Fs.Contents
import Xv6.Kernel.FileIo

/-!
# Reservation — the blocks that one round of `filewrite` passes to `log_write`

A round of the loop of `writei` names at most two blocks besides the indirect block, the data block and
the bitmap block of its allocation, and once in all rounds the bitmap block of the indirect block.  The
first block of a write that does not start at a block boundary is there already.

* `writei_reserved`: no more than `MAXOPBLOCKS` different blocks, whatever is allocated and wherever the
  bits of the new blocks are.
-/

namespace Xv6

namespace Fs

variable {sb : superblock} {s s' : Fs} {ip ip' ip'' : inode} {a bn fuel i k k' n off tot : ℕ}
  {l l' : List ℕ} {src : ℕ → Option UInt8}

/-- The indirect block is still to be allocated. -/
def indDebt (ip : inode) : ℕ := if ip.d.addr NDIRECT = 0 then 1 else 0

/-- The blocks of `l` are the indirect block and at most `k` others, and one more if the indirect block
has been allocated on the way. -/
structure Passed (k : ℕ) (ip ip' : inode) (l : List ℕ) : Prop where
  keep : ip.d.addr NDIRECT ≠ 0 → ip'.d.addr NDIRECT = ip.d.addr NDIRECT
  few : ∃ B : Finset ℕ, (∀ x ∈ l, x ∈ B ∨ ip'.d.addr NDIRECT ≠ 0 ∧ x = ip'.d.addr NDIRECT) ∧
    B.card + indDebt ip' ≤ k + indDebt ip

theorem Passed.nil : Passed k ip ip [] :=
  ⟨fun _ => rfl, ∅, fun _ h => absurd h List.not_mem_nil, by simp⟩

theorem Passed.mono (h : Passed k ip ip' l) (hk : k ≤ k') (hl : ∀ x ∈ l', x ∈ l) :
    Passed k' ip ip' l' := by
  obtain ⟨hkeep, B, hB, hcard⟩ := h
  exact ⟨hkeep, B, fun x hx => hB x (hl x hx), by omega⟩

theorem Passed.trans (h1 : Passed k ip ip' l) (h2 : Passed k' ip' ip'' l') :
    Passed (k + k') ip ip'' (l' ++ l) := by
  obtain ⟨hkeep1, B1, hB1, hcard1⟩ := h1
  obtain ⟨hkeep2, B2, hB2, hcard2⟩ := h2
  refine ⟨fun h => ?_, B1 ∪ B2, fun x hx => ?_, ?_⟩
  · have h' := hkeep1 h
    rw [hkeep2 (by rwa [h']), h']
  · rcases List.mem_append.mp hx with hx | hx
    · exact (hB2 x hx).imp_left fun h => Finset.mem_union_right B1 h
    · rcases hB1 x hx with h | ⟨h0, rfl⟩
      · exact Or.inl (Finset.mem_union_left B2 h)
      · rw [hkeep2 h0]
        exact Or.inr ⟨h0, rfl⟩
  · have := Finset.card_union_le B1 B2
    omega

/-- All blocks together. -/
theorem Passed.card (h : Passed k ip ip' l) : l.toFinset.card ≤ k + 2 := by
  obtain ⟨-, B, hB, hcard⟩ := h
  have hsub : l.toFinset ⊆ insert (ip'.d.addr NDIRECT) B := by
    intro x hx
    rcases hB x (List.mem_toFinset.mp hx) with h | ⟨-, rfl⟩
    · exact Finset.mem_insert_of_mem h
    · exact Finset.mem_insert_self _ B
  have h1 := Finset.card_le_card hsub
  have h2 := Finset.card_insert_le (ip'.d.addr NDIRECT) B
  have h3 : indDebt ip ≤ 1 := by
    unfold indDebt
    split <;> omega
  omega

/-! ## `bmap` -/

/-- An allocation names the new block and the block of its bit. -/
theorem balloc_logged (h : s.balloc sb = (a, s')) :
    (∃ l, s'.logged = l ++ s.logged ∧ ∀ x ∈ l, x = a ∨ x = BBLOCK a sb) ∧ (a ≠ 0 → a < sb.size) := by
  cases hfind : (List.range sb.size).find? fun b => !(s.blocks (BBLOCK b sb)).bit (b % BPB) with
  | none =>
    rw [balloc, hfind] at h
    injection h with ha hs
    exact ⟨⟨[], by rw [← hs]; rfl, fun _ h => absurd h List.not_mem_nil⟩, fun h0 => absurd ha.symm h0⟩
  | some b =>
    rw [balloc, hfind] at h
    injection h with ha hs
    subst ha hs
    exact ⟨⟨[b, BBLOCK b sb], rfl, by simp⟩,
      fun _ => List.mem_range.mp (List.mem_of_find?_eq_some hfind)⟩

/-- `blockAt` names blocks only where it allocates one, and then these two. -/
theorem blockAt_logged (hsize : sb.size < 2 ^ 32) (hi : i ≤ NDIRECT)
    (h : s.blockAt sb i ip = (a, ip', s')) :
    (∃ l, s'.logged = l ++ s.logged ∧ ∀ x ∈ l, ip.d.addr i = 0 ∧ (x = a ∨ x = BBLOCK a sb)) ∧
      (∀ r, ip'.d.addr r = if r = i then a else ip.d.addr r) ∧ (ip.d.addr i ≠ 0 → a = ip.d.addr i) := by
  have hsame : ∀ r, ip.d.addr r = if r = i then ip.d.addr i else ip.d.addr r := by
    intro r
    split
    · rw [‹r = i›]
    · rfl
  unfold blockAt at h
  dsimp only at h
  by_cases h0 : ip.d.addr i = 0
  · rw [if_pos h0] at h
    generalize hb : s.balloc sb = p at h
    obtain ⟨b, s₁⟩ := p
    obtain ⟨⟨l, hl, hmem⟩, hlt⟩ := balloc_logged hb
    dsimp only at h
    by_cases hb0 : b = 0
    · rw [if_pos hb0] at h
      obtain ⟨rfl, rfl, rfl⟩ : 0 = a ∧ ip = ip' ∧ s₁ = s' := by simpa using h
      rw [h0] at hsame
      exact ⟨⟨l, hl, fun x hx => ⟨h0, by rw [← hb0]; exact hmem x hx⟩⟩, hsame, fun _ => h0.symm⟩
    · rw [if_neg hb0] at h
      obtain ⟨rfl, rfl, rfl⟩ : b = a ∧ _ = ip' ∧ s₁ = s' := by simpa using h
      exact ⟨⟨l, hl, fun x hx => ⟨h0, hmem x hx⟩⟩,
        fun r => dinode.addr_setAddr hi ((hlt hb0).trans hsize), fun h => absurd h0 h⟩
  · rw [if_neg h0] at h
    obtain ⟨rfl, rfl, rfl⟩ : ip.d.addr i = a ∧ ip = ip' ∧ s = s' := by simpa using h
    exact ⟨⟨[], rfl, fun _ h => absurd h List.not_mem_nil⟩, hsame, fun _ => rfl⟩

/-- A direct block. -/
theorem blockAt_passed (hsize : sb.size < 2 ^ 32) (hi : i < NDIRECT)
    (h : s.blockAt sb i ip = (a, ip', s')) :
    ∃ l, s'.logged = l ++ s.logged ∧ Passed 2 ip ip' (a :: l) := by
  obtain ⟨⟨l, hl, hmem⟩, haddr, -⟩ := blockAt_logged hsize hi.le h
  have hkeep : ip'.d.addr NDIRECT = ip.d.addr NDIRECT := by rw [haddr, if_neg (by omega)]
  refine ⟨l, hl, fun _ => hkeep, {a, BBLOCK a sb}, fun x hx => Or.inl ?_, ?_⟩
  · rcases List.mem_cons.mp hx with rfl | hx
    · exact Finset.mem_insert_self _ _
    · simpa using (hmem x hx).2
  · have := Finset.card_le_two (a := a) (b := BBLOCK a sb)
    unfold indDebt
    rw [hkeep]
    omega

/-- The indirect block itself. -/
theorem blockAt_ind_passed (hsize : sb.size < 2 ^ 32) (h : s.blockAt sb NDIRECT ip = (a, ip', s')) :
    ∃ l, s'.logged = l ++ s.logged ∧ ip'.d.addr NDIRECT = a ∧
      (a = 0 → Passed 2 ip ip' (a :: l)) ∧ (a ≠ 0 → Passed 0 ip ip' l) := by
  obtain ⟨⟨l, hl, hmem⟩, haddr, hkeep⟩ := blockAt_logged hsize le_rfl h
  have ha : ip'.d.addr NDIRECT = a := by rw [haddr, if_pos rfl]
  have hkeep' : ip.d.addr NDIRECT ≠ 0 → ip'.d.addr NDIRECT = ip.d.addr NDIRECT :=
    fun h => ha.trans (hkeep h)
  refine ⟨l, hl, ha, fun h0 => ⟨hkeep', {a, BBLOCK a sb}, fun x hx => Or.inl ?_, ?_⟩,
    fun hne => ⟨hkeep', ?_⟩⟩
  · rcases List.mem_cons.mp hx with rfl | hx
    · exact Finset.mem_insert_self _ _
    · simpa using (hmem x hx).2
  · have h1 := Finset.card_le_two (a := a) (b := BBLOCK a sb)
    have h2 : ip.d.addr NDIRECT = 0 := by
      by_contra h
      exact h ((hkeep h).symm.trans h0)
    unfold indDebt
    rw [ha, if_pos h0, if_pos h2]
    omega
  · unfold indDebt
    rw [ha, if_neg hne]
    by_cases h0 : ip.d.addr NDIRECT = 0
    · refine ⟨{BBLOCK a sb}, fun x hx => ?_, by rw [if_pos h0, Finset.card_singleton]⟩
      rcases (hmem x hx).2 with rfl | rfl
      · exact Or.inr ⟨hne, rfl⟩
      · exact Or.inl (Finset.mem_singleton_self _)
    · exact ⟨∅, fun x hx => absurd (hmem x hx).1 h0, by rw [if_neg h0, Finset.card_empty]⟩

/-- An entry of the indirect block. -/
theorem Passed.entry (hind : ip.d.addr NDIRECT ≠ 0)
    (h : ∀ x ∈ l, x = a ∨ x = BBLOCK a sb ∨ x = ip.d.addr NDIRECT) : Passed 2 ip ip (a :: l) := by
  refine ⟨fun _ => rfl, {a, BBLOCK a sb}, fun x hx => ?_, ?_⟩
  · rcases List.mem_cons.mp hx with rfl | hx
    · exact Or.inl (Finset.mem_insert_self _ _)
    · rcases h x hx with rfl | rfl | rfl
      · exact Or.inl (Finset.mem_insert_self _ _)
      · exact Or.inl (Finset.mem_insert_of_mem (Finset.mem_singleton_self _))
      · exact Or.inr ⟨hind, rfl⟩
  · have := Finset.card_le_two (a := a) (b := BBLOCK a sb)
    omega

/-- **`bmap`** names the block that it returns, the block of its bit and the indirect block, and once
the block of the bit of the indirect block. -/
theorem bmap_passed (s : Fs) (ip : inode) (hsize : sb.size < 2 ^ 32) (hbn : bn < MAXFILE) :
    ∃ a ip' s' l, s.bmap sb bn ip = .ok (a, ip', s') ∧ s'.logged = l ++ s.logged ∧
      Passed 2 ip ip' (a :: l) := by
  by_cases hdir : bn < NDIRECT
  · rw [bmap, if_pos hdir]
    generalize hb : s.blockAt sb bn ip = p
    obtain ⟨a, ip', s'⟩ := p
    obtain ⟨l, hl, hp⟩ := blockAt_passed hsize hdir hb
    exact ⟨a, ip', s', l, rfl, hl, hp⟩
  obtain ⟨j, rfl⟩ : ∃ j, bn = NDIRECT + j := ⟨bn - NDIRECT, by omega⟩
  have hj : j < NINDIRECT := by
    simp only [MAXFILE, NINDIRECT] at *
    omega
  rw [bmap, if_neg hdir]
  dsimp only
  rw [Nat.add_sub_cancel_left, if_pos hj]
  generalize hb : s.blockAt sb NDIRECT ip = p
  obtain ⟨ind, ip₁, s₁⟩ := p
  obtain ⟨l₁, hl₁, haddr, hp0, hp1⟩ := blockAt_ind_passed hsize hb
  dsimp only
  by_cases hne : ind = 0
  · rw [if_pos hne]
    have hp := hp0 hne
    rw [hne] at hp
    exact ⟨0, ip₁, s₁, l₁, rfl, hl₁, hp⟩
  rw [if_neg hne]
  have hind : ip₁.d.addr NDIRECT ≠ 0 := by rwa [haddr]
  have hentry : ∀ (a : ℕ) (s' : Fs) (l : List ℕ), s'.logged = l ++ s₁.logged →
      (∀ x ∈ l, x = a ∨ x = BBLOCK a sb ∨ x = ind) →
      s'.logged = (l ++ l₁) ++ s.logged ∧ Passed 2 ip ip₁ (a :: (l ++ l₁)) := by
    intro a s' l hl hmem
    rw [← haddr] at hmem
    exact ⟨by rw [hl, hl₁, List.append_assoc], ((hp1 hne).trans (Passed.entry hind hmem)).mono
      (Nat.zero_add 2).le fun x hx => hx⟩
  by_cases h0 : (s₁.blocks ind).load (4 * j) 4 = 0
  · rw [if_pos h0]
    generalize hb₂ : s₁.balloc sb = p
    obtain ⟨b, s₂⟩ := p
    obtain ⟨⟨l₂, hl₂, hmem₂⟩, -⟩ := balloc_logged hb₂
    dsimp only
    by_cases hb0 : b = 0
    · rw [if_pos hb0]
      rw [hb0] at hmem₂
      obtain ⟨hl, hp⟩ := hentry 0 s₂ l₂ hl₂ fun x hx => (hmem₂ x hx).imp_right Or.inl
      exact ⟨0, ip₁, s₂, _, rfl, hl, hp⟩
    · rw [if_neg hb0]
      have hmem : ∀ x ∈ ind :: l₂, x = b ∨ x = BBLOCK b sb ∨ x = ind := by
        intro x hx
        rcases List.mem_cons.mp hx with rfl | hx
        · exact Or.inr (Or.inr rfl)
        · exact (hmem₂ x hx).imp_right Or.inl
      obtain ⟨hl, hp⟩ := hentry b (s₂.log_write ind ((s₂.blocks ind).store (4 * j) 4 b)) (ind :: l₂)
        (by rw [List.cons_append, ← hl₂]; rfl) hmem
      exact ⟨b, ip₁, _, _, rfl, hl, hp⟩
  · rw [if_neg h0]
    obtain ⟨hl, hp⟩ := hentry _ s₁ [] rfl fun x hx => absurd hx List.not_mem_nil
    exact ⟨_, ip₁, s₁, _, rfl, hl, hp⟩

/-! ## `writei` -/

/-- One round of the loop of `writei`. -/
theorem writeLoop_round {ip₁ : inode} {s₁ : Fs} (src : ℕ → Option UInt8) (fuel : ℕ) (hlt : tot < n)
    (hb : s.bmap sb (off / BSIZE) ip = .ok (a, ip₁, s₁)) :
    (∃ s₂, writeLoop sb src n (fuel + 1) tot off ip s = .ok (tot, off, ip₁, s₂) ∧ s₂.logged = s₁.logged) ∨
      ∃ data, writeLoop sb src n (fuel + 1) tot off ip s =
        writeLoop sb src n fuel (tot + min (n - tot) (BSIZE - off % BSIZE))
          (off + min (n - tot) (BSIZE - off % BSIZE)) ip₁ (s₁.log_write a data) := by
  rw [writeLoop, if_pos hlt, hb, ok_bind]
  dsimp only
  by_cases h0 : a = 0
  · rw [if_pos h0]
    exact Or.inl ⟨s₁, rfl, rfl⟩
  rw [if_neg h0]
  generalize either_copyin _ _ _ _ = p
  obtain ⟨ok, data⟩ := p
  dsimp only
  by_cases hok : ok = true
  · rw [if_pos hok]
    exact Or.inr ⟨data, rfl⟩
  · rw [if_neg hok]
    exact Or.inl ⟨_, rfl, rfl⟩

/-- The loop from a block boundary on: two blocks for each block of the file. -/
theorem writeLoop_passed (src : ℕ → Option UInt8) (hsize : sb.size < 2 ^ 32) :
    ∀ (fuel tot off : ℕ) (ip : inode) (s : Fs), tot ≤ n → n - tot ≤ fuel → (tot < n → off % BSIZE = 0) →
      off + (n - tot) ≤ MAXFILE * BSIZE →
      ∃ tot' off' ip' s' l, writeLoop sb src n fuel tot off ip s = .ok (tot', off', ip', s') ∧
        s'.logged = l ++ s.logged ∧ Passed (2 * ((n - tot + (BSIZE - 1)) / BSIZE)) ip ip' l := by
  intro fuel
  induction fuel with
  | zero =>
    intro tot off ip s _ _ _ _
    exact ⟨tot, off, ip, s, [], rfl, rfl, Passed.nil⟩
  | succ fuel ih =>
    intro tot off ip s htot hfuel halign hmax
    by_cases hlt : tot < n
    swap
    · rw [writeLoop, if_neg hlt]
      exact ⟨tot, off, ip, s, [], rfl, rfl, Passed.nil⟩
    have hoff := halign hlt
    have hbn : off / BSIZE < MAXFILE := Nat.div_lt_of_lt_mul (by simp only [BSIZE] at *; omega)
    obtain ⟨a, ip₁, s₁, l₁, hb, hl₁, hp₁⟩ := bmap_passed s ip hsize hbn
    rcases writeLoop_round src fuel hlt hb with ⟨s₂, heq, hs₂⟩ | ⟨data, heq⟩
    · refine ⟨tot, off, ip₁, s₂, l₁, heq, by rw [hs₂, hl₁],
        hp₁.mono ?_ fun x hx => List.mem_cons_of_mem a hx⟩
      simp only [BSIZE] at *
      omega
    · rw [hoff, Nat.sub_zero] at heq
      obtain ⟨tot', off', ip', s', l, heq', hl, hp⟩ :=
        ih (tot + min (n - tot) BSIZE) (off + min (n - tot) BSIZE) ip₁ (s₁.log_write a data) (by omega)
          (by simp only [BSIZE] at *; omega) (by simp only [BSIZE] at *; omega) (by omega)
      refine ⟨tot', off', ip', s', l ++ a :: l₁, by rw [heq, heq'], ?_, (hp₁.trans hp).mono ?_ fun _ h => h⟩
      · rw [hl, List.append_assoc, List.cons_append, ← hl₁]
        rfl
      · simp only [BSIZE] at *
        omega

/-- The loop of one round of `filewrite`.  It starts in a block that is there, or at a boundary. -/
theorem writeLoop_reserved (src : ℕ → Option UInt8) (hsize : sb.size < 2 ^ 32) (hno : s.NoHole ip off)
    (hn : n ≤ SharedFile.maxWrite) (hmax : off + n ≤ MAXFILE * BSIZE) :
    ∃ tot' off' ip' s' l, writeLoop sb src n n 0 off ip s = .ok (tot', off', ip', s') ∧
      s'.logged = l ++ s.logged ∧ Passed 7 ip ip' l := by
  have h3 : n ≤ 3072 := hn
  by_cases halign : off % BSIZE = 0
  · obtain ⟨tot', off', ip', s', l, heq, hl, hp⟩ := writeLoop_passed src hsize n 0 off ip s
      (Nat.zero_le n) (by omega) (fun _ => halign) (by omega)
    refine ⟨tot', off', ip', s', l, heq, hl, hp.mono ?_ fun _ h => h⟩
    simp only [BSIZE] at *
    omega
  by_cases hn0 : n = 0
  · subst hn0
    exact ⟨0, off, ip, s, [], rfl, rfl, Passed.nil⟩
  obtain ⟨m, rfl⟩ : ∃ m, n = m + 1 := ⟨n - 1, by omega⟩
  have hbn : off / BSIZE < MAXFILE := Nat.div_lt_of_lt_mul (by simp only [BSIZE] at *; omega)
  -- the byte before `off` is in the same block
  have hthere : Layout.slot s.blocks ip.d (off / BSIZE) ≠ 0 := by
    have hslot := hno (off - 1) (by simp only [BSIZE] at *; omega)
    rwa [show (off - 1) / BSIZE = off / BSIZE by simp only [BSIZE] at *; omega] at hslot
  have hone : Passed 1 ip ip [Layout.slot s.blocks ip.d (off / BSIZE)] := by
    refine ⟨fun _ => rfl, {Layout.slot s.blocks ip.d (off / BSIZE)}, fun x hx => Or.inl ?_, le_rfl⟩
    simpa using hx
  have hb : s.bmap sb (off / BSIZE) ip = .ok (Layout.slot s.blocks ip.d (off / BSIZE), ip, s) :=
    bmap_there hbn hthere
  rcases writeLoop_round src m m.succ_pos hb with ⟨s₂, heq, hs₂⟩ | ⟨data, heq⟩
  · exact ⟨0, off, ip, s₂, [], heq, hs₂, Passed.nil⟩
  rw [Nat.sub_zero, Nat.zero_add] at heq
  have hmod : off % BSIZE < BSIZE := Nat.mod_lt _ (by decide)
  generalize hk : min (m + 1) (BSIZE - off % BSIZE) = k at heq
  obtain ⟨tot', off', ip', s', l, heq', hl, hp⟩ := writeLoop_passed (n := m + 1) src hsize m k
    (off + k) ip (s.log_write (Layout.slot s.blocks ip.d (off / BSIZE)) data) (by omega) (by omega)
    (by simp only [BSIZE] at *; omega) (by omega)
  refine ⟨tot', off', ip', s', l ++ [Layout.slot s.blocks ip.d (off / BSIZE)], by rw [heq, heq'], ?_,
    (hone.trans hp).mono ?_ fun _ h => h⟩
  · rw [hl, List.append_assoc]
    rfl
  · simp only [BSIZE] at *
    omega

/-- **A round of `filewrite` fits its reservation**: the blocks that `writei` passes to `log_write` are
at most `MAXOPBLOCKS` different ones. -/
theorem writei_reserved (hsize : sb.size < 2 ^ 32) (hno : s.NoHole ip ip.d.size.toNat)
    (hoff : off ≤ ip.d.size.toNat) (hn : n ≤ SharedFile.maxWrite) :
    ∃ r ip' s' l, s.writei sb src off n ip = .ok (r, ip', s') ∧ s'.logged = l ++ s.logged ∧
      l.toFinset.card ≤ MAXOPBLOCKS := by
  have h3 : n ≤ 3072 := hn
  rw [writei]
  by_cases hout : ip.d.size.toNat < off ∨ (off + n) % 2 ^ 32 < off
  · rw [if_pos hout]
    exact ⟨-1, ip, s, [], rfl, rfl, Nat.zero_le _⟩
  rw [if_neg hout]
  by_cases hbig : MAXFILE * BSIZE < (off + n) % 2 ^ 32
  · rw [if_pos hbig]
    exact ⟨-1, ip, s, [], rfl, rfl, Nat.zero_le _⟩
  rw [if_neg hbig]
  have h32 := ip.d.size.toNat_lt
  obtain ⟨tot', off', ip', s', l, heq, hl, hp⟩ := writeLoop_reserved src hsize
    (fun i hi => hno i (hi.trans_le hoff)) hn (show off + n ≤ MAXFILE * BSIZE by omega)
  rw [heq, ok_bind]
  dsimp only
  refine ⟨_, _, _, IBLOCK _ sb :: l, rfl, congrArg _ hl, ?_⟩
  rw [List.toFinset_cons]
  calc (insert _ l.toFinset).card ≤ l.toFinset.card + 1 := Finset.card_insert_le _ _
    _ ≤ 7 + 2 + 1 := Nat.add_le_add_right hp.card 1

/-- The first round of a `filewrite` on an empty file. -/
theorem writei_reserved_empty : ∃ r ip' s' l,
    empty.writei mkfsSb (fun _ => some 7) 0 3072 (emptyInode 1 2) = .ok (r, ip', s') ∧
      s'.logged = l ++ empty.logged ∧ l.toFinset.card ≤ MAXOPBLOCKS :=
  writei_reserved (by decide) (fun i hi => absurd hi (Nat.not_lt_zero i)) le_rfl le_rfl

end Fs

end Xv6
