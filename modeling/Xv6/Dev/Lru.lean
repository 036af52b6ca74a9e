import Mathlib.Data.Fintype.Card
import Mathlib.Data.List.Count
import Xv6.Kernel.Bcache
import Xv6.Lib.Runs

/-!
# Lru — one copy of each block, recycled by age

`Lru s l`: the pointers run through the buffers in the order `l`, the one released last first.  A
step leaves the pointers alone or moves one buffer to the front (`BufSys.step_ok`), and only `bget`
changes which block a buffer is for.
-/

namespace Xv6

namespace Bcache

/-- Buffer `b` is for block `blockno` of device `dev`. -/
def Holds (s : Bcache) (b : Fin NBUF) (dev blockno : UInt32) : Prop :=
  (s.buf b).dev = dev ∧ (s.buf b).blockno = blockno

/-- No two buffers are for the same block. -/
def OneCopy (s : Bcache) : Prop :=
  ∀ i j dev blockno, dev ≠ 0 → s.Holds i dev blockno → s.Holds j dev blockno → i = j

/-- Every buffer of `t` is for the block it is for in `s`. -/
def SameBlocks (s t : Bcache) : Prop :=
  ∀ b, (t.buf b).dev = (s.buf b).dev ∧ (t.buf b).blockno = (s.buf b).blockno

variable {s t : Bcache} {b : Fin NBUF} {dev blockno : UInt32} {l : List (Fin NBUF)} {v : Buf}

theorem SameBlocks.oneCopy (h : SameBlocks s t) (hs : s.OneCopy) : t.OneCopy := by
  intro i j dev blockno hdev ⟨hi, hi'⟩ ⟨hj, hj'⟩
  rw [(h i).1] at hi
  rw [(h i).2] at hi'
  rw [(h j).1] at hj
  rw [(h j).2] at hj'
  exact hs i j dev blockno hdev ⟨hi, hi'⟩ ⟨hj, hj'⟩

theorem SameBlocks.set (hd : v.dev = (s.buf b).dev) (hb : v.blockno = (s.buf b).blockno) :
    SameBlocks s (s.set b v) := by
  intro i
  by_cases hi : i = b
  · subst hi
    simp only [Bcache.set, Function.update_self]
    exact ⟨hd, hb⟩
  · simp only [Bcache.set, Function.update_of_ne hi, and_self]

/-- The buffers and the pointers after the critical section of `brelse`. -/
theorem brelse_ok (b : Fin NBUF) (s : Bcache) :
    SameBlocks s (s.brelse b) ∧
      (((s.brelse b).buf b).refcnt = 0 ∧ (s.brelse b).links = (s.links.unlink b).pushFront b ∨
        ((s.brelse b).buf b).refcnt ≠ 0 ∧ (s.brelse b).links = s.links) := by
  have hsame : SameBlocks s (s.set b { s.buf b with refcnt := (s.buf b).refcnt - 1 }) :=
    SameBlocks.set rfl rfl
  unfold brelse
  dsimp only
  split_ifs with h0
  · exact ⟨hsame, .inl ⟨h0, rfl⟩⟩
  · exact ⟨hsame, .inr ⟨h0, rfl⟩⟩

/-- The first element that a search finds comes before the others in the order of the list. -/
theorem find?_least {α : Type} {R : α → α → Prop} {p : α → Bool} {l : List α} {a : α}
    (hl : l.Pairwise R) (h : l.find? p = some a) : ∀ b ∈ l, p b = true → b ≠ a → R a b := by
  intro b hb hp hne
  obtain ⟨-, as, bs, rfl, has⟩ := List.find?_eq_some_iff_append.mp h
  have hab := (List.pairwise_append.mp hl).2.1
  rcases List.mem_append.mp hb with hm | hm
  · have := has b hm
    rw [hp] at this
    cases this
  · rcases List.mem_cons.mp hm with rfl | hm
    · exact absurd rfl hne
    · exact (List.pairwise_cons.mp hab).1 b hm

/-- What the critical section of `bget` can do: count one more reference to the buffer of the block,
recycle the last free buffer of the list, or give up. -/
theorem bget_cases (hK : Dll.Around s.links l) (hall : ∀ b, b ∈ l) (dev blockno : UInt32) :
    (∃ b, s.Holds b dev blockno ∧ s.bget dev blockno =
      some (.ok (b, s.set b { s.buf b with refcnt := (s.buf b).refcnt + 1 }))) ∨
    (∀ b, ¬ s.Holds b dev blockno) ∧
      ((∃ b, (s.buf b).refcnt = 0 ∧ l.reverse.find? (fun b => (s.buf b).refcnt == 0) = some b ∧
        s.bget dev blockno =
          some (.ok (b, s.set b { valid := false, dev := dev, blockno := blockno, refcnt := 1 }))) ∨
      (∀ b, (s.buf b).refcnt ≠ 0) ∧ s.bget dev blockno = some (.error "bget: no buffers")) := by
  have hlen : l.length < NBUF + 1 := by
    have hle := hK.nodup.length_le_card
    rw [Fintype.card_fin] at hle
    omega
  unfold bget
  rw [hK.walk_next hlen, hK.walk_prev hlen]
  cases hf : l.find? fun b => (s.buf b).dev == dev && (s.buf b).blockno == blockno with
  | some b =>
    have hb := List.find?_some hf
    rw [Bool.and_eq_true, beq_iff_eq, beq_iff_eq] at hb
    exact .inl ⟨b, hb, rfl⟩
  | none =>
    have hno : ∀ b, ¬ s.Holds b dev blockno := by
      intro b hb
      have := List.find?_eq_none.mp hf b (hall b)
      rw [Bool.and_eq_true, beq_iff_eq, beq_iff_eq] at this
      exact this hb
    refine .inr ⟨hno, ?_⟩
    cases hr : l.reverse.find? fun b => (s.buf b).refcnt == 0 with
    | some b =>
      have hb := List.find?_some hr
      exact .inl ⟨b, beq_iff_eq.mp hb, rfl, rfl⟩
    | none =>
      refine .inr ⟨fun b h0 => ?_, rfl⟩
      have := List.find?_eq_none.mp hr b (List.mem_reverse.mpr (hall b))
      rw [beq_iff_eq] at this
      exact this h0

/-- Recycling a buffer for a block that has none. -/
theorem OneCopy.recycle (hs : s.OneCopy) (hno : ∀ b, ¬ s.Holds b dev blockno)
    (hd : v.dev = dev) (hb : v.blockno = blockno) : (s.set b v).OneCopy := by
  have key : ∀ i dev' blockno', (s.set b v).Holds i dev' blockno' →
      i = b ∧ dev' = dev ∧ blockno' = blockno ∨ i ≠ b ∧ s.Holds i dev' blockno' := by
    rintro i dev' blockno' ⟨h1, h2⟩
    by_cases hi : i = b
    · subst hi
      simp only [Bcache.set, Function.update_self] at h1 h2
      exact .inl ⟨rfl, h1.symm.trans hd, h2.symm.trans hb⟩
    · simp only [Bcache.set, Function.update_of_ne hi] at h1 h2
      exact .inr ⟨hi, h1, h2⟩
  intro i j dev' blockno' hdev hi hj
  rcases key i _ _ hi with ⟨rfl, rfl, rfl⟩ | ⟨-, hi'⟩
  · rcases key j _ _ hj with ⟨rfl, -, -⟩ | ⟨-, hj'⟩
    · rfl
    · exact absurd hj' (hno j)
  · rcases key j _ _ hj with ⟨rfl, rfl, rfl⟩ | ⟨-, hj'⟩
    · exact absurd hi' (hno i)
    · exact hs i j dev' blockno' hdev hi' hj'

end Bcache

namespace BufSys

/-- Buffer `i` was released to zero before buffer `j`; among those never released the array order
counts. -/
def Older (s : BufSys) (i j : Fin NBUF) : Prop :=
  s.released i < s.released j ∨ s.released i = s.released j ∧ i < j

variable {s t : BufSys} {e : BufOp} {l : List (Fin NBUF)} {b : Fin NBUF} {p : ℕ}

/-- The list runs through all buffers, the one released last first. -/
structure Lru (s : BufSys) (l : List (Fin NBUF)) : Prop where
  around : Dll.Around s.bcache.links l
  all : ∀ b, b ∈ l
  sorted : l.Pairwise fun i j => s.Older j i
  past : ∀ b, s.released b ≤ s.now
  oneCopy : s.bcache.OneCopy

theorem Lru.binit : Lru BufSys.binit (List.finRange NBUF).reverse := by
  have hK : Dll.Around Bcache.binit.links (List.finRange NBUF).reverse := by
    have h := Dll.Around.empty.foldl_pushFront
      (by rw [List.append_nil]; exact List.nodup_finRange NBUF)
    rwa [List.append_nil] at h
  refine ⟨hK, fun b => List.mem_reverse.mpr (List.mem_finRange b), ?_, fun b => le_refl 0, ?_⟩
  · rw [List.pairwise_reverse]
    refine (List.pairwise_lt_finRange NBUF).imp fun hij => ?_
    exact .inr ⟨rfl, hij⟩
  · rintro i j dev blockno hdev ⟨hi, -⟩ -
    exact absurd hi.symm hdev

/-- The pointers and the history stay as they are. -/
theorem Lru.keep (h : s.Lru l) (hl : t.bcache.links = s.bcache.links)
    (hr : t.released = s.released) (hn : s.now ≤ t.now) (hone : t.bcache.OneCopy) : t.Lru l := by
  refine ⟨by rw [hl]; exact h.around, h.all, ?_, fun b => ?_, hone⟩
  · refine h.sorted.imp fun hij => ?_
    rwa [Older, hr]
  · rw [hr]
    exact (h.past b).trans hn

/-- Buffer `b` is released. -/
theorem Lru.release (h : s.Lru l) (hl : t.bcache.links = (s.bcache.links.unlink b).pushFront b)
    (hr : t.released = Function.update s.released b t.now) (hn : s.now < t.now)
    (hone : t.bcache.OneCopy) : t.Lru (b :: l.erase b) := by
  have hb : ∀ i ∈ l.erase b, i ≠ b := fun i hi =>
    (h.around.nodup.mem_erase_iff.mp hi).1
  have hold : ∀ i, i ≠ b → t.released i = s.released i := by
    intro i hi
    rw [hr, Function.update_of_ne hi]
  have hnow : t.released b = t.now := by rw [hr, Function.update_self]
  refine ⟨by rw [hl]; exact h.around.moveFront (h.all b), fun i => ?_, ?_, fun i => ?_, hone⟩
  · by_cases hi : i = b
    · exact hi ▸ List.mem_cons_self
    · exact List.mem_cons_of_mem b ((List.mem_erase_of_ne hi).mpr (h.all i))
  · refine List.pairwise_cons.mpr ⟨fun i hi => ?_, ?_⟩
    · left
      rw [hold i (hb i hi), hnow]
      exact lt_of_le_of_lt (h.past i) hn
    · refine (h.sorted.sublist List.erase_sublist).imp_of_mem fun hi hj hij => ?_
      rwa [Older, hold _ (hb _ hi), hold _ (hb _ hj)]
  · by_cases hi : i = b
    · rw [hi, hnow]
    · rw [hold i hi]
      exact (h.past i).trans hn.le

/-- A step of `bget` is one of the outcomes of its critical section. -/
theorem step_bget {dev blockno : UInt32} (hp : s.call p = .idle) :
    s.step (.bget p dev blockno) = (s.bcache.bget dev blockno).map fun r =>
      r.map fun x => (s.tick x.2).goto p (.bget x.1) := by
  simp only [step, hp]

/-- A step that changes counts only. -/
theorem Lru.quiet (h : s.Lru l) (hl : t.bcache.links = s.bcache.links)
    (hr : t.released = s.released) (hn : s.now ≤ t.now) (hsame : s.bcache.SameBlocks t.bcache) :
    (∃ l', t.Lru l') ∧ ∀ b, (s.bcache.buf b).refcnt ≠ 0 →
      ∀ dev blockno, s.bcache.Holds b dev blockno → t.bcache.Holds b dev blockno := by
  refine ⟨⟨l, h.keep hl hr hn (hsame.oneCopy h.oneCopy)⟩, fun b _ dev blockno hb => ?_⟩
  exact ⟨(hsame b).1.trans hb.1, (hsame b).2.trans hb.2⟩

/-- **Step lemma**: the list stays well formed and sorted by age, no block gets a second buffer, and a
buffer that is referred to stays with its block. -/
theorem step_ok (h : s.Lru l) (he : s.step e = some (.ok t)) :
    (∃ l', t.Lru l') ∧ ∀ b, (s.bcache.buf b).refcnt ≠ 0 →
      ∀ dev blockno, s.bcache.Holds b dev blockno → t.bcache.Holds b dev blockno := by
  have hrefl : s.bcache.SameBlocks s.bcache := fun _ => ⟨rfl, rfl⟩
  cases e with
  | bget p dev blockno =>
    cases hp : s.call p with
    | idle =>
      rw [step_bget hp] at he
      rcases Bcache.bget_cases h.around h.all dev blockno with
        ⟨b, -, hb⟩ | ⟨hno, ⟨b, h0, -, hr⟩ | ⟨-, hr⟩⟩
      · rw [hb] at he
        cases he
        exact h.quiet rfl rfl (Nat.le_succ _) (Bcache.SameBlocks.set rfl rfl)
      · rw [hr] at he
        cases he
        have hone := h.oneCopy.recycle (b := b) (v := ⟨false, dev, blockno, 1⟩) hno rfl rfl
        refine ⟨⟨l, h.keep rfl rfl (Nat.le_succ _) hone⟩, fun i hi dev' blockno' hold => ?_⟩
        have hib : i ≠ b := by
          rintro rfl
          exact hi h0
        show ((s.bcache.set b _).buf i).dev = _ ∧ ((s.bcache.set b _).buf i).blockno = _
        simp only [Bcache.set, Function.update_of_ne hib]
        exact hold
      · rw [hr] at he
        cases he
    | bget b => simp only [step, hp] at he; cases he
    | brelse b => simp only [step, hp] at he; cases he
  | acquiresleep p =>
    simp only [step] at he
    split at he
    · split_ifs at he
      cases he
      exact h.quiet rfl rfl (Nat.le_succ _) hrefl
    · cases he
  | bread p b =>
    simp only [step] at he
    split_ifs at he
    cases he
    exact h.quiet rfl rfl (Nat.le_succ _) (Bcache.SameBlocks.set rfl rfl)
  | brelse p b =>
    simp only [step] at he
    split at he
    · split_ifs at he
      · cases he
        exact h.quiet rfl rfl (Nat.le_succ _) hrefl
      · cases he
    · cases he
  | brelseRest p =>
    simp only [step] at he
    split at he
    · rename_i b hp
      obtain ⟨hsame, ⟨h0, hl⟩ | ⟨h0, hl⟩⟩ := Bcache.brelse_ok b s.bcache
      · split_ifs at he with h0'
        · cases he
          refine ⟨⟨_, h.release hl rfl (Nat.lt_succ_self _) (hsame.oneCopy h.oneCopy)⟩,
            fun i _ dev blockno hi => ?_⟩
          exact ⟨(hsame i).1.trans hi.1, (hsame i).2.trans hi.2⟩
        · exact absurd h0 h0'
      · split_ifs at he with h0'
        · exact absurd h0' h0
        · cases he
          exact h.quiet hl rfl (Nat.le_succ _) hsame
    · cases he
  | bpin p b =>
    simp only [step] at he
    split at he
    · cases he
      exact h.quiet rfl rfl (Nat.le_succ _) (Bcache.SameBlocks.set rfl rfl)
    · cases he
  | bunpin p b =>
    simp only [step] at he
    split at he
    · cases he
      exact h.quiet rfl rfl (Nat.le_succ _) (Bcache.SameBlocks.set rfl rfl)
    · cases he

/-- The calls the rest of the kernel makes: block devices have non-zero numbers. -/
def RealDev (_ : BufSys) : BufOp → Prop
  | .bget _ dev _ => dev ≠ 0
  | _ => True

/-- **Every reachable state.** -/
theorem lru_of_steps {P : BufSys → BufOp → Prop} (h : Runs.Steps step P BufSys.binit s) :
    ∃ l, s.Lru l :=
  h.invariant (I := fun s => ∃ l, s.Lru l) ⟨_, Lru.binit⟩
    fun _ _ _ ⟨_, hs⟩ _ he => (step_ok hs he).1

/-- **The buffer cache keeps one copy per block and evicts by recency.**  The pointers run through
every buffer once, and back; no block has two buffers; a buffer that is referred to stays with its
block; a cached block is found, and for another block the oldest free buffer is taken. -/
theorem bufs_one_copy_lru (h : Runs.Steps step RealDev BufSys.binit s) :
    (∃ l, Dll.Around s.bcache.links l ∧ ∀ b, l.count b = 1) ∧
    s.bcache.OneCopy ∧
    (∀ e t, s.step e = some (.ok t) → ∀ b, 0 < (s.bcache.buf b).refcnt →
      ∀ dev blockno, s.bcache.Holds b dev blockno → t.bcache.Holds b dev blockno) ∧
    ∀ p dev blockno, dev ≠ 0 → s.call p = .idle →
      (∀ b, s.bcache.Holds b dev blockno →
        ∃ t, s.step (.bget p dev blockno) = some (.ok t) ∧ t.call p = .bget b) ∧
      ((∀ b, ¬ s.bcache.Holds b dev blockno) →
        (∃ b t, s.step (.bget p dev blockno) = some (.ok t) ∧ t.call p = .bget b ∧
          (s.bcache.buf b).refcnt = 0 ∧ t.bcache.Holds b dev blockno ∧
          ∀ i, (s.bcache.buf i).refcnt = 0 → i ≠ b → s.Older b i) ∨
        (∀ b, (s.bcache.buf b).refcnt ≠ 0) ∧
          s.step (.bget p dev blockno) = some (.error "bget: no buffers")) := by
  obtain ⟨l, hl⟩ := lru_of_steps h
  refine ⟨⟨l, hl.around, fun b => ?_⟩, hl.oneCopy, fun e t he b hb => ?_, ?_⟩
  · exact List.count_eq_one_of_mem hl.around.nodup (hl.all b)
  · exact (step_ok hl he).2 b (UInt32.pos_iff_ne_zero.mp hb)
  intro p dev blockno hdev hp
  rw [step_bget hp]
  rcases Bcache.bget_cases hl.around hl.all dev blockno with
    ⟨b, hb, hs⟩ | ⟨hno, ⟨b, h0, hb, hr⟩ | ⟨hfull, hr⟩⟩
  · refine ⟨fun i hi => ?_, fun hno => absurd hb (hno b)⟩
    obtain rfl : i = b := hl.oneCopy i b dev blockno hdev hi hb
    rw [hs]
    exact ⟨_, rfl, Function.update_self _ _ _⟩
  · refine ⟨fun i hi => absurd hi (hno i), fun _ => .inl ?_⟩
    rw [hr]
    refine ⟨b, _, rfl, Function.update_self _ _ _, h0, ?_, ?_⟩
    · show ((s.bcache.set b _).buf b).dev = _ ∧ ((s.bcache.set b _).buf b).blockno = _
      simp only [Bcache.set, Function.update_self, and_self]
    · intro i hi hib
      refine Bcache.find?_least (List.pairwise_reverse.mpr hl.sorted) hb i ?_ ?_ hib
      · exact List.mem_reverse.mpr (hl.all i)
      · exact beq_iff_eq.mpr hi
  · refine ⟨fun i hi => absurd hi (hno i), fun _ => .inr ⟨hfull, ?_⟩⟩
    rw [hr]
    rfl

instance : ∀ s e, Decidable (RealDev s e)
  | _, .bget _ dev _ => inferInstanceAs (Decidable (dev ≠ 0))
  | _, .acquiresleep _ | _, .bread _ _ | _, .brelse _ _ | _, .brelseRest _ | _, .bpin _ _
  | _, .bunpin _ _ => isTrue trivial

theorem bufs_one_copy_lru_run : ∃ s, Runs.Steps step RealDev BufSys.binit s ∧
    (s.released 0 = 4 ∧ s.released 1 = 0) ∧ s.bcache.OneCopy := by
  obtain ⟨s, hs, h⟩ := Runs.Steps.of_any (Q := fun s => s.released 0 = 4 ∧ s.released 1 = 0)
    [.bget 7 1 5, .acquiresleep 7, .brelse 7 0, .brelseRest 7, .bget 8 1 6]
    (by decide +kernel : (Runs.exec step RealDev BufSys.binit _).any _ = true)
  exact ⟨s, hs, h, (bufs_one_copy_lru hs).2.1⟩

end BufSys

end Xv6
