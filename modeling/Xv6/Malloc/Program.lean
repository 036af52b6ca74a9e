import Xv6.Malloc.Heap

/-!
# Program — the heap in every run of a program

A program calls `malloc` and `free` in any order and writes to what it was given.  `size` has 32 bits, so
that two free blocks of `2 ^ 32` units together cannot be joined: the heap is in order as long as the bytes
that are not in use never contain `2 ^ 36` in a row.
-/

namespace Xv6.Umalloc

open Tiles Chain

variable {base n p q ap nbytes bp fuel fuel' : ℕ} {m : ByteStore} {h h' : Heap} {sbrk : Sbrk}
  {s t : State} {op : Op} {l : List (ℕ × ℕ)}

/-! ### Fuel -/

/-- With more fuel the result is the same. -/
theorem freeLoop_mono (hl : freeLoop m bp fuel p = some q) (hf : fuel ≤ fuel') :
    freeLoop m bp fuel' p = some q := by
  induction fuel generalizing p fuel' with
  | zero => cases hl
  | succ fuel ih =>
    obtain ⟨g, rfl⟩ : ∃ g, fuel' = g + 1 := ⟨fuel' - 1, by omega⟩
    rw [freeLoop_succ] at hl ⊢
    by_cases hs : Stop m bp p
    · rwa [if_pos hs] at hl ⊢
    · rw [if_neg hs] at hl ⊢
      exact ih hl (by omega)

theorem free_mono (hl : free fuel h ap = some h') (hf : fuel ≤ fuel') : free fuel' h ap = some h' := by
  unfold free at hl ⊢
  simp only [Option.bind_eq_bind, Option.bind_eq_some_iff] at hl ⊢
  obtain ⟨p, hp, hl⟩ := hl
  exact ⟨p, freeLoop_mono hp hf, hl⟩

theorem morecore_mono (hl : morecore fuel sbrk h n = some (p, h')) (hf : fuel ≤ fuel') :
    morecore fuel' sbrk h n = some (p, h') := by
  unfold morecore at hl ⊢
  cases hp : sbrk h.chunks ((if n < 4096 then 4096 else n) * HEADER) with
  | none =>
    simp only [hp] at hl ⊢
    exact hl
  | some a =>
    simp only [hp, Option.bind_eq_bind, Option.bind_eq_some_iff] at hl ⊢
    obtain ⟨h₁, hfree, hl⟩ := hl
    exact ⟨h₁, free_mono hfree hf, hl⟩

theorem mallocLoop_mono (hl : mallocLoop sbrk n fuel h p q = some (ap, h')) (hf : fuel ≤ fuel') :
    mallocLoop sbrk n fuel' h p q = some (ap, h') := by
  induction fuel generalizing h p q fuel' with
  | zero => cases hl
  | succ fuel ih =>
    obtain ⟨g, rfl⟩ : ∃ g, fuel' = g + 1 := ⟨fuel' - 1, by omega⟩
    rw [mallocLoop] at hl ⊢
    by_cases hfit : size h.mem q ≥ n
    · rwa [if_pos hfit] at hl ⊢
    rw [if_neg hfit] at hl ⊢
    by_cases hq : q = h.freep
    · rw [if_pos hq] at hl ⊢
      cases hm : morecore fuel sbrk h n with
      | none =>
        rw [hm] at hl
        cases hl
      | some r =>
        obtain ⟨a, h₁⟩ := r
        rw [hm] at hl
        rw [morecore_mono hm (by omega)]
        dsimp only at hl ⊢
        by_cases ha : a = 0
        · rwa [if_pos ha] at hl ⊢
        · rw [if_neg ha] at hl ⊢
          exact ih hl (by omega)
    · rw [if_neg hq] at hl ⊢
      exact ih hl (by omega)

theorem malloc_mono (hl : malloc base fuel sbrk h nbytes = some (ap, h')) (hf : fuel ≤ fuel') :
    malloc base fuel' sbrk h nbytes = some (ap, h') := mallocLoop_mono hl hf

theorem step_mono (hl : step base s (fuel, op) = some (.ok t)) (hf : fuel ≤ fuel') :
    step base s (fuel', op) = some (.ok t) := by
  cases op with
  | malloc nbytes sbrk =>
    simp only [step] at hl ⊢
    cases hm : malloc base fuel sbrk s.toHeap nbytes with
    | none =>
      rw [hm] at hl
      cases hl
    | some r =>
      rw [hm] at hl
      rw [malloc_mono hm hf]
      exact hl
  | free ap =>
    simp only [step] at hl ⊢
    by_cases ha : ap ∈ s.live.map Prod.fst
    · rw [if_pos ha] at hl ⊢
      cases hm : free fuel s.toHeap ap with
      | none =>
        rw [hm] at hl
        cases hl
      | some r =>
        rw [hm] at hl
        rw [free_mono hm hf]
        exact hl
    · rw [if_neg ha] at hl
      cases hl
  | write a c => exact hl

/-! ### Blocks in use -/

/-- The block that `malloc` has given out as `b`: its header is before it. -/
def block (b : ℕ × ℕ) : ℕ × ℕ := (b.1 - 16, nunits b.2)

/-- The header of a block and the rest of it. -/
def parts (b : ℕ × ℕ) : List (ℕ × ℕ) := [(b.1, 16), (b.1 + 16, 16 * b.2 - 16)]

theorem cover_parts (hl : ∀ b ∈ l, 0 < b.2) (x : ℕ) : cover (l.flatMap parts) x = cover (l.map bytes) x := by
  induction l with
  | nil => rfl
  | cons b l ih =>
    have hb : bytes b = (b.1, 16 + (16 * b.2 - 16)) := by
      have := hl b List.mem_cons_self
      rw [bytes]
      congr 1
      omega
    rw [List.flatMap_cons, List.map_cons, hb, cover_cut, cover_append,
      ih fun c hc => hl c (List.mem_cons_of_mem b hc), cover_cons, cover_cons, parts, cover_cons, cover_cons]
    simp only [cover, List.countP_nil]
    omega

theorem nunits_pos : 0 < nunits n := Nat.succ_pos _

theorem le_nunits : n + 16 ≤ 16 * nunits n := by
  simp only [nunits, HEADER]
  omega

/-! ### Programs -/

/-- What the callers and `sbrk` keep to: a call of `malloc` is for fewer than `2 ^ 31 - 65536` bytes, and
`sbrk` fails or gives the start of memory above all it has given before. -/
def Permitted (base : ℕ) : Op → Prop
  | .malloc nbytes sbrk => nbytes < 2 ^ 31 - 65536 ∧ ∀ cs n p, sbrk cs n = some p →
      base + 16 ≤ p ∧ (∀ c ∈ cs, c.1 + c.2 ≤ p) ∧ p + n ≤ 2 ^ 64
  | _ => True

/-- After a call of `free`, and with what `sbrk` gives to a call of `malloc`, no `2 ^ 36` bytes in a row
are unused. -/
def Spaced (s : State) : Op → Prop
  | .malloc nbytes sbrk => ∀ p, sbrk s.chunks (more (nunits nbytes) * 16) = some p →
      NoRun ((p, more (nunits nbytes) * 16) :: s.chunks) (s.live.map block)
  | .free ap => NoRun s.chunks ((s.live.eraseP fun b => b.1 = ap).map block)
  | .write _ _ => True

/-- The free list is `l`; before the first call of `malloc` there is none. -/
def Holds (base : ℕ) (s : State) (l : List (ℕ × ℕ)) : Prop :=
  (s.freep = 0 ∧ s.chunks = [] ∧ s.live = [] ∧ l = []) ∨ Sound base s.toHeap l (s.live.map block)

/-- The bytes that were asked for, of a block that stays in use, are as they were, unless the program sets
them. -/
def Untouched (s t : State) (op : Op) : Prop :=
  ∀ b ∈ s.live, b ∈ t.live → ∀ x, b.1 ≤ x → x < b.1 + b.2 → (∀ c, op ≠ .write x c) →
    t.mem x = s.mem x

theorem Sound.live {b : ℕ × ℕ} (hs : Sound base h l (s.live.map block)) (hb : b ∈ s.live) :
    16 ≤ b.1 ∧ (block b).1 + 16 = b.1 := by
  have := (hs.above (List.mem_map_of_mem (f := block) hb)).1.1
  simp only [block] at this ⊢
  omega

theorem Holds.live {b : ℕ × ℕ} (hs : Holds base s l) (hb : b ∈ s.live) :
    16 ≤ b.1 ∧ (block b).1 + 16 = b.1 := by
  rcases hs with ⟨-, -, h₃, -⟩ | hs
  · rw [h₃] at hb
    exact absurd hb List.not_mem_nil
  · exact hs.live hb

theorem Holds.untouched {out : List (ℕ × ℕ)} (hs : Holds base s l) (hk : Kept out s.mem t.mem)
    (hout : ∀ b ∈ s.live, b ∈ t.live → block b ∈ out) : Untouched s t op := by
  intro b hb hbt x h₁ h₂ _
  have hb16 := (hs.live hb).2
  have hle := le_nunits (n := b.2)
  refine hk (block b) (hout b hb hbt) x ⟨?_, ?_⟩
  · simp only [bytes]
    omega
  · simp only [bytes, block] at hb16 ⊢
    omega

/-- The call of `malloc` finds a list, its own or the empty one that it makes. -/
theorem Holds.started (hs : Holds base s l) (hbase : 0 < base) (hlt : base < 2 ^ 64) :
    let h := if s.freep = 0 then initBase base s.toHeap else s.toHeap
    Sound base h l (s.live.map block) ∧ h.chunks = s.chunks ∧ Kept (s.live.map block) s.mem h.mem := by
  rcases hs with ⟨h₁, h₂, h₃, rfl⟩ | hs
  · rw [if_pos h₁, h₃]
    refine ⟨⟨⟨⟨?_, ?_⟩, trivial⟩, ⟨?_, ?_, ?_⟩, ?_, ?_, ?_, ⟨?_, ?_⟩⟩, rfl, ?_⟩
    · rw [initBase, ptr_setSize_self, ptr_setPtr hlt]
      rfl
    · rw [initBase, size_setSize]
      rfl
    · exact List.pairwise_singleton _ _
    · exact fun b hb => absurd hb List.not_mem_nil
    · intro b hb
      rw [List.mem_singleton.mp hb]
      exact hlt
    · exact List.mem_cons_self
    · exact fun b hb => absurd hb List.not_mem_nil
    · intro x
      rw [initBase]
      simp only [h₂]
      rfl
    · simp only [initBase, h₂]
      exact List.Pairwise.nil
    · simp only [initBase, h₂]
      exact fun c hc => absurd hc List.not_mem_nil
    · exact fun d hd => absurd hd List.not_mem_nil
  · rw [if_neg (hs.freep_pos hbase)]
    exact ⟨hs, rfl, fun d _ x _ => rfl⟩

/-- **A call of `malloc`.** -/
theorem Holds.malloc (hs : Holds base s l) (hbase : 0 < base) (hlt : base < 2 ^ 64)
    (hn : nunits nbytes < 2 ^ 32)
    (hsb : ∀ p, sbrk s.chunks (more (nunits nbytes) * 16) = some p → base + 16 ≤ p ∧
      (∀ c ∈ s.chunks, c.1 + c.2 ≤ p) ∧ p + more (nunits nbytes) * 16 ≤ 2 ^ 64 ∧
        Room ((p, more (nunits nbytes)) :: l)) :
    ∃ K ap h', (∀ fuel ≥ K, malloc base fuel sbrk s.toHeap nbytes = some (ap, h')) ∧
      Kept (s.live.map block) s.mem h'.mem ∧
      ((∃ c ∈ l, nunits nbytes ≤ c.2) → h'.chunks = s.chunks) ∧
      ((ap = 0 ∧ h'.chunks = s.chunks ∧ sbrk s.chunks (more (nunits nbytes) * 16) = none ∧
          Sound base h' l (s.live.map block)) ∨
        ∃ l₁ f l₂, Grows sbrk (nunits nbytes) s.chunks l h'.chunks (l₁ ++ f :: l₂) ∧
          nunits nbytes ≤ f.2 ∧ ap = (carved (nunits nbytes) f).1 + 16 ∧
          Sound base h' (l₁ ++ (carve (nunits nbytes) f ++ l₂))
            (((ap, nbytes) :: s.live).map block)) := by
  obtain ⟨hs₁, hcs, hk₁⟩ := hs.started hbase hlt
  obtain ⟨K, ap, h', hloop, hk₂, hfit, hres⟩ := hs₁.mallocLoop hbase nunits_pos hn sbrk
    fun p hp => by
      rw [hcs] at hp ⊢
      exact hsb p hp
  rw [hcs] at hfit hres
  refine ⟨K, ap, h', hloop, hk₁.trans hk₂, hfit, ?_⟩
  rcases hres with ⟨h₁, rfl, h₂⟩ | ⟨l₁, f, l₂, hg, hf, h₁, hs'⟩
  · exact .inl ⟨h₁, hcs, h₂, hs₁⟩
  · refine .inr ⟨l₁, f, l₂, hg, hf, h₁, ?_⟩
    have hb : block (ap, nbytes) = carved (nunits nbytes) f := by
      rw [block, h₁, Nat.add_sub_cancel]
      rfl
    rw [List.map_cons, hb]
    exact hs'

/-- What `sbrk` may answer, if the callers and `sbrk` keep to it. -/
theorem Permitted.answer (hp : Permitted base (.malloc nbytes sbrk))
    (hroom : ∀ p, sbrk s.chunks (more (nunits nbytes) * 16) = some p →
      Room ((p, more (nunits nbytes)) :: l)) :
    nunits nbytes < 2 ^ 32 ∧ ∀ p, sbrk s.chunks (more (nunits nbytes) * 16) = some p → base + 16 ≤ p ∧
      (∀ c ∈ s.chunks, c.1 + c.2 ≤ p) ∧ p + more (nunits nbytes) * 16 ≤ 2 ^ 64 ∧
        Room ((p, more (nunits nbytes)) :: l) := by
  obtain ⟨hn, hsb⟩ := hp
  refine ⟨?_, fun p hp => ?_⟩
  · simp only [nunits, HEADER]
    omega
  · obtain ⟨h₁, h₂, h₃⟩ := hsb _ _ _ hp
    exact ⟨h₁, h₂, h₃, hroom p hp⟩

/-- The block that is freed, among those in use. -/
theorem live_split (hap : ap ∈ s.live.map Prod.fst) :
    ∃ b ∈ s.live, b.1 = ap ∧
      (s.live.map block).Perm (block b :: (s.live.eraseP fun b => b.1 = ap).map block) := by
  obtain ⟨c, hc, hca⟩ := List.mem_map.mp hap
  obtain ⟨b, l₁, l₂, -, hb, hl, he⟩ :=
    List.exists_of_eraseP (p := fun b => decide (b.1 = ap)) hc (decide_eq_true hca)
  refine ⟨b, ?_, of_decide_eq_true hb, ?_⟩
  · rw [hl]
    simp
  · rw [he, hl, List.map_append, List.map_append, List.map_cons]
    exact List.perm_middle

/-- **A call of `free`.** -/
theorem Holds.free (hs : Holds base s l) (hap : ap ∈ s.live.map Prod.fst)
    (hroom : ∀ b ∈ s.live, b.1 = ap →
      Sound base s.toHeap l (block b :: (s.live.eraseP fun b => b.1 = ap).map block) →
        Room (block b :: l)) :
    ∃ K h' b, b ∈ s.live ∧ b.1 = ap ∧ (∀ fuel ≥ K, free fuel s.toHeap ap = some h') ∧
      Sound base h' (release (block b) l) ((s.live.eraseP fun b => b.1 = ap).map block) ∧
      h'.chunks = s.chunks ∧ Kept ((s.live.eraseP fun b => b.1 = ap).map block) s.mem h'.mem := by
  rcases hs with ⟨-, -, h₃, -⟩ | hs
  · rw [h₃] at hap
    exact absurd hap List.not_mem_nil
  obtain ⟨b, hb, hba, hperm⟩ := live_split hap
  have hs₁ := hs.perm hperm
  obtain ⟨K, h', hfree, hs', hcs, hk⟩ := hs₁.free (hroom b hb hba hs₁)
  rw [(hs.live hb).2, hba] at hfree
  exact ⟨K, h', b, hb, hba, hfree, hs', hcs, hk⟩

theorem Holds.room (hs : Holds base s l) (hbase : 0 < base) (hlt : base < 2 ^ 64)
    (hp : Permitted base (.malloc nbytes sbrk)) (hr : Spaced s (.malloc nbytes sbrk)) :
    ∀ p, sbrk s.chunks (more (nunits nbytes) * 16) = some p →
      Room ((p, more (nunits nbytes)) :: l) := by
  intro p hsb
  obtain ⟨hs₁, hcs, -⟩ := hs.started hbase hlt
  obtain ⟨h₁, h₂, h₃⟩ := hp.2 _ _ _ hsb
  have hn : nunits nbytes < 2 ^ 32 := by
    have := hp.1
    simp only [nunits, HEADER]
    omega
  obtain ⟨hle, hlt'⟩ := le_more hn
  obtain ⟨hs₂, -⟩ := hs₁.grow h₁ (by rwa [hcs]) h₃ (nunits_pos.trans_le hle) hlt'
  refine hs₂.room ?_
  rw [hcs]
  exact hr p hsb

/-- One operation of a program. -/
theorem step_spec (hbase : 0 < base) (hlt : base < 2 ^ 64) (hs : Holds base s l)
    (hp : Permitted base op) (hr : Spaced s op) (hen : step base s (fuel, op) ≠ none) :
    ∃ K t l', (∀ fuel ≥ K, step base s (fuel, op) = some (.ok t)) ∧ Holds base t l' ∧
      Untouched s t op := by
  cases op with
  | malloc nbytes sbrk =>
    obtain ⟨hn, hsb⟩ := hp.answer (hs.room hbase hlt hp hr)
    obtain ⟨K, ap, h', hm, hk, -, hres⟩ := hs.malloc hbase hlt hn hsb
    have hout : ∀ b ∈ s.live, block b ∈ s.live.map block := fun b hb => List.mem_map_of_mem hb
    have hstep : ∀ fuel ≥ K, step base s (fuel, .malloc nbytes sbrk) =
        some (.ok ⟨h', if ap = 0 then s.live else (ap, nbytes) :: s.live⟩) := by
      intro fuel hf
      simp only [step, hm fuel hf]
    rcases hres with ⟨h0, -, -, hs'⟩ | ⟨l₁, f, l₂, -, -, hap, hs'⟩
    · rw [if_pos h0] at hstep
      exact ⟨K, _, l, hstep, .inr hs', hs.untouched hk fun b hb _ => hout b hb⟩
    · rw [if_neg (by omega)] at hstep
      exact ⟨K, _, _, hstep, .inr hs', hs.untouched hk fun b hb _ => hout b hb⟩
  | free ap =>
    have hap : ap ∈ s.live.map Prod.fst := by
      by_contra hap
      exact hen (if_neg hap)
    obtain ⟨K, h', b, -, -, hf, hs', -, hk⟩ := hs.free hap fun b _ _ hs₁ => hs₁.room hr
    refine ⟨K, ⟨h', s.live.eraseP fun b => b.1 = ap⟩, _, fun fuel hK => ?_, .inr hs',
      hs.untouched hk fun b _ hb => List.mem_map_of_mem hb⟩
    simp only [step, if_pos hap, hf fuel hK]
  | write a c =>
    have ha : ∃ b ∈ s.live, b.1 ≤ a ∧ a < b.1 + b.2 := by
      by_contra ha
      exact hen (if_neg ha)
    refine ⟨0, { s with mem := s.mem.blit a 1 fun _ => c }, l, fun fuel _ => if_pos ha, ?_, ?_⟩
    · obtain ⟨b, hb, h₁, h₂⟩ := ha
      rcases hs with ⟨-, -, h₃, -⟩ | hs
      · rw [h₃] at hb
        exact absurd hb List.not_mem_nil
      have hle := le_nunits (n := b.2)
      have hb16 := (hs.live hb).2
      refine .inr (hs.write (List.mem_map_of_mem hb) (by omega) ?_ c)
      simp only [block] at hb16 ⊢
      omega
    · intro b hb _ x h₁ h₂ hx
      have hne : x ≠ a := by
        rintro rfl
        exact hx c rfl
      have hout : (s.mem.blit a 1 fun _ => c) x = s.mem x := ByteStore.blit_out (by omega)
      exact hout

/-! ### An address space -/

/-- The end of what has been given. -/
def brk (cs : List (ℕ × ℕ)) : ℕ := cs.foldr (fun c p => max (c.1 + c.2) p) 4096

/-- Each chunk starts where the last one ends. -/
def sbrkNext : Sbrk := fun cs n => if brk cs + n ≤ 2 ^ 64 then some (brk cs) else none

theorem brk_cons {c : ℕ × ℕ} {cs : List (ℕ × ℕ)} : brk (c :: cs) = max (c.1 + c.2) (brk cs) := rfl

theorem le_brk (cs : List (ℕ × ℕ)) : 4096 ≤ brk cs ∧ ∀ c ∈ cs, c.1 + c.2 ≤ brk cs := by
  induction cs with
  | nil => exact ⟨le_rfl, fun c hc => absurd hc List.not_mem_nil⟩
  | cons c cs ih =>
    rw [brk_cons]
    refine ⟨ih.1.trans (Nat.le_max_right _ _), fun d hd => ?_⟩
    rcases List.mem_cons.mp hd with rfl | hd
    · exact Nat.le_max_left _ _
    · exact (ih.2 d hd).trans (Nat.le_max_right _ _)

theorem permitted_sbrkNext (hn : nbytes < 2 ^ 31 - 65536) : Permitted 16 (.malloc nbytes sbrkNext) := by
  refine ⟨hn, fun cs n p hp => ?_⟩
  rw [sbrkNext] at hp
  by_cases hle : brk cs + n ≤ 2 ^ 64
  · rw [if_pos hle] at hp
    cases hp
    have := le_brk cs
    exact ⟨by omega, this.2, hle⟩
  · rw [if_neg hle] at hp
    cases hp

/-! ### Runs -/

/-- What the heap is like, with the blocks of `l` in the free list. -/
structure HeapOk (base : ℕ) (s : State) (l : List (ℕ × ℕ)) : Prop where
  /-- From `base` the pointers lead through the blocks of `l`, -/
  ring : Ring base s.mem l
  /-- of which no two are the same, and back to `base`, -/
  once : (base :: l.map Prod.fst).Nodup
  /-- in the order of their addresses, each one behind a gap. -/
  ordered : Ordered base l
  freep : s.freep ∈ base :: l.map Prod.fst
  /-- The headers, the free blocks and the blocks in use make up the memory. -/
  tiles : Tiles (l.flatMap parts ++ (s.live.map block).flatMap parts) s.chunks
  /-- A block in use holds what was asked for. -/
  holds : ∀ b ∈ s.live, size s.mem (b.1 - 16) = nunits b.2 ∧ b.1 = (block b).1 + 16 ∧
    b.2 ≤ 16 * nunits b.2 - 16

theorem Sound.heapOk (hs : Sound base s.toHeap l (s.live.map block)) : HeapOk base s l where
  ring := hs.ring
  once := by
    have hp := hs.ordered.order.imp (S := fun b c => b.1 ≠ c.1) fun {b c} hbc he => by
      have := hbc.1
      omega
    exact List.pairwise_map.mpr hp
  ordered := hs.ordered
  freep := hs.freep
  tiles := by
    have hd := hs.stacked.order.imp (S := fun c d => ∀ x, ¬ (Tiles.Within c x ∧ Tiles.Within d x))
      fun {c d} hcd x hx => by
        have h₁ := hx.1.1
        have h₂ := hx.2.2
        omega
    refine Tiles.of_cover hd fun x => ?_
    have hc := hs.cover x
    rw [List.map_append, cover_append] at hc
    rw [cover_append, cover_parts hs.ordered.pos, cover_parts fun b hb => (hs.header b hb).2, hc]
  holds := fun b hb => by
    have hle := le_nunits (n := b.2)
    exact ⟨(hs.header _ (List.mem_map_of_mem hb)).1, (hs.live hb).2.symm, by omega⟩

/-- What a step with any fuel comes to. -/
theorem Holds.step (hbase : 0 < base) (hlt : base < 2 ^ 64) (hs : Holds base s l)
    (hp : Permitted base op) (hr : Spaced s op) (hstep : step base s (fuel, op) = some (.ok t)) :
    ∃ l', Holds base t l' := by
  obtain ⟨K, t', l', hK, hs', -⟩ := step_spec hbase hlt hs hp hr (ne_of_eq_of_ne hstep (by simp))
  have h₁ := step_mono hstep (Nat.le_max_left fuel K)
  rw [hK _ (Nat.le_max_right fuel K)] at h₁
  cases h₁
  exact ⟨l', hs'⟩

/-- **The user heap.**  In every run in which the bytes that are not in use never contain `2 ^ 36` in a
row, the heap is in order; every operation of the program comes to an end and leaves the bytes of the
blocks in use as they are; and `malloc` returns `0` only when `sbrk` has failed. -/
theorem heap_in_order (hbase : 0 < base) (hlt : base < 2 ^ 64)
    (hrun : Runs.Steps (step base) (fun s o => Permitted base o.2 ∧ Spaced s o.2) (init m) s) :
    ((s.freep = 0 ∧ s.chunks = [] ∧ s.live = []) ∨ ∃ l, HeapOk base s l) ∧
      (∀ fuel₀ op, Permitted base op → Spaced s op → step base s (fuel₀, op) ≠ none →
        ∃ K t, (∀ fuel ≥ K, step base s (fuel, op) = some (.ok t)) ∧ Untouched s t op) ∧
      ∀ nbytes sbrk fuel h', Permitted base (.malloc nbytes sbrk) →
        Spaced s (.malloc nbytes sbrk) → malloc base fuel sbrk s.toHeap nbytes = some (0, h') →
          sbrk s.chunks (more (nunits nbytes) * HEADER) = none := by
  obtain ⟨l, hs⟩ : ∃ l, Holds base s l :=
    hrun.invariant (I := fun s => ∃ l, Holds base s l) ⟨[], .inl ⟨rfl, rfl, rfl, rfl⟩⟩
      fun s o t ⟨l, hs⟩ hP hstep => hs.step hbase hlt hP.1 hP.2 hstep
  refine ⟨?_, fun fuel₀ op hp hr hen => ?_, fun nbytes sbrk fuel h' hp hr hm => ?_⟩
  · rcases hs with ⟨h₁, h₂, h₃, -⟩ | hs
    · exact .inl ⟨h₁, h₂, h₃⟩
    · exact .inr ⟨l, hs.heapOk⟩
  · obtain ⟨K, t, l', hK, -, hu⟩ := step_spec hbase hlt hs hp hr hen
    exact ⟨K, t, hK, hu⟩
  · obtain ⟨hn, hsb⟩ := hp.answer (hs.room hbase hlt hp hr)
    obtain ⟨K, ap, h'', hK, -, -, hres⟩ := hs.malloc hbase hlt hn hsb
    have h₁ := malloc_mono hm (Nat.le_max_left fuel K)
    rw [hK _ (Nat.le_max_right fuel K)] at h₁
    cases h₁
    rcases hres with ⟨-, -, hn, -⟩ | ⟨l₁, f, l₂, -, -, hap, -⟩
    · exact hn
    · omega

/-- After the first call of `malloc`, which takes 64 KB from `sbrk`. -/
theorem heap_in_order_first : ∃ t l, step 16 (init fun _ => 0) (5, .malloc 100 sbrkNext) = some (.ok t) ∧
    t.chunks = [(4096, 65536)] ∧ t.live = [(69520, 100)] ∧ HeapOk 16 t l := by
  have hp : Permitted 16 (.malloc 100 sbrkNext) := permitted_sbrkNext (by omega)
  have hr : Spaced (init fun _ => 0) (.malloc 100 sbrkNext) := by
    intro p hsb a
    have hm : more (nunits 100) * 16 = 65536 := by simp [more, nunits, HEADER]
    have hb : sbrkNext (init fun _ => 0).chunks 65536 = some 4096 := by simp [sbrkNext, brk, init]
    rw [hm] at hsb
    rw [hb] at hsb
    cases hsb
    rw [hm]
    have hin : ∀ x, Unused [(4096, 65536)] [] x → 4096 ≤ x ∧ x < 69632 := by
      rintro x ⟨⟨c, hc, hx⟩, -⟩
      rw [List.mem_singleton.mp hc] at hx
      simp only [Tiles.Within] at hx
      omega
    by_cases ha : 4096 ≤ a ∧ a < 69632
    · refine ⟨69632, by omega, by omega, fun h => ?_⟩
      have := hin _ h
      omega
    · exact ⟨a, le_rfl, by omega, fun h => ha (hin a h)⟩
  have hrun : Runs.Steps (step 16) (fun s o => Permitted 16 o.2 ∧ Spaced s o.2) (init fun _ => 0)
      (init fun _ => 0) := Runs.Steps.refl _
  have hall : (step 16 (init fun _ => 0) (5, .malloc 100 sbrkNext)).any (Runs.okWith fun t =>
      decide (t.chunks = [(4096, 65536)] ∧ t.live = [(69520, 100)])) = true := by decide +kernel
  obtain ⟨x, hx, hall⟩ := (Option.any_eq_true _ _).mp hall
  obtain ⟨t, rfl, ht⟩ := Runs.okWith_iff.mp hall
  obtain ⟨hchunks, hlive⟩ := of_decide_eq_true ht
  have hrun' := hrun.snoc (l := (5, .malloc 100 sbrkNext)) ⟨hp, hr⟩ hx
  obtain ⟨-, -, h0⟩ | ⟨l, hl⟩ := (heap_in_order (by decide) (by decide) hrun').1
  · rw [hlive] at h0
    cases h0
  · exact ⟨t, l, hx, hchunks, hlive, hl⟩

/-! ### Where the sizes do not fit

Thirty-three blocks of a little less than `2 ^ 31` bytes, one behind the other, are taken and given back.
When the last one is joined with the others the `uint` wraps, and most of the memory is lost. -/

/-- The chunks for `k` of the largest requests; each is for `134213633` units. -/
def chunksUpTo : ℕ → List (ℕ × ℕ)
  | 0 => []
  | k + 1 => (4096 + k * 2147418128, 2147418128) :: chunksUpTo k

def liveUpTo : ℕ → List (ℕ × ℕ)
  | 0 => []
  | k + 1 => (4096 + k * 2147418128 + 16, 2147418111) :: liveUpTo k

/-- The free list when `j` of the blocks have been given back, from the last one on. -/
def given (j : ℕ) : List (ℕ × ℕ) := if j = 0 then [] else [(4096 + (33 - j) * 2147418128, j * 134213633)]

theorem brk_chunksUpTo (k : ℕ) : brk (chunksUpTo k) = 4096 + k * 2147418128 := by
  induction k with
  | zero => simp [chunksUpTo, brk]
  | succ k ih =>
    rw [chunksUpTo, brk_cons, ih]
    omega

theorem nunits_request : nunits 2147418111 = 134213633 := by simp only [nunits, HEADER]

theorem more_request : more 134213633 = 134213633 := by simp [more]

/-- Blocks within less than `2 ^ 32` units. -/
theorem room_of_span {a w : ℕ} (h : ∀ b ∈ l, a ≤ b.1 ∧ b.1 + 16 * b.2 ≤ a + 16 * w)
    (hw : w < 2 ^ 32) : Room l := by
  intro c n hx
  by_contra hn
  have hin : ∀ x, c ≤ x → x < c + 16 * n → a ≤ x ∧ x < a + 16 * w := by
    intro x h₁ h₂
    obtain ⟨d, hd, hdx⟩ := cover_pos.mp (hx x h₁ h₂)
    obtain ⟨b, hb, rfl⟩ := List.mem_map.mp hd
    have := h b hb
    simp only [Tiles.Within, bytes] at hdx
    omega
  have h₁ := hin c le_rfl (by omega)
  have h₂ := hin (c + 16 * n - 1) (by omega) (by omega)
  omega

theorem append_cons_eq_singleton {b c : ℕ × ℕ} {l₁ l₂ : List (ℕ × ℕ)} (h : l₁ ++ b :: l₂ = [c]) :
    l₁ = [] ∧ b = c ∧ l₂ = [] := by
  cases l₁ with
  | nil =>
    rw [List.nil_append, List.cons.injEq] at h
    exact ⟨rfl, h⟩
  | cons d l₁ => simp at h

/-- The blocks are taken. -/
theorem taken (m : ByteStore) {k : ℕ} (hk : k ≤ 33) :
    ∃ s, Runs.Steps (step 16) (fun _ o => Permitted 16 o.2) (init m) s ∧ s.chunks = chunksUpTo k ∧
      s.live = liveUpTo k ∧ Holds 16 s [] := by
  induction k with
  | zero => exact ⟨init m, Runs.Steps.refl _, rfl, rfl, .inl ⟨rfl, rfl, rfl, rfl⟩⟩
  | succ k ih =>
    obtain ⟨s, hrun, hcs, hlive, hs⟩ := ih (by omega)
    have hsb : sbrkNext s.chunks 2147418128 = some (4096 + k * 2147418128) := by
      rw [hcs, sbrkNext, brk_chunksUpTo, if_pos (by omega)]
    have hp : Permitted 16 (.malloc 2147418111 sbrkNext) := permitted_sbrkNext (by omega)
    have hroom : ∀ p, sbrkNext s.chunks (more (nunits 2147418111) * 16) = some p →
        Room [(p, more (nunits 2147418111))] := fun p _ => by
      rw [nunits_request, more_request]
      exact room_of_span (a := p) (w := 134213633) (fun b hb => by
        rw [List.mem_singleton.mp hb]
        exact ⟨le_rfl, le_rfl⟩) (by omega)
    obtain ⟨hn, hans⟩ := hp.answer hroom
    obtain ⟨K, ap, h', hK, -, -, hres⟩ := hs.malloc (by omega) (by omega) hn hans
    rw [nunits_request, more_request] at hres
    rcases hres with ⟨-, -, hn, -⟩ | ⟨l₁, f, l₂, hg, -, hap, hs'⟩
    · rw [hsb] at hn
      cases hn
    rcases hg with ⟨-, hl⟩ | ⟨p, hp', hcs', hl⟩
    · exact absurd hl (by simp)
    rw [more_request, hsb] at hp'
    cases hp'
    -- the new chunk is the only free block, and it is taken whole
    rw [more_request, release] at hl
    obtain ⟨rfl, rfl, rfl⟩ := append_cons_eq_singleton hl
    have hc : carve 134213633 (4096 + k * 2147418128, 134213633) = [] := if_pos rfl
    have ha : (carved 134213633 (4096 + k * 2147418128, 134213633)).1 = 4096 + k * 2147418128 := by
      simp [carved]
    rw [ha] at hap
    rw [hc] at hs'
    have hne : ap ≠ 0 := by omega
    have hstep : step 16 s (K, .malloc 2147418111 sbrkNext) =
        some (.ok ⟨h', (ap, 2147418111) :: s.live⟩) := by
      simp only [step, hK K le_rfl, if_neg hne]
    refine ⟨_, hrun.snoc hp hstep, ?_, ?_, .inr hs'⟩
    · rw [hcs', hcs, more_request]
      rfl
    · rw [hap, hlive]
      rfl

theorem liveUpTo_request {k : ℕ} : ∀ b ∈ liveUpTo k, b.2 = 2147418111 := by
  induction k with
  | zero => exact fun b hb => absurd hb List.not_mem_nil
  | succ k ih =>
    intro b hb
    rcases List.mem_cons.mp hb with rfl | hb
    · rfl
    · exact ih b hb

/-- The next block goes in front of those that have been given back. -/
theorem release_given {j : ℕ} (hj : j < 32) :
    release (4096 + (32 - j) * 2147418128, 134213633) (given j) = given (j + 1) := by
  have h1 : given (j + 1) = [(4096 + (33 - (j + 1)) * 2147418128, (j + 1) * 134213633)] := if_neg (by omega)
  rw [h1]
  by_cases h0 : j = 0
  · subst h0
    rw [given, if_pos rfl, release]
  · rw [given, if_neg h0, release, if_pos (by simp only; omega), join, if_pos (by simp only; omega)]
    simp only [List.cons.injEq, Prod.mk.injEq, and_true]
    omega

theorem room_given {j : ℕ} (hj : j < 32) :
    Room ((4096 + (32 - j) * 2147418128, 134213633) :: given j) := by
  refine room_of_span (a := 4096 + (32 - j) * 2147418128) (w := (j + 1) * 134213633) (fun b hb => ?_)
    (by omega)
  rcases List.mem_cons.mp hb with rfl | hb
  · simp only
    omega
  · by_cases h0 : j = 0
    · rw [given, if_pos h0] at hb
      exact absurd hb List.not_mem_nil
    · rw [given, if_neg h0, List.mem_singleton] at hb
      subst hb
      simp only
      omega

/-- They are given back, all but one. -/
theorem given_back (m : ByteStore) {j : ℕ} (hj : j ≤ 32) :
    ∃ s, Runs.Steps (step 16) (fun _ o => Permitted 16 o.2) (init m) s ∧ s.chunks = chunksUpTo 33 ∧
      s.live = liveUpTo (33 - j) ∧ Holds 16 s (given j) := by
  induction j with
  | zero => exact taken m le_rfl
  | succ j ih =>
    obtain ⟨s, hrun, hcs, hlive, hs⟩ := ih (by omega)
    have hsplit : 33 - j = 33 - (j + 1) + 1 := by omega
    have hk : 33 - (j + 1) = 32 - j := by omega
    rw [hsplit, liveUpTo, hk] at hlive
    have hblock : ∀ b ∈ s.live, b.1 = 4096 + (32 - j) * 2147418128 + 16 →
        block b = (4096 + (32 - j) * 2147418128, 134213633) := by
      intro b hb hba
      have hb2 : b.2 = 2147418111 := liveUpTo_request (k := 32 - j + 1) b (by rwa [liveUpTo, ← hlive])
      rw [block, hba, hb2, nunits_request, Nat.add_sub_cancel]
    have hap : 4096 + (32 - j) * 2147418128 + 16 ∈ s.live.map Prod.fst := by
      rw [hlive]
      exact List.mem_cons_self
    obtain ⟨K, h', b, hb, hba, hK, hs', hcs', -⟩ := hs.free hap fun b hb hba _ => by
      rw [hblock b hb hba]
      exact room_given (by omega)
    rw [hblock b hb hba, release_given (by omega)] at hs'
    have hstep : step 16 s (K, .free (4096 + (32 - j) * 2147418128 + 16)) = some (.ok
        ⟨h', s.live.eraseP fun b => b.1 = 4096 + (32 - j) * 2147418128 + 16⟩) := by
      simp only [step, if_pos hap, hK K le_rfl]
    have hp : Permitted 16 (.free (4096 + (32 - j) * 2147418128 + 16)) := trivial
    refine ⟨_, hrun.snoc hp hstep, hcs'.trans hcs, ?_, .inr hs'⟩
    rw [hk, hlive, List.eraseP_cons_of_pos (by simp)]

/-- The list that the pointers lead through is no other. -/
theorem Ring.eq_singleton {a k : ℕ} (h : Ring base m l) (ho : Ordered base l)
    (h' : Ring base m [(a, k)]) (hne : a ≠ base) : l = [(a, k)] := by
  obtain ⟨⟨hn, -⟩, hr⟩ := h
  obtain ⟨⟨hn', -⟩, ⟨hna, hsa⟩, -⟩ := h'
  cases l with
  | nil => exact absurd (hn'.symm.trans hn) hne
  | cons b l =>
    obtain ⟨⟨hnb, hsb⟩, -⟩ := hr
    have hba : b.1 = a := (hn'.symm.trans hn).symm
    rw [hba] at hnb hsb
    have hl : first base l = base := hnb.symm.trans hna
    cases l with
    | nil => rw [← Prod.mk.eta (p := b), hba, ← hsb, hsa]
    | cons c l =>
      have hc := ((List.pairwise_cons.mp ho.order).1 c (by simp)).1
      rw [first] at hl
      simp only at hc
      omega

/-- With the last block, the sizes no longer fit: no free list makes up the memory. -/
theorem heap_wraps : ∃ s, Runs.Steps (step 16) (fun _ o => Permitted 16 o.2) (init fun _ => 0) s ∧
    s.live = [] ∧ ¬ ((s.freep = 0 ∧ s.chunks = [] ∧ s.live = []) ∨ ∃ l, HeapOk 16 s l) := by
  obtain ⟨s, hrun, hcs, hlive, hs⟩ := given_back (fun _ => 0) le_rfl
  have hlive : s.live = [(4112, 2147418111)] := hlive
  have hb : block (4112, 2147418111) = (4096, 134213633) := by simp [block, nunits_request]
  rcases hs with ⟨-, -, h₃, -⟩ | hs
  · rw [hlive] at h₃
    cases h₃
  rw [hlive, List.map_cons, hb] at hs
  obtain ⟨K, m', p, hfree, hrel⟩ := hs.released
  -- thirty-three times the size is more than a `uint` holds
  have hl : release (4096, 134213633) (given 32) = [(4096, 134082593)] := by
    simp [given, release, join]
  have hring := hrel.ring
  rw [hl] at hring
  have hap : 4112 ∈ s.live.map Prod.fst := by rw [hlive]; exact List.mem_cons_self
  have herase : s.live.eraseP (fun b => b.1 = 4112) = [] := by rw [hlive]; rfl
  have hstep : step 16 s (K, .free 4112) =
      some (.ok ⟨{ s.toHeap with mem := m', freep := p }, []⟩) := by
    simp only [step, if_pos hap, hfree K le_rfl, herase]
  have hp : Permitted 16 (.free 4112) := trivial
  refine ⟨_, hrun.snoc hp hstep, rfl, ?_⟩
  rintro (⟨-, h₂, -⟩ | ⟨l, hok⟩)
  · rw [hcs] at h₂
    cases h₂
  have hl' := hok.ring.eq_singleton hok.ordered hring (by omega)
  subst hl'
  -- the last byte of the last chunk is in no block
  have hx := (hok.tiles.union (4096 + 33 * 2147418128 - 1)).mpr
    ⟨(4096 + 32 * 2147418128, 2147418128), by rw [hcs]; exact List.mem_cons_self, by
      simp only [Tiles.Within]
      omega⟩
  obtain ⟨t, ht, htx⟩ := hx
  simp only [List.map_nil, List.flatMap_nil, List.append_nil, List.flatMap_cons, parts, List.mem_cons,
    List.not_mem_nil, or_false] at ht
  rcases ht with rfl | rfl
  · simp only [Tiles.Within] at htx
    omega
  · simp only [Tiles.Within] at htx
    omega

end Xv6.Umalloc
