import Mathlib.Data.List.Perm.Subperm
import Mathlib.Data.List.Range
import Mathlib.Tactic.NormNum
import Mathlib.Tactic.SplitIfs
import Xv6.Kernel.VirtioDisk
import Xv6.Lib.Ring
import Xv6.Lib.Runs

/-!
# Completions — the disk driver matches completions to requests

A descriptor is free or in the chain of one call (`Chains`).  The calls whose request is under way are
in three queues (`Queues`): those that the device has not read yet, those it works on, and those it
has completed but the driver has not seen.  A call moves from one to the next and leaves the last one
when `b->disk` is cleared.
-/

namespace Xv6.VirtioDisk

/-! ## What a place in the code tells -/

/-- The buffer of a call. -/
def Pc.buf : Pc → Option ℕ
  | .idle => none
  | .start b _ _ | .alloc b _ _ | .sleepFree b _ _ => some b
  | .format r | .ring r | .bump r | .wait r | .sleepBuf r | .woken r => some r.b

/-- A call that has descriptors. -/
def Pc.call : Pc → Option Rw
  | .format r | .ring r | .bump r | .wait r | .sleepBuf r | .woken r => some r
  | _ => none

/-- A call with a formatted chain. -/
def Pc.formed : Pc → Option Rw
  | .ring r | .bump r | .wait r | .sleepBuf r | .woken r => some r
  | _ => none

/-- A call that has published its chain. -/
def Pc.posted : Pc → Option Rw
  | .wait r | .sleepBuf r | .woken r => some r
  | _ => none

/-- The lock is held. -/
def Pc.holds : Pc → Bool
  | .alloc _ _ _ | .format _ | .ring _ | .bump _ | .wait _ => true
  | _ => false

def Rw.chain (r : Rw) : List ℕ := [r.i, r.j, r.k]

section Views

variable {pc : Pc} {ch : Chan} {r : Rw}

@[simp] theorem buf_wake : (pc.wake ch).buf = pc.buf := by
  cases pc <;> simp only [Pc.wake] <;> split_ifs <;> rfl

@[simp] theorem call_wake : (pc.wake ch).call = pc.call := by
  cases pc <;> simp only [Pc.wake] <;> split_ifs <;> rfl

@[simp] theorem formed_wake : (pc.wake ch).formed = pc.formed := by
  cases pc <;> simp only [Pc.wake] <;> split_ifs <;> rfl

@[simp] theorem posted_wake : (pc.wake ch).posted = pc.posted := by
  cases pc <;> simp only [Pc.wake] <;> split_ifs <;> rfl

@[simp] theorem holds_wake : (pc.wake ch).holds = pc.holds := by
  cases pc <;> simp only [Pc.wake] <;> split_ifs <;> rfl

theorem formed_of_posted (h : pc.posted = some r) : pc.formed = some r := by
  cases pc <;> first | exact h | cases h

theorem call_of_formed (h : pc.formed = some r) : pc.call = some r := by
  cases pc <;> first | exact h | cases h

theorem buf_of_call (h : pc.call = some r) : pc.buf = some r.b := by
  cases pc <;> cases h <;> rfl

theorem Rw.i_mem (r : Rw) : r.i ∈ r.chain := List.mem_cons_self

theorem Rw.j_mem (r : Rw) : r.j ∈ r.chain := List.mem_cons_of_mem _ List.mem_cons_self

theorem Rw.k_mem (r : Rw) : r.k ∈ r.chain :=
  List.mem_cons_of_mem _ (List.mem_cons_of_mem _ List.mem_cons_self)

end Views

/-- Some of the processes that sleep for descriptors have been woken up. -/
def Woken {n : ℕ} (pc pc' : Fin n → Pc) : Prop := ∀ p, pc' p = pc p ∨ pc' p = (pc p).wake .free

namespace Woken

variable {n : ℕ} {pc pc' pc'' : Fin n → Pc}

theorem refl : Woken pc pc := fun _ => .inl rfl

theorem wake : Woken pc fun p => (pc p).wake .free := fun _ => .inr rfl

theorem trans (h : Woken pc pc') (h' : Woken pc' pc'') : Woken pc pc'' := by
  intro p
  have hidem : ((pc p).wake .free).wake .free = (pc p).wake .free := by
    cases pc p <;> rfl
  rcases h p with h | h <;> rcases h' p with h' | h' <;> rw [h'] <;> rw [h]
  · exact .inl rfl
  · exact .inr rfl
  · exact .inr rfl
  · exact .inr hidem

/-- Waking up does not change what a process has. -/
theorem view {α : Type*} {f : Pc → α} (h : Woken pc pc') (hf : ∀ x : Pc, f (x.wake .free) = f x)
    (p : Fin n) : f (pc' p) = f (pc p) := by
  rcases h p with h | h
  · rw [h]
  · rw [h, hf]

end Woken

namespace Disk

variable {n : ℕ} {s t : Disk n} {p q : Fin n} {i j k b : ℕ} {r r' : Rw} {x : Pc} {l : List ℕ}

/-! ## Descriptors -/

theorem free_desc_ok (hi : i < NUM) (hfree : s.free i = false) :
    s.free_desc i = .ok ({ s with desc := Function.update s.desc i ⟨.null, 0, 0, 0⟩,
                                  free := Function.update s.free i true }.wakeup .free) := by
  unfold free_desc
  rw [if_neg (by omega), if_neg (by rw [hfree]; exact Bool.false_ne_true)]

/-- Freeing descriptors, none of which is free. -/
theorem free_descs (hnd : l.Nodup) (hl : ∀ i ∈ l, i < NUM ∧ s.free i = false) :
    ∃ desc pc, l.foldlM free_desc s =
        .ok { s with desc := desc, free := fun i => s.free i || decide (i ∈ l), pc := pc } ∧
      (∀ i, i ∉ l → desc i = s.desc i) ∧ Woken s.pc pc := by
  induction l generalizing s with
  | nil =>
    refine ⟨s.desc, s.pc, ?_, fun _ _ => rfl, .refl⟩
    simp only [List.foldlM_nil, List.not_mem_nil, decide_false, Bool.or_false]
    rfl
  | cons i l ih =>
    rw [List.nodup_cons] at hnd
    obtain ⟨hi, hfree⟩ := hl i List.mem_cons_self
    rw [List.foldlM_cons, free_desc_ok hi hfree]
    obtain ⟨desc, pc, ht, hdesc, hpc⟩ :=
      ih (s := { s with desc := Function.update s.desc i ⟨.null, 0, 0, 0⟩,
                        free := Function.update s.free i true }.wakeup .free) hnd.2
        fun m hm => ⟨(hl m (List.mem_cons_of_mem _ hm)).1, by
          have hne : m ≠ i := fun he => hnd.1 (he ▸ hm)
          exact (Function.update_of_ne hne _ _).trans (hl m (List.mem_cons_of_mem _ hm)).2⟩
    refine ⟨desc, pc, ht.trans ?_, fun m hm => ?_, .trans .wake hpc⟩
    · congr 1
      simp only [wakeup]
      congr 1
      funext m
      by_cases hm : m = i
      · simp [hm]
      · simp [hm]
    · rw [List.mem_cons, not_or] at hm
      exact (hdesc m hm.2).trans (Function.update_of_ne hm.1 _ _)

theorem alloc_desc_cases (s : Disk n) :
    s.alloc_desc = none ∨ ∃ i, i < NUM ∧ s.free i = true ∧
      s.alloc_desc = some (i, { s with free := Function.update s.free i false }) := by
  unfold alloc_desc
  cases hf : (List.range NUM).find? s.free with
  | none => exact .inl rfl
  | some i =>
    exact .inr ⟨i, List.mem_range.mp (List.mem_of_find?_eq_some hf), List.find?_some hf, rfl⟩

/-- The loop of `alloc3_desc`: the descriptors are allocated, or none is and some have been given
back. -/
theorem allocDescs_spec (left : ℕ) (idx : List ℕ) (s : Disk n) (hnd : idx.Nodup)
    (hidx : ∀ i ∈ idx, i < NUM ∧ s.free i = false) :
    (∃ js, js.length = left ∧ (idx ++ js).Nodup ∧ (∀ i ∈ js, i < NUM ∧ s.free i = true) ∧
      allocDescs left idx s =
        .ok (some (idx ++ js), { s with free := fun i => s.free i && !decide (i ∈ js) })) ∨
    ∃ (js : List ℕ) (desc : ℕ → virtq_desc) (pc : Fin n → Pc),
      (∀ i ∈ js, s.free i = true) ∧ allocDescs left idx s =
        .ok (none, { s with desc := desc, free := fun i => s.free i || decide (i ∈ idx), pc := pc }) ∧
      (∀ i, i ∉ idx → i ∉ js → desc i = s.desc i) ∧ Woken s.pc pc := by
  induction left generalizing idx s with
  | zero =>
    left
    refine ⟨[], rfl, by rw [List.append_nil]; exact hnd, fun _ h => absurd h List.not_mem_nil, ?_⟩
    simp [allocDescs]
  | succ left ih =>
    rcases s.alloc_desc_cases with hnone | ⟨i, hi, hfree, hsome⟩
    · obtain ⟨desc, pc, ht, hdesc, hpc⟩ := free_descs hnd hidx
      refine .inr ⟨[], desc, pc, fun _ h => absurd h List.not_mem_nil, ?_, fun i h _ => hdesc i h, hpc⟩
      rw [allocDescs, hnone]
      show Except.map _ (idx.foldlM free_desc s) = _
      rw [ht]
      rfl
    · have hni : i ∉ idx := fun h => by rw [(hidx i h).2] at hfree; cases hfree
      have hnd' : (idx ++ [i]).Nodup := by
        rw [List.nodup_append]
        exact ⟨hnd, List.nodup_singleton i, fun a ha b hb he =>
          hni (by rw [List.mem_singleton] at hb; rw [← hb, ← he]; exact ha)⟩
      have hold : ∀ m, m ≠ i → Function.update s.free i false m = s.free m := fun m hm =>
        Function.update_of_ne hm _ _
      have hone := ih (idx ++ [i]) { s with free := Function.update s.free i false } hnd' ?_
      · rw [allocDescs, hsome]
        rcases hone with ⟨js, hlen, hjs, hfree', he⟩ | ⟨js, desc, pc, hjs, he, hdesc, hpc⟩
        · have hij : i ∉ js := by
            rw [List.append_assoc, List.nodup_append] at hjs
            exact (List.nodup_cons.mp hjs.2.1).1
          refine .inl ⟨i :: js, by rw [List.length_cons, hlen], ?_, fun m hm => ?_, he.trans ?_⟩
          · rw [List.append_assoc] at hjs
            exact hjs
          · rcases List.mem_cons.mp hm with rfl | hm
            · exact ⟨hi, hfree⟩
            · have hne : m ≠ i := fun h => hij (h ▸ hm)
              exact ⟨(hfree' m hm).1, (hold m hne).symm.trans (hfree' m hm).2⟩
          · rw [List.append_assoc]
            congr 3
            funext m
            by_cases hm : m = i
            · simp [hm]
            · simp [hm]
        · refine .inr ⟨i :: js, desc, pc, fun m hm => ?_, he.trans ?_, fun m h1 h2 => ?_, hpc⟩
          · rcases List.mem_cons.mp hm with rfl | hm
            · exact hfree
            · by_cases hmi : m = i
              · rw [hmi]
                exact hfree
              · exact (hold m hmi).symm.trans (hjs m hm)
          · congr 3
            funext m
            by_cases hm : m = i
            · simp [hm, hfree]
            · simp [hm]
          · rw [List.mem_cons, not_or] at h2
            refine hdesc m ?_ h2.2
            rw [List.mem_append, List.mem_singleton, not_or]
            exact ⟨h1, h2.1⟩
      · intro m hm
        rcases List.mem_append.mp hm with hm | hm
        · have hne : m ≠ i := fun h => hni (h ▸ hm)
          show m < NUM ∧ Function.update s.free i false m = false
          rw [hold m hne]
          exact hidx m hm
        · rw [List.mem_singleton.mp hm]
          exact ⟨hi, Function.update_self _ _ _⟩

/-- **`alloc3_desc`** allocates three descriptors, or none. -/
theorem alloc3_desc_cases (s : Disk n) :
    (∃ i j k, [i, j, k].Nodup ∧ (∀ m ∈ [i, j, k], m < NUM ∧ s.free m = true) ∧
      s.alloc3_desc =
        .ok (some [i, j, k], { s with free := fun m => s.free m && !decide (m ∈ [i, j, k]) })) ∨
    ∃ (desc : ℕ → virtq_desc) (pc : Fin n → Pc),
      s.alloc3_desc = .ok (none, { s with desc := desc, pc := pc }) ∧
      (∀ i, s.free i = false → desc i = s.desc i) ∧ Woken s.pc pc := by
  rcases allocDescs_spec 3 [] s List.nodup_nil fun _ h => absurd h List.not_mem_nil with
    ⟨js, hlen, hnd, hfree, he⟩ | ⟨js, desc, pc, hjs, he, hdesc, hpc⟩
  · left
    obtain ⟨i, j, k, rfl⟩ := List.length_eq_three.mp hlen
    exact ⟨i, j, k, hnd, hfree, he⟩
  · right
    refine ⟨desc, pc, he.trans ?_, fun i hi => hdesc i List.not_mem_nil fun hm => ?_, hpc⟩
    · simp only [List.not_mem_nil, decide_false, Bool.or_false]
    · rw [hjs i hm] at hi
      cases hi

/-- The chain of a call, as `format` leaves it. -/
structure Formatted (s : Disk n) (r : Rw) : Prop where
  fst : s.desc r.i = ⟨.op r.i, 16, VRING_DESC_F_NEXT, r.j⟩
  snd : s.desc r.j =
    ⟨.data r.b, 1024, (if r.write then 0 else VRING_DESC_F_WRITE) ||| VRING_DESC_F_NEXT, r.k⟩
  thd : s.desc r.k = ⟨.status r.i, 1, VRING_DESC_F_WRITE, 0⟩
  ops : s.ops r.i = ⟨type r.write, 0, r.sector⟩
  infoB : s.infoB r.i = some r.b

theorem Formatted.flags (h : s.Formatted r) : (s.desc r.i).flags &&& VRING_DESC_F_NEXT ≠ 0 ∧
    (s.desc r.j).flags &&& VRING_DESC_F_NEXT ≠ 0 ∧ (s.desc r.k).flags &&& VRING_DESC_F_NEXT = 0 := by
  rw [h.fst, h.snd, h.thd]
  dsimp only
  cases r.write <;> decide

/-- **The device reads the request** that the call makes. -/
theorem Formatted.decode (h : s.Formatted r) : s.decode r.i = some (request r) := by
  obtain ⟨h1, h2, h3⟩ := h.flags
  have hj : (s.desc r.i).next = r.j := by rw [h.fst]
  have hk : (s.desc r.j).next = r.k := by rw [h.snd]
  unfold Disk.decode
  simp only [hj, hk]
  rw [if_neg]
  · simp only [h.fst, h.snd, h.thd, h.ops]
    rfl
  · rintro (h0 | h0 | h0)
    · exact h1 h0
    · exact h2 h0
    · exact h0 h3

theorem free_chain_next {rounds : ℕ} (h : s.free_desc i = .ok t)
    (hf : (s.desc i).flags &&& VRING_DESC_F_NEXT ≠ 0) :
    free_chain (rounds + 1) s i = free_chain rounds t (s.desc i).next := by
  rw [free_chain, h]
  exact if_pos hf

theorem free_chain_last {rounds : ℕ} (h : s.free_desc i = .ok t)
    (hf : (s.desc i).flags &&& VRING_DESC_F_NEXT = 0) :
    free_chain (rounds + 1) s i = some (.ok t) := by
  rw [free_chain, h]
  exact if_neg (not_not.mpr hf)

/-- **`free_chain`** frees the three descriptors of a call, without a panic. -/
theorem free_chain_ok (h : s.Formatted r) (hnd : r.chain.Nodup)
    (hl : ∀ m ∈ r.chain, m < NUM ∧ s.free m = false) (c : Option ℕ) :
    ∃ (desc : ℕ → virtq_desc) (pc : Fin n → Pc),
      free_chain (NUM + 1) { s with infoB := Function.update s.infoB r.i c } r.i =
        some (.ok { s with infoB := Function.update s.infoB r.i c, desc := desc, pc := pc,
                           free := fun m => s.free m || decide (m ∈ r.chain) }) ∧
      (∀ m, m ∉ r.chain → desc m = s.desc m) ∧ Woken s.pc pc := by
  obtain ⟨h1, h2, h3⟩ := h.flags
  have hj : (s.desc r.i).next = r.j := by rw [h.fst]
  have hk : (s.desc r.j).next = r.k := by rw [h.snd]
  have hij : r.j ≠ r.i ∧ r.k ≠ r.i ∧ r.k ≠ r.j := by
    simp only [Rw.chain, List.nodup_cons, List.mem_cons, List.not_mem_nil, or_false, not_or] at hnd
    exact ⟨Ne.symm hnd.1.1, Ne.symm hnd.1.2, Ne.symm hnd.2.1⟩
  obtain ⟨hji, hki, hkj⟩ := hij
  obtain ⟨desc, pc, ht, hdesc, hpc⟩ :=
    free_descs (s := { s with infoB := Function.update s.infoB r.i c }) hnd hl
  refine ⟨desc, pc, ?_, hdesc, hpc⟩
  obtain ⟨hi, hfi⟩ := hl _ r.i_mem
  obtain ⟨hj', hfj⟩ := hl _ r.j_mem
  obtain ⟨hk', hfk⟩ := hl _ r.k_mem
  -- the states behind the first and the second round
  obtain ⟨u, hu, hudesc, hufree⟩ : ∃ u,
      free_desc { s with infoB := Function.update s.infoB r.i c } r.i = .ok u ∧
      (∀ m, m ≠ r.i → u.desc m = s.desc m) ∧ ∀ m, m ≠ r.i → u.free m = s.free m :=
    ⟨_, free_desc_ok hi hfi, fun m hm => Function.update_of_ne hm _ _,
      fun m hm => Function.update_of_ne hm _ _⟩
  obtain ⟨v, hv, hvdesc, hvfree⟩ : ∃ v, u.free_desc r.j = .ok v ∧
      (∀ m, m ≠ r.j → v.desc m = u.desc m) ∧ ∀ m, m ≠ r.j → v.free m = u.free m :=
    ⟨_, free_desc_ok hj' ((hufree _ hji).trans hfj), fun m hm => Function.update_of_ne hm _ _,
      fun m hm => Function.update_of_ne hm _ _⟩
  obtain ⟨w, hw⟩ : ∃ w, v.free_desc r.k = .ok w :=
    ⟨_, free_desc_ok hk' ((hvfree _ hkj).trans ((hufree _ hki).trans hfk))⟩
  have hfold : r.chain.foldlM free_desc { s with infoB := Function.update s.infoB r.i c } = .ok w := by
    rw [Rw.chain, List.foldlM_cons, hu]
    show List.foldlM free_desc u [r.j, r.k] = _
    rw [List.foldlM_cons, hv]
    show List.foldlM free_desc v [r.k] = _
    rw [List.foldlM_cons, hw]
    rfl
  rw [hfold] at ht
  cases ht
  rw [free_chain_next hu h1]
  show free_chain NUM u (s.desc r.i).next = _
  rw [hj, free_chain_next hv (by rw [hudesc _ hji]; exact h2), hudesc _ hji, hk]
  exact free_chain_last hw (by rw [hvdesc _ hkj, hudesc _ hki]; exact h3)

/-! ## The invariant -/

/-- A descriptor is free or in the chain of one call. -/
structure Chains (s : Disk n) : Prop where
  free : ∀ i, i < NUM → (s.free i = false ↔ ∃ p r, (s.pc p).call = some r ∧ i ∈ r.chain)
  chain : ∀ p r, (s.pc p).call = some r → r.chain.Nodup ∧ ∀ i ∈ r.chain, i < NUM
  once : ∀ p q r r' i, (s.pc p).call = some r → (s.pc q).call = some r' → i ∈ r.chain → i ∈ r'.chain →
    p = q

/-- A call whose request is under way. -/
abbrev Ticket (n : ℕ) : Type := Fin n × Rw

/-- What the device knows of a call. -/
def job (s : Disk n) (x : Ticket n) : Job := ⟨s.serial x.1, x.2.i, request x.2⟩

/-- Not read yet: `pend`; at the device: `fl`; completed but not seen: `seen`. -/
structure Queues (s : Disk n) (pend fl seen : List (Ticket n)) : Prop where
  nodup : (pend ++ fl ++ seen).Nodup
  mem : ∀ p r, (p, r) ∈ pend ++ fl ++ seen ↔ (s.pc p).posted = some r ∧ s.bufDisk r.b = true
  avail : Ring.Holds NUM (2 ^ 16) s.avail s.last s.availIdx s.taken.length (pend.map (·.2.i))
  inflight : s.inflight = fl.map s.job
  used : ∃ m, Ring.Holds NUM (2 ^ 16) s.used s.used_idx s.usedIdx m (seen.map (·.2.i))
  status : ∀ x ∈ seen, s.infoStatus x.2.i = 0
  made : s.made = s.taken ++ pend.map fun x => request x.2
  serials : pend.map (fun x => s.serial x.1) = List.range' s.taken.length pend.length
  posted : ∀ p r, (s.pc p).posted = some r → s.made[s.serial p]? = some (request r)
  done : ∀ p r, (s.pc p).posted = some r → (p, r) ∉ pend → (p, r) ∉ fl → s.serial p ∈ s.done
  old : (∀ k ∈ s.done, k < s.taken.length) ∧ ∀ x ∈ fl, s.serial x.1 < s.taken.length

/-- **The invariant.** -/
structure Inv (s : Disk n) : Prop where
  lock : ∀ p, s.lock = some (.proc p) ↔ (s.pc p).holds = true
  bufs : ∀ p q b, (s.pc p).buf = some b → (s.pc q).buf = some b → p = q
  chains : s.Chains
  formed : ∀ p r, (s.pc p).formed = some r → s.Formatted r
  waits : ∀ p r, (s.pc p).formed = some r → (s.pc p).posted = none → s.bufDisk r.b = true
  bump : ∀ p r, s.pc p = .bump r → s.avail (s.availIdx % NUM) = r.i
  queues : ∃ pend fl seen, s.Queues pend fl seen

theorem Inv.init : (virtio_disk_init : Disk n).Inv := by
  refine ⟨fun p => ⟨fun h => (by cases h), fun h => by cases h⟩, fun p q b h => (by cases h),
    ⟨fun i hi => ⟨fun h => ?_, fun ⟨p, r, h, _⟩ => by cases h⟩, fun p r h => (by cases h),
      fun p q r r' i h => by cases h⟩, fun p r h => (by cases h), fun p r h => (by cases h),
    fun p r h => (by cases h), [], [], [], List.nodup_nil, fun p r => ⟨fun h => absurd h List.not_mem_nil, fun h => ?_⟩,
    Ring.Holds.empty, rfl, ⟨0, Ring.Holds.empty⟩, fun x h => absurd h List.not_mem_nil, rfl, rfl,
    fun p r h => (by cases h), fun p r h => (by cases h), fun k h => absurd h List.not_mem_nil,
    fun x h => absurd h List.not_mem_nil⟩
  · have h' : decide (i < NUM) = false := h
    rw [decide_eq_false_iff_not] at h'
    exact absurd hi h'
  · cases h.1

/-! ## Frames -/

theorem Chains.congr (h : s.Chains) (hfree : t.free = s.free)
    (hcall : ∀ p, (t.pc p).call = (s.pc p).call) : t.Chains := by
  refine ⟨fun i hi => ?_, fun p r hp => ?_, fun p q r r' i hp hq => ?_⟩
  · rw [hfree, h.free i hi]
    simp only [hcall]
  · rw [hcall] at hp
    exact h.chain p r hp
  · rw [hcall] at hp hq
    exact h.once p q r r' i hp hq

theorem Formatted.congr (h : s.Formatted r) (hdesc : ∀ m ∈ r.chain, t.desc m = s.desc m)
    (hops : t.ops r.i = s.ops r.i) (hinfo : t.infoB r.i = s.infoB r.i) : t.Formatted r := by
  refine ⟨?_, ?_, ?_, ?_, ?_⟩
  · rw [hdesc _ r.i_mem]
    exact h.fst
  · rw [hdesc _ r.j_mem]
    exact h.snd
  · rw [hdesc _ r.k_mem]
    exact h.thd
  · rw [hops]
    exact h.ops
  · rw [hinfo]
    exact h.infoB

/-- Nothing has happened to the requests. -/
structure Quiet (s t : Disk n) : Prop where
  posted : ∀ p r, (t.pc p).posted = some r → (s.pc p).posted = some r
  live : ∀ p r, ((t.pc p).posted = some r ∧ t.bufDisk r.b = true) ↔
    ((s.pc p).posted = some r ∧ s.bufDisk r.b = true)
  status : ∀ p r, (s.pc p).posted = some r → t.infoStatus r.i = s.infoStatus r.i
  rings : t.last = s.last ∧ t.availIdx = s.availIdx ∧ t.used = s.used ∧ t.used_idx = s.used_idx ∧
    t.usedIdx = s.usedIdx
  device : t.inflight = s.inflight
  histories : t.made = s.made ∧ t.taken = s.taken ∧ t.serial = s.serial ∧ t.done = s.done

theorem Queues.congr {pend fl seen : List (Ticket n)} (h : s.Queues pend fl seen) (hq : Quiet s t)
    (havail : Ring.Holds NUM (2 ^ 16) t.avail s.last s.availIdx s.taken.length
      (pend.map (·.2.i))) : t.Queues pend fl seen := by
  obtain ⟨hlast, hidx, hused, hused_idx, husedIdx⟩ := hq.rings
  obtain ⟨hmade, htaken, hserial, hdone⟩ := hq.histories
  have hjob : t.job = s.job := by
    funext x
    simp only [job, hserial]
  refine ⟨h.nodup, fun p r => ?_, ?_, ?_, ?_, fun x hx => ?_, ?_, ?_, fun p r hp => ?_,
    fun p r hp => ?_, ?_⟩
  · rw [h.mem, hq.live]
  · rw [hlast, hidx, htaken]
    exact havail
  · rw [hq.device, hjob]
    exact h.inflight
  · rw [hused, hused_idx, husedIdx]
    exact h.used
  · have hp := ((h.mem x.1 x.2).mp (List.mem_append_right _ hx)).1
    rw [hq.status x.1 x.2 hp]
    exact h.status x hx
  · rw [hmade, htaken]
    exact h.made
  · rw [hserial, htaken]
    exact h.serials
  · rw [hmade, hserial]
    exact h.posted p r (hq.posted p r hp)
  · rw [hserial, hdone]
    exact h.done p r (hq.posted p r hp)
  · rw [hdone, htaken, hserial]
    exact h.old

/-- Calls with descriptors are few. -/
theorem Chains.length_le (h : s.Chains) {L : List (Ticket n)} (hnd : L.Nodup)
    (hL : ∀ x ∈ L, (s.pc x.1).call = some x.2) : L.length ≤ NUM := by
  have hinj : (L.map (·.2.i)).Nodup := by
    refine hnd.map_on fun x hx y hy he => ?_
    have hx' := hL x hx
    have hy' := hL y hy
    have h1 : x.1 = y.1 :=
      h.once x.1 y.1 x.2 y.2 x.2.i hx' hy' x.2.i_mem (he ▸ y.2.i_mem)
    rw [h1, hy'] at hx'
    exact Prod.ext h1 (Option.some.inj hx').symm
  have hsub : L.map (·.2.i) ⊆ List.range NUM := by
    intro i hi
    obtain ⟨x, hx, rfl⟩ := List.mem_map.mp hi
    exact List.mem_range.mpr ((h.chain x.1 x.2 (hL x hx)).2 _ x.2.i_mem)
  have hlen := (List.subperm_of_subset hinj hsub).length_le
  rw [List.length_map, List.length_range] at hlen
  exact hlen

/-- The entries of the ring `avail` that the device has not read. -/
def unconsumed (s : Disk n) : List ℕ :=
  (List.range ((s.availIdx + 2 ^ 16 - s.last) % 2 ^ 16)).map fun k => s.avail ((s.last + k) % NUM)

theorem Queues.unconsumed {pend fl seen : List (Ticket n)} (h : s.Queues pend fl seen) :
    s.unconsumed = pend.map (·.2.i) := by
  unfold Disk.unconsumed
  rw [h.avail.ahead (by norm_num)]
  exact h.avail.contents (by norm_num)

end Disk

end Xv6.VirtioDisk
