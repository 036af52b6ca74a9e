import Xv6.Proc.Memory

/-!
# Updates — what a call does to the memory of each process

`Effect S T us`: the memory of every process in `T` comes from that in `S` by the updates `us`, which
are in terms of memory that no two processes share.  One lemma for each function that works on the
memory of a process: it keeps `MemOk`, and its effect.
-/

namespace Xv6

/-- What a step means for memory that is not shared. -/
inductive Upd where
  | copy (i j : Fin NPROC)
  | write (i : Fin NPROC) (dstva n : ℕ) (bytes : ℕ → UInt8)
  /-- fresh pages of zeros from page `v` on -/
  | zero (i : Fin NPROC) (v : ℕ)
  | load (i : Fin NPROC) (image : ℕ → UInt8)

/-- Some of the updates have happened, and of a write possibly only the first bytes. -/
inductive Partly : List Upd → List Upd → Prop
  | nil : Partly [] []
  | skip {u : Upd} {us us' : List Upd} (h : Partly us us') : Partly us (u :: us')
  | whole {u : Upd} {us us' : List Upd} (h : Partly us us') : Partly (u :: us) (u :: us')
  | short {i : Fin NPROC} {dstva n m : ℕ} {bytes : ℕ → UInt8} {us us' : List Upd} (hn : n ≤ m)
      (h : Partly us us') : Partly (.write i dstva n bytes :: us) (.write i dstva m bytes :: us')

namespace Partly

variable {us us' vs vs' : List Upd}

theorem refl : ∀ us, Partly us us
  | [] => .nil
  | _ :: us => .whole (refl us)

theorem none : ∀ us, Partly [] us
  | [] => .nil
  | _ :: us => .skip (none us)

theorem append (h : Partly us us') (h' : Partly vs vs') : Partly (us ++ vs) (us' ++ vs') := by
  induction h with
  | nil => exact h'
  | skip _ ih => exact .skip ih
  | whole _ ih => exact .whole ih
  | short hn _ ih => exact .short hn ih

theorem write {i : Fin NPROC} {dstva n m : ℕ} {bytes : ℕ → UInt8} (hn : n ≤ m) :
    Partly [.write i dstva n bytes] [.write i dstva m bytes] :=
  .short hn .nil

end Partly

/-- Process `i` has got a new image. -/
structure Loaded (S T : Sys) (i : Fin NPROC) : Prop where
  live : T.Live i
  full : Full (T.map i) (T.proc i).sz
  plain : Plain (T.map i)
  kept : ∀ j ≠ i, Kept S T j

variable [Image]

inductive Effect : Sys → Sys → List Upd → Prop
  | kept {S T : Sys} (h : ∀ j, Kept S T j) : Effect S T []
  | made {S T : Sys} {i : Fin NPROC} (h : Made S T i) : Effect S T []
  | freed {S T : Sys} {i : Fin NPROC} (hi : ¬ T.Live i) (ho : ∀ j ≠ i, Kept S T j) : Effect S T []
  /-- a copy-on-write mark on the first `k` pages -/
  | cowed {S T : Sys} {i : Fin NPROC} {k : ℕ} (hi : S.Live i)
      (h : Became T i (mapPages cowed (S.map i) (S.map i) 0 k) (S.proc i).sz)
      (hb : SameBytes S T i) (ho : ∀ j ≠ i, Kept S T j) : Effect S T []
  | forked {S T : Sys} {i j : Fin NPROC} (hij : i ≠ j) (hi : S.Live i) (hj : S.Live j)
      (hp : Became T i (mapPages cowed (S.map i) (S.map i) 0 (pages (S.proc i).sz)) (S.proc i).sz)
      (hb : SameBytes S T i) (hl : T.Live j) (hsz : (T.proc j).sz = (S.proc i).sz)
      (hc : ∀ v < pages (S.proc i).sz,
        (S.map i v).has PTE_V = true ∧ T.map j v = shared (S.map i v))
      (hcb : ∀ a, a / 4096 < pages (S.proc i).sz → T.byte j a = S.byte i a)
      (ho : ∀ k, k ≠ i → k ≠ j → Kept S T k) : Effect S T [.copy i j]
  | wrote {S T : Sys} {i : Fin NPROC} {dstva n : ℕ} {bytes : ℕ → UInt8} {lf : ℕ → Pte}
      (hi : S.Live i) (h : Became T i lf (S.proc i).sz) (hu : Uncowed (S.map i) lf)
      (hb : ∀ a, a / 4096 < UPAGES → (S.map i (a / 4096)).has PTE_V = true → T.byte i a =
        if dstva ≤ a ∧ a < dstva + n then bytes (a - dstva) else S.byte i a)
      (hr : ∀ v, lf v = S.map i v ∨ ∃ a, dstva ≤ a ∧ a < dstva + n ∧ a / 4096 = v)
      (ho : ∀ j ≠ i, Kept S T j) : Effect S T [.write i dstva n bytes]
  | grown {S T : Sys} {i : Fin NPROC} {newsz : ℕ} {lf : ℕ → Pte} {N : Multiset ℕ} (hi : S.Live i)
      (h : Became T i lf (max (S.proc i).sz newsz))
      (hm : Mapped (PTE_R ||| PTE_U ||| PTE_W) (S.map i) lf (pages (S.proc i).sz)
        (pages newsz - pages (S.proc i).sz) N)
      (hb : SameBytes S T i)
      (hz : ∀ a, pages (S.proc i).sz ≤ a / 4096 → a / 4096 < pages newsz → T.byte i a = 0)
      (ho : ∀ j ≠ i, Kept S T j) : Effect S T [.zero i (pages (S.proc i).sz)]
  | shrunk {S T : Sys} {i : Fin NPROC} {newsz : ℕ} (hi : S.Live i)
      (h : Became T i (clearPages (S.map i) (pages newsz) (pages (S.proc i).sz - pages newsz))
        (min (S.proc i).sz newsz))
      (hb : ∀ a, a / 4096 < pages (min (S.proc i).sz newsz) →
        (S.map i (a / 4096)).has PTE_V = true → T.byte i a = S.byte i a)
      (ho : ∀ j ≠ i, Kept S T j) : Effect S T []
  | loaded {S T : Sys} {i : Fin NPROC} (h : Loaded S T i) : Effect S T [.load i (T.byte i)]
  | trans {S T U : Sys} {us us' : List Upd} (h : Effect S T us) (h' : Effect T U us') :
      Effect S U (us ++ us')

variable {S T U : Sys} {i j : Fin NPROC} {L L' K R : Multiset ℕ} {s : Phys} {us : List Upd} {n : ℕ}

/-- Nothing happens to the memory before or after. -/
theorem Effect.kept_trans (h : ∀ j, Kept S T j) (h' : Effect T U us) : Effect S U us :=
  Effect.trans (.kept h) h'

theorem Effect.trans_kept (h : Effect S T us) (h' : ∀ j, Kept T U j) : Effect S U us := by
  have := Effect.trans h (.kept h')
  rwa [List.append_nil] at this

/-- Process `i` gets other entries, and possibly another size. -/
theorem MemOk.own {lf : ℕ → Pte} {sz : ℕ} (h : MemOk L S) (hi : S.Live i)
    (hh : Heap T.phys ((S.proc i).pagetable ::ₘ S.rootsBut i)
      (T.held + ((S.proc i).trapframe ::ₘ S.framesBut i)) L')
    (hk : Keeps S.phys.mem T.phys.mem (foot S.phys.mem (S.rootsBut i) K L))
    (hleaf : ∀ v < VPAGES, leaf T.phys.mem (S.proc i).pagetable v = lf v) (hS : Shape lf sz)
    (hI : Inj lf) (hproc : T.proc = Function.update S.proc i { S.proc i with sz := sz }) :
    MemOk L' T ∧ Became T i lf sz ∧ ∀ j ≠ i, Kept S T j := by
  have hslot := h.slot i
  have hself : T.proc i = { S.proc i with sz := sz } := by rw [hproc, Function.update_self]
  have hmem : SlotMem T.phys.mem { S.proc i with sz := sz } := by
    refine ⟨fun hu => absurd hu hi, hslot.table, hslot.frame, fun _ => ?_, fun _ => ?_⟩
    · exact hS.congr fun v hv => by rw [hleaf v hv]
    · refine hI.congr fun v hv hV => ?_
      rw [hleaf v (lt_trans hv (by decide))] at hV ⊢
      exact ⟨hV, rfl⟩
  obtain ⟨h1, h2⟩ := h.put hproc (by
    show Heap T.phys (pageRef (S.proc i).pagetable + S.rootsBut i)
      (T.held + (pageRef (S.proc i).trapframe + S.framesBut i)) L'
    rw [pageRef_of_ne (hslot.table hi), pageRef_of_ne (hslot.frame hi), Multiset.singleton_add,
      Multiset.singleton_add]
    exact hh) hk hmem
  refine ⟨h1, ⟨?_, fun v hv => ?_, ?_⟩, h2⟩
  · unfold Sys.Live
    rw [hself]
    exact hi
  · unfold Sys.map
    rw [hself]
    exact hleaf v hv
  · rw [hself]

omit [Image] in
/-- A byte of a page whose entry and contents are as before. -/
theorem Became.byte_eq {lf : ℕ → Pte} {sz a : ℕ} (h : Became T i lf sz) (ha : a / 4096 < UPAGES)
    (he : lf (a / 4096) = S.map i (a / 4096))
    (hk : PageEq S.phys.mem T.phys.mem (PTE2PA (S.map i (a / 4096)))) : T.byte i a = S.byte i a := by
  unfold Sys.byte userByte
  rw [h.map _ (lt_trans ha (by decide)), he]
  exact hk _ (Nat.mod_lt _ (by decide))

/-! ## Writes -/

omit [Image] in
theorem Uncowed.slot {lf lf' : ℕ → Pte} {X : Multiset ℕ} {sz : ℕ} (hs : Shape lf sz) (hi : Inj lf)
    (hu : Uncowed lf lf') (ho : UserOk lf' (leafRefs UPAGES lf' + X)) : Shape lf' sz ∧ Inj lf' := by
  refine ⟨hs.congr fun v _ => hu.V v, hi.step ho fun v _ hV hC => ?_⟩
  rcases hu v with he | ⟨-, -, -, p, he⟩
  · exact he
  · rw [he, uncowed_COW] at hC
    cases hC

/-- The memory of process `i` differs in its pages, some of which have got their own copy. -/
theorem MemOk.poked {lf : ℕ → Pte} (h : MemOk L S) (hi : S.Live i)
    (hp : Poked S.phys s (S.map i) lf
      (tabs S.phys.mem (S.rootsBut i) + (S.held + ((S.proc i).trapframe ::ₘ S.framesBut i)))
      (urefs S.phys.mem (S.rootsBut i) + L))
    (hS : Space s (S.proc i).pagetable (tables S.phys.mem (S.proc i).pagetable) lf
      (tabs S.phys.mem (S.rootsBut i) + (S.held + ((S.proc i).trapframe ::ₘ S.framesBut i)))
      (urefs S.phys.mem (S.rootsBut i) + L)) :
    MemOk L { S with phys := s } ∧ Became { S with phys := s } i lf (S.proc i).sz ∧
      ∀ j ≠ i, Kept S { S with phys := s } j := by
  have hslot := h.slot i
  obtain ⟨hh, hk⟩ := hp.heap (h.open hi) hS
  obtain ⟨hsh, hI⟩ := hp.uncowed.slot (hslot.shape hi) (hslot.inj hi) hS.user
  exact h.own (T := { S with phys := s }) hi hh hk hS.tree.leaf hsh hI
    (Function.update_eq_self i S.proc).symm

/-- A write to the memory of process `i`. -/
theorem MemOk.wrote {lf : ℕ → Pte} {dstva : ℕ} {bytes : ℕ → UInt8} (h : MemOk L S) (hi : S.Live i)
    (hw : Wrote S.phys s (S.proc i).pagetable (tables S.phys.mem (S.proc i).pagetable) (S.map i) lf
      (tabs S.phys.mem (S.rootsBut i) + (S.held + ((S.proc i).trapframe ::ₘ S.framesBut i)))
      (urefs S.phys.mem (S.rootsBut i) + L) dstva n bytes) :
    MemOk L { S with phys := s } ∧ Effect S { S with phys := s } [.write i dstva n bytes] := by
  obtain ⟨h1, hB, h2⟩ := h.poked hi hw.poked hw.space
  refine ⟨h1, .wrote hi hB hw.poked.uncowed (fun a ha hV => ?_) hw.only h2⟩
  rw [← hw.byte a ha hV]
  unfold Sys.byte userByte
  rw [hB.map _ (lt_trans ha (by decide))]

theorem MemOk.copyout {dstva len : ℕ} {bytes : ℕ → UInt8} {r : ℤ} (h : MemOk L S) (hi : S.Live i)
    (hc : Xv6.copyout (S.proc i).pagetable dstva bytes len S.phys = .ok (r, s)) :
    MemOk L { S with phys := s } ∧ ∃ n, n ≤ len ∧ (r = 0 → n = len) ∧
      Effect S { S with phys := s } [.write i dstva n bytes] := by
  obtain ⟨lf, n, hw, hn, hr⟩ := copyout_spec (h.open hi).space hc
  obtain ⟨h1, h2⟩ := h.wrote hi hw
  exact ⟨h1, n, hn, hr, h2⟩

/-- A store by user code goes through, or it changes nothing. -/
theorem MemOk.userStore {va : ℕ} {b : UInt8} {ok : Bool} (h : MemOk L S) (hi : S.Live i)
    (hc : Xv6.userStore (S.proc i).pagetable va b S.phys = .ok (ok, s)) :
    MemOk L { S with phys := s } ∧ ((ok = false ∧ Effect S { S with phys := s } []) ∨
      (ok = true ∧ Effect S { S with phys := s } [.write i va 1 fun _ => b])) := by
  rcases userStore_spec (h.open hi).space hc with ⟨rfl, rfl⟩ | ⟨rfl, -, lf, hw⟩
  · exact ⟨h, Or.inl ⟨rfl, .kept fun j => Kept.refl S j⟩⟩
  · obtain ⟨h1, h2⟩ := h.wrote hi hw
    exact ⟨h1, Or.inr ⟨rfl, h2⟩⟩

/-! ## `growproc` -/

omit [Image] in
/-- Some entries that map nothing have been zeroed. -/
theorem SameMaps.slot {lf lf' : ℕ → Pte} {sz : ℕ} (h : SameMaps lf lf') (hs : Shape lf sz)
    (hi : Inj lf) : Shape lf' sz ∧ Inj lf' := by
  refine ⟨hs.congr fun v hv => (h v hv).1, hi.congr fun v hv hV => ?_⟩
  obtain ⟨h1, h2⟩ := h v (lt_trans hv (by decide))
  rw [h1] at hV
  exact ⟨hV, by rw [h2 hV]⟩

theorem MemOk.uvmalloc {newsz res : ℕ} (h : MemOk L S) (hi : S.Live i)
    (hu : Xv6.uvmalloc (S.proc i).pagetable (S.proc i).sz newsz PTE_W S.phys = .ok (res, s))
    {T : Sys} (hT : T = { S with phys := s }.set i
      { S.proc i with sz := if res = 0 then (S.proc i).sz else res }) :
    MemOk L T ∧ ((res = 0 ∧ Effect S T []) ∨
      (res ≠ 0 ∧ Effect S T [.zero i (pages (S.proc i).sz)])) := by
  have hslot := h.slot i
  have hshape := hslot.shape hi
  obtain ⟨hh, hk, hkl, hc⟩ := (h.open hi).uvmalloc (by decide) hshape.le (Or.inl hshape.frame) hu
  -- pages that stay mapped keep their contents
  have hpage : ∀ a, a / 4096 < UPAGES → (S.map i (a / 4096)).has PTE_V = true →
      PageEq S.phys.mem s.mem (PTE2PA (S.map i (a / 4096))) := fun a ha hV =>
    hkl _ (mem_leafRefs.mpr ⟨_, ha, hV, rfl⟩)
  have hheap : Heap T.phys ((S.proc i).pagetable ::ₘ S.rootsBut i)
      (T.held + ((S.proc i).trapframe ::ₘ S.framesBut i)) L := by rw [hT]; exact hh
  have hkeep : Keeps S.phys.mem T.phys.mem (foot S.phys.mem (S.rootsBut i)
      (S.held + ((S.proc i).trapframe ::ₘ S.framesBut i)) L) := by rw [hT]; exact hk
  have hproc : T.proc = Function.update S.proc i
      { S.proc i with sz := if res = 0 then (S.proc i).sz else res } := by rw [hT]; rfl
  have hphys : T.phys = s := by rw [hT]; rfl
  rw [← hphys] at hpage
  -- a call that has mapped nothing
  have hsame : ∀ lf, (∀ v < VPAGES, leaf s.mem (S.proc i).pagetable v = lf v) → SameMaps (S.map i) lf →
      res = 0 → MemOk L T ∧ Effect S T [] := by
    intro lf hleaf hl hres
    obtain ⟨hS, hI⟩ := hl.slot hshape (hslot.inj hi)
    rw [← hphys] at hleaf
    rw [if_pos hres] at hproc
    obtain ⟨h1, hB, h2⟩ := h.own hi hheap hkeep hleaf hS hI hproc
    refine ⟨h1, .kept fun j => ?_⟩
    by_cases hj : j = i
    · subst hj
      refine ⟨iff_of_true hB.live hi, fun _ => hB.sz, fun _ v hv => ?_, fun _ a ha hV => ?_⟩
      · rw [hB.map v hv]
        exact hl v hv
      · exact hB.byte_eq ha ((hl _ (lt_trans ha (by decide))).2 hV) (hpage a ha hV)
    · exact h2 j hj
  cases hc with
  | failed lf' hleaf hres hl =>
    obtain ⟨h1, h2⟩ := hsame lf' hleaf hl.sameMaps hres
    exact ⟨h1, Or.inl ⟨hres, h2⟩⟩
  | done lf' N hleaf hres hle hmap hzero =>
    by_cases h0 : res = 0
    · have hn : pages newsz - pages (S.proc i).sz = 0 := by
        have h1 : newsz = 0 := by omega
        rw [h1]
        exact Nat.zero_sub _
      obtain ⟨h1, h2⟩ := hsame lf' hleaf (fun v _ => by
        rw [hmap.same v (by omega)]
        exact ⟨rfl, fun _ => rfl⟩) h0
      exact ⟨h1, Or.inl ⟨h0, h2⟩⟩
    · have hle' : max (S.proc i).sz newsz ≤ TRAPFRAME := hres ▸ hle
      have hnew : ∀ v < UPAGES, (lf' v).has PTE_V = true → (lf' v).has PTE_COW = true →
          lf' v = S.map i v := by
        intro v _ _ hC
        by_cases hin : v < pages (S.proc i).sz ∨
            pages (S.proc i).sz + (pages newsz - pages (S.proc i).sz) ≤ v
        · exact hmap.same v hin
        · obtain ⟨p, -, -, he⟩ := hmap.page v (by omega) (by omega)
          have := @userEntry_COW PTE_W p (by decide)
          rw [he] at hC
          exact absurd (hC.symm.trans this) (by decide)
      have huser : UserOk lf' (leafRefs UPAGES lf' + (urefs s.mem (S.rootsBut i) + L)) := by
        have := hh.space.user
        rw [leafRefs_congr fun v hv => by rw [hleaf v (lt_trans hv (by decide))]] at this
        exact this.congr fun v hv => (hleaf v hv).symm
      rw [← hphys] at hleaf
      rw [if_neg h0, hres] at hproc
      obtain ⟨h1, hB, h2⟩ := h.own hi hheap hkeep hleaf (hshape.map hmap hle')
        ((hslot.inj hi).step huser hnew) hproc
      refine ⟨h1, Or.inr ⟨h0, .grown hi hB hmap (fun a ha hV => ?_) (fun a h3 h4 => ?_) h2⟩⟩
      · refine hB.byte_eq ha (hmap.same _ ?_) (hpage a ha hV)
        by_contra hin
        rw [hmap.free (a / 4096) (by omega) (by omega)] at hV
        cases hV
      · obtain ⟨p, hp, hok, he⟩ := hmap.page (a / 4096) h3 (by omega)
        have hlt : a / 4096 < UPAGES := by
          have := pages_le hle'
          rw [pages_max] at this
          omega
        have hpa : PTE2PA (lf' (a / 4096)) = p := by
          rw [he]
          exact PTE2PA_userEntry (by decide) hok
        unfold Sys.byte userByte
        rw [hB.map _ (lt_trans hlt (by decide)), hpa, hphys]
        exact hzero p hp _ (Nat.mod_lt _ (by decide))

theorem MemOk.uvmdealloc {newsz res : ℕ} (h : MemOk L S) (hi : S.Live i)
    (hu : Xv6.uvmdealloc (S.proc i).pagetable (S.proc i).sz newsz S.phys = .ok (res, s)) {T : Sys}
    (hT : T = { S with phys := s }.set i { S.proc i with sz := res }) :
    MemOk L T ∧ Effect S T [] := by
  have hslot := h.slot i
  have hshape := hslot.shape hi
  obtain ⟨hh, hk, rfl, hc⟩ := (h.open hi).uvmdealloc hshape.le hu
  have hphys : T.phys = s := by rw [hT]; rfl
  have hheld : T.held = S.held := by rw [hT]; rfl
  rw [← hphys, ← hheld] at hh
  rw [← hphys] at hk hc
  have hclear : ∀ v, (clearPages (S.map i) (pages newsz) (pages (S.proc i).sz - pages newsz) v).has
      PTE_V = true → clearPages (S.map i) (pages newsz) (pages (S.proc i).sz - pages newsz) v =
        S.map i v := by
    intro v hV
    unfold clearPages at hV ⊢
    split_ifs at hV ⊢
    · rw [zero_has] at hV
      cases hV
    · rfl
  have hI : Inj (clearPages (S.map i) (pages newsz) (pages (S.proc i).sz - pages newsz)) :=
    (hslot.inj hi).congr fun v _ hV => by
      have he := hclear v hV
      rw [he] at hV ⊢
      exact ⟨hV, rfl⟩
  obtain ⟨h1, hB, h2⟩ := h.own hi hh hk hc.leaf hshape.clear hI (by rw [hT]; rfl)
  refine ⟨h1, .shrunk hi hB (fun a ha hV => ?_) h2⟩
  rw [pages_min, lt_min_iff] at ha
  have hlt : a / 4096 < UPAGES := lt_of_lt_of_le ha.1 (pages_le hshape.le)
  have he : clearPages (S.map i) (pages newsz) (pages (S.proc i).sz - pages newsz) (a / 4096) =
      S.map i (a / 4096) := if_neg (by omega)
  refine hB.byte_eq hlt he (hc.keeps _ (mem_leafRefs.mpr ⟨a / 4096, hlt, ?_, by rw [he]⟩))
  rw [he]
  exact hV

/-- **`growproc`**: the new pages are zero, a call that fails leaves all as it was. -/
theorem MemOk.growproc (h : MemOk L S) (hi : S.Live i) {n : ℤ} (hg : Growproc i n S T) :
    MemOk L T ∧ ((n ≤ 0 ∧ Effect S T []) ∨ (0 < n ∧ Effect S T [.zero i (pages (S.proc i).sz)]) ∨
      (0 < n ∧ Effect S T [] ∧ ∃ T', Xv6.growproc i n S = .ok (-1, T'))) := by
  cases hg with
  | none hn hT =>
    subst hT
    exact ⟨h, Or.inl ⟨hn.le, .kept fun j => Kept.refl T j⟩⟩
  | failed s hn hu hT =>
    have hT' : T = { S with phys := s }.set i { S.proc i with
        sz := if (0 : ℕ) = 0 then (S.proc i).sz else 0 } := by
      rw [hT, if_pos rfl]
      unfold Sys.set
      simp only [Function.update_eq_self]
    obtain ⟨h1, ⟨-, h2⟩ | ⟨h0, -⟩⟩ := h.uvmalloc hi hu hT'
    · refine ⟨h1, Or.inr (Or.inr ⟨hn, h2, { S with phys := s }, ?_⟩)⟩
      unfold Xv6.growproc
      dsimp only
      rw [if_pos hn, hu]
      rfl
    · exact absurd rfl h0
  | grown sz s hn hu h0 hT =>
    rw [← if_neg (t := (S.proc i).sz) (e := sz) h0] at hT
    obtain ⟨h1, ⟨h0', -⟩ | ⟨-, h2⟩⟩ := h.uvmalloc hi hu hT
    · exact absurd h0' h0
    · exact ⟨h1, Or.inr (Or.inl ⟨hn, h2⟩)⟩
  | shrunk sz s hn hu hT =>
    obtain ⟨h1, h2⟩ := h.uvmdealloc hi hu hT
    exact ⟨h1, Or.inl ⟨hn.le, h2⟩⟩

end Xv6
