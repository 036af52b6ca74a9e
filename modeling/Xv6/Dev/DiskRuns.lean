import Xv6.Dev.Completions

/-!
# DiskRuns — every step of the disk driver keeps its requests apart

One lemma for each step of a call, of the interrupt handler and of the device; `Inv.step` puts them
together.  `Keeps` is what a step does to the entries of the ring `avail` that the device has not read.
-/

namespace Xv6.VirtioDisk.Disk

variable {n : ℕ} {s t : Disk n} {p q : Fin n} {i j k b : ℕ} {r r' : Rw} {x : Pc} {l : List ℕ}
  {sector : UInt64} {write : Bool} {res : Except Panic (Disk n)}

/-- The entries that the device has not read stay there, but for one that it reads. -/
def Keeps (s t : Disk n) : Prop :=
  s.unconsumed <+: t.unconsumed ∨
    ∃ job, s.unconsumed = job.head :: t.unconsumed ∧ t.inflight = s.inflight ++ [job]

theorem Keeps.of_eq (h : t.unconsumed = s.unconsumed) : Keeps s t := by
  left
  rw [h]

/-! ## The lock and the buffers -/

/-- A process takes the lock, keeps it or gives it back. -/
theorem Inv.lock_of {lock : Option (Holder n)} {pc : Fin n → Pc} (h : s.Inv)
    (h0 : s.lock = none ∨ s.lock = some (.proc p))
    (hothers : ∀ q, q ≠ p → (pc q).holds = (s.pc q).holds)
    (ht : lock = if (pc p).holds then some (.proc p) else none) :
    ∀ q, lock = some (.proc q) ↔ (pc q).holds = true := by
  intro q
  by_cases hqp : q = p
  · subst hqp
    rw [ht]
    cases (pc q).holds <;> simp
  · have hq : (s.pc q).holds = false := by
      rw [← Bool.not_eq_true, ← h.lock q]
      intro he
      rcases h0 with h0 | h0 <;> rw [h0] at he <;> cases he
      exact hqp rfl
    rw [hothers q hqp, hq, ht]
    have hpq : p ≠ q := Ne.symm hqp
    cases (pc p).holds <;> simp [hpq]

/-- The process that holds the lock. -/
theorem Inv.lock_eq (h : s.Inv) (hp : (s.pc p).holds = true) : s.lock = some (.proc p) :=
  (h.lock p).mpr hp

/-- Only one process is under way in the code that holds the lock. -/
theorem Inv.holds_unique (h : s.Inv) (hp : (s.pc p).holds = true) (hq : (s.pc q).holds = true) :
    q = p := by
  have he := h.lock_eq hq
  rw [h.lock_eq hp] at he
  cases he
  rfl

theorem view_same {α : Type*} {f : Pc → α} {pc : Fin n → Pc} (h : f x = f (pc p)) (q : Fin n) :
    f (Function.update pc p x q) = f (pc q) := by
  by_cases hq : q = p
  · rw [hq, Function.update_self, h]
  · rw [Function.update_of_ne hq]

theorem bump_of_wake {pc : Pc} {ch : Chan} (h : pc.wake ch = .bump r) : pc = .bump r := by
  cases pc with
  | sleepFree b sector write =>
    simp only [Pc.wake] at h
    split_ifs at h
  | sleepBuf r' =>
    simp only [Pc.wake] at h
    split_ifs at h
  | _ => exact h

/-- No call has got or lost a buffer. -/
theorem Inv.bufs_of {pc : Fin n → Pc} (h : s.Inv)
    (hb : ∀ p b, (pc p).buf = some b → (s.pc p).buf = some b) :
    ∀ p q b, (pc p).buf = some b → (pc q).buf = some b → p = q :=
  fun p q b hp hq => h.bufs p q b (hb p b hp) (hb q b hq)

/-- A descriptor of a call is not free. -/
theorem Chains.not_free (h : s.Chains) (hp : (s.pc p).call = some r) (hi : i ∈ r.chain) :
    i < NUM ∧ s.free i = false := by
  have hlt := (h.chain p r hp).2 i hi
  exact ⟨hlt, (h.free i hlt).mpr ⟨p, r, hp, hi⟩⟩

/-- **A step that only moves a process or the lock.** -/
theorem Inv.light {lock : Option (Holder n)} {pc : Fin n → Pc} {desc : ℕ → virtq_desc} (h : s.Inv)
    (hcall : ∀ p, (pc p).call = (s.pc p).call) (hformed : ∀ p, (pc p).formed = (s.pc p).formed)
    (hposted : ∀ p, (pc p).posted = (s.pc p).posted) (hbump : ∀ p r, pc p = .bump r → s.pc p = .bump r)
    (hbufs : ∀ p q b, (pc p).buf = some b → (pc q).buf = some b → p = q)
    (hdesc : ∀ i, s.free i = false → desc i = s.desc i)
    (hlock : ∀ p, lock = some (.proc p) ↔ (pc p).holds = true) :
    Inv { s with lock := lock, pc := pc, desc := desc } := by
  obtain ⟨pend, fl, seen, hq⟩ := h.queues
  refine ⟨hlock, hbufs, h.chains.congr rfl hcall, fun p r hp => ?_, fun p r hp hn => ?_,
    fun p r hp => h.bump p r (hbump p r hp), pend, fl, seen, hq.congr ?_ hq.avail⟩
  · have hp' : (s.pc p).formed = some r := (hformed p).symm.trans hp
    refine (h.formed p r hp').congr (fun m hm => hdesc m ?_) rfl rfl
    exact (h.chains.not_free (call_of_formed hp') hm).2
  · exact h.waits p r ((hformed p).symm.trans hp) ((hposted p).symm.trans hn)
  · refine ⟨fun p r hp => (hposted p).symm.trans hp, fun p r => ?_, fun _ _ _ => rfl,
      ⟨rfl, rfl, rfl, rfl, rfl⟩, rfl, rfl, rfl, rfl, rfl⟩
    show (pc p).posted = _ ∧ _ ↔ _
    rw [hposted]

/-- A process goes on and takes the lock or gives it back. -/
theorem Inv.move {lock : Option (Holder n)} (h : s.Inv)
    (hviews : x.call = (s.pc p).call ∧ x.formed = (s.pc p).formed ∧ x.posted = (s.pc p).posted ∧
      x.buf = (s.pc p).buf) (hbump : ∀ r, x ≠ .bump r)
    (h0 : s.lock = none ∨ s.lock = some (.proc p))
    (ht : lock = if x.holds then some (.proc p) else none) :
    Inv ({ s with lock := lock }.setPc p x) := by
  obtain ⟨hcall, hformed, hposted, hbuf⟩ := hviews
  refine h.light (view_same hcall) (view_same hformed) (view_same hposted) (fun q r hq => ?_)
    (h.bufs_of fun q b hq => ?_) (fun _ _ => rfl) (h.lock_of h0 (fun q hqp => ?_) ?_)
  · by_cases hqp : q = p
    · rw [hqp, Function.update_self] at hq
      exact absurd hq (hbump r)
    · rw [Function.update_of_ne hqp] at hq
      exact hq
  · rw [view_same hbuf] at hq
    exact hq
  · rw [Function.update_of_ne hqp]
  · rw [Function.update_self]
    exact ht

/-! ## The steps of a call -/

theorem Inv.rw (h : s.Inv) (hp : s.pc p = .idle) (hb : ∀ q, (s.pc q).buf ≠ some b) :
    (s.setPc p (.start b sector write)).Inv := by
  have hview : ∀ {α : Type} (f : Pc → α), f (.start b sector write) = f .idle →
      ∀ q, f (Function.update s.pc p (.start b sector write) q) = f (s.pc q) :=
    fun f hf => view_same (f := f) (by rw [hp, hf])
  refine h.light (hview _ rfl) (hview _ rfl) (hview _ rfl) (fun q r hq => ?_) (fun q q' c hq hq' => ?_)
    (fun _ _ => rfl) fun q => ?_
  · by_cases hqp : q = p
    · rw [hqp, Function.update_self] at hq
      cases hq
    · rw [Function.update_of_ne hqp] at hq
      exact hq
  · by_cases hqp : q = p
    · by_cases hqp' : q' = p
      · rw [hqp, hqp']
      · rw [hqp, Function.update_self] at hq
        rw [Function.update_of_ne hqp'] at hq'
        cases hq
        exact absurd hq' (hb q')
    · rw [Function.update_of_ne hqp] at hq
      by_cases hqp' : q' = p
      · rw [hqp', Function.update_self] at hq'
        cases hq'
        exact absurd hq (hb q)
      · rw [Function.update_of_ne hqp'] at hq'
        exact h.bufs q q' c hq hq'
  · rw [hview Pc.holds rfl]
    exact h.lock q

/-- `alloc3_desc` has succeeded. -/
theorem Inv.alloc (h : s.Inv) (hp : s.pc p = .alloc b sector write) (hnd : [i, j, k].Nodup)
    (hfree : ∀ m ∈ [i, j, k], m < NUM ∧ s.free m = true) :
    Inv ({ s with free := fun m => s.free m && !decide (m ∈ [i, j, k]) }.setPc p
      (.format ⟨b, sector, write, i, j, k⟩)) := by
  have hself : Function.update s.pc p (.format ⟨b, sector, write, i, j, k⟩) p = .format ⟨b, sector, write, i, j, k⟩ :=
    Function.update_self _ _ _
  have hview : ∀ {α : Type} (f : Pc → α), f (.format ⟨b, sector, write, i, j, k⟩) = f (.alloc b sector write) →
      ∀ q, f (Function.update s.pc p (.format ⟨b, sector, write, i, j, k⟩) q) = f (s.pc q) :=
    fun f hf => view_same (f := f) (by rw [hp, hf])
  have hcall : ∀ q r, (Function.update s.pc p (.format ⟨b, sector, write, i, j, k⟩) q).call = some r →
      q = p ∧ r.chain = [i, j, k] ∨ q ≠ p ∧ (s.pc q).call = some r := by
    intro q r hq
    by_cases hqp : q = p
    · rw [hqp, hself] at hq
      cases hq
      exact .inl ⟨hqp, rfl⟩
    · rw [Function.update_of_ne hqp] at hq
      exact .inr ⟨hqp, hq⟩
  -- the other calls do not have the new descriptors
  have hother : ∀ q r m, (s.pc q).call = some r → m ∈ r.chain → m ∉ [i, j, k] := by
    intro q r m hq hm hm'
    have h1 := (h.chains.not_free hq hm).2
    rw [(hfree m hm').2] at h1
    cases h1
  obtain ⟨pend, fl, seen, hqs⟩ := h.queues
  refine ⟨fun q => ?_, h.bufs_of fun q c hq => ?_, ⟨fun m hm => ?_, fun q r hq => ?_,
    fun q q' r r' m hq hq' hm hm' => ?_⟩, fun q r hq => ?_, fun q r hq hn => ?_, fun q r hq => ?_,
    pend, fl, seen, hqs.congr ⟨fun q r hq => ?_, fun q r => ?_, fun _ _ _ => rfl,
      ⟨rfl, rfl, rfl, rfl, rfl⟩, rfl, rfl, rfl, rfl, rfl⟩ hqs.avail⟩
  · exact (h.lock q).trans (by rw [← hview Pc.holds rfl q]; rfl)
  · exact (hview Pc.buf rfl q).symm.trans hq
  · show (s.free m && !decide (m ∈ [i, j, k])) = false ↔ _
    by_cases hmem : m ∈ [i, j, k]
    · refine ⟨fun _ => ⟨p, ⟨b, sector, write, i, j, k⟩, congrArg Pc.call hself, hmem⟩, fun _ => ?_⟩
      rw [decide_eq_true hmem]
      exact Bool.and_false _
    · rw [decide_eq_false hmem, Bool.not_false, Bool.and_true, h.chains.free m hm]
      constructor
      · rintro ⟨q, r, hq, hr⟩
        refine ⟨q, r, ?_, hr⟩
        have hqp : q ≠ p := fun he => by rw [he, hp] at hq; cases hq
        show (Function.update s.pc p _ q).call = _
        rw [Function.update_of_ne hqp]
        exact hq
      · rintro ⟨q, r, hq, hr⟩
        rcases hcall q r hq with ⟨-, hc⟩ | ⟨-, hq⟩
        · rw [hc] at hr
          exact absurd hr hmem
        · exact ⟨q, r, hq, hr⟩
  · rcases hcall q r hq with ⟨-, hc⟩ | ⟨-, hq⟩
    · rw [hc]
      exact ⟨hnd, fun m hm => (hfree m hm).1⟩
    · exact h.chains.chain q r hq
  · rcases hcall q r hq with ⟨hqp, hc⟩ | ⟨-, hq⟩
    · rcases hcall q' r' hq' with ⟨hqp', -⟩ | ⟨-, hq'⟩
      · rw [hqp, hqp']
      · rw [hc] at hm
        exact absurd hm (hother q' r' m hq' hm')
    · rcases hcall q' r' hq' with ⟨-, hc⟩ | ⟨-, hq'⟩
      · rw [hc] at hm'
        exact absurd hm' (hother q r m hq hm)
      · exact h.chains.once q q' r r' m hq hq' hm hm'
  · have hq' : (s.pc q).formed = some r := (hview Pc.formed rfl q).symm.trans hq
    exact (h.formed q r hq').congr (fun _ _ => rfl) rfl rfl
  · exact h.waits q r ((hview Pc.formed rfl q).symm.trans hq) ((hview Pc.posted rfl q).symm.trans hn)
  · have hqp : q ≠ p := by
      rintro rfl
      exact absurd (hself.symm.trans hq) fun he => by cases he
    exact h.bump q r ((Function.update_of_ne hqp _ _).symm.trans hq)
  · exact (hview Pc.posted rfl q).symm.trans hq
  · show (Function.update s.pc p _ q).posted = _ ∧ _ ↔ _
    rw [hview Pc.posted rfl]
    exact Iff.rfl

/-- `alloc3_desc` has failed. -/
theorem Inv.alloc_fail {desc : ℕ → virtq_desc} {pc : Fin n → Pc} (h : s.Inv)
    (hp : s.pc p = .alloc b sector write) (hdesc : ∀ i, s.free i = false → desc i = s.desc i)
    (hpc : Woken s.pc pc) :
    Inv ({ { s with desc := desc, pc := pc } with lock := none }.setPc p (.sleepFree b sector write)) := by
  have hpp : pc p = .alloc b sector write := by
    rcases hpc p with hw | hw <;> rw [hw, hp]
    rfl
  have hview : ∀ {α : Type} (f : Pc → α), f (.sleepFree b sector write) = f (.alloc b sector write) →
      (∀ y : Pc, f (y.wake .free) = f y) →
      ∀ q, f (Function.update pc p (.sleepFree b sector write) q) = f (s.pc q) :=
    fun f hf hw q => (view_same (f := f) (by rw [hpp, hf]) q).trans (hpc.view hw q)
  refine h.light (hview _ rfl fun _ => call_wake) (hview _ rfl fun _ => formed_wake)
    (hview _ rfl fun _ => posted_wake) (fun q r hq => ?_) (h.bufs_of fun q c hq => ?_) hdesc
    (h.lock_of (.inr (h.lock_eq (by rw [hp]; rfl))) (fun q hqp => ?_) ?_)
  · by_cases hqp : q = p
    · rw [hqp, Function.update_self] at hq
      cases hq
    · rw [Function.update_of_ne hqp] at hq
      rcases hpc q with hw | hw
      · exact hw.symm.trans hq
      · exact bump_of_wake (hw.symm.trans hq)
  · exact (hview Pc.buf rfl (fun _ => buf_wake) q).symm.trans hq
  · show (Function.update pc p _ q).holds = _
    rw [Function.update_of_ne hqp]
    exact hpc.view (fun _ => holds_wake) q
  · rw [Function.update_self]
    rfl

/-- Two calls have different chains. -/
theorem Chains.ne (h : s.Chains) (hp : (s.pc p).call = some r) (hq : (s.pc q).call = some r')
    (hqp : q ≠ p) {m m' : ℕ} (hm : m ∈ r.chain) (hm' : m' ∈ r'.chain) : m' ≠ m :=
  fun he => hqp (h.once q p r' r m' hq hp hm' (he ▸ hm))

theorem Inv.format (h : s.Inv) (hp : s.pc p = .format r) : ((s.format r).setPc p (.ring r)).Inv := by
  have hcallp : (s.pc p).call = some r := by rw [hp]; rfl
  have hself : Function.update s.pc p (.ring r) p = .ring r := Function.update_self _ _ _
  have hview : ∀ {α : Type} (f : Pc → α), f (.ring r) = f (.format r) →
      ∀ q, f (Function.update s.pc p (.ring r) q) = f (s.pc q) :=
    fun f hf => view_same (f := f) (by rw [hp, hf])
  obtain ⟨hnd, -⟩ := h.chains.chain p r hcallp
  simp only [Rw.chain, List.nodup_cons, List.mem_cons, List.not_mem_nil, or_false, not_or] at hnd
  obtain ⟨⟨hij, hik⟩, hjk, -⟩ := hnd
  have hbuf : ∀ q r', q ≠ p → (s.pc q).call = some r' → r'.b ≠ r.b := by
    intro q r' hqp hq he
    refine hqp (h.bufs q p r.b ?_ (buf_of_call hcallp))
    rw [buf_of_call hq, he]
  have hnp : ∀ q r', (s.pc q).posted = some r' → q ≠ p := by
    rintro q r' hq rfl
    rw [hp] at hq
    cases hq
  obtain ⟨pend, fl, seen, hqs⟩ := h.queues
  refine ⟨fun q => ?_, h.bufs_of fun q c hq => ?_, h.chains.congr rfl (hview Pc.call rfl),
    fun q r' hq => ?_, fun q r' hq hn => ?_, fun q r' hq => ?_, pend, fl, seen,
    hqs.congr ⟨fun q r' hq => ?_, fun q r' => ?_, fun q r' hq => ?_, ⟨rfl, rfl, rfl, rfl, rfl⟩,
      rfl, rfl, rfl, rfl, rfl⟩ hqs.avail⟩
  · exact (h.lock q).trans (by rw [← hview Pc.holds rfl q]; rfl)
  · exact (hview Pc.buf rfl q).symm.trans hq
  · by_cases hqp : q = p
    · subst hqp
      have he : some r = some r' := (congrArg Pc.formed hself).symm.trans hq
      cases he
      refine ⟨?_, ?_, ?_, ?_, ?_⟩
      · show Function.update (Function.update (Function.update s.desc r.i _) r.j _) r.k _ r.i = _
        rw [Function.update_of_ne hik, Function.update_of_ne hij, Function.update_self]
      · show Function.update (Function.update (Function.update s.desc r.i _) r.j _) r.k _ r.j = _
        rw [Function.update_of_ne hjk, Function.update_self]
      · exact Function.update_self _ _ _
      · exact Function.update_self _ _ _
      · exact Function.update_self _ _ _
    · have hq' : (s.pc q).formed = some r' :=
        (congrArg Pc.formed (Function.update_of_ne hqp _ _)).symm.trans hq
      have hne : ∀ m ∈ r'.chain, m ≠ r.i ∧ m ≠ r.j ∧ m ≠ r.k := fun m hm =>
        ⟨h.chains.ne hcallp (call_of_formed hq') hqp r.i_mem hm,
          h.chains.ne hcallp (call_of_formed hq') hqp r.j_mem hm,
          h.chains.ne hcallp (call_of_formed hq') hqp r.k_mem hm⟩
      refine (h.formed q r' hq').congr (fun m hm => ?_) ?_ ?_
      · obtain ⟨h1, h2, h3⟩ := hne m hm
        show Function.update (Function.update (Function.update s.desc r.i _) r.j _) r.k _ m = _
        rw [Function.update_of_ne h3, Function.update_of_ne h2, Function.update_of_ne h1]
      · exact Function.update_of_ne (hne _ r'.i_mem).1 _ _
      · exact Function.update_of_ne (hne _ r'.i_mem).1 _ _
  · by_cases hqp : q = p
    · subst hqp
      have he : some r = some r' := (congrArg Pc.formed hself).symm.trans hq
      cases he
      exact Function.update_self _ _ _
    · have hq' : (s.pc q).formed = some r' :=
        (congrArg Pc.formed (Function.update_of_ne hqp _ _)).symm.trans hq
      refine (Function.update_of_ne (hbuf q r' hqp (call_of_formed hq')) _ _).trans ?_
      exact h.waits q r' hq' ((hview Pc.posted rfl q).symm.trans hn)
  · have hqp : q ≠ p := by
      rintro rfl
      exact absurd (hself.symm.trans hq) fun he => by cases he
    exact h.bump q r' ((Function.update_of_ne hqp _ _).symm.trans hq)
  · exact (hview Pc.posted rfl q).symm.trans hq
  · show (Function.update s.pc p _ q).posted = _ ∧ Function.update s.bufDisk r.b true r'.b = _ ↔ _
    rw [hview Pc.posted rfl]
    refine and_congr_right fun hq => ?_
    rw [Function.update_of_ne (hbuf q r' (hnp q r' hq) (call_of_formed (formed_of_posted hq)))]
  · exact Function.update_of_ne (h.chains.ne hcallp (call_of_formed (formed_of_posted hq)) (hnp q r' hq)
      r.i_mem r'.i_mem) _ _

/-- The ring `avail` has room for one more call. -/
theorem Queues.room {pend fl seen : List (Ticket n)} (h : s.Queues pend fl seen) (hc : s.Chains)
    (hp : (s.pc p).call = some r) (hn : (s.pc p).posted = none) :
    (pend.map (·.2.i)).length < NUM := by
  have hmem : ∀ x ∈ pend, (s.pc x.1).posted = some x.2 := fun x hx =>
    ((h.mem x.1 x.2).mp (List.mem_append_left _ (List.mem_append_left _ hx))).1
  have hnd : ((p, r) :: pend).Nodup := by
    refine List.nodup_cons.mpr ⟨fun hx => ?_, (h.nodup.of_append_left).of_append_left⟩
    have he := hmem _ hx
    rw [hn] at he
    cases he
  have hlen := hc.length_le hnd fun x hx => by
    rcases List.mem_cons.mp hx with rfl | hx
    · exact hp
    · exact call_of_formed (formed_of_posted (hmem x hx))
  rw [List.length_cons] at hlen
  rw [List.length_map]
  exact hlen

theorem Inv.ring (h : s.Inv) (hp : s.pc p = .ring r) :
    Inv ({ s with avail := Function.update s.avail (s.availIdx % NUM) r.i }.setPc p (.bump r)) ∧
      ({ s with avail := Function.update s.avail (s.availIdx % NUM) r.i }.setPc p
        (.bump r)).unconsumed = s.unconsumed := by
  have hself : Function.update s.pc p (.bump r) p = .bump r := Function.update_self _ _ _
  have hview : ∀ {α : Type} (f : Pc → α), f (.bump r) = f (.ring r) →
      ∀ q, f (Function.update s.pc p (.bump r) q) = f (s.pc q) :=
    fun f hf => view_same (f := f) (by rw [hp, hf])
  obtain ⟨pend, fl, seen, hqs⟩ := h.queues
  have havail : Ring.Holds NUM (2 ^ 16) (Function.update s.avail (s.availIdx % NUM) r.i) s.last
      s.availIdx s.taken.length (pend.map (·.2.i)) := by
    have hroom := hqs.room (p := p) (r := r) h.chains (by rw [hp]; rfl) (by rw [hp]; rfl)
    have hpoke := hqs.avail.poke (x := r.i) (by norm_num) hroom
    have hfun : Function.update s.avail (s.availIdx % NUM) r.i =
        fun m => if m = s.availIdx % NUM then r.i else s.avail m := by
      funext m
      rw [Function.update_apply]
    rw [hfun]
    exact hpoke
  have hqs' : Queues ({ s with avail := Function.update s.avail (s.availIdx % NUM) r.i }.setPc p
      (.bump r)) pend fl seen := by
    refine hqs.congr ⟨fun q r' hq => ?_, fun q r' => ?_, fun _ _ _ => rfl, ⟨rfl, rfl, rfl, rfl, rfl⟩,
      rfl, rfl, rfl, rfl, rfl⟩ havail
    · exact (hview Pc.posted rfl q).symm.trans hq
    · show (Function.update s.pc p _ q).posted = _ ∧ _ ↔ _
      rw [hview Pc.posted rfl]
      exact Iff.rfl
  refine ⟨⟨fun q => ?_, h.bufs_of fun q c hq => ?_, h.chains.congr rfl (hview Pc.call rfl),
    fun q r' hq => ?_, fun q r' hq hn => ?_, fun q r' hq => ?_, pend, fl, seen, hqs'⟩, ?_⟩
  · exact (h.lock q).trans (by rw [← hview Pc.holds rfl q]; rfl)
  · exact (hview Pc.buf rfl q).symm.trans hq
  · exact (h.formed q r' ((hview Pc.formed rfl q).symm.trans hq)).congr (fun _ _ => rfl) rfl rfl
  · exact h.waits q r' ((hview Pc.formed rfl q).symm.trans hq) ((hview Pc.posted rfl q).symm.trans hn)
  · by_cases hqp : q = p
    · subst hqp
      have he : Pc.bump r = .bump r' := hself.symm.trans hq
      cases he
      exact Function.update_self _ _ _
    · have hq' : s.pc q = .bump r' := (Function.update_of_ne hqp _ _).symm.trans hq
      exact absurd (h.holds_unique (p := p) (by rw [hp]; rfl) (by rw [hq']; rfl)) hqp
  · rw [hqs'.unconsumed, hqs.unconsumed]

/-- What the queues tell about a process that is in none of them. -/
theorem Queues.ne {pend fl seen : List (Ticket n)} (h : s.Queues pend fl seen)
    (hn : (s.pc p).posted = none) {y : Ticket n} (hy : y ∈ pend ++ fl ++ seen) : y.1 ≠ p := by
  rintro rfl
  have hp := ((h.mem y.1 y.2).mp hy).1
  rw [hn] at hp
  cases hp

/-- The call joins the requests that the device has not read. -/
theorem Queues.publish {pend fl seen : List (Ticket n)} (h : s.Queues pend fl seen) (hc : s.Chains)
    (hp : s.pc p = .bump r) (hring : s.avail (s.availIdx % NUM) = r.i) (hb : s.bufDisk r.b = true) :
    Queues ({ s with availIdx := (s.availIdx + 1) % 2 ^ 16, made := s.made ++ [request r],
                     serial := Function.update s.serial p s.made.length }.setPc p (.wait r))
      (pend ++ [(p, r)]) fl seen := by
  have hn : (s.pc p).posted = none := by rw [hp]; rfl
  have hself : (Function.update s.pc p (.wait r) p).posted = some r := by
    rw [Function.update_self]
    rfl
  have hperm : (pend ++ [(p, r)] ++ fl ++ seen).Perm ((p, r) :: (pend ++ fl ++ seen)) := by
    simp only [List.append_assoc, List.singleton_append]
    exact List.perm_middle
  have hserial : ∀ y ∈ pend ++ fl ++ seen, Function.update s.serial p s.made.length y.1 = s.serial y.1 :=
    fun y hy => Function.update_of_ne (h.ne hn hy) _ _
  have hpend : ∀ y ∈ pend, y ∈ pend ++ fl ++ seen := fun y hy =>
    List.mem_append_left _ (List.mem_append_left _ hy)
  have hfl : ∀ y ∈ fl, y ∈ pend ++ fl ++ seen := fun y hy =>
    List.mem_append_left _ (List.mem_append_right _ hy)
  have hlen : s.made.length = s.taken.length + pend.length := by
    rw [h.made, List.length_append, List.length_map]
  refine ⟨?_, fun q r' => ?_, ?_, ?_, h.used, h.status, ?_, ?_, fun q r' hq => ?_, fun q r' hq h1 h2 => ?_,
    h.old.1, fun y hy => ?_⟩
  · rw [hperm.nodup_iff, List.nodup_cons]
    exact ⟨fun hm => h.ne hn hm rfl, h.nodup⟩
  · rw [hperm.mem_iff, List.mem_cons, h.mem]
    show _ ↔ (Function.update s.pc p (.wait r) q).posted = some r' ∧ _
    by_cases hqp : q = p
    · subst hqp
      rw [hself, hn]
      constructor
      · rintro (he | ⟨he, -⟩)
        · cases he
          exact ⟨rfl, hb⟩
        · cases he
      · rintro ⟨he, -⟩
        cases he
        exact .inl rfl
    · rw [Function.update_of_ne hqp]
      constructor
      · rintro (he | he)
        · cases he
          exact absurd rfl hqp
        · exact he
      · exact .inr
  · rw [List.map_append, List.map_singleton]
    exact h.avail.advance (by norm_num) (h.room hc (by rw [hp]; rfl) hn) hring
  · refine h.inflight.trans (List.map_congr_left fun y hy => ?_)
    show Job.mk (s.serial y.1) y.2.i (request y.2) =
      Job.mk (Function.update s.serial p s.made.length y.1) y.2.i (request y.2)
    rw [hserial y (hfl y hy)]
  · show s.made ++ [request r] = s.taken ++ (pend ++ [(p, r)]).map fun x => request x.2
    rw [h.made, List.map_append, List.map_singleton, List.append_assoc]
  · show (pend ++ [(p, r)]).map (fun x => Function.update s.serial p s.made.length x.1) =
      List.range' s.taken.length _
    rw [List.map_append, List.map_singleton, Function.update_self, List.length_append,
      List.length_singleton, List.range'_1_concat, hlen, ← h.serials]
    congr 1
    exact List.map_congr_left fun y hy => hlen ▸ hserial y (hpend y hy)
  · show (s.made ++ [request r])[Function.update s.serial p s.made.length q]? = some (request r')
    have hq' : (Function.update s.pc p (.wait r) q).posted = some r' := hq
    by_cases hqp : q = p
    · subst hqp
      rw [hself] at hq'
      cases hq'
      rw [Function.update_self, List.getElem?_concat_length]
    · rw [Function.update_of_ne hqp] at hq' ⊢
      have hmade := h.posted q r' hq'
      obtain ⟨hlt, -⟩ := List.getElem?_eq_some_iff.mp hmade
      rw [List.getElem?_append_left hlt]
      exact hmade
  · have hq' : (Function.update s.pc p (.wait r) q).posted = some r' := hq
    by_cases hqp : q = p
    · subst hqp
      rw [hself] at hq'
      cases hq'
      exact absurd (List.mem_append_right _ List.mem_cons_self) h1
    · rw [Function.update_of_ne hqp] at hq'
      show Function.update s.serial p s.made.length q ∈ s.done
      rw [Function.update_of_ne hqp]
      exact h.done q r' hq' (fun hm => h1 (List.mem_append_left _ hm)) h2
  · show Function.update s.serial p s.made.length y.1 < _
    rw [hserial y (hfl y hy)]
    exact h.old.2 y hy

theorem Inv.bumped (h : s.Inv) (hp : s.pc p = .bump r) :
    Inv ({ s with availIdx := (s.availIdx + 1) % 2 ^ 16, made := s.made ++ [request r],
                  serial := Function.update s.serial p s.made.length }.setPc p (.wait r)) ∧
      Keeps s ({ s with availIdx := (s.availIdx + 1) % 2 ^ 16, made := s.made ++ [request r],
                        serial := Function.update s.serial p s.made.length }.setPc p (.wait r)) := by
  have hview : ∀ {α : Type} (f : Pc → α), f (.wait r) = f (.bump r) →
      ∀ q, f (Function.update s.pc p (.wait r) q) = f (s.pc q) :=
    fun f hf => view_same (f := f) (by rw [hp, hf])
  obtain ⟨pend, fl, seen, hqs⟩ := h.queues
  have hqs' := hqs.publish h.chains hp (h.bump p r hp) (h.waits p r (by rw [hp]; rfl) (by rw [hp]; rfl))
  refine ⟨⟨fun q => ?_, h.bufs_of fun q c hq => ?_, h.chains.congr rfl (hview Pc.call rfl),
    fun q r' hq => ?_, fun q r' hq hn => ?_, fun q r' hq => ?_, _, fl, seen, hqs'⟩, .inl ?_⟩
  · exact (h.lock q).trans (by rw [← hview Pc.holds rfl q]; rfl)
  · exact (hview Pc.buf rfl q).symm.trans hq
  · exact (h.formed q r' ((hview Pc.formed rfl q).symm.trans hq)).congr (fun _ _ => rfl) rfl rfl
  · refine h.waits q r' ((hview Pc.formed rfl q).symm.trans hq) ?_
    by_cases hqp : q = p
    · rw [hqp, hp]
      rfl
    · exact (congrArg Pc.posted (Function.update_of_ne hqp _ _)).symm.trans hn
  · have hqp : q ≠ p := by
      rintro rfl
      exact absurd ((Function.update_self _ _ _).symm.trans hq) fun he => by cases he
    have hq' : s.pc q = .bump r' := (Function.update_of_ne hqp _ _).symm.trans hq
    exact absurd (h.holds_unique (p := p) (by rw [hp]; rfl) (by rw [hq']; rfl)) hqp
  · rw [hqs.unconsumed, hqs'.unconsumed, List.map_append]
    exact List.prefix_append _ _

/-- The call is over: its descriptors are free again. -/
theorem Inv.finish {desc : ℕ → virtq_desc} {pc : Fin n → Pc} (h : s.Inv) (hp : s.pc p = .wait r)
    (hb : s.bufDisk r.b = false) (hdesc : ∀ m, m ∉ r.chain → desc m = s.desc m)
    (hpc : Woken s.pc pc) :
    Inv ({ { s with infoB := Function.update s.infoB r.i none, desc := desc, pc := pc,
                    free := fun m => s.free m || decide (m ∈ r.chain) } with
            lock := none }.setPc p .idle) := by
  have hcallp : (s.pc p).call = some r := by rw [hp]; rfl
  have hself : Function.update pc p .idle p = .idle := Function.update_self _ _ _
  have hother : ∀ {α : Type} (f : Pc → α), (∀ y : Pc, f (y.wake .free) = f y) →
      ∀ q, q ≠ p → f (Function.update pc p .idle q) = f (s.pc q) := by
    intro α f hw q hqp
    rw [Function.update_of_ne hqp]
    exact hpc.view hw q
  have hsome : ∀ {α : Type} (f : Pc → Option α), f .idle = none → (∀ y : Pc, f (y.wake .free) = f y) →
      ∀ q y, f (Function.update pc p .idle q) = some y → q ≠ p ∧ f (s.pc q) = some y := by
    intro α f hf hw q y hq
    have hqp : q ≠ p := by
      rintro rfl
      rw [hself, hf] at hq
      cases hq
    exact ⟨hqp, (hother f hw q hqp).symm.trans hq⟩
  obtain ⟨pend, fl, seen, hqs⟩ := h.queues
  refine ⟨?_, h.bufs_of fun q c hq => ?_, ⟨fun m hm => ?_, fun q r' hq => ?_,
    fun q q' r' r'' m hq hq' => ?_⟩, fun q r' hq => ?_, fun q r' hq hn => ?_, fun q r' hq => ?_,
    pend, fl, seen, hqs.congr ⟨fun q r' hq => ?_, fun q r' => ?_, fun _ _ _ => rfl,
      ⟨rfl, rfl, rfl, rfl, rfl⟩, rfl, rfl, rfl, rfl, rfl⟩ hqs.avail⟩
  · refine h.lock_of (p := p) (.inr (h.lock_eq (by rw [hp]; rfl)))
      (fun q hqp => hother Pc.holds (fun _ => holds_wake) q hqp) ?_
    show none = if (Function.update pc p Pc.idle p).holds then _ else _
    rw [hself]
    rfl
  · exact (hsome Pc.buf rfl (fun _ => buf_wake) q c hq).2
  · show (s.free m || decide (m ∈ r.chain)) = false ↔ _
    rw [Bool.or_eq_false_iff, decide_eq_false_iff_not, h.chains.free m hm]
    constructor
    · rintro ⟨⟨q, r', hq, hr⟩, hnr⟩
      have hqp : q ≠ p := by
        rintro rfl
        rw [hcallp] at hq
        cases hq
        exact hnr hr
      exact ⟨q, r', (hother Pc.call (fun _ => call_wake) q hqp).trans hq, hr⟩
    · rintro ⟨q, r', hq, hr⟩
      obtain ⟨hqp, hq⟩ := hsome Pc.call rfl (fun _ => call_wake) q r' hq
      exact ⟨⟨q, r', hq, hr⟩, fun hm' => h.chains.ne hcallp hq hqp hm' hr rfl⟩
  · exact h.chains.chain q r' (hsome Pc.call rfl (fun _ => call_wake) q r' hq).2
  · exact h.chains.once q q' r' r'' m (hsome Pc.call rfl (fun _ => call_wake) q r' hq).2
      (hsome Pc.call rfl (fun _ => call_wake) q' r'' hq').2
  · obtain ⟨hqp, hq⟩ := hsome Pc.formed rfl (fun _ => formed_wake) q r' hq
    have hne : ∀ m ∈ r.chain, ∀ m' ∈ r'.chain, m' ≠ m := fun _ hm _ hm' =>
      h.chains.ne hcallp (call_of_formed hq) hqp hm hm'
    refine (h.formed q r' hq).congr (fun m hm => hdesc m fun hm' => hne m hm' m hm rfl) rfl ?_
    exact Function.update_of_ne (hne _ r.i_mem _ r'.i_mem) _ _
  · obtain ⟨hqp, hq⟩ := hsome Pc.formed rfl (fun _ => formed_wake) q r' hq
    exact h.waits q r' hq ((hother Pc.posted (fun _ => posted_wake) q hqp).symm.trans hn)
  · have hqp : q ≠ p := by
      rintro rfl
      exact absurd (hself.symm.trans hq) fun he => by cases he
    have hq' : pc q = .bump r' := (Function.update_of_ne hqp _ _).symm.trans hq
    rcases hpc q with hw | hw
    · exact h.bump q r' (hw.symm.trans hq')
    · exact h.bump q r' (bump_of_wake (hw.symm.trans hq'))
  · exact (hsome Pc.posted rfl (fun _ => posted_wake) q r' hq).2
  · show (Function.update pc p _ q).posted = _ ∧ _ ↔ _
    by_cases hqp : q = p
    · subst hqp
      rw [hself, hp]
      refine ⟨fun he => (by cases he.1), ?_⟩
      rintro ⟨he, he'⟩
      cases he
      rw [hb] at he'
      cases he'
    · rw [hother Pc.posted (fun _ => posted_wake) q hqp]
      exact Iff.rfl

/-! ## The interrupt handler -/

/-- **A round of `virtio_disk_intr`**: the entry it reads belongs to a call that waits, which is woken
up. -/
theorem Inv.handle (h : s.Inv) (hlock : s.lock = some .intr) :
    ∃ t, s.handle = .ok t ∧ t.Inv ∧ t.unconsumed = s.unconsumed := by
  obtain ⟨pend, fl, seen, hqs⟩ := h.queues
  obtain ⟨m, hused⟩ := hqs.used
  unfold Disk.handle
  by_cases hidx : s.used_idx = s.usedIdx
  · rw [if_neg (not_not.mpr hidx)]
    refine ⟨_, rfl, h.light (fun _ => rfl) (fun _ => rfl) (fun _ => rfl) (fun _ _ => id) h.bufs
      (fun _ _ => rfl) fun p => ?_, rfl⟩
    rw [← h.lock, hlock]
    exact ⟨fun he => (by cases he), fun he => by cases he⟩
  rw [if_pos hidx]
  cases seen with
  | nil => exact absurd ((hused.eq_iff (by norm_num)).mpr rfl) hidx
  | cons x seen =>
  obtain ⟨p, r⟩ := x
  obtain ⟨hcell, hpop⟩ := hused.pop (by norm_num)
  have hcell : s.used (s.used_idx % NUM) = r.i := hcell
  have hx : (p, r) ∈ pend ++ fl ++ (p, r) :: seen := List.mem_append_right _ List.mem_cons_self
  obtain ⟨hp, hb⟩ := (hqs.mem p r).mp hx
  have hform := h.formed p r (formed_of_posted hp)
  have hcallp := call_of_formed (formed_of_posted hp)
  dsimp only
  rw [hcell, if_neg (not_not.mpr (hqs.status _ List.mem_cons_self)), hform.infoB]
  refine ⟨_, rfl, ?_, rfl⟩
  have hbuf : ∀ q r', q ≠ p → (s.pc q).call = some r' → r'.b ≠ r.b := by
    intro q r' hqp hq he
    refine hqp (h.bufs q p r.b ?_ (buf_of_call hcallp))
    rw [buf_of_call hq, he]
  have hperm : (pend ++ fl ++ (p, r) :: seen).Perm ((p, r) :: (pend ++ fl ++ seen)) := List.perm_middle
  have hnd := hperm.nodup_iff.mp hqs.nodup
  rw [List.nodup_cons] at hnd
  have hview : ∀ {α : Type} (f : Pc → α), (∀ y : Pc, f (y.wake (.buf r.b)) = f y) →
      ∀ q, f ((s.pc q).wake (.buf r.b)) = f (s.pc q) := fun f hf q => hf _
  refine ⟨fun q => ?_, h.bufs_of fun q c hq => ?_, h.chains.congr rfl (hview Pc.call fun _ => call_wake),
    fun q r' hq => ?_, fun q r' hq hn => ?_, fun q r' hq => h.bump q r' (bump_of_wake hq),
    pend, fl, seen, hnd.2, fun q r' => ?_, hqs.avail, hqs.inflight, ⟨_, hpop⟩,
    fun y hy => hqs.status y (List.mem_cons_of_mem _ hy), hqs.made, hqs.serials, fun q r' hq => ?_,
    fun q r' hq h1 h2 => ?_, hqs.old⟩
  · exact (h.lock q).trans (by rw [← hview Pc.holds (fun _ => holds_wake) q]; rfl)
  · exact (hview Pc.buf (fun _ => buf_wake) q).symm.trans hq
  · exact (h.formed q r' ((hview Pc.formed (fun _ => formed_wake) q).symm.trans hq)).congr
      (fun _ _ => rfl) rfl rfl
  · have hq' := (hview Pc.formed (fun _ => formed_wake) q).symm.trans hq
    have hn' := (hview Pc.posted (fun _ => posted_wake) q).symm.trans hn
    have hqp : q ≠ p := by
      rintro rfl
      rw [hp] at hn'
      cases hn'
    exact (Function.update_of_ne (hbuf q r' hqp (call_of_formed hq')) _ _).trans (h.waits q r' hq' hn')
  · show (q, r') ∈ pend ++ fl ++ seen ↔
      ((s.pc q).wake (.buf r.b)).posted = some r' ∧ Function.update s.bufDisk r.b false r'.b = true
    rw [posted_wake]
    by_cases hqp : q = p
    · subst hqp
      constructor
      · intro hm
        have he : some r = some r' := by
          rw [← hp]
          exact ((hqs.mem q r').mp (hperm.mem_iff.mpr (List.mem_cons_of_mem _ hm))).1
        cases he
        exact absurd hm hnd.1
      · rintro ⟨he, hb'⟩
        rw [hp] at he
        cases he
        rw [Function.update_self] at hb'
        cases hb'
    · have hmem : (q, r') ∈ pend ++ fl ++ seen ↔ (q, r') ∈ pend ++ fl ++ (p, r) :: seen := by
        rw [hperm.mem_iff, List.mem_cons]
        exact ⟨.inr, fun he => he.resolve_left fun he => hqp (by cases he; rfl)⟩
      rw [hmem, hqs.mem]
      refine and_congr_right fun hq => ?_
      rw [Function.update_of_ne (hbuf q r' hqp (call_of_formed (formed_of_posted hq)))]
  · exact hqs.posted q r' ((hview Pc.posted (fun _ => posted_wake) q).symm.trans hq)
  · exact hqs.done q r' ((hview Pc.posted (fun _ => posted_wake) q).symm.trans hq) h1 h2

/-! ## The device -/

theorem Inv.consume (h : s.Inv) (hidx : s.last ≠ s.availIdx) :
    ∃ req, s.decode (s.avail (s.last % NUM)) = some req ∧
      ∀ t, t = { s with last := (s.last + 1) % 2 ^ 16,
                        inflight := s.inflight ++ [⟨s.taken.length, s.avail (s.last % NUM), req⟩],
                        taken := s.taken ++ [req] } → t.Inv ∧ Keeps s t := by
  obtain ⟨pend, fl, seen, hqs⟩ := h.queues
  cases pend with
  | nil => exact absurd ((hqs.avail.eq_iff (by norm_num)).mpr rfl) hidx
  | cons x pend =>
  obtain ⟨p, r⟩ := x
  obtain ⟨hcell, hpop⟩ := hqs.avail.pop (by norm_num)
  have hcell : s.avail (s.last % NUM) = r.i := hcell
  have hp := ((hqs.mem p r).mp (List.mem_append_left _ (List.mem_append_left _ List.mem_cons_self))).1
  refine ⟨request r, by rw [hcell]; exact (h.formed p r (formed_of_posted hp)).decode, ?_⟩
  rintro t rfl
  have hserials := hqs.serials
  rw [List.map_cons, List.length_cons, List.range'_succ, List.cons.injEq] at hserials
  have hjob : s.job (p, r) = ⟨s.taken.length, s.avail (s.last % NUM), request r⟩ := by
    rw [job, hserials.1, hcell]
  have hperm : (pend ++ (fl ++ [(p, r)]) ++ seen).Perm ((p, r) :: pend ++ fl ++ seen) := by
    simp only [List.append_assoc, List.cons_append]
    rw [← List.append_assoc pend fl, ← List.append_assoc pend fl]
    exact List.perm_middle
  have hqs' : Queues { s with
      last := (s.last + 1) % 2 ^ 16,
      inflight := s.inflight ++ [⟨s.taken.length, s.avail (s.last % NUM), request r⟩],
      taken := s.taken ++ [request r] } pend (fl ++ [(p, r)]) seen := by
    refine ⟨hperm.nodup_iff.mpr hqs.nodup, fun q r' => hperm.mem_iff.trans (hqs.mem q r'), ?_, ?_,
      hqs.used, hqs.status, ?_, ?_, hqs.posted, fun q r' hq h1 h2 => ?_, fun k hk => ?_, fun y hy => ?_⟩
    · show Ring.Holds _ _ _ _ _ (s.taken ++ [request r]).length _
      rw [List.length_append, List.length_singleton]
      exact hpop
    · show s.inflight ++ [_] = (fl ++ [(p, r)]).map s.job
      rw [List.map_append, List.map_singleton, hjob, hqs.inflight]
    · refine hqs.made.trans ?_
      show _ = s.taken ++ [request r] ++ pend.map fun x => request x.2
      rw [List.append_assoc]
      rfl
    · show _ = List.range' (s.taken ++ [request r]).length _
      rw [List.length_append, List.length_singleton]
      exact hserials.2
    · refine hqs.done q r' hq (fun hm => ?_) fun hm => h2 (List.mem_append_left _ hm)
      rcases List.mem_cons.mp hm with he | hm
      · exact h2 (List.mem_append_right _ (by rw [he]; exact List.mem_cons_self))
      · exact h1 hm
    · have hlt := hqs.old.1 k hk
      show k < (s.taken ++ [request r]).length
      rw [List.length_append, List.length_singleton]
      omega
    · show s.serial y.1 < (s.taken ++ [request r]).length
      rw [List.length_append, List.length_singleton]
      rcases List.mem_append.mp hy with hy | hy
      · have hlt := hqs.old.2 y hy
        omega
      · rw [List.mem_singleton.mp hy, hserials.1]
        exact Nat.lt_succ_self _
  refine ⟨⟨h.lock, h.bufs, h.chains.congr rfl fun _ => rfl, fun q r' hq => ?_, h.waits, h.bump,
    pend, _, seen, hqs'⟩, .inr ⟨_, ?_, rfl⟩⟩
  · exact (h.formed q r' hq).congr (fun _ _ => rfl) rfl rfl
  · rw [hqs.unconsumed, hqs'.unconsumed, hcell]
    rfl

theorem Inv.complete {job : Job} (h : s.Inv) (hk : s.inflight[k]? = some job) :
    Inv { s with inflight := s.inflight.eraseIdx k,
                 infoStatus := Function.update s.infoStatus job.req.status 0,
                 used := Function.update s.used (s.usedIdx % NUM) job.head,
                 usedIdx := (s.usedIdx + 1) % 2 ^ 16,
                 done := s.done ++ [job.serial] } := by
  obtain ⟨pend, fl, seen, hqs⟩ := h.queues
  rw [hqs.inflight, List.getElem?_map, Option.map_eq_some_iff] at hk
  obtain ⟨⟨p, r⟩, hk, rfl⟩ := hk
  obtain ⟨hlt, hget⟩ := List.getElem?_eq_some_iff.mp hk
  have hfl : fl.Perm ((p, r) :: fl.eraseIdx k) := by
    rw [← hget]
    exact (List.getElem_cons_eraseIdx_perm hlt).symm
  have hperm : (pend ++ fl.eraseIdx k ++ (seen ++ [(p, r)])).Perm (pend ++ fl ++ seen) := by
    have h1 : (pend ++ fl.eraseIdx k ++ (seen ++ [(p, r)])).Perm
        ((p, r) :: (pend ++ fl.eraseIdx k ++ seen)) := by
      rw [← List.append_assoc]
      exact List.perm_append_singleton _ _
    have h2 : ((p, r) :: (pend ++ fl.eraseIdx k)).Perm (pend ++ fl) :=
      List.perm_middle.symm.trans (hfl.symm.append_left pend)
    exact h1.trans (h2.append_right seen)
  have hx : (p, r) ∈ pend ++ fl ++ seen :=
    List.mem_append_left _ (List.mem_append_right _ (hfl.mem_iff.mpr List.mem_cons_self))
  obtain ⟨m, hused⟩ := hqs.used
  have hmem : ∀ y ∈ seen ++ [(p, r)], (s.pc y.1).posted = some y.2 := fun y hy =>
    ((hqs.mem y.1 y.2).mp (hperm.mem_iff.mp (List.mem_append_right _ hy))).1
  have hroom : (seen.map (·.2.i)).length < NUM := by
    have hnd : (seen ++ [(p, r)]).Nodup := (hperm.nodup_iff.mpr hqs.nodup).of_append_right
    have hlen := h.chains.length_le hnd fun y hy => call_of_formed (formed_of_posted (hmem y hy))
    rw [List.length_append, List.length_singleton] at hlen
    rw [List.length_map]
    exact hlen
  have hfun : Function.update s.used (s.usedIdx % NUM) r.i =
      fun i => if i = s.usedIdx % NUM then r.i else s.used i := by
    funext i
    rw [Function.update_apply]
  refine ⟨h.lock, h.bufs, h.chains.congr rfl fun _ => rfl, fun q r' hq => ?_, h.waits, h.bump,
    pend, fl.eraseIdx k, seen ++ [(p, r)], hperm.nodup_iff.mpr hqs.nodup,
    fun q r' => hperm.mem_iff.trans (hqs.mem q r'), hqs.avail, ?_, ⟨m, ?_⟩, fun y hy => ?_, hqs.made,
    hqs.serials, hqs.posted, fun q r' hq h1 h2 => ?_, fun i hi => ?_, fun y hy => ?_⟩
  · exact (h.formed q r' hq).congr (fun _ _ => rfl) rfl rfl
  · show s.inflight.eraseIdx k = (fl.eraseIdx k).map s.job
    rw [hqs.inflight, List.eraseIdx_map]
  · show Ring.Holds _ _ (Function.update s.used (s.usedIdx % NUM) r.i) _ _ _ _
    rw [hfun, List.map_append]
    exact hused.push (by norm_num) hroom
  · show Function.update s.infoStatus r.i 0 y.2.i = 0
    by_cases hi : y.2.i = r.i
    · rw [hi, Function.update_self]
    · rw [Function.update_of_ne hi]
      rcases List.mem_append.mp hy with hy | hy
      · exact hqs.status y hy
      · rw [List.mem_singleton.mp hy] at hi
        exact absurd rfl hi
  · show s.serial q ∈ s.done ++ [s.serial p]
    by_cases hqr : (q, r') = (p, r)
    · cases hqr
      exact List.mem_append_right _ List.mem_cons_self
    · refine List.mem_append_left _ (hqs.done q r' hq h1 fun hm => ?_)
      rcases List.mem_cons.mp (hfl.mem_iff.mp hm) with he | hm
      · exact hqr he
      · exact h2 hm
  · rcases List.mem_append.mp hi with hi | hi
    · exact hqs.old.1 i hi
    · rw [List.mem_singleton.mp hi]
      exact hqs.old.2 (p, r) (hfl.mem_iff.mpr List.mem_cons_self)
  · exact hqs.old.2 y (hfl.mem_iff.mpr (List.mem_cons_of_mem _ hy))

/-! ## Runs -/

/-- Only a call whose buffer the device is done with returns. -/
def Returns (s t : Disk n) : Prop :=
  ∀ p, s.pc p ≠ .idle → t.pc p = .idle → ∃ r, s.pc p = .wait r ∧ s.bufDisk r.b = false

theorem idle_of_wake {pc : Pc} {ch : Chan} (h : pc.wake ch = .idle) : pc = .idle := by
  cases pc with
  | sleepFree b sector write =>
    simp only [Pc.wake] at h
    split_ifs at h
  | sleepBuf r =>
    simp only [Pc.wake] at h
    split_ifs at h
  | _ => exact h

/-- Process `p` goes on, and others are woken up. -/
theorem Returns.of_update {pc : Fin n → Pc} (hpc : ∀ q, pc q = s.pc q ∨ ∃ ch, pc q = (s.pc q).wake ch)
    (hx : x = .idle → ∃ r, s.pc p = .wait r ∧ s.bufDisk r.b = false)
    (ht : t.pc = Function.update pc p x) : Returns s t := by
  intro q hq hidle
  rw [ht] at hidle
  by_cases hqp : q = p
  · rw [hqp, Function.update_self] at hidle
    rw [hqp]
    exact hx hidle
  · rw [Function.update_of_ne hqp] at hidle
    rcases hpc q with hs | ⟨ch, hs⟩
    · exact absurd (hs.symm.trans hidle) hq
    · exact absurd (idle_of_wake (hs.symm.trans hidle)) hq

theorem Returns.of_move {pc : Fin n → Pc} (hpc : ∀ q, pc q = s.pc q ∨ ∃ ch, pc q = (s.pc q).wake ch)
    (ht : t.pc = pc) : Returns s t := by
  intro q hq hidle
  rw [ht] at hidle
  rcases hpc q with hs | ⟨ch, hs⟩
  · exact absurd (hs.symm.trans hidle) hq
  · exact absurd (idle_of_wake (hs.symm.trans hidle)) hq

/-- What a step does: no panic, and a good state. -/
def Good (s : Disk n) (res : Except Panic (Disk n)) : Prop :=
  ∃ t, res = .ok t ∧ t.Inv ∧ Keeps s t ∧ Returns s t

/-- **A step of a call.** -/
theorem Inv.run (h : s.Inv) (hr : s.run p = some res) : Good s res := by
  have hsame : ∀ q, s.pc q = s.pc q ∨ ∃ ch, s.pc q = (s.pc q).wake ch := fun _ => .inl rfl
  unfold Disk.run at hr
  cases hp : s.pc p with
  | idle => rw [hp] at hr; cases hr
  | sleepFree b sector write => rw [hp] at hr; cases hr
  | sleepBuf r => rw [hp] at hr; cases hr
  | start b sector write =>
    rw [hp] at hr
    dsimp only at hr
    split_ifs at hr with hlock
    cases hr
    refine ⟨_, rfl, h.move ?_ (fun r he => by cases he) (.inl hlock) rfl, .of_eq rfl,
      .of_update hsame (fun he => by cases he) rfl⟩
    rw [hp]
    exact ⟨rfl, rfl, rfl, rfl⟩
  | alloc b sector write =>
    rw [hp] at hr
    rcases s.alloc3_desc_cases with ⟨i, j, k, hnd, hfree, he⟩ | ⟨desc, pc, he, hdesc, hpc⟩
    · rw [he] at hr
      cases hr
      exact ⟨_, rfl, h.alloc hp hnd hfree, .of_eq rfl, .of_update hsame (fun he => by cases he) rfl⟩
    · rw [he] at hr
      cases hr
      exact ⟨_, rfl, h.alloc_fail hp hdesc hpc, .of_eq rfl,
        .of_update (fun q => (hpc q).imp id fun hw => ⟨_, hw⟩) (fun he => by cases he) rfl⟩
  | format r =>
    rw [hp] at hr
    cases hr
    exact ⟨_, rfl, h.format hp, .of_eq rfl, .of_update hsame (fun he => by cases he) rfl⟩
  | ring r =>
    rw [hp] at hr
    cases hr
    obtain ⟨hinv, hu⟩ := h.ring hp
    exact ⟨_, rfl, hinv, .of_eq hu, .of_update hsame (fun he => by cases he) rfl⟩
  | bump r =>
    rw [hp] at hr
    cases hr
    obtain ⟨hinv, hk⟩ := h.bumped hp
    exact ⟨_, rfl, hinv, hk, .of_update hsame (fun he => by cases he) rfl⟩
  | wait r =>
    rw [hp] at hr
    dsimp only at hr
    have hlock := h.lock_eq (p := p) (by rw [hp]; rfl)
    split_ifs at hr with hb
    · cases hr
      refine ⟨_, rfl, h.move ?_ (fun r he => by cases he) (.inr hlock) rfl, .of_eq rfl,
        .of_update hsame (fun he => by cases he) rfl⟩
      rw [hp]
      exact ⟨rfl, rfl, rfl, rfl⟩
    · have hb' : s.bufDisk r.b = false := Bool.eq_false_iff.mpr hb
      have hcall : (s.pc p).call = some r := by rw [hp]; rfl
      obtain ⟨desc, pc, he, hdesc, hpc⟩ := free_chain_ok (h.formed p r (by rw [hp]; rfl))
        (h.chains.chain p r hcall).1 (fun m hm => h.chains.not_free hcall hm) none
      rw [he] at hr
      cases hr
      exact ⟨_, rfl, h.finish hp hb' hdesc hpc, .of_eq rfl,
        .of_update (fun q => (hpc q).imp id fun hw => ⟨_, hw⟩) (fun _ => ⟨r, hp, hb'⟩) rfl⟩
  | woken r =>
    rw [hp] at hr
    dsimp only at hr
    split_ifs at hr with hlock
    cases hr
    refine ⟨_, rfl, h.move ?_ (fun r he => by cases he) (.inl hlock) rfl, .of_eq rfl,
      .of_update hsame (fun he => by cases he) rfl⟩
    rw [hp]
    exact ⟨rfl, rfl, rfl, rfl⟩

/-- The buffers of the calls are distinct. -/
def Distinct (s : Disk n) : Op n → Prop
  | .rw _ b _ _ => ∀ q, (s.pc q).buf ≠ some b
  | _ => True

/-- **Every step** succeeds and keeps the invariant. -/
theorem Inv.step {e : Op n} (h : s.Inv) (hd : Distinct s e) (hr : s.step e = some res) :
    Good s res := by
  have hsame : ∀ q, s.pc q = s.pc q ∨ ∃ ch, s.pc q = (s.pc q).wake ch := fun _ => .inl rfl
  cases e with
  | rw p b blockno write =>
    simp only [Disk.step] at hr
    split_ifs at hr with hp
    cases hr
    exact ⟨_, rfl, h.rw hp hd, .of_eq rfl, .of_update hsame (fun he => by cases he) rfl⟩
  | run p => exact h.run hr
  | intr =>
    simp only [Disk.step] at hr
    split_ifs at hr with hlock
    cases hr
    refine ⟨_, rfl, h.light (fun _ => rfl) (fun _ => rfl) (fun _ => rfl) (fun _ _ => id) h.bufs
      (fun _ _ => rfl) fun p => ?_, .of_eq rfl, .of_move hsame rfl⟩
    rw [← h.lock, hlock]
    exact ⟨fun he => (by cases he), fun he => by cases he⟩
  | handle =>
    simp only [Disk.step] at hr
    split_ifs at hr with hlock
    cases hr
    obtain ⟨t, ht, hinv, hu⟩ := h.handle hlock
    refine ⟨t, ht, hinv, .of_eq hu, ?_⟩
    unfold Disk.handle at ht
    dsimp only at ht
    split_ifs at ht
    · split at ht
      · cases ht
      · cases ht
        exact .of_move (fun q => .inr ⟨_, rfl⟩) rfl
    · cases ht
      exact .of_move hsame rfl
  | consume =>
    simp only [Disk.step] at hr
    split_ifs at hr with hidx
    obtain ⟨req, hreq, ht⟩ := h.consume hidx
    rw [hreq] at hr
    cases hr
    obtain ⟨hinv, hk⟩ := ht _ rfl
    exact ⟨_, rfl, hinv, hk, .of_move hsame rfl⟩
  | complete k =>
    simp only [Disk.step, Option.map_eq_some_iff] at hr
    obtain ⟨job, hk, rfl⟩ := hr
    exact ⟨_, rfl, h.complete hk, .of_eq rfl, .of_move hsame rfl⟩

/-- A call that the device is done with has had its own request completed. -/
theorem Inv.completed (h : s.Inv) (hp : (s.pc p).posted = some r) (hb : s.bufDisk r.b = false) :
    s.serial p ∈ s.done ∧ s.taken[s.serial p]? = some (request r) := by
  obtain ⟨pend, fl, seen, hqs⟩ := h.queues
  have hnot : (p, r) ∉ pend ++ fl ++ seen := by
    rw [hqs.mem, hb]
    exact fun he => by cases he.2
  rw [List.mem_append, List.mem_append, not_or, not_or] at hnot
  have hdone := hqs.done p r hp hnot.1.1 hnot.1.2
  refine ⟨hdone, ?_⟩
  have hmade := hqs.posted p r hp
  rw [hqs.made, List.getElem?_append_left (hqs.old.1 _ hdone)] at hmade
  exact hmade

/-- **The disk driver matches completions to requests.**  Every descriptor is free or in the chain of
one call, which has three; no entry of the ring `avail` is overwritten before the device has read it;
a call returns when the device has completed the request made for it; there are no panics; and
without calls all descriptors are free. -/
theorem completions_match (h : Runs.Steps step Distinct (virtio_disk_init : Disk n) s) :
    (∀ i, i < NUM → s.free i = true ∧ (∀ p r, (s.pc p).call = some r → i ∉ r.chain) ∨
      s.free i = false ∧ ∃! p, ∃ r, (s.pc p).call = some r ∧ i ∈ r.chain) ∧
    (∀ p r, (s.pc p).call = some r → [r.i, r.j, r.k].Nodup ∧ ∀ i ∈ [r.i, r.j, r.k], i < NUM) ∧
    (∀ e res, Distinct s e → s.step e = some res →
      ∃ t, res = .ok t ∧ Keeps s t ∧ ∀ p, s.pc p ≠ .idle → t.pc p = .idle →
        ∃ r, s.pc p = .wait r ∧ s.serial p ∈ s.done ∧
          s.taken[s.serial p]? = some (request r)) ∧
    ((∀ p, s.pc p = .idle) → ∀ i, i < NUM → s.free i = true) := by
  have hinv : s.Inv := h.invariant (I := Inv) .init fun s e t hs hd he => by
    obtain ⟨u, hu, hinv, -⟩ := hs.step hd he
    cases hu
    exact hinv
  have hfree : ∀ i, i < NUM → (∀ p r, (s.pc p).call = some r → i ∉ r.chain) → s.free i = true := by
    intro i hi hno
    rw [← Bool.not_eq_false, hinv.chains.free i hi]
    rintro ⟨p, r, hp, hm⟩
    exact hno p r hp hm
  refine ⟨fun i hi => ?_, fun p r hp => hinv.chains.chain p r hp, fun e res hd he => ?_,
    fun hidle i hi => hfree i hi fun p r hp => ?_⟩
  · by_cases hex : ∃ p r, (s.pc p).call = some r ∧ i ∈ r.chain
    · obtain ⟨p, r, hp, hm⟩ := hex
      refine .inr ⟨(hinv.chains.free i hi).mpr ⟨p, r, hp, hm⟩, p, ⟨r, hp, hm⟩, ?_⟩
      rintro q ⟨r', hq, hm'⟩
      exact hinv.chains.once q p r' r i hq hp hm' hm
    · have hno : ∀ p r, (s.pc p).call = some r → i ∉ r.chain := fun p r hp hm => hex ⟨p, r, hp, hm⟩
      exact .inl ⟨hfree i hi hno, hno⟩
  · obtain ⟨t, ht, -, hk, hret⟩ := hinv.step hd he
    refine ⟨t, ht, hk, fun p hp hidle => ?_⟩
    obtain ⟨r, hr, hb⟩ := hret p hp hidle
    exact ⟨r, hr, hinv.completed (by rw [hr]; rfl) hb⟩
  · rw [hidle p] at hp
    cases hp

instance : ∀ (s : Disk n) e, Decidable (Distinct s e)
  | s, .rw _ b _ _ => inferInstanceAs (Decidable (∀ q, (s.pc q).buf ≠ some b))
  | _, .run _ | _, .intr | _, .handle | _, .consume | _, .complete _ => isTrue trivial

/-- Two calls, completed in the other order. -/
theorem completions_match_run : ∃ s : Disk 3,
    Runs.Steps step Distinct virtio_disk_init s ∧
    (s.done = [1, 0] ∧ ∀ p, s.pc p = .idle) ∧ ∀ i, i < NUM → s.free i = true := by
  obtain ⟨s, hs, hdone, hidle⟩ := Runs.Steps.of_any (P := Distinct)
    (Q := fun s : Disk 3 => s.done = [1, 0] ∧ ∀ p, s.pc p = .idle)
    ([.rw 0 5 33 true, .rw 1 6 34 false] ++ List.replicate 6 (.run 0) ++ List.replicate 6 (.run 1) ++
      [.consume, .consume, .complete 1, .complete 0, .intr, .handle, .handle, .handle,
        .run 1, .run 1, .run 0, .run 0])
    (by decide +kernel :
      (Runs.exec step Distinct (virtio_disk_init : Disk 3) _).any _ = true)
  exact ⟨s, hs, ⟨hdone, hidle⟩, (completions_match hs).2.2.2 hidle⟩

end Xv6.VirtioDisk.Disk
